import Orchids.Lib.Except
import Orchids.Mod.Syslog

/-!
# The values of the tokens of `snare.l`

The actions of the date and of the permissions, for the text that the scanner matched. A read behind
the text is a crash. The `struct tm` of the date is not initialised, and `mktime` is a parameter.

* `DateText`, `PermText`: the texts of the two patterns.
* `DateOfText`: the value of a date is the time that the text names, whatever the structure had.
* `PermOfText`: the permissions are those that the text shows.
* `tokens_iff`: the texts for which it is so.
-/

namespace Orchids

namespace Snare

/-- `snaretext[i]`, in the matched text. -/
def charAt (text : CStr) (i : Nat) : Except Reject UInt8 :=
  match text[i]? with
  | some c => .ok c
  | none => .error (.crash .overread)

/-! ## The date -/

/-- What `mktime` reads of a `struct tm`. -/
structure Tm where
  sec : Int
  min : Int
  hour : Int
  mday : Int
  mon : Int
  year : Int
  isdst : Int
  deriving DecidableEq

/-- The `switch` on the letters of the month. -/
def setMonth (text : CStr) (t : Tm) : Except Reject Tm := do
  match Char.ofNat (← charAt text 4).toNat with
  | 'A' =>
    match Char.ofNat (← charAt text 5).toNat with
    | 'u' => return { t with mon := 7 }
    | 'v' => return { t with mon := 3 }
    | _ => return t
  | 'D' => return { t with mon := 11 }
  | 'F' => return { t with mon := 1 }
  | 'J' =>
    if (← charAt text 5) = 97 then return { t with mon := 0 }
    else if (← charAt text 6) = 108 then return { t with mon := 6 }
    else if (← charAt text 6) = 110 then return { t with mon := 5 }
    else return t
  | 'M' =>
    match Char.ofNat (← charAt text 6).toNat with
    | 'r' => return { t with mon := 2 }
    | 'y' => return { t with mon := 4 }
    | _ => return t
  | 'N' => return { t with mon := 10 }
  | 'O' => return { t with mon := 9 }
  | 'S' => return { t with mon := 8 }
  | _ => return t

/-- `snaretext[i] - '0'` -/
def digitAt (text : CStr) (i : Nat) : Except Reject Int := do return (← charAt text i).toNat - 48

/-- The number of two digits. -/
def twoDigits (text : CStr) (i : Nat) : Except Reject Int := do
  let d ← digitAt text i
  let d' ← digitAt text (i + 1)
  return d * 10 + d'

/-- The day, where the first digit may be a blank. -/
def dayAt (text : CStr) : Except Reject Int := do
  if (← charAt text 8) ≠ 32 then return (← digitAt text 8) * 10 + (← digitAt text 9)
  else digitAt text 9

/-- The action of the date, up to `mktime`, where `t` is what the structure has. -/
def setDate (text : CStr) (t : Tm) : Except Reject Tm := do
  let t ← setMonth text t
  let mday ← dayAt text
  let hour ← twoDigits text 11
  let min ← twoDigits text 14
  let sec ← twoDigits text 17
  let year := (← digitAt text 20) * 1000 + (← digitAt text 21) * 100 + (← digitAt text 22) * 10 +
    (← digitAt text 23) - 1900
  return { t with mday, hour, min, sec, year }

/-- `snarelval.time` -/
def dateValue (mktime : Tm → BitVec 64) (t : Tm) (text : CStr) : Except Reject (BitVec 64) := do
  let t ← setDate text t
  return mktime t

/-! ## The permissions -/

/-- The bits for these letters, from the one at `i` on. -/
def permBits (text : CStr) : Nat → CStr → Except Reject (List Bool)
  | _, [] => return []
  | i, c :: letters => do
    let b ← charAt text i
    let bits ← permBits text (i + 1) letters
    return (b == c) :: bits

/-- `snarelval.mode`: which bits are set, from `S_IRUSR` to `S_IXOTH`. -/
def unixPerm (text : CStr) : Except Reject (List Bool) := permBits text 0 (ascii "rwxrwxrwx")

/-! ## The patterns -/

def weekdays : List CStr := ["Mon", "Tue", "Wed", "Thu", "Fri", "Dat", "Sun"].map ascii

def patternMonths : List CStr :=
  ["Jan", "Feb", "Mar", "Apr", "May", "Jun", "Jui", "Aug", "Sep", "Oct", "Nov", "Dec"].map ascii

/-- The parts of a text of the `DATE` pattern. -/
structure DateText where
  weekday : CStr
  month : CStr
  day : UInt8 × UInt8
  hour : UInt8 × UInt8
  min : UInt8 × UInt8
  sec : UInt8 × UInt8
  year : UInt8 × UInt8 × UInt8 × UInt8

namespace DateText

def text (d : DateText) : CStr :=
  d.weekday ++ 32 :: (d.month ++ [32, d.day.1, d.day.2, 32, d.hour.1, d.hour.2, 58, d.min.1, d.min.2,
    58, d.sec.1, d.sec.2, 32, d.year.1, d.year.2.1, d.year.2.2.1, d.year.2.2.2])

/-- The parts are those of the pattern. -/
structure Matches (d : DateText) : Prop where
  weekday : d.weekday ∈ weekdays
  month : d.month ∈ patternMonths
  day : (d.day.1 = 32 ∨ isDigit d.day.1) ∧ isDigit d.day.2
  hour : isDigit d.hour.1 ∧ isDigit d.hour.2
  min : isDigit d.min.1 ∧ isDigit d.min.2
  sec : isDigit d.sec.1 ∧ isDigit d.sec.2
  year : isDigit d.year.1 ∧ isDigit d.year.2.1 ∧ isDigit d.year.2.2.1 ∧ isDigit d.year.2.2.2

/-- The digit that a byte shows. -/
def digit (c : UInt8) : Int := c.toNat - 48

/-- The months of the year. -/
def months : List CStr :=
  ["Jan", "Feb", "Mar", "Apr", "May", "Jun", "Jul", "Aug", "Sep", "Oct", "Nov", "Dec"].map ascii

/-- The date and time of the text, in this month. -/
def tm (d : DateText) (mon isdst : Int) : Tm where
  sec := digit d.sec.1 * 10 + digit d.sec.2
  min := digit d.min.1 * 10 + digit d.min.2
  hour := digit d.hour.1 * 10 + digit d.hour.2
  mday := (if d.day.1 = 32 then 0 else digit d.day.1 * 10) + digit d.day.2
  mon
  year := digit d.year.1 * 1000 + digit d.year.2.1 * 100 + digit d.year.2.2.1 * 10 +
    digit d.year.2.2.2 - 1900
  isdst

/-- The month that the `switch` stores, if it stores one. -/
def storedMonth (d : DateText) : Option Int :=
  (months.idxOf? d.month).bind fun n => if n = 3 then none else some n

end DateText

/-- The permissions are given by letters. -/
def PermText (text : CStr) : Prop := text ≠ [] ∧ ∀ c ∈ text, c ∈ ascii "rwxsS-"

/-- A text shows a permission by its letter; that the owner or the group may execute is shown by an
`s` too, for a program that runs as them. -/
def shows (text : CStr) (i : Nat) : Bool :=
  text[i]? == (ascii "rwxrwxrwx")[i]? || ((i == 2 || i == 5) && text[i]? == some 115)

/-! ## Values of texts -/

/-- The value is the same for all contents of the structure, and is that of the date that the text
names, where `mktime` is to find out whether it is in daylight saving time. -/
def DateOfText (mktime : Tm → BitVec 64) (d : DateText) : Prop :=
  ∃ v, (∀ t, dateValue mktime t d.text = .ok v) ∧
    ∀ n, DateText.months.idxOf? d.month = some n → v = mktime (d.tm n (-1))

/-- The bits are those that the text shows. -/
def PermOfText (text : CStr) : Prop :=
  ∃ bits, unixPerm text = .ok bits ∧ ∀ i < 9, bits[i]? = some (shows text i)

/-- Two months do not have one time in common. -/
def TellsMonths (mktime : Tm → BitVec 64) : Prop :=
  ∀ d : DateText, d.Matches → ∀ m m' : Int, 0 ≤ m ∧ m < 12 → 0 ≤ m' ∧ m' < 12 →
    mktime (d.tm m (-1)) = mktime (d.tm m' (-1)) → m = m'

section

variable {d : DateText} {t : Tm}

theorem three_letters {w : CStr} (h : w ∈ weekdays ++ patternMonths) : ∃ a b c, w = [a, b, c] := by
  have hlength : ∀ w ∈ weekdays ++ patternMonths, w.length = 3 := by decide
  exact List.length_eq_three.mp (hlength w h)

/-- The `switch` stores the months but April, for which it has another name. -/
theorem setMonth_text (h : d.Matches) :
    setMonth d.text t = .ok { t with mon := d.storedMonth.getD t.mon } := by
  obtain ⟨weekday, month, day, hour, min, sec, year⟩ := d
  obtain ⟨a, b, c, rfl⟩ : ∃ a b c, weekday = [a, b, c] :=
    three_letters (List.mem_append_left _ h.weekday)
  have hmonth := h.month
  simp only [patternMonths, List.map_cons, List.map_nil, List.mem_cons, List.not_mem_nil,
    or_false] at hmonth
  rcases hmonth with rfl | rfl | rfl | rfl | rfl | rfl | rfl | rfl | rfl | rfl | rfl | rfl <;> rfl

/-- The month that is stored is that of the text, and not April. -/
theorem storedMonth_eq {m : Nat} {n : Int} (hm : DateText.months.idxOf? d.month = some m)
    (hn : d.storedMonth = some n) : m ≠ 3 ∧ n = m := by
  rw [DateText.storedMonth, hm, Option.bind_some] at hn
  split at hn
  · cases hn
  · exact ⟨‹_›, (Option.some.inj hn).symm⟩

theorem setDate_text (h : d.Matches) :
    setDate d.text t = .ok (d.tm (d.storedMonth.getD t.mon) t.isdst) := by
  have hmonth := @setMonth_text d t h
  obtain ⟨weekday, month, ⟨day₁, day₂⟩, hour, min, sec, year⟩ := d
  obtain ⟨a, b, c, rfl⟩ : ∃ a b c, weekday = [a, b, c] :=
    three_letters (List.mem_append_left _ h.weekday)
  obtain ⟨a', b', c', rfl⟩ : ∃ a b c, month = [a, b, c] :=
    three_letters (List.mem_append_right _ h.month)
  rw [setDate, bind_of_ok hmonth]
  have hday : dayAt (DateText.text ⟨[a, b, c], [a', b', c'], (day₁, day₂), hour, min, sec, year⟩) =
      .ok ((if day₁ = 32 then 0 else DateText.digit day₁ * 10) + DateText.digit day₂) := by
    by_cases h32 : day₁ = 32
    · subst h32
      rw [if_pos rfl, Int.zero_add]
      rfl
    · rw [if_neg h32]
      exact if_pos h32
  rw [bind_of_ok hday]
  rfl

theorem dateValue_text (mktime : Tm → BitVec 64) (h : d.Matches) :
    dateValue mktime t d.text = .ok (mktime (d.tm (d.storedMonth.getD t.mon) t.isdst)) := by
  rw [dateValue, bind_of_ok (setDate_text h)]
  rfl

/-- The value of a date is that of the text if and only if the month is stored, and `mktime` does not
look at what the structure has for the daylight saving time. -/
theorem dateOfText_iff_stored {mktime : Tm → BitVec 64} (hmktime : TellsMonths mktime)
    (h : d.Matches) :
    DateOfText mktime d ↔
      ∃ n, d.storedMonth = some n ∧ ∀ isdst, mktime (d.tm n isdst) = mktime (d.tm n (-1)) := by
  constructor
  · rintro ⟨v, hv, hnamed⟩
    have hvalue : ∀ t : Tm, v = mktime (d.tm (d.storedMonth.getD t.mon) t.isdst) := fun t =>
      Except.ok.inj ((hv t).symm.trans (dateValue_text mktime h))
    cases hstored : d.storedMonth with
    | none =>
      -- what was on the stack is the month
      have hjan := hvalue (d.tm 0 (-1))
      have hfeb := hvalue (d.tm 1 (-1))
      rw [hstored] at hjan hfeb
      have heq := hmktime d h 0 1 (by decide) (by decide) (hjan.symm.trans hfeb)
      exact absurd heq (by decide)
    | some n =>
      refine ⟨n, rfl, fun isdst => ?_⟩
      have hisdst := hvalue (d.tm n isdst)
      have hminus := hvalue (d.tm n (-1))
      rw [hstored] at hisdst hminus
      exact hisdst.symm.trans hminus
  · rintro ⟨n, hstored, hisdst⟩
    refine ⟨mktime (d.tm n (-1)), fun t => ?_, fun m hm => ?_⟩
    · rw [dateValue_text mktime h, hstored]
      exact congrArg Except.ok (hisdst t.isdst)
    · rw [(storedMonth_eq hm hstored).2]

end

/-! ## Permissions of texts -/

theorem permBits_eq {text letters : CStr} {i : Nat} (h : i + letters.length ≤ text.length) :
    ∃ bits, permBits text i letters = .ok bits ∧
      ∀ j < letters.length, bits[j]? = some (text[i + j]? == letters[j]?) := by
  induction letters generalizing i with
  | nil => exact ⟨[], rfl, nofun⟩
  | cons c letters ih =>
    rw [List.length_cons] at h
    obtain ⟨bits, hrun, hbits⟩ := ih (i := i + 1) (by omega)
    have hget : text[i]? = some text[i] := List.getElem?_eq_getElem (by omega)
    have hread : charAt text i = .ok text[i] := by rw [charAt, hget]
    refine ⟨(text[i] == c) :: bits, ?_, fun j hj => ?_⟩
    · rw [permBits, bind_of_ok hread, bind_of_ok hrun]
      rfl
    · cases j with
      | zero =>
        rw [Nat.add_zero, hget]
        rfl
      | succ j =>
        rw [List.getElem?_cons_succ, List.getElem?_cons_succ, hbits j (Nat.lt_of_succ_lt_succ hj),
          Nat.add_right_comm, Nat.add_assoc]

/-- All letters are looked for. -/
theorem length_of_permBits {text letters : CStr} {i : Nat} {bits : List Bool}
    (hrun : permBits text i letters = .ok bits) (hi : i ≤ text.length) :
    i + letters.length ≤ text.length := by
  induction letters generalizing i bits with
  | nil => exact hi
  | cons c letters ih =>
    obtain ⟨b, hread, hrun⟩ := bind_ok hrun
    obtain ⟨bits', hrun, -⟩ := bind_ok hrun
    have hlt : i < text.length := by
      by_contra hge
      rw [charAt, List.getElem?_eq_none (Nat.not_lt.mp hge)] at hread
      cases hread
    have := ih hrun hlt
    rw [List.length_cons]
    omega

theorem permOfText_iff (text : CStr) :
    PermOfText text ↔ 9 ≤ text.length ∧ text[2]? ≠ some 115 ∧ text[5]? ≠ some 115 := by
  constructor
  · rintro ⟨bits, hrun, hbits⟩
    have hlength : 0 + 9 ≤ text.length := length_of_permBits hrun (Nat.zero_le _)
    obtain ⟨bits', hrun', hbits'⟩ := @permBits_eq text (ascii "rwxrwxrwx") 0 hlength
    obtain rfl : bits = bits' := Except.ok.inj (hrun.symm.trans hrun')
    -- an `s` is shown, and is no `x`
    have h2 := (hbits 2 (by decide)).symm.trans (hbits' 2 (by decide))
    have h5 := (hbits 5 (by decide)).symm.trans (hbits' 5 (by decide))
    refine ⟨by omega, fun hs => ?_, fun hs => ?_⟩
    · rw [shows, Nat.zero_add, hs] at h2
      exact absurd h2 (by decide)
    · rw [shows, Nat.zero_add, hs] at h5
      exact absurd h5 (by decide)
  · rintro ⟨hlength, h2, h5⟩
    obtain ⟨bits, hrun, hbits⟩ := @permBits_eq text (ascii "rwxrwxrwx") 0
      (by rw [Nat.zero_add]; exact hlength)
    refine ⟨bits, hrun, fun i hi => ?_⟩
    have hnot : ((i == 2 || i == 5) && text[i]? == some 115) = false := by
      by_cases hi2 : i = 2
      · rw [hi2, beq_eq_false_iff_ne.mpr h2, Bool.and_false]
      · by_cases hi5 : i = 5
        · rw [hi5, beq_eq_false_iff_ne.mpr h5, Bool.and_false]
        · rw [beq_eq_false_iff_ne.mpr hi2, beq_eq_false_iff_ne.mpr hi5]
          rfl
    rw [hbits i hi, Nat.zero_add, shows, hnot, Bool.or_false]

theorem stored_iff : ∀ month ∈ patternMonths,
    (((DateText.months.idxOf? month).bind fun n => if n = 3 then none else some (n : Int)).isSome ↔
      month ∉ [ascii "Apr", ascii "Jui"]) := by
  decide

/-- What a token is given is determined by its text: for a date, if and only if the month is one that
is stored and `mktime` does not look at what the structure has for the daylight saving time; for
permissions, if and only if there are nine letters, and no `s` where an `x` can be. -/
theorem tokens_iff (mktime : Tm → BitVec 64) (hmktime : TellsMonths mktime) :
    (∀ d : DateText, d.Matches → (DateOfText mktime d ↔ d.month ∉ [ascii "Apr", ascii "Jui"] ∧
        ∀ (n : Nat) (isdst : Int), DateText.months.idxOf? d.month = some n →
          mktime (d.tm n isdst) = mktime (d.tm n (-1)))) ∧
      ∀ text, PermText text →
        (PermOfText text ↔ 9 ≤ text.length ∧ text[2]? ≠ some 115 ∧ text[5]? ≠ some 115) := by
  refine ⟨fun d hd => ?_, fun text _ => permOfText_iff text⟩
  have hstored := stored_iff d.month hd.month
  rw [dateOfText_iff_stored hmktime hd]
  constructor
  · rintro ⟨n, hn, hisdst⟩
    refine ⟨hstored.mp (Option.isSome_iff_exists.mpr ⟨n, hn⟩), fun m isdst hm => ?_⟩
    rw [← (storedMonth_eq hm hn).2]
    exact hisdst isdst
  · rintro ⟨hmonth, hisdst⟩
    obtain ⟨n, hn⟩ := Option.isSome_iff_exists.mp (hstored.mpr hmonth)
    obtain ⟨m, hm, -⟩ := Option.bind_eq_some_iff.mp hn
    refine ⟨n, hn, fun isdst => ?_⟩
    rw [(storedMonth_eq hm hn).2]
    exact hisdst m isdst hm

/-! ## A time zone -/

def isLeap (year : Int) : Bool := year % 4 == 0 && (year % 100 != 0 || year % 400 == 0)

/-- The days of a year before a month. -/
def daysBefore (leap : Bool) (mon : Nat) : Int :=
  [0, 31, 59, 90, 120, 151, 181, 212, 243, 273, 304, 334].getD mon 0 +
    if leap && 2 ≤ mon then 1 else 0

/-- The days from 1970 to a year. -/
def yearDays (year : Int) : Int :=
  (year - 1970) * 365 + (year - 1) / 4 - (year - 1) / 100 + (year - 1) / 400 - 477

/-- `mktime` where the time zone is UTC. -/
def utcMktime (t : Tm) : BitVec 64 :=
  let year := t.year + 1900 + t.mon / 12
  let days := yearDays year + daysBefore (isLeap year) (t.mon % 12).toNat + (t.mday - 1)
  BitVec.ofInt 64 (days * 86400 + (t.hour * 3600 + t.min * 60 + t.sec))

theorem daysBefore_le :
    ∀ leap, ∀ m < 12, 0 ≤ daysBefore leap m ∧ daysBefore leap m ≤ 335 := by
  decide

theorem daysBefore_inj : ∀ leap, ∀ m < 12, ∀ m' < 12,
    daysBefore leap m = daysBefore leap m' → m = m' := by
  decide

theorem dvd_of_ofInt_eq {m n : Int} (heq : BitVec.ofInt 64 m = BitVec.ofInt 64 n) :
    (18446744073709551616 : Int) ∣ m - n := by
  have hmod := congrArg BitVec.toInt heq
  rw [BitVec.toInt_ofInt, BitVec.toInt_ofInt, Int.bmod_eq_bmod_iff_bmod_sub_eq_zero] at hmod
  exact Int.dvd_iff_bmod_eq_zero.mpr hmod

/-- The days of less than a year are in the time. -/
theorem days_inj {a b c x y : Int} (hx : 0 ≤ x ∧ x ≤ 335) (hy : 0 ≤ y ∧ y ≤ 335)
    (heq : BitVec.ofInt 64 ((a + x + b) * 86400 + c) = BitVec.ofInt 64 ((a + y + b) * 86400 + c)) :
    x = y := by
  have hdiff : (a + x + b) * 86400 + c - ((a + y + b) * 86400 + c) = (x - y) * 86400 := by omega
  have hlt : ((x - y) * 86400).natAbs < (18446744073709551616 : Int).natAbs := by
    have : (18446744073709551616 : Int).natAbs = 18446744073709551616 := rfl
    omega
  have hzero := Int.eq_zero_of_dvd_of_natAbs_lt_natAbs (hdiff ▸ dvd_of_ofInt_eq heq) hlt
  omega

theorem utcMktime_of_lt (t : Tm) {m : Nat} (hm : t.mon = m) (hlt : m < 12) :
    utcMktime t = BitVec.ofInt 64
      ((yearDays (t.year + 1900) + daysBefore (isLeap (t.year + 1900)) m + (t.mday - 1)) * 86400 +
        (t.hour * 3600 + t.min * 60 + t.sec)) := by
  have hdiv : (m : Int) / 12 = 0 := by omega
  have hmod : ((m : Int) % 12).toNat = m := by omega
  rw [utcMktime, hm, hdiv, hmod, Int.add_zero]

theorem tellsMonths_utcMktime : TellsMonths utcMktime := by
  intro d _ m m' hm hm' heq
  obtain ⟨k, rfl⟩ := Int.eq_ofNat_of_zero_le hm.1
  obtain ⟨k', rfl⟩ := Int.eq_ofNat_of_zero_le hm'.1
  have hk : k < 12 := by omega
  have hk' : k' < 12 := by omega
  rw [utcMktime_of_lt (d.tm k (-1)) rfl hk, utcMktime_of_lt (d.tm k' (-1)) rfl hk'] at heq
  rw [daysBefore_inj _ k hk k' hk' (days_inj (daysBefore_le _ k hk) (daysBefore_le _ k' hk') heq)]

/-- What is given to the tokens of the texts in UTC. -/
theorem tokens_utcMktime :
    (∀ d : DateText, d.Matches → (DateOfText utcMktime d ↔ d.month ∉ [ascii "Apr", ascii "Jui"] ∧
        ∀ (n : Nat) (isdst : Int), DateText.months.idxOf? d.month = some n →
          utcMktime (d.tm n isdst) = utcMktime (d.tm n (-1)))) ∧
      ∀ text, PermText text →
        (PermOfText text ↔ 9 ≤ text.length ∧ text[2]? ≠ some 115 ∧ text[5]? ≠ some 115) :=
  tokens_iff utcMktime tellsMonths_utcMktime

/-- `Mon Apr 10 12:00:00 2006` -/
def april : DateText where
  weekday := ascii "Mon"
  month := ascii "Apr"
  day := (49, 48)
  hour := (49, 50)
  min := (48, 48)
  sec := (48, 48)
  year := (50, 48, 48, 54)

/-- A date of April has the month that was on the stack. -/
theorem not_dateOfText_april : april.Matches ∧ ¬ DateOfText utcMktime april := by
  have hmatches : april.Matches := by
    constructor <;> decide
  refine ⟨hmatches, ?_⟩
  rintro ⟨v, hv, -⟩
  have hjan := (dateValue_text utcMktime hmatches).symm.trans (hv (april.tm 0 (-1)))
  have hfeb := (dateValue_text utcMktime hmatches).symm.trans (hv (april.tm 1 (-1)))
  exact absurd (Except.ok.inj (hjan.trans hfeb.symm)) (by decide)

end Snare

end Orchids
