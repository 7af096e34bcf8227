import Orchids.Util.Reading

/-!
# The static date of `syslog_getdate`

* `syslogGetdate`: the function with its static structure; `afterCalls`: what is in the structure
  after calls, each with the `mktime` of `dissect_syslog`.
* `InLayout`: the texts that start with a month, a day and a time.
* `DateOfText`: for a text, the result of a call is the same after all calls, and there is one if the
  text is in the layout.
* `dateOfText_iff`: so it is for the texts that start like no month, and for those in the layout
  that are not of April.
-/

namespace Orchids

namespace Syslog

/-! ## The structure -/

/-- The members of `t` that differ from date to date. -/
structure StaticTm where
  mon : Int
  mday : Int
  hour : Int
  min : Int
  sec : Int
  deriving DecidableEq

/-- A static structure before the first call. -/
def StaticTm.zero : StaticTm := { mon := 0, mday := 0, hour := 0, min := 0, sec := 0 }

/-- A date in a month that is not at its ends, with a time. -/
structure StaticTm.InRange (t : StaticTm) : Prop where
  mon : 0 ≤ t.mon ∧ t.mon < 12
  mday : 2 ≤ t.mday ∧ t.mday ≤ 27
  hour : 0 ≤ t.hour ∧ t.hour < 24
  min : 0 ≤ t.min ∧ t.min < 60
  sec : 0 ≤ t.sec ∧ t.sec < 60

/-- `syslog_getdate`, with what is in the structure: `NULL`, or what is in it now. -/
def syslogGetdate (t : StaticTm) (date : Text) : Option StaticTm :=
  (getdate date).map fun d =>
    { mon := d.mon.elim t.mon Nat.cast, mday := d.mday, hour := d.hour, min := d.min, sec := d.sec }

/-- What `mktime` changes of a date in range, to or from daylight saving time, is not the month. -/
def KeepsMonth (mktime : StaticTm → StaticTm) : Prop := ∀ t, t.InRange → (mktime t).mon = t.mon

/-- The structure after a call, and after the `mktime` for its result. -/
def afterCall (mktime : StaticTm → StaticTm) (t : StaticTm) (date : Text) : StaticTm :=
  match syslogGetdate t date with
  | some t' => mktime t'
  | none => t

/-- The structure after calls for these texts. -/
def afterCalls (mktime : StaticTm → StaticTm) (history : List Text) : StaticTm :=
  history.foldl (afterCall mktime) .zero

/-! ## The layout -/

def monthNames : List CStr :=
  ["Jan", "Feb", "Mar", "Apr", "May", "Jun", "Jul", "Aug", "Sep", "Oct", "Nov", "Dec"].map ascii

/-- `Mmm dd hh:mm:ss`, where the day may start with a blank. -/
structure InLayout (date : Text) : Prop where
  month : ∃ name ∈ monthNames, date.startsWith name
  day : (date.byteAt 4 = 32 ∨ isDigit (date.byteAt 4)) ∧ isDigit (date.byteAt 5)
  time : ∀ i ∈ [7, 8, 10, 11, 13, 14], isDigit (date.byteAt i)
  marks : date.byteAt 3 = 32 ∧ date.byteAt 6 = 32 ∧ date.byteAt 9 = 58 ∧ date.byteAt 12 = 58

/-- The first letters of the months. -/
def firstLetters : CStr := ascii "ADFJMNOS"

/-- The result is a function of the text, and there is one for the texts in the layout. -/
structure DateOfText (mktime : StaticTm → StaticTm) (date : Text) : Prop where
  same : ∀ history history', syslogGetdate (afterCalls mktime history) date =
    syslogGetdate (afterCalls mktime history') date
  accepts : ∀ history, (syslogGetdate (afterCalls mktime history) date).isSome ↔ InLayout date

/-! ## Months -/

theorem byteAt_of_startsWith {p : Text} {s : CStr} (h : p.startsWith s) {i : Nat} {c : UInt8}
    (hi : s[i]? = some c) : p.byteAt i = c := by
  have hlt : i < s.length := (List.getElem?_eq_some_iff.mp hi).1
  have hmem : p.mem s.length = s := beq_iff_eq.mp h
  rw [← hmem, Text.getElem?_mem p hlt] at hi
  exact Option.some.inj hi

/-- `month` reads three bytes. -/
theorem month_congr {p q : Text} (h : ∀ i < 3, p.byteAt i = q.byteAt i) : month p = month q := by
  rw [month, month, h 0 (by decide), h 1 (by decide), h 2 (by decide)]

theorem month_of_startsWith {date : Text} {name : CStr} (hname : name ∈ monthNames)
    (h : date.startsWith name) : month date = month { bytes := name, behind := fun _ => 0 } := by
  have hlength : ∀ name ∈ monthNames, name.length = 3 := by decide
  have hlen : name.length = 3 := hlength _ hname
  refine month_congr fun i hi => ?_
  have hget : name[i]? = some name[i] := List.getElem?_eq_getElem (hlen ▸ hi)
  rw [byteAt_of_startsWith h hget, Text.byteAt, hget]
  rfl

/-- All months but April are recognised. -/
theorem month_monthNames : ∀ name ∈ monthNames, name ≠ ascii "Apr" →
    ∃ n < 12, month { bytes := name, behind := fun _ => 0 } = some (some n) := by
  decide

theorem firstLetters_monthNames : ∀ name ∈ monthNames, ∃ c ∈ firstLetters, name[0]? = some c := by
  decide

theorem eq_of_letter {b : UInt8} {c : Char} (h : Char.ofNat b.toNat = c) :
    b = UInt8.ofNat c.toNat := by
  have hvalid : b.toNat.isValidChar := .inl (Nat.lt_trans b.toNat_lt (by decide))
  have htoNat : (Char.ofNat b.toNat).toNat = b.toNat := by
    rw [Char.ofNat, dif_pos hvalid]
    rfl
  rw [← h, htoNat, UInt8.ofNat_toNat]

/-- The texts that `syslog_getdate` rejects. -/
theorem month_eq_none_iff {date : Text} : month date = none ↔ date.byteAt 0 ∉ firstLetters := by
  rw [month]
  split
  case h_9 hA hD hF hJ hM hN hO hS =>
    refine ⟨fun _ hmem => ?_, fun _ => rfl⟩
    have hbyte : ∀ c ∈ firstLetters, Char.ofNat c.toNat = 'A' ∨ Char.ofNat c.toNat = 'D' ∨
        Char.ofNat c.toNat = 'F' ∨ Char.ofNat c.toNat = 'J' ∨ Char.ofNat c.toNat = 'M' ∨
        Char.ofNat c.toNat = 'N' ∨ Char.ofNat c.toNat = 'O' ∨ Char.ofNat c.toNat = 'S' := by
      simp [firstLetters, ascii]
    rcases hbyte _ hmem with h | h | h | h | h | h | h | h
    exacts [hA h, hD h, hF h, hJ h, hM h, hN h, hO h, hS h]
  all_goals
    rename_i hletter
    rw [eq_of_letter hletter]
    exact ⟨nofun, fun h => absurd (by decide) h⟩

/-! ## Results -/

section

variable {mktime : StaticTm → StaticTm}

/-- No result for one history is no result for any. -/
theorem syslogGetdate_eq_none_iff {t : StaticTm} {date : Text} :
    syslogGetdate t date = none ↔ date.byteAt 0 ∉ firstLetters := by
  rw [← month_eq_none_iff, syslogGetdate, Option.map_eq_none_iff, getdate]
  cases month date with
  | none => exact ⟨fun _ => rfl, fun _ => rfl⟩
  | some mon => exact ⟨nofun, nofun⟩

theorem isSome_syslogGetdate_iff {t : StaticTm} {date : Text} :
    (syslogGetdate t date).isSome ↔ date.byteAt 0 ∈ firstLetters := by
  rw [Option.isSome_iff_ne_none, Ne, syslogGetdate_eq_none_iff, not_not]

/-- A layout starts with a letter of a month. -/
theorem InLayout.firstLetter {date : Text} (h : InLayout date) :
    date.byteAt 0 ∈ firstLetters := by
  obtain ⟨name, hname, hstarts⟩ := h.month
  obtain ⟨c, hc, hget⟩ := firstLetters_monthNames name hname
  rwa [byteAt_of_startsWith hstarts hget]

/-- The month of a layout, but for April, is given by the text. -/
theorem syslogGetdate_congr {date : Text} (h : InLayout date) (hapr : ¬ date.startsWith (ascii "Apr"))
    (t t' : StaticTm) : syslogGetdate t date = syslogGetdate t' date := by
  obtain ⟨name, hname, hstarts⟩ := h.month
  have hne : name ≠ ascii "Apr" := fun heq => hapr (heq ▸ hstarts)
  obtain ⟨n, -, hmonth⟩ := month_monthNames name hname hne
  rw [← month_of_startsWith hname hstarts] at hmonth
  rw [syslogGetdate, syslogGetdate, getdate, hmonth]
  rfl

/-- The month of a text of April is the one that the structure has. -/
theorem syslogGetdate_apr {date : Text} (h : date.startsWith (ascii "Apr")) (t : StaticTm) :
    ∃ t', syslogGetdate t date = some t' ∧ t'.mon = t.mon := by
  have hmonth : month date = some none := (month_of_startsWith (by decide) h).trans (by decide)
  rw [syslogGetdate, getdate, hmonth]
  exact ⟨_, rfl, rfl⟩

/-- A call for a date of February. -/
def february : Text := { bytes := ascii "Feb 10 00:00:00", behind := fun _ => 0 }

/-- The result of `syslog_getdate` is a function of the text, and there is one for the texts in the
layout, if and only if the text starts like no month, or is in the layout and is not of April. -/
theorem dateOfText_iff (mktime : StaticTm → StaticTm) (hmktime : KeepsMonth mktime)
    (date : Text) :
    DateOfText mktime date ↔
      date.byteAt 0 ∉ firstLetters ∨ (InLayout date ∧ ¬ date.startsWith (ascii "Apr")) := by
  constructor
  · intro h
    by_cases hfirst : date.byteAt 0 ∈ firstLetters
    · have hlayout : InLayout date := (h.accepts []).mp (isSome_syslogGetdate_iff.mpr hfirst)
      refine .inr ⟨hlayout, fun hapr => ?_⟩
      obtain ⟨t, ht, hmon⟩ := syslogGetdate_apr hapr (afterCalls mktime [])
      obtain ⟨t', ht', hmon'⟩ := syslogGetdate_apr hapr (afterCalls mktime [february])
      -- the month of an earlier date stays in the structure
      have hfeb : (afterCalls mktime [february]).mon = 1 :=
        hmktime { mon := 1, mday := 10, hour := 0, min := 0, sec := 0 }
          ⟨by decide, by decide, by decide, by decide, by decide⟩
      have hzero : (afterCalls mktime []).mon = 0 := rfl
      have heq : t = t' := Option.some.inj (ht.symm.trans ((h.same _ _).trans ht'))
      rw [← heq, hmon, hfeb, hzero] at hmon'
      exact absurd hmon' (by decide)
    · exact .inl hfirst
  · rintro (hfirst | ⟨hlayout, hapr⟩)
    · refine ⟨fun _ _ => ?_, fun _ => ?_⟩
      · rw [syslogGetdate_eq_none_iff.mpr hfirst, syslogGetdate_eq_none_iff.mpr hfirst]
      · rw [isSome_syslogGetdate_iff]
        exact ⟨fun h => absurd h hfirst, InLayout.firstLetter⟩
    · refine ⟨fun _ _ => syslogGetdate_congr hlayout hapr _ _, fun _ => ?_⟩
      rw [isSome_syslogGetdate_iff]
      exact ⟨fun _ => hlayout, InLayout.firstLetter⟩

/-- A `mktime` that finds every date in range. -/
theorem dateOfText_february : DateOfText id february ↔
    february.byteAt 0 ∉ firstLetters ∨ (InLayout february ∧ ¬ february.startsWith (ascii "Apr")) :=
  dateOfText_iff id (fun _ _ => rfl) february

/-- A date of April has the month of the date before. -/
theorem not_dateOfText : ¬ DateOfText id { bytes := ascii "Apr 10 12:00:00", behind := fun _ => 0 } := by
  intro h
  exact absurd (h.same [] [february]) (by decide)

end

end Syslog

end Orchids
