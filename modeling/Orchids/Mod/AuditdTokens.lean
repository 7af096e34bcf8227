import Orchids.Mod.AuditdKeywords

/-!
# The tokens of an audit record (`mod_auditd.c`)

What the fields of a record are to be, and which of its tokens are read so.

* `Token`: `keyword=value`, or `audit(time:serial)`; `Token.denotes`: the fields that it stands for.
* `Token.Clean`: the condition on a token.
* `scan_clean`: such a token gives its fields and the scan is behind it.
* `decodesTokens_iff`: a line of such tokens has their fields, and each other token is one that a line has not.
-/

namespace Orchids

namespace Auditd

/-! ## Numbers and texts -/

/-- What a field holds. -/
inductive Datum where
  | int (i : Int)
  | str (bytes : CStr)
  | time (tv : Timeval)
  deriving DecidableEq

def datum {F : Type} : OvmVar F → Option Datum
  | .int i => some (.int i.toInt)
  | .vstr t => some (.str t.bytes)
  | .timeval tv => some (.time tv)
  | _ => none

/-- The fields that an action adds. -/
def Done.data {F : Type} (d : Done F) : List (Nat × Datum) :=
  d.fields.zipIdx.filterMap fun (v, i) => (datum v).map fun x => (d.evtno + i, x)

/-- A decimal number, an octal one after `0`, or a hexadecimal one after `0x`. -/
def natOf : CStr → Option Nat
  | 48 :: 120 :: ds => if ds ≠ [] ∧ ds.all isXdigit then some (numeral 16 ds) else none
  | 48 :: ds => if ds.all isOctal then some (numeral 8 ds) else none
  | ds => if ds ≠ [] ∧ ds.all isDigit then some (numeral 10 ds) else none

/-- A number below `2 ^ 31`, with a sign or without. -/
def intOf (text : CStr) : Option Int :=
  match text with
  | 45 :: ds => (natOf ds).bind fun n => if n < 2 ^ 31 then some (-n) else none
  | ds => (natOf ds).bind fun n => if n < 2 ^ 31 then some n else none

/-- A hexadecimal number. -/
def hexOf (text : CStr) : Option Nat :=
  if text ≠ [] ∧ text.all isXdigit then some (numeral 16 text) else none

/-- The number of a device, by its major and minor numbers. -/
def devOf (text : CStr) : Option Nat :=
  match text.dropWhile isDigit with
  | 58 :: minor =>
    if text.takeWhile isDigit ≠ [] ∧ minor ≠ [] ∧ minor.all isDigit then
      some ((numeral 10 (text.takeWhile isDigit) <<< 6) ||| numeral 10 minor)
    else none
  | _ => none

/-- The bytes that a text with escapes stands for. -/
def unescape : Nat → CStr → CStr
  | 0, _ => []
  | _ + 1, [] => []
  | n + 1, c :: s =>
    if c = 92 then
      match s with
      | [] => []
      | c :: s =>
        if isOctal c then (octalEscape c s).1 :: unescape n (octalEscape c s).2
        else escape c :: unescape n s
    else c :: unescape n s

/-- Each quote is behind a backslash, and the last backslash is before something. -/
def closed : CStr → Bool
  | [] => true
  | 92 :: s =>
    match s with
    | [] => false
    | _ :: s => closed s
  | c :: s => c ≠ 34 && closed s

/-! ## Tokens -/

/-- The text of a value: a word, or a text in quotes. -/
inductive ValueText where
  | bare (text : CStr)
  | quoted (body : CStr)

namespace ValueText

def text : ValueText → CStr
  | bare text => text
  | quoted body => 34 :: (body ++ [34])

def Ok : ValueText → Prop
  | bare text => (∀ c ∈ text, c ≠ 0 ∧ ¬ isSpace c) ∧ text.head? ≠ some 34
  | quoted body => 0 ∉ body ∧ closed body

/-- What the value stands for in a field of a kind. -/
def denotes (v : ValueText) : ActionCode → Option Datum
  | .int => (intOf v.text).map .int
  | .hex => (hexOf v.text).map fun n : Nat => .int n
  | .dev => (devOf v.text).map fun n : Nat => .int n
  | .string =>
    match v with
    | bare text => some (.str text)
    | quoted body => some (.str (unescape body.length body))
  | .audit => none

/-- The value is one that is read as what it stands for. -/
def Clean (v : ValueText) : ActionCode → Prop
  | .int => (intOf v.text).isSome
  | .hex => ∃ n, hexOf v.text = some n ∧ n < 2 ^ 31
  | .dev => devOf v.text = some 0
  | .string =>
    match v with
    | bare _ => True
    | quoted body => 34 ∉ body
  | .audit => True

end ValueText

/-- `keyword=value`, or the time and the serial number of the record. -/
inductive Token where
  | field (keyword : CStr) (value : ValueText)
  | header (msg : Bool) (time serial : CStr) (colon : Bool)

/-- The text is a number for `strtod`, whatever is behind the colon. -/
def IsTime (strtod : List UInt8 → Timeval × Nat) (time : CStr) : Prop :=
  0 ∉ time ∧ ∀ s, strtod (time ++ 58 :: s) = ((strtod (time ++ [58])).1, time.length)

/-- The action of a keyword. -/
def fieldAction (keyword : CStr) : Option Action := actions.find? fun a => a.name = keyword ++ [61]

namespace Token

def text : Token → CStr
  | field keyword value => keyword ++ 61 :: value.text
  | header msg time serial colon =>
    (if msg then ascii "msg=" else []) ++
      (ascii "audit(" ++ (time ++ 58 :: (serial ++ 41 :: if colon then [58] else [])))

/-- A field is no header. -/
def Ok (strtod : List UInt8 → Timeval × Nat) : Token → Prop
  | field keyword value =>
    (∀ c ∈ keyword, c ≠ 0 ∧ ¬ isSpace c ∧ c ≠ 61) ∧ value.Ok ∧ ¬ ascii "audit(" <+: keyword ∧
      (keyword = ascii "msg" → ¬ ascii "audit(" <+: value.text)
  | header _ time serial _ => IsTime strtod time ∧ serial ≠ [] ∧ serial.all isDigit

/-- The fields that a token stands for. -/
def denotes (strtod : List UInt8 → Timeval × Nat) : Token → List (Nat × Datum)
  | field keyword value =>
    match fieldAction keyword with
    | none => []
    | some a => ((value.denotes a.code).map fun x => (a.evtno, x)).toList
  | header _ time serial _ =>
    [(2, .time (strtod (time ++ [58])).1), (3, .int (numeral 10 serial))]

/-- A field has a value that is read as what it stands for, or a keyword that is none of the source's, and
no text that is one; a serial number is the same without its first digit. -/
def Clean : Token → Prop
  | field keyword value =>
    match fieldAction keyword with
    | none => noted actions (keyword ++ 61 :: value.text) = false
    | some a => value.Clean a.code
  | header _ _ serial _ => (atoiUnsigned (serial.drop 1 ++ [41])).1.toInt = numeral 10 serial

end Token

/-- A line of tokens, with blanks between them. -/
inductive LineOf : List Token → CStr → Prop
  | nil {blanks : CStr} (hblanks : ∀ c ∈ blanks, isSpace c) : LineOf [] blanks
  | cons {t : Token} {ts : List Token} {blanks s : CStr} (hblanks : ∀ c ∈ blanks, isSpace c)
    (hbreak : ∀ c ∈ s.head?, isSpace c) (h : LineOf ts s) : LineOf (t :: ts) (blanks ++ (t.text ++ s))

/-- The event gets a field with a value exactly when a token stands for it. -/
def Decodes (F : Type) (strtod : List UInt8 → Timeval × Nat) (ts : List Token) : Prop :=
  ∀ line, LineOf ts line → ∃ dones : List (Done F), scan F strtod actions (line ++ [0]) = .ok dones ∧
    ∀ f v, (f, v) ∈ dones.flatMap Done.data ↔ ∃ t ∈ ts, (f, v) ∈ t.denotes strtod

/-! ## Numbers -/

section

variable {s : List UInt8} {c : UInt8}

theorem takeWhile_append_stop {p : UInt8 → Bool} (l : CStr) (hc : p c = false) :
    (l ++ c :: s).takeWhile p = l.takeWhile p ∧ (l ++ c :: s).dropWhile p = l.dropWhile p ++ c :: s := by
  have hneg : ¬ p c := ne_true_of_eq_false hc
  induction l with
  | nil => exact ⟨List.takeWhile_cons_of_neg hneg, List.dropWhile_cons_of_neg hneg⟩
  | cons d l ih =>
    rw [List.cons_append]
    by_cases hd : p d
    · rw [List.takeWhile_cons_of_pos hd, List.dropWhile_cons_of_pos hd, List.takeWhile_cons_of_pos hd,
        List.dropWhile_cons_of_pos hd, ih.1, ih.2]
      exact ⟨rfl, rfl⟩
    · rw [List.takeWhile_cons_of_neg hd, List.dropWhile_cons_of_neg hd, List.takeWhile_cons_of_neg hd,
        List.dropWhile_cons_of_neg hd]
      exact ⟨rfl, rfl⟩

/-- All of the text, up to a byte that is none of it. -/
theorem span_all {p : UInt8 → Bool} {l : CStr} (hl : l.all p) (hc : p c = false) :
    (l ++ c :: s).takeWhile p = l ∧ (l ++ c :: s).dropWhile p = c :: s := by
  have hall := List.all_eq_true.mp hl
  rw [(takeWhile_append_stop l hc).1, (takeWhile_append_stop l hc).2, List.takeWhile_eq_self_iff.mpr hall,
    List.dropWhile_eq_nil_iff.mpr hall]
  exact ⟨rfl, rfl⟩

theorem xdigit_eq (hc : isXdigit c) : xdigit c = digitValue c := by
  rw [isXdigit, isDigit] at hc
  simp only [Bool.or_eq_true, Bool.and_eq_true, decide_eq_true_eq, UInt8.le_iff_toNat_le] at hc
  have hmask : (c.toNat - 65 + 10) &&& 0x1f = (c.toNat - 65 + 10) % 2 ^ 5 :=
    Nat.and_two_pow_sub_one_eq_mod _ 5
  rw [xdigit, digitValue, isDigit, hmask]
  simp only [Bool.and_eq_true, decide_eq_true_eq, UInt8.le_iff_toNat_le]
  change ((48 ≤ c.toNat ∧ c.toNat ≤ 57) ∨ (65 ≤ c.toNat ∧ c.toNat ≤ 70)) ∨
    (97 ≤ c.toNat ∧ c.toNat ≤ 102) at hc
  change (if 48 ≤ c.toNat ∧ c.toNat ≤ 57 then c.toNat - 48 else (c.toNat - 65 + 10) % 2 ^ 5) =
    if c.toNat ≤ 57 then c.toNat - 48 else if c.toNat ≤ 70 then c.toNat - 55 else c.toNat - 87
  (repeat' split) <;> omega

/-- The loops compute the number of the digits. -/
theorem number_eq (base : Nat) {ds : CStr} (hds : ds.all isXdigit) :
    number base ds = BitVec.ofNat 32 (numeral base ds) := by
  have hfold : ∀ n, ds.foldl (fun i c => i * BitVec.ofNat 32 base + BitVec.ofNat 32 (xdigit c))
      (BitVec.ofNat 32 n) = BitVec.ofNat 32 (ds.foldl (fun n c => n * base + digitValue c) n) := by
    induction ds with
    | nil => exact fun _ => rfl
    | cons c ds ih =>
      intro n
      rw [List.all_cons, Bool.and_eq_true] at hds
      rw [List.foldl_cons, List.foldl_cons, xdigit_eq hds.1, ← ih hds.2, BitVec.ofNat_add, BitVec.ofNat_mul]
  exact hfold 0

theorem isXdigit_of_isDigit (hc : isDigit c) : isXdigit c := by
  rw [isXdigit, hc]
  rfl

theorem isDigit_of_isOctal (hc : isOctal c) : isDigit c := by
  rw [isOctal, Bool.and_eq_true, decide_eq_true_eq, decide_eq_true_eq, UInt8.lt_iff_toNat_lt] at hc
  rw [isDigit, Bool.and_eq_true, decide_eq_true_eq, decide_eq_true_eq, UInt8.le_iff_toNat_le (a := c)]
  exact ⟨hc.1, Nat.le_of_lt_succ (Nat.lt_of_lt_of_le hc.2 (by decide))⟩

theorem all_mono {p q : UInt8 → Bool} (h : ∀ {c}, p c → q c) {l : CStr} (hl : l.all p) : l.all q :=
  List.all_eq_true.mpr fun c hc => h (List.all_eq_true.mp hl c hc)

/-- A blank and the end are in no number, no quote and no other sign of the record. -/
theorem Breaks.cases (hs : Breaks s) : ∃ c t, s = c :: t ∧ isXdigit c = false ∧ isDigit c = false ∧
    isOctal c = false ∧ c ≠ 120 ∧ c ≠ 34 ∧ c ≠ 45 ∧ c ≠ 58 ∧ inWord c = false := by
  obtain ⟨c, t, rfl, hc⟩ := hs
  have hbyte : c = 0 ∨ c = 32 ∨ c = 9 ∨ c = 10 ∨ c = 11 ∨ c = 12 ∨ c = 13 := by
    rcases hc with rfl | hc
    · exact .inl rfl
    · rw [isSpace, Bool.or_eq_true, beq_iff_eq, Bool.and_eq_true, decide_eq_true_eq, decide_eq_true_eq,
        UInt8.le_iff_toNat_le, UInt8.le_iff_toNat_le] at hc
      simp only [← UInt8.toNat_inj]
      change c.toNat = 0 ∨ c.toNat = 32 ∨ c.toNat = 9 ∨ c.toNat = 10 ∨ c.toNat = 11 ∨ c.toNat = 12 ∨
        c.toNat = 13
      change c = 32 ∨ 9 ≤ c.toNat ∧ c.toNat ≤ 13 at hc
      rcases hc with rfl | hc
      · exact .inr (.inl rfl)
      · omega
  refine ⟨c, t, rfl, ?_⟩
  rcases hbyte with rfl | rfl | rfl | rfl | rfl | rfl | rfl <;> decide

theorem atoiUnsigned_append {text : CStr} {n : Nat} (h : natOf text = some n) (hs : Breaks s) :
    atoiUnsigned (text ++ s) = (BitVec.ofNat 32 n, s) := by
  obtain ⟨c, t, rfl, hx, hd, ho, hne, -⟩ := hs.cases
  unfold natOf at h
  split at h
  · rename_i ds
    split at h
    · rename_i hds
      cases h
      change (number 16 ((ds ++ c :: t).takeWhile isXdigit), (ds ++ c :: t).dropWhile isXdigit) = _
      rw [(span_all hds.2 hx).1, (span_all hds.2 hx).2, number_eq 16 hds.2]
    · cases h
  · rename_i ds hfirst
    split at h
    · rename_i hds
      cases h
      have hoct : atoiUnsigned (48 :: ds ++ c :: t) =
          (number 8 ((ds ++ c :: t).takeWhile isOctal), (ds ++ c :: t).dropWhile isOctal) := by
        cases ds with
        | nil =>
          rw [atoiUnsigned.eq_def]
          split
          · rename_i heq
            exact absurd (List.cons.inj (List.cons.inj heq).2).1 hne
          · rename_i heq
            rw [← (List.cons.inj heq).2]
            rfl
          · rename_i hno
            exact absurd rfl (hno _)
        | cons d ds =>
          rw [atoiUnsigned.eq_def]
          split
          · rename_i heq
            obtain ⟨rfl, -⟩ := List.cons.inj (List.cons.inj heq).2
            exact absurd rfl (hfirst ds)
          · rename_i heq
            rw [← (List.cons.inj heq).2]
            rfl
          · rename_i hno
            exact absurd rfl (hno _)
      rw [hoct, (span_all hds ho).1, (span_all hds ho).2,
        number_eq 8 (all_mono (fun h => isXdigit_of_isDigit (isDigit_of_isOctal h)) hds)]
    · cases h
  · rename_i h48
    split at h
    · rename_i hds
      cases h
      have hdec : atoiUnsigned (text ++ c :: t) =
          (number 10 ((text ++ c :: t).takeWhile isDigit), (text ++ c :: t).dropWhile isDigit) := by
        cases text with
        | nil => exact absurd rfl hds.1
        | cons d ds =>
          rw [atoiUnsigned.eq_def]
          split
          · rename_i heq
            exact absurd (congrArg (· :: ds) (List.cons.inj heq).1) (h48 ds)
          · rename_i heq
            exact absurd (congrArg (· :: ds) (List.cons.inj heq).1) (h48 ds)
          · rfl
      rw [hdec, (span_all hds.2 hd).1, (span_all hds.2 hd).2, number_eq 10 (all_mono isXdigit_of_isDigit hds.2)]
    · cases h

theorem toInt_ofNat {n : Nat} (hn : n < 2 ^ 31) : (BitVec.ofNat 32 n).toInt = n := by
  rw [BitVec.toInt_eq_toNat_of_lt] <;> rw [BitVec.toNat_ofNat] <;> omega

theorem toInt_neg_ofNat {n : Nat} (hn : n < 2 ^ 31) : (-BitVec.ofNat 32 n).toInt = -n := by
  rw [BitVec.toInt_neg, toInt_ofNat hn, Int.bmod_eq_of_le] <;> omega

theorem natOf_bind {ds : CStr} {i : Int} {f : Nat → Int}
    (h : ((natOf ds).bind fun n => if n < 2 ^ 31 then some (f n) else none) = some i) :
    ∃ n, natOf ds = some n ∧ n < 2 ^ 31 ∧ f n = i := by
  obtain ⟨n, hn, hif⟩ := Option.bind_eq_some_iff.mp h
  split at hif
  · rename_i hlt
    exact ⟨n, hn, hlt, Option.some.inj hif⟩
  · cases hif

theorem atoiSigned_append {text : CStr} {i : Int} (h : intOf text = some i) (hs : Breaks s) :
    (atoiSigned (text ++ s)).1.toInt = i ∧ (atoiSigned (text ++ s)).2 = s := by
  unfold intOf at h
  split at h
  · rename_i ds
    obtain ⟨n, hn, hlt, rfl⟩ := natOf_bind h
    have hneg : atoiSigned (45 :: ds ++ s) = (-BitVec.ofNat 32 n, s) := by
      change (-(atoiUnsigned (ds ++ s)).1, (atoiUnsigned (ds ++ s)).2) = _
      rw [atoiUnsigned_append hn hs]
    rw [hneg]
    exact ⟨toInt_neg_ofNat hlt, rfl⟩
  · rename_i h45
    obtain ⟨n, hn, hlt, rfl⟩ := natOf_bind h
    have hpos : atoiSigned (text ++ s) = atoiUnsigned (text ++ s) := by
      rw [atoiSigned.eq_def]
      split
      · rename_i ds heq
        cases text with
        | nil => cases hn
        | cons d text => exact absurd (congrArg (· :: text) (List.cons.inj heq).1) (h45 text)
      · rfl
    rw [hpos, atoiUnsigned_append hn hs]
    exact ⟨toInt_ofNat hlt, rfl⟩

theorem atoiHex_append {text : CStr} {n : Nat} (h : hexOf text = some n) (hs : Breaks s) :
    atoiHex (text ++ s) = (BitVec.ofNat 32 n, s) := by
  obtain ⟨c, t, rfl, hx, -⟩ := hs.cases
  unfold hexOf at h
  split at h
  · rename_i htext
    cases h
    rw [atoiHex, (span_all htext.2 hx).1, (span_all htext.2 hx).2, number_eq 16 htext.2]
  · cases h

theorem atoiUnsigned_breaks (hs : Breaks s) : atoiUnsigned s = (0, s) := by
  obtain ⟨c, t, rfl, hbyte⟩ := hs
  obtain ⟨c', t', heq, hx, hd, -⟩ := Breaks.cases ⟨c, t, rfl, hbyte⟩
  obtain ⟨rfl, rfl⟩ := List.cons.inj heq
  have hneg : ¬ isDigit c := ne_true_of_eq_false hd
  rw [atoiUnsigned.eq_def]
  split
  · rename_i heq
    obtain ⟨rfl, -⟩ := List.cons.inj heq
    exact absurd hd (by decide)
  · rename_i heq
    obtain ⟨rfl, -⟩ := List.cons.inj heq
    exact absurd hd (by decide)
  · rw [atoiDec, List.takeWhile_cons_of_neg hneg, List.dropWhile_cons_of_neg hneg]
    rfl

/-- The number behind a device is none. -/
theorem minorRest_append {text : CStr} {n : Nat} (h : devOf text = some n) (hs : Breaks s) :
    minorRest (text ++ s) = s := by
  obtain ⟨c, t, rfl, -, hd, -⟩ := hs.cases
  unfold devOf at h
  split at h
  · rename_i minor heq
    split at h
    · rename_i hminor
      have hdrop : (text ++ c :: t).dropWhile isDigit = 58 :: (minor ++ c :: t) := by
        rw [(takeWhile_append_stop text hd).2, heq]
        rfl
      rw [minorRest_colon hdrop, (span_all hminor.2.2 hd).2]
    · cases h
  · cases h

end

/-! ## Texts in quotes -/

section

variable {s : List UInt8}

theorem closed_cons {c : UInt8} {t : CStr} (hesc : c ≠ 92) : closed (c :: t) = (decide (c ≠ 34) && closed t) := by
  rw [closed.eq_def]
  split
  · rename_i heq
    cases heq
  · rename_i heq
    exact absurd (List.cons.inj heq).1 hesc
  · rename_i heq
    obtain ⟨rfl, rfl⟩ := List.cons.inj heq
    rfl

/-- An octal escape reads octal digits, and no byte that is none. -/
theorem octalEscape_append (c : UInt8) (t : CStr) : ∃ ds, (∀ d ∈ ds, isOctal d) ∧
    t = ds ++ (octalEscape c t).2 ∧ ∀ x s, isOctal x = false →
      octalEscape c (t ++ x :: s) = ((octalEscape c t).1, (octalEscape c t).2 ++ x :: s) := by
  cases t with
  | nil => exact ⟨[], nofun, rfl, fun x s hx => by simp [octalEscape, hx]⟩
  | cons d t =>
    by_cases hd : isOctal d
    · cases t with
      | nil =>
        refine ⟨[d], ?_, ?_, ?_⟩
        · simpa using hd
        · simp [octalEscape, hd]
        · exact fun x s hx => by simp [octalEscape, hd, hx]
      | cons e t =>
        by_cases he : isOctal e
        · refine ⟨[d, e], ?_, ?_, ?_⟩
          · simpa using ⟨hd, he⟩
          · simp [octalEscape, hd, he]
          · exact fun x s hx => by simp [octalEscape, hd, he]
        · refine ⟨[d], ?_, ?_, ?_⟩
          · simpa using hd
          · simp [octalEscape, hd, he]
          · exact fun x s hx => by simp [octalEscape, hd, he]
    · refine ⟨[], nofun, ?_, ?_⟩
      · simp [octalEscape, hd]
      · exact fun x s hx => by simp [octalEscape, hd]

theorem closed_octal {ds : CStr} (hds : ∀ d ∈ ds, isOctal d) (t : CStr) : closed (ds ++ t) = closed t := by
  induction ds with
  | nil => rfl
  | cons d ds ih =>
    obtain ⟨hquote, hesc⟩ := isOctal_ne (hds d List.mem_cons_self)
    rw [List.cons_append, closed_cons hesc, decide_eq_true hquote, Bool.true_and]
    exact ih fun d hd => hds d (List.mem_cons_of_mem _ hd)

theorem closed_escaped {c : UInt8} {t : CStr} : closed (92 :: c :: t) = closed t := by rw [closed]

/-- A text in quotes without a quote is read as what it stands for. -/
theorem unquote_append {m k : Nat} {body : CStr} (h0 : 0 ∉ body) (hclosed : closed body) (hquote : 34 ∉ body)
    (hk : body.length ≤ k) (hm : body.length < m) :
    unquote m (body ++ 34 :: s) = (unescape k body, s) := by
  induction m generalizing k body with
  | zero => cases hm
  | succ m ih =>
    cases body with
    | nil => cases k <;> rfl
    | cons c body =>
      obtain ⟨k, rfl⟩ : ∃ k', k = k' + 1 :=
        Nat.exists_eq_succ_of_ne_zero (Nat.ne_of_gt (Nat.lt_of_lt_of_le (Nat.succ_pos _) hk))
      have hk : body.length ≤ k := Nat.le_of_succ_le_succ hk
      have hm : body.length < m := Nat.lt_of_succ_lt_succ hm
      have hc : c ≠ 0 := fun h => h0 (h ▸ List.mem_cons_self)
      have hc34 : c ≠ 34 := fun h => hquote (h ▸ List.mem_cons_self)
      have h0' : 0 ∉ body := fun h => h0 (List.mem_cons_of_mem c h)
      have hquote' : 34 ∉ body := fun h => hquote (List.mem_cons_of_mem c h)
      rw [List.cons_append, unquote.eq_def, unescape.eq_def]
      dsimp only
      rw [if_neg hc, if_neg hc34]
      by_cases hesc : c = 92
      · rw [if_pos hesc, if_pos hesc]
        cases body with
        | nil =>
          rw [hesc] at hclosed
          cases hclosed
        | cons d t =>
          rw [hesc, closed_escaped] at hclosed
          have hd : d ≠ 0 := fun h => h0' (h ▸ List.mem_cons_self)
          have hd34 : d ≠ 34 := fun h => hquote' (h ▸ List.mem_cons_self)
          have ht0 : 0 ∉ t := fun h => h0' (List.mem_cons_of_mem d h)
          have htquote : 34 ∉ t := fun h => hquote' (List.mem_cons_of_mem d h)
          rw [List.cons_append]
          dsimp only
          rw [if_neg (not_or.mpr ⟨hd, hd34⟩)]
          by_cases hoct : isOctal d
          · obtain ⟨ds, hds, ht, happend⟩ := octalEscape_append d t
            rw [if_pos hoct, if_pos hoct, happend 34 s (by decide)]
            generalize octalEscape d t = r at ht
            rw [ht, closed_octal hds] at hclosed
            have hlen := (List.suffix_append ds r.2).length_le
            rw [← ht] at hlen
            rw [ht] at ht0 htquote
            have hrec := @ih k r.2 (fun h => ht0 (List.mem_append_right ds h)) hclosed
              (fun h => htquote (List.mem_append_right ds h)) (hlen.trans (Nat.le_of_succ_le hk))
              (hlen.trans_lt (Nat.lt_of_succ_lt hm))
            dsimp only
            rw [hrec]
          · rw [if_neg hoct, if_neg hoct,
              ih ht0 hclosed htquote (Nat.le_of_succ_le hk) (Nat.lt_of_succ_lt hm)]
      · rw [closed_cons hesc, Bool.and_eq_true] at hclosed
        rw [if_neg hesc, if_neg hesc, ih h0' hclosed.2 hquote' hk hm]

/-- A quote in it ends the text before its last byte. -/
theorem unquote_lt {m k : Nat} {body : CStr} (h0 : 0 ∉ body) (hclosed : closed body) (hquote : 34 ∈ body)
    (hk : body.length ≤ k) (hm : body.length < m) :
    (unquote m (body ++ 34 :: s)).1.length < (unescape k body).length := by
  induction m generalizing k body with
  | zero => cases hm
  | succ m ih =>
    cases body with
    | nil => cases hquote
    | cons c body =>
      obtain ⟨k, rfl⟩ : ∃ k', k = k' + 1 :=
        Nat.exists_eq_succ_of_ne_zero (Nat.ne_of_gt (Nat.lt_of_lt_of_le (Nat.succ_pos _) hk))
      have hk' : body.length ≤ k := Nat.le_of_succ_le_succ hk
      have hm' : body.length < m := Nat.lt_of_succ_lt_succ hm
      have hc : c ≠ 0 := fun h => h0 (h ▸ List.mem_cons_self)
      have h0' : 0 ∉ body := fun h => h0 (List.mem_cons_of_mem c h)
      rw [List.cons_append, unquote.eq_def, unescape.eq_def]
      dsimp only
      by_cases hesc : c = 92
      · subst hesc
        have hquote' : 34 ∈ body := (List.mem_cons.mp hquote).resolve_left (by decide)
        rw [if_neg hc, if_neg (by decide), if_pos rfl, if_pos rfl]
        cases body with
        | nil => cases hclosed
        | cons d t =>
          rw [closed_escaped] at hclosed
          have hd : d ≠ 0 := fun h => h0' (h ▸ List.mem_cons_self)
          have ht0 : 0 ∉ t := fun h => h0' (List.mem_cons_of_mem d h)
          rw [List.cons_append]
          dsimp only
          by_cases hd34 : d = 34
          · subst hd34
            rw [if_pos (.inr rfl), if_neg (by decide)]
            exact Nat.succ_pos _
          · have htquote : 34 ∈ t := (List.mem_cons.mp hquote').resolve_left (Ne.symm hd34)
            rw [if_neg (not_or.mpr ⟨hd, hd34⟩)]
            by_cases hoct : isOctal d
            · obtain ⟨ds, hds, ht, happend⟩ := octalEscape_append d t
              rw [if_pos hoct, if_pos hoct, happend 34 s (by decide)]
              generalize octalEscape d t = r at ht
              rw [ht, closed_octal hds] at hclosed
              have hlen := (List.suffix_append ds r.2).length_le
              rw [← ht] at hlen
              rw [ht] at ht0 htquote
              have hmem : 34 ∈ r.2 :=
                (List.mem_append.mp htquote).resolve_left fun h => absurd (hds _ h) (by decide)
              exact Nat.succ_lt_succ (ih (fun h => ht0 (List.mem_append_right ds h)) hclosed hmem
                (hlen.trans (Nat.le_of_succ_le hk')) (hlen.trans_lt (Nat.lt_of_succ_lt hm')))
            · rw [if_neg hoct, if_neg hoct]
              exact Nat.succ_lt_succ (ih ht0 hclosed htquote (Nat.le_of_succ_le hk') (Nat.lt_of_succ_lt hm'))
      · rw [closed_cons hesc, Bool.and_eq_true, decide_eq_true_eq] at hclosed
        have hquote' : 34 ∈ body := (List.mem_cons.mp hquote).resolve_left (Ne.symm hclosed.1)
        rw [if_neg hc, if_neg hclosed.1, if_neg hesc, if_neg hesc]
        exact Nat.succ_lt_succ (ih h0' hclosed.2 hquote' hk' hm')

end

/-! ## Fields -/

section

variable {F : Type} {strtod : List UInt8 → Timeval × Nat} {s : List UInt8} {v : ValueText} {n : Nat}

theorem data_intField (n : Nat) (r : BitVec 32 × List UInt8) :
    (intField n r : Done F).data = [(n, .int r.1.toInt)] := by
  change [(n + 0, Datum.int (r.1.signExtend 64).toInt)] = _
  rw [BitVec.toInt_signExtend_of_le (by decide), Nat.add_zero]

theorem data_doerDev (hs : Breaks s) {text : CStr} {k : Nat} (h : devOf text = some k) :
    (doerDev (text ++ s) n : Done F).data = [(n, .int 0)] ∧ (doerDev (text ++ s) n : Done F).rest = s := by
  have hdev : (doerDev (text ++ s) n : Done F) = intField n (atoiUnsigned (minorRest (text ++ s))) := rfl
  rw [hdev, minorRest_append h hs, atoiUnsigned_breaks hs, data_intField]
  exact ⟨rfl, rfl⟩

/-- A word is read up to the blank, which may be taken too. -/
theorem doerString_bare {text : CStr} (hv : (ValueText.bare text).Ok) (hs : Breaks s) :
    (doerString (text ++ s) n : Done F).data = [(n, .str text)] ∧
      scan F strtod actions (doerString (text ++ s) n : Done F).rest = scan F strtod actions s := by
  obtain ⟨c, t, rfl, -, -, -, -, hquote, -, -, hword⟩ := hs.cases
  have hall : text.all inWord := List.all_eq_true.mpr fun d hd => inWord_iff.mpr (hv.1 d hd)
  have hbyte : c = 0 ∨ isSpace c := by
    obtain ⟨c', t', heq, h⟩ := hs
    rw [(List.cons.inj heq).1]
    exact h
  have htake : (text ++ c :: t).takeWhile (fun c => !(c == 0 || isSpace c)) = text := (span_all hall hword).1
  have hid : (doerString (text ++ c :: t) n : Done F) = doerId (text ++ c :: t) n := by
    rw [doerString.eq_def]
    split
    · rename_i heq
      cases text with
      | nil => exact absurd (List.cons.inj heq).1 hquote
      | cons d text => exact absurd (congrArg some (List.cons.inj heq).1) hv.2
    · rfl
  have hdata : (doerId (text ++ c :: t) n : Done F).data = [(n, .str text)] := by
    have hfields : (doerId (text ++ c :: t) n : Done F).fields = [.vstr { bytes := text, behind := fun _ => 0 }] ∧
        (doerId (text ++ c :: t) n : Done F).evtno = n := by
      simp only [doerId]
      rw [htake]
      split
      · split <;> exact ⟨rfl, rfl⟩
      · exact ⟨rfl, rfl⟩
    rw [Done.data, hfields.1, hfields.2]
    rfl
  rw [hid, hdata, doerId_rest (span_all hall hword).2]
  refine ⟨rfl, ?_⟩
  rcases hbyte with rfl | hspace
  · rfl
  · rw [if_neg (isSpace_ne_zero hspace), scan_blank hspace]

theorem doerString_quoted (body : CStr) (s : List UInt8) :
    ∃ m, body.length < m ∧ (doerString ((ValueText.quoted body).text ++ s) n : Done F).data =
        [(n, .str (unquote m (body ++ 34 :: s)).1)] ∧
      (doerString ((ValueText.quoted body).text ++ s) n : Done F).rest = (unquote m (body ++ 34 :: s)).2 := by
  have htext : (ValueText.quoted body).text ++ s = 34 :: (body ++ 34 :: s) := by
    rw [ValueText.text, List.cons_append, List.append_assoc, List.singleton_append]
  rw [htext]
  refine ⟨(body ++ 34 :: s).length, ?_, rfl, rfl⟩
  rw [List.length_append, List.length_cons]
  omega

/-- A value that is read as what it stands for. -/
theorem data_of_clean {a : Action} (hcode : a.code ≠ .audit) (hv : v.Ok) (hclean : v.Clean a.code)
    (hs : Breaks s) : ∃ d, v.denotes a.code = some d ∧
      (actionDoer strtod a (v.text ++ s) : Done F).data = [(a.evtno, d)] ∧
      scan F strtod actions (actionDoer strtod a (v.text ++ s) : Done F).rest = scan F strtod actions s := by
  obtain ⟨name, code, evtno⟩ := a
  cases code with
  | audit => exact absurd rfl hcode
  | int =>
    obtain ⟨i, hi⟩ := Option.isSome_iff_exists.mp hclean
    obtain ⟨hvalue, hrest⟩ := atoiSigned_append hi hs
    refine ⟨.int i, congrArg (Option.map Datum.int) hi, ?_, congrArg (scan F strtod actions) hrest⟩
    exact (data_intField evtno _).trans (by rw [hvalue])
  | hex =>
    obtain ⟨k, hk, hlt⟩ := hclean
    have happend := atoiHex_append hk hs
    refine ⟨.int k, congrArg (Option.map fun n : Nat => Datum.int n) hk, ?_,
      congrArg (scan F strtod actions) (congrArg Prod.snd happend)⟩
    exact (data_intField evtno _).trans (by rw [happend, toInt_ofNat hlt])
  | dev =>
    have hdata := data_doerDev (F := F) (n := evtno) hs hclean
    exact ⟨.int 0, congrArg (Option.map fun n : Nat => Datum.int n) hclean, hdata.1,
      congrArg (scan F strtod actions) hdata.2⟩
  | string =>
    cases v with
    | bare text => exact ⟨.str text, rfl, doerString_bare hv hs⟩
    | quoted body =>
      obtain ⟨m, hm, hdata, hrest⟩ := doerString_quoted (F := F) (n := evtno) body s
      have hread := @unquote_append s m body.length body hv.1 hv.2 hclean (Nat.le_refl _) hm
      rw [hread] at hdata hrest
      exact ⟨_, rfl, hdata, congrArg (scan F strtod actions) hrest⟩

/-- What an action adds is what its value stands for only in these cases. -/
theorem clean_of_data {a : Action} (hv : v.Ok) (hs : Breaks s) {d : Datum}
    (hden : v.denotes a.code = some d)
    (hdata : ∀ f' d', (f', d') ∈ (actionDoer strtod a (v.text ++ s) : Done F).data → d' = d) :
    v.Clean a.code := by
  obtain ⟨name, code, evtno⟩ := a
  cases code with
  | audit => exact True.intro
  | int =>
    obtain ⟨i, hi, -⟩ := Option.map_eq_some_iff.mp hden
    exact Option.isSome_iff_exists.mpr ⟨i, hi⟩
  | hex =>
    obtain ⟨k, hk, rfl⟩ := Option.map_eq_some_iff.mp hden
    have hmem : (evtno, Datum.int (atoiHex (v.text ++ s)).1.toInt) ∈
        (actionDoer strtod ⟨name, .hex, evtno⟩ (v.text ++ s) : Done F).data := by
      refine (data_intField (F := F) evtno (atoiHex (v.text ++ s))).symm ▸ List.mem_singleton_self _
    have heq := Datum.int.inj (hdata _ _ hmem)
    have hlt := @BitVec.toInt_lt 32 (atoiHex (v.text ++ s)).1
    exact ⟨k, hk, by omega⟩
  | dev =>
    obtain ⟨k, hk, rfl⟩ := Option.map_eq_some_iff.mp hden
    have hmem : (evtno, Datum.int 0) ∈
        (actionDoer strtod ⟨name, .dev, evtno⟩ (v.text ++ s) : Done F).data := by
      refine (data_doerDev (F := F) (n := evtno) hs hk).1.symm ▸ List.mem_singleton_self _
    have heq := Datum.int.inj (hdata _ _ hmem)
    exact hk.trans (congrArg some (by omega))
  | string =>
    cases v with
    | bare text => exact True.intro
    | quoted body =>
      intro hquote
      obtain ⟨m, hm, hbytes, -⟩ := doerString_quoted (F := F) (n := evtno) body s
      have hmem : (evtno, Datum.str (unquote m (body ++ 34 :: s)).1) ∈
          (actionDoer strtod ⟨name, .string, evtno⟩ ((ValueText.quoted body).text ++ s) : Done F).data :=
        hbytes.symm ▸ List.mem_singleton_self _
      have heq := (hdata _ _ hmem).trans (Option.some.inj hden).symm
      have hlt := @unquote_lt s m body.length body hv.1 hv.2 hquote (Nat.le_refl _) hm
      rw [Datum.str.inj heq] at hlt
      exact absurd hlt (Nat.lt_irrefl _)

/-! ## Headers -/

theorem isDigit_lt {c : UInt8} (hc : isDigit c) : c < 97 ∧ c ≠ 0 ∧ c ≠ 41 := by
  refine ⟨?_, ?_, ?_⟩
  · rw [isDigit, Bool.and_eq_true, decide_eq_true_eq, decide_eq_true_eq] at hc
    exact UInt8.lt_of_le_of_lt hc.2 (by decide)
  · rintro rfl
    exact absurd hc (by decide)
  · rintro rfl
    exact absurd hc (by decide)

/-- The digits of a serial number may be left in part, as an octal number. -/
theorem serial_append {ds : CStr} (hds : ds.all isDigit) : ∃ u, u.all isDigit ∧
    ∀ w, atoiUnsigned (ds ++ 41 :: w) = ((atoiUnsigned (ds ++ [41])).1, u ++ 41 :: w) := by
  have hdec : ∀ l w, (∀ t, l ++ 41 :: w ≠ 48 :: t) → atoiUnsigned (l ++ 41 :: w) = atoiDec (l ++ 41 :: w) := by
    intro l w hl
    rw [atoiUnsigned.eq_def]
    split
    · rename_i heq
      exact absurd heq (hl _)
    · rename_i heq
      exact absurd heq (hl _)
    · rfl
  have hoct : ∀ l w, l.all isDigit → atoiUnsigned (48 :: l ++ 41 :: w) =
      (number 8 ((l ++ 41 :: w).takeWhile isOctal), (l ++ 41 :: w).dropWhile isOctal) := by
    intro l w hl
    rw [List.cons_append, atoiUnsigned.eq_def]
    split
    · rename_i heq
      cases l with
      | nil => exact absurd (List.cons.inj (List.cons.inj heq).2).1 (by decide)
      | cons d l =>
        obtain ⟨rfl, -⟩ := List.cons.inj (List.cons.inj heq).2
        rw [List.all_cons, Bool.and_eq_true] at hl
        exact absurd hl.1 (by decide)
    · rename_i heq
      rw [← (List.cons.inj heq).2]
      rfl
    · rename_i hno
      exact absurd rfl (hno _)
  by_cases hzero : ∃ l, ds = 48 :: l
  · obtain ⟨l, rfl⟩ := hzero
    rw [List.all_cons, Bool.and_eq_true] at hds
    refine ⟨l.dropWhile isOctal, ?_, fun w => ?_⟩
    · exact List.all_eq_true.mpr fun c hc => List.all_eq_true.mp hds.2 c ((List.dropWhile_suffix _).subset hc)
    · rw [hoct l w hds.2, hoct l [] hds.2, (takeWhile_append_stop l rfl).1, (takeWhile_append_stop l rfl).1,
        (takeWhile_append_stop l rfl).2]
  · have hl : ∀ w t, ds ++ 41 :: w ≠ 48 :: t := by
      intro w t heq
      cases ds with
      | nil => exact absurd (List.cons.inj heq).1 (by decide)
      | cons d ds => exact hzero ⟨ds, congrArg (· :: ds) (List.cons.inj heq).1⟩
    refine ⟨[], rfl, fun w => ?_⟩
    rw [hdec ds w (hl w), hdec ds [] (hl []), atoiDec, atoiDec, (span_all hds rfl).1, (span_all hds rfl).2,
      (span_all hds rfl).1]
    rfl

/-- What a header adds, and what is left of it. -/
theorem doerAudit_header {time serial : CStr} (htime : IsTime strtod time) (hne : serial ≠ [])
    (hserial : serial.all isDigit) (w : List UInt8) :
    (doerAudit strtod (time ++ 58 :: (serial ++ 41 :: w)) : Done F).data =
        [(2, .time (strtod (time ++ [58])).1), (3, .int (atoiUnsigned (serial.drop 1 ++ [41])).1.toInt)] ∧
      ∃ q, (∀ c ∈ q, c < 97 ∧ c ≠ 0) ∧
        (doerAudit strtod (time ++ 58 :: (serial ++ 41 :: w)) : Done F).rest = q ++ w := by
  obtain ⟨d, ds, rfl⟩ := List.exists_cons_of_ne_nil hne
  rw [List.all_cons, Bool.and_eq_true] at hserial
  obtain ⟨u, hu, happend⟩ := serial_append hserial.2
  have hd := isDigit_lt hserial.1
  have hconvert : ∃ edits, timeConvert strtod 40 (time ++ 58 :: (d :: ds ++ 41 :: w)) =
      ((strtod (time ++ [58])).1, d :: ds ++ 41 :: w, edits) := by
    rw [timeConvert, htime.2]
    dsimp only
    rw [List.drop_left]
    exact ⟨_, rfl⟩
  obtain ⟨edits, hconvert⟩ := hconvert
  constructor
  · have hfields : (doerAudit strtod (time ++ 58 :: (d :: ds ++ 41 :: w)) : Done F).fields =
        [.timeval (strtod (time ++ [58])).1, .int ((atoiUnsigned (ds ++ 41 :: w)).1.signExtend 64)] := by
      rw [doerAudit, hconvert]
      dsimp only [List.cons_append]
      rw [if_pos hd.2.1]
    have hevtno : (doerAudit strtod (time ++ 58 :: (d :: ds ++ 41 :: w)) : Done F).evtno = 2 := rfl
    rw [Done.data, hfields, hevtno, happend]
    change [((2 : Nat) + 0, Datum.time _), (2 + 1, Datum.int (BitVec.signExtend 64 _).toInt)] = _
    rw [BitVec.toInt_signExtend_of_le (by decide)]
    rfl
  · rw [doerAudit_rest, hconvert]
    dsimp only [List.cons_append]
    rw [serialRest, if_pos hd.2.1, happend]
    cases u with
    | nil => exact ⟨[], List.forall_mem_nil _, rfl⟩
    | cons e u =>
      refine ⟨e :: u ++ [41], ?_, ?_⟩
      · intro c hc
        rcases List.mem_append.mp hc with hc | hc
        · have h := isDigit_lt (List.all_eq_true.mp hu c hc)
          exact ⟨h.1, h.2.1⟩
        · rw [List.mem_singleton.mp hc]
          decide
      · have he := isDigit_lt (List.all_eq_true.mp hu e List.mem_cons_self)
        rw [List.append_assoc, List.singleton_append]
        split
        · rename_i heq
          exact absurd (List.cons.inj heq).1 he.2.2
        · rfl

/-! ## Lines -/

theorem fieldAction_eq_some {keyword : CStr} {a : Action} (h : fieldAction keyword = some a) :
    a ∈ actions ∧ a.name = keyword ++ [61] ∧ a.code ≠ .audit := by
  rw [fieldAction] at h
  have hname := List.find?_some h
  have hmem := List.mem_of_find?_eq_some h
  refine ⟨hmem, of_decide_eq_true hname, fun hcode => ?_⟩
  have hall : (actions.all fun a => a.code != .audit || a.name.getLast? == some 40) = true := by decide +kernel
  have hlast := List.all_eq_true.mp hall a hmem
  rw [hcode, of_decide_eq_true hname, List.getLast?_append] at hlast
  exact Bool.false_ne_true hlast

theorem scan_field {keyword : CStr} {a : Action} (h : fieldAction keyword = some a) (v : ValueText)
    (s : List UInt8) :
    scan F strtod actions ((Token.field keyword v).text ++ s) = (do
      let more ← scan F strtod actions
        (actionDoer strtod { a with name := [] } (v.text ++ s) : Done F).rest
      return actionDoer strtod { a with name := [] } (v.text ++ s) :: more) := by
  obtain ⟨hmem, hname, -⟩ := fieldAction_eq_some h
  have htext : (Token.field keyword v).text ++ s = a.name ++ (v.text ++ s) := by
    rw [Token.text, hname, List.append_assoc, List.append_assoc, List.cons_append, List.singleton_append]
  rw [htext]
  exact scan_keyword hmem

theorem scan_header (msg : Bool) (time serial : CStr) (colon : Bool) (s : List UInt8) :
    scan F strtod actions ((Token.header msg time serial colon).text ++ s) = (do
      let done := doerAudit strtod (time ++ 58 :: (serial ++ 41 :: ((if colon then [58] else []) ++ s)))
      let more ← scan F strtod actions done.rest
      return done :: more) := by
  have hmem : (⟨(if msg then ascii "msg=" else []) ++ ascii "audit(", .audit, 0⟩ : Action) ∈ actions := by
    cases msg <;> decide +kernel
  have htext : (Token.header msg time serial colon).text ++ s =
      ((if msg then ascii "msg=" else []) ++ ascii "audit(") ++
        (time ++ 58 :: (serial ++ 41 :: ((if colon then [58] else []) ++ s))) := by
    simp only [Token.text, List.append_assoc, List.cons_append]
  rw [htext]
  exact scan_keyword hmem

theorem Breaks.append_zero (hs : ∀ c ∈ s.head?, isSpace c) : Breaks (s ++ [0]) := by
  cases s with
  | nil => exact ⟨0, [], rfl, .inl rfl⟩
  | cons c s => exact ⟨c, s ++ [0], rfl, .inr (hs c rfl)⟩

theorem ValueText.zero_notMem (hv : v.Ok) : 0 ∉ v.text := by
  cases v with
  | bare text => exact fun h => (hv.1 0 h).1 rfl
  | quoted body =>
    intro h
    rcases List.mem_cons.mp h with h | h
    · exact absurd h (by decide)
    · rcases List.mem_append.mp h with h | h
      · exact hv.1 h
      · exact absurd (List.mem_singleton.mp h) (by decide)

theorem Token.field_zero_notMem {keyword : CStr} (hok : (Token.field keyword v).Ok strtod) :
    0 ∉ (Token.field keyword v).text := by
  intro h
  rcases List.mem_append.mp h with h | h
  · exact (hok.1 0 h).1 rfl
  · rcases List.mem_cons.mp h with h | h
    · exact absurd h (by decide)
    · exact ValueText.zero_notMem hok.2.1 h

/-- In front of a token that is read so, its fields are added. -/
theorem scan_clean {t : Token} (hok : t.Ok strtod) (hclean : t.Clean) (hs : Breaks s) :
    ∃ ds : List (Done F), ds.flatMap Done.data = t.denotes strtod ∧ ∀ more,
      scan F strtod actions s = .ok more → scan F strtod actions (t.text ++ s) = .ok (ds ++ more) := by
  cases t with
  | header msg time serial colon =>
    obtain ⟨hdata, q, hq, hrest⟩ := doerAudit_header (F := F) hok.1 hok.2.1 hok.2.2 ((if colon then [58] else []) ++ s)
    refine ⟨[doerAudit strtod (time ++ 58 :: (serial ++ 41 :: ((if colon then [58] else []) ++ s)))], ?_, ?_⟩
    · rw [List.flatMap_singleton, hdata, Token.denotes]
      exact congrArg (fun i => [(2, Datum.time (strtod (time ++ [58])).1), (3, Datum.int i)]) hclean
    · intro more hmore
      have hcolon : ∀ c ∈ q ++ (if colon then [58] else []), c < 97 ∧ c ≠ 0 := by
        intro c hc
        rcases List.mem_append.mp hc with hc | hc
        · exact hq c hc
        · cases colon
          · cases hc
          · rw [List.mem_singleton.mp hc]
            decide
      have hquiet := @scan_quiet F strtod s [] _ (fun h => (hcolon 0 h).2 rfl)
        (noted_eq_false fun c hc => (hcolon c hc).1) hs
      rw [scan_header]
      dsimp only
      rw [hrest, ← List.append_assoc]
      exact bind_of_ok (hquiet.trans hmore) _
  | field keyword v =>
    cases hfind : fieldAction keyword with
    | none =>
      have hnoted : noted actions (keyword ++ 61 :: v.text) = false := by
        simpa only [Token.Clean, hfind] using hclean
      refine ⟨[], ?_, fun more hmore => ?_⟩
      · rw [Token.denotes, hfind]
        rfl
      · exact (@scan_quiet F strtod s [] _ (Token.field_zero_notMem hok) hnoted hs).trans hmore
    | some a =>
      have hvalue : v.Clean a.code := by simpa only [Token.Clean, hfind] using hclean
      obtain ⟨d, hden, hdata, hrest⟩ := @data_of_clean F strtod s v { a with name := [] }
        (fieldAction_eq_some hfind).2.2 hok.2.1 hvalue hs
      refine ⟨[actionDoer strtod { a with name := [] } (v.text ++ s)], ?_, fun more hmore => ?_⟩
      · rw [List.flatMap_singleton, hdata, Token.denotes, hfind]
        dsimp only at hden ⊢
        rw [hden]
        rfl
      · rw [scan_field hfind]
        exact bind_of_ok (hrest.trans hmore) _

theorem scan_blanks {blanks : CStr} (h : ∀ c ∈ blanks, isSpace c) (s : List UInt8) :
    scan F strtod actions (blanks ++ s) = scan F strtod actions s := by
  induction blanks with
  | nil => rfl
  | cons c blanks ih =>
    rw [List.cons_append, scan_blank (h c List.mem_cons_self)]
    exact ih fun c hc => h c (List.mem_cons_of_mem _ hc)

/-- A line of tokens that are read so adds their fields, in their order. -/
theorem scan_line {ts : List Token} {line : CStr} (hline : LineOf ts line)
    (hts : ∀ t ∈ ts, t.Ok strtod ∧ t.Clean) :
    ∃ dones : List (Done F), scan F strtod actions (line ++ [0]) = .ok dones ∧
      dones.flatMap Done.data = ts.flatMap (Token.denotes strtod) := by
  induction hline with
  | nil hblanks => exact ⟨[], scan_blanks hblanks [0], rfl⟩
  | @cons t ts blanks s hblanks hbreak _ ih =>
    obtain ⟨more, hmore, hdata⟩ := ih fun t ht => hts t (List.mem_cons_of_mem _ ht)
    obtain ⟨hok, hclean⟩ := hts t List.mem_cons_self
    obtain ⟨ds, hds, hscan⟩ := @scan_clean F strtod _ t hok hclean (Breaks.append_zero hbreak)
    refine ⟨ds ++ more, ?_, ?_⟩
    · rw [List.append_assoc, List.append_assoc, scan_blanks hblanks]
      exact hscan more hmore
    · rw [List.flatMap_append, List.flatMap_cons, hds, hdata]

theorem decodes_of_clean {ts : List Token} (hts : ∀ t ∈ ts, t.Ok strtod ∧ t.Clean) : Decodes F strtod ts := by
  intro line hline
  obtain ⟨dones, hscan, hdata⟩ := scan_line (F := F) hline hts
  refine ⟨dones, hscan, fun f v => ?_⟩
  rw [hdata]
  exact List.mem_flatMap

theorem data_ne_nil (a : Action) (s : List UInt8) : (actionDoer strtod a s : Done F).data ≠ [] := by
  obtain ⟨name, code, evtno⟩ := a
  cases code with
  | audit => exact List.cons_ne_nil _ _
  | int =>
    rw [actionDoer, doerInt, data_intField]
    exact List.cons_ne_nil _ _
  | hex =>
    rw [actionDoer, doerHex, data_intField]
    exact List.cons_ne_nil _ _
  | dev => exact List.cons_ne_nil _ _
  | string =>
    have hid : (doerId s evtno : Done F).data ≠ [] := by
      simp only [doerId]
      split
      · split <;> exact List.cons_ne_nil _ _
      · exact List.cons_ne_nil _ _
    change (doerString s evtno : Done F).data ≠ []
    rw [doerString.eq_def]
    split
    · exact List.cons_ne_nil _ _
    · exact hid

/-- A token that makes a line of its own with the fields that it stands for is read so. -/
theorem clean_of_decodes {t : Token} (hok : t.Ok strtod) (h : Decodes F strtod [t]) : t.Clean := by
  have hline : LineOf [t] t.text := by
    have hcons := @LineOf.cons t [] [] [] nofun nofun (.nil nofun)
    rwa [List.nil_append, List.append_nil] at hcons
  obtain ⟨dones, hscan, hfields⟩ := h t.text hline
  have hs : Breaks [0] := ⟨0, [], rfl, .inl rfl⟩
  have hone : ∀ done more, dones = done :: more → ∀ f v, (f, v) ∈ done.data → (f, v) ∈ t.denotes strtod := by
    rintro done more rfl f v hmem
    obtain ⟨t', ht', hden⟩ := (hfields f v).mp (List.mem_flatMap.mpr ⟨done, List.mem_cons_self, hmem⟩)
    rwa [List.mem_singleton.mp ht'] at hden
  cases t with
  | header msg time serial colon =>
    rw [scan_header] at hscan
    obtain ⟨more, -, hmore⟩ := bind_ok hscan
    obtain ⟨hdata, -⟩ := doerAudit_header (F := F) hok.1 hok.2.1 hok.2.2 ((if colon then [58] else []) ++ [0])
    have hmem := hone _ more (Except.ok.inj hmore).symm 3 _ (hdata ▸ List.mem_cons_of_mem _ List.mem_cons_self)
    rcases List.mem_cons.mp hmem with heq | hmem
    · cases heq
    · exact Datum.int.inj (congrArg Prod.snd (List.mem_singleton.mp hmem))
  | field keyword v =>
    cases hfind : fieldAction keyword with
    | none =>
      simp only [Token.Clean, hfind]
      refine Bool.eq_false_iff.mpr fun hnoted => ?_
      obtain ⟨a, s, more, hdones⟩ := exists_of_noted (Token.field_zero_notMem hok) hnoted hscan
      obtain ⟨⟨f, d⟩, hmem⟩ := List.exists_mem_of_ne_nil _ (@data_ne_nil F strtod a s)
      have hden := hone _ more hdones f d hmem
      rw [Token.denotes, hfind] at hden
      cases hden
    | some a =>
      simp only [Token.Clean, hfind]
      rw [scan_field hfind] at hscan
      obtain ⟨more, -, hmore⟩ := bind_ok hscan
      have hall := hone _ more (Except.ok.inj hmore).symm
      simp only [Token.denotes, hfind] at hall
      obtain ⟨⟨f, d⟩, hmem⟩ := List.exists_mem_of_ne_nil _ (@data_ne_nil F strtod { a with name := [] } (v.text ++ [0]))
      cases hden : v.denotes a.code with
      | none =>
        have hnone := hall f d hmem
        rw [hden] at hnone
        cases hnone
      | some d' =>
        refine @clean_of_data F strtod [0] v { a with name := [] } hok.2.1 hs d' hden fun f' d'' hmem' => ?_
        have hsome := hall f' d'' hmem'
        rw [hden] at hsome
        exact congrArg Prod.snd (List.mem_singleton.mp hsome)

end

/-- A line of tokens that are read as what they stand for has exactly their fields. Each other token is one
that a line does not get the fields of, be it alone in it. -/
theorem decodesTokens_iff (F : Type) (strtod : List UInt8 → Timeval × Nat) :
    (∀ ts : List Token, (∀ t ∈ ts, t.Ok strtod ∧ t.Clean) → Decodes F strtod ts) ∧
      ∀ t : Token, t.Ok strtod → (Decodes F strtod [t] ↔ t.Clean) :=
  ⟨fun _ => decodes_of_clean, fun _ hok => ⟨clean_of_decodes hok, fun h =>
    decodes_of_clean fun _ ht => List.mem_singleton.mp ht ▸ ⟨hok, h⟩⟩⟩

/-- The record `msg=audit(1144670400:0451): pid=7 comm="a\101\tb"`, by its tokens. -/
def commTokens : List Token :=
  [.header true (ascii "1144670400") (ascii "0451") true, .field (ascii "pid") (.bare (ascii "7")),
    .field (ascii "comm") (.quoted (ascii "a\\101\\tb"))]

theorem commTokens_ok : ∀ t ∈ commTokens, t.Ok strtodSeconds ∧ t.Clean := by
  simp only [commTokens, List.forall_mem_cons]
  refine ⟨⟨⟨⟨by decide, fun s => rfl⟩, by decide, by decide⟩, ?_⟩, ⟨?_, ?_⟩, ⟨?_, ?_⟩, nofun⟩
  · show (atoiUnsigned (ascii "451)")).1.toInt = 451
    decide
  · exact ⟨by decide +kernel, ⟨by decide +kernel, by decide +kernel⟩, by decide +kernel,
      by decide +kernel⟩
  · have hfind : fieldAction (ascii "pid") = some ⟨ascii "pid=", .int, 14⟩ := by decide +kernel
    simp only [Token.Clean, hfind]
    exact rfl
  · exact ⟨by decide +kernel, ⟨by decide +kernel, by decide +kernel⟩, by decide +kernel,
      by decide +kernel⟩
  · have hfind : fieldAction (ascii "comm") = some ⟨ascii "comm=", .string, 26⟩ := by decide +kernel
    simp only [Token.Clean, hfind, ValueText.Clean]
    decide +kernel

theorem decodes_commTokens : Decodes Unit strtodSeconds commTokens :=
  (decodesTokens_iff Unit strtodSeconds).1 commTokens commTokens_ok

/-- The serial number loses its first digit. -/
theorem not_decodes_serial : ¬ Decodes Unit strtodSeconds [.header false (ascii "1") (ascii "12") false] := by
  intro h
  have htime : IsTime strtodSeconds (ascii "1") := ⟨by simp [ascii], fun s => rfl⟩
  have hok : (Token.header false (ascii "1") (ascii "12") false).Ok strtodSeconds :=
    ⟨htime, List.cons_ne_nil _ _, rfl⟩
  have hclean : (2 : Int) = 12 := clean_of_decodes hok h
  exact absurd hclean (by decide)

end Auditd

end Orchids
