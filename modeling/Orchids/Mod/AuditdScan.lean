import Orchids.Lib.InPlace
import Orchids.Mod.Readable

/-!
# The text of an audit record (`mod_auditd.c`)

`action_parse_event` and the value parsers with the positions that they read and write. The loops are
given a number of steps.

* `actionDoerAt_ahead`, `actionParseEventAt_eq`: they go on where the functions of `Orchids.Mod.Auditd` do.
* `Opens`: the scan comes to a quoted text that is open at the end of the line, after a backslash.
* `leaves_iff_opens`: the scan leaves a text that ends with its `NUL` only then.
* `parses_iff`: for which lines the text is not left.
-/

namespace Orchids

namespace Auditd

open InPlace

/-- What a field holds; a string is a part of the text. -/
inductive Value where
  | int (i : BitVec 32)
  | timeval (time : Timeval)
  | vstr (start len : Nat)

/-- The fields from `evtno` on, and where an action goes on. -/
structure Filled where
  evtno : Nat
  fields : List Value
  next : Nat

/-! ## Numbers -/

/-- The loop over the digits of a number. -/
def digitsAt (base : Nat) (p : UInt8 → Bool) : Nat → BitVec 32 → Nat → Prog UInt8 (BitVec 32 × Nat)
  | 0, _, _ => outOfSteps
  | n + 1, i, s => do
    let c ← get s
    if p c then digitsAt base p n (i * BitVec.ofNat 32 base + BitVec.ofNat 32 (xdigit c)) (s + 1)
    else return (i, s)

variable (n : Nat)

/-- `action_atoi_hex` -/
def atoiHexAt (s : Nat) : Prog UInt8 (BitVec 32 × Nat) := digitsAt 16 isXdigit n 0 s

/-- `action_atoi_unsigned` -/
def atoiUnsignedAt (s : Nat) : Prog UInt8 (BitVec 32 × Nat) := do
  let c ← get s
  if c = 48 then
    let c ← get (s + 1)
    if c = 120 then digitsAt 16 isXdigit n 0 (s + 1 + 1)
    else digitsAt 8 isOctal n 0 (s + 1)
  else digitsAt 10 isDigit n 0 s

/-- `action_atoi_signed` -/
def atoiSignedAt (s : Nat) : Prog UInt8 (BitVec 32 × Nat) := do
  let c ← get s
  if c = 45 then
    let (i, t) ← atoiUnsignedAt n (s + 1)
    return (-i, t)
  else atoiUnsignedAt n s

/-! ## Actions -/

/-- `time_convert`; `strtod` is given the text from `str` on. -/
def timeConvertAt (strtod : List UInt8 → Timeval × Nat) (str : Nat) : Prog UInt8 (Timeval × Nat) := do
  let text ← rest str
  let (time, size) := strtod text
  let c ← get (str + size)
  if c = 58 ∨ c = 41 then
    put (str + size) 0
    return (time, str + size + 1)
  else
    let s ← back (str + size)
    return (time, s)

/-- `action_doer_audit` -/
def doerAuditAt (strtod : List UInt8 → Timeval × Nat) (s : Nat) : Prog UInt8 Filled := do
  let (time, t) ← timeConvertAt strtod s
  let c ← get t
  if c ≠ 0 then
    let (serial, t) ← atoiUnsignedAt n (t + 1)
    let c ← get t
    return { evtno := 2, fields := [.timeval time, .int serial], next := if c = 41 then t + 1 else t }
  else return { evtno := 2, fields := [.timeval time, .int 0], next := t }

/-- `action_doer_int` -/
def doerIntAt (s evtno : Nat) : Prog UInt8 Filled := do
  let (i, next) ← atoiSignedAt n s
  return { evtno, fields := [.int i], next }

/-- `action_doer_hex` -/
def doerHexAt (s evtno : Nat) : Prog UInt8 Filled := do
  let (i, next) ← atoiHexAt n s
  return { evtno, fields := [.int i], next }

/-- `action_doer_dev`: what is made of the major and the minor is not used. -/
def doerDevAt (s evtno : Nat) : Prog UInt8 Filled := do
  let (_major, s) ← digitsAt 10 isDigit n 0 s
  let c ← get s
  let (_minor, s) ← if c = 58 then digitsAt 10 isDigit n 0 (s + 1) else pure (0, s)
  let (i, next) ← atoiUnsignedAt n s
  return { evtno, fields := [.int i], next }

/-- The loop of `action_doer_id`. -/
def wordEndAt : Nat → Nat → Prog UInt8 Nat
  | 0, _ => outOfSteps
  | n + 1, t => do
    let c ← get t
    if c ≠ 0 ∧ ¬ isSpace c then wordEndAt n (t + 1) else return t

/-- `action_doer_id` -/
def doerIdAt (s evtno : Nat) : Prog UInt8 Filled := do
  let t ← wordEndAt n s
  let fields := [.vstr s (t - s)]
  let c ← get t
  if c ≠ 0 then
    put t 0
    return { evtno, fields, next := t + 1 }
  else return { evtno, fields, next := t }

/-- The digits of an octal escape after the first one. -/
def octalEscapeAt (c : UInt8) (s : Nat) : Prog UInt8 (Nat × Nat) := do
  let i := c.toNat - 48
  let c ← get s
  if isOctal c then
    let i := 8 * i + (c.toNat - 48)
    let c ← get (s + 1)
    if isOctal c then return (8 * i + (c.toNat - 48), s + 1 + 1) else return (i, s + 1)
  else return (i, s)

/-- The loop of `action_doer_string`: where it writes next, and where it goes on. -/
def unquoteAt : Nat → Nat → Nat → Prog UInt8 (Nat × Nat)
  | 0, _, _ => outOfSteps
  | n + 1, out, s => do
    let c ← get s
    if c = 0 then return (out, s)
    else if c = 34 then return (out, s + 1)
    else if c = 92 then
      let c ← get (s + 1)
      if c = 0 ∨ c = 34 then return (out, s + 1 + 1)
      else if isOctal c then
        let (i, s) ← octalEscapeAt c (s + 1 + 1)
        put out (UInt8.ofNat i)
        unquoteAt n (out + 1) s
      else
        put out (escape c)
        unquoteAt n (out + 1) (s + 1 + 1)
    else
      put out c
      unquoteAt n (out + 1) (s + 1)

/-- `action_doer_string` -/
def doerStringAt (s evtno : Nat) : Prog UInt8 Filled := do
  let c ← get s
  if c ≠ 34 then doerIdAt n s evtno
  else
    let (out, next) ← unquoteAt n s (s + 1)
    put out 0
    return { evtno, fields := [.vstr s (out - s)], next }

/-- `actx->action_doer[code]` -/
def actionDoerAt (strtod : List UInt8 → Timeval × Nat) (a : Action) (s : Nat) : Prog UInt8 Filled :=
  match a.code with
  | .audit => doerAuditAt n strtod s
  | .int => doerIntAt n s a.evtno
  | .hex => doerHexAt n s a.evtno
  | .string => doerStringAt n s a.evtno
  | .dev => doerDevAt n s a.evtno

/-- `action_parse_event` -/
def actionParseEventAt (strtod : List UInt8 → Timeval × Nat) :
    Nat → List Action → Nat → Prog UInt8 (List Filled)
  | 0, _, _ => outOfSteps
  | n + 1, node, s => do
    let c ← get s
    if c = 0 then return []
    else if node = actions ∧ isSpace c then actionParseEventAt strtod n actions (s + 1)
    else
      let atp := proceed node c
      if atp = [] then actionParseEventAt strtod n actions (s + 1)
      else match endTag atp with
      | none => actionParseEventAt strtod n atp (s + 1)
      | some a => do
        let done ← actionDoerAt n strtod a (s + 1)
        let more ← actionParseEventAt strtod n actions done.next
        return done :: more

/-- A line, and its `NUL`, before anything was read. -/
def unread (line : CStr) : Tape UInt8 := { contents := line ++ [0], seen := 0 }

/-! ## Where the parsers go on -/

section

variable {n : Nat} {s : List UInt8} {pos : Nat}

theorem zero_mem_dropWhile {p : UInt8 → Bool} (hp : p 0 = false) (h0 : 0 ∈ s) : 0 ∈ s.dropWhile p := by
  induction s with
  | nil => cases h0
  | cons c s ih =>
    by_cases hc : p c
    · have hne : 0 ≠ c := by
        rintro rfl
        exact absurd hc (by rw [hp]; decide)
      rw [List.dropWhile_cons_of_pos hc]
      exact ih ((List.mem_cons.mp h0).resolve_left hne)
    · rw [List.dropWhile_cons_of_neg hc]
      exact h0

theorem digitsAt_ahead (base : Nat) {p : UInt8 → Bool} (hp : p 0 = false) (i : BitVec 32) (h0 : 0 ∈ s)
    (hn : s.length ≤ n) :
    Total (Ahead s pos) (digitsAt base p n i pos) (fun r => Ahead (s.dropWhile p) r.2) := by
  induction n generalizing s pos i with
  | zero =>
    rw [List.length_eq_zero_iff.mp (Nat.le_zero.mp hn)] at h0
    cases h0
  | succ n ih =>
    cases s with
    | nil => cases h0
    | cons c s =>
      rw [digitsAt]
      by_cases hc : p c
      · have hne : 0 ≠ c := by
          rintro rfl
          exact absurd hc (by rw [hp]; decide)
        refine Total.next_bind ?_
        simp only [hc, if_true, List.dropWhile_cons_of_pos]
        exact ih _ ((List.mem_cons.mp h0).resolve_left hne) (Nat.le_of_succ_le_succ hn)
      · refine Total.peek_bind ?_
        simp only [hc, if_false, Bool.false_eq_true]
        rw [List.dropWhile_cons_of_neg hc]
        exact Total.pure _ fun _ h => h

theorem ne_zero_mem {c : UInt8} (hc : c ≠ 0) (h0 : 0 ∈ c :: s) : 0 ∈ s :=
  (List.mem_cons.mp h0).resolve_left (Ne.symm hc)

theorem zero_mem_atoiUnsigned (h0 : 0 ∈ s) : 0 ∈ (atoiUnsigned s).2 := by
  unfold atoiUnsigned
  split
  · exact zero_mem_dropWhile (by decide) (ne_zero_mem (by decide) (ne_zero_mem (by decide) h0))
  · exact zero_mem_dropWhile (by decide) (ne_zero_mem (by decide) h0)
  · exact zero_mem_dropWhile (by decide) h0

theorem atoiUnsignedAt_ahead (h0 : 0 ∈ s) (hn : s.length ≤ n) :
    Total (Ahead s pos) (atoiUnsignedAt n pos) (fun r => Ahead (atoiUnsigned s).2 r.2) := by
  obtain ⟨c, s, rfl⟩ := List.exists_cons_of_ne_nil (List.ne_nil_of_mem h0)
  rw [atoiUnsignedAt]
  by_cases hc : c = 48
  · subst hc
    have h0' : 0 ∈ s := ne_zero_mem (by decide) h0
    obtain ⟨d, t, rfl⟩ := List.exists_cons_of_ne_nil (List.ne_nil_of_mem h0')
    refine Total.next_bind ?_
    rw [if_pos rfl]
    by_cases hd : d = 120
    · subst hd
      refine Total.next_bind ?_
      rw [if_pos rfl]
      exact digitsAt_ahead 16 (by decide) 0 (ne_zero_mem (by decide) h0') (Nat.le_of_succ_le (Nat.le_of_succ_le hn))
    · refine Total.peek_bind ?_
      rw [if_neg hd]
      have hoct : (atoiUnsigned (48 :: d :: t)).2 = (d :: t).dropWhile isOctal := by
        rw [atoiUnsigned.eq_def]
        split
        · rename_i heq
          exact absurd (List.cons.inj (List.cons.inj heq).2).1 hd
        · rename_i heq
          rw [(List.cons.inj heq).2]
          rfl
        · rename_i hne
          exact absurd rfl (hne _)
      rw [hoct]
      exact digitsAt_ahead 8 (by decide) 0 h0' (Nat.le_of_succ_le hn)
  · refine Total.peek_bind ?_
    rw [if_neg hc]
    have hdec : (atoiUnsigned (c :: s)).2 = (c :: s).dropWhile isDigit := by
      rw [atoiUnsigned.eq_def]
      split
      · rename_i heq
        exact absurd (List.cons.inj heq).1 hc
      · rename_i heq
        exact absurd (List.cons.inj heq).1 hc
      · rfl
    rw [hdec]
    exact digitsAt_ahead 10 (by decide) 0 h0 hn

theorem atoiSignedAt_ahead (h0 : 0 ∈ s) (hn : s.length ≤ n) :
    Total (Ahead s pos) (atoiSignedAt n pos) (fun r => Ahead (atoiSigned s).2 r.2) := by
  obtain ⟨c, s, rfl⟩ := List.exists_cons_of_ne_nil (List.ne_nil_of_mem h0)
  rw [atoiSignedAt]
  by_cases hc : c = 45
  · subst hc
    refine Total.next_bind ?_
    rw [if_pos rfl]
    refine (atoiUnsignedAt_ahead (ne_zero_mem (by decide) h0) (Nat.le_of_succ_le hn)).bind fun r => ?_
    exact Total.pure _ fun _ h => h
  · refine Total.peek_bind ?_
    rw [if_neg hc]
    have hpos : atoiSigned (c :: s) = atoiUnsigned (c :: s) := by
      rw [atoiSigned.eq_def]
      split
      · rename_i heq
        exact absurd (List.cons.inj heq).1 hc
      · rfl
    rw [hpos]
    exact atoiUnsignedAt_ahead h0 hn

theorem zero_mem_atoiSigned (h0 : 0 ∈ s) : 0 ∈ (atoiSigned s).2 := by
  unfold atoiSigned
  split
  · exact zero_mem_atoiUnsigned (ne_zero_mem (by decide) h0)
  · exact zero_mem_atoiUnsigned h0

/-! An action goes on where the one on the text that is ahead does. -/

variable {F : Type} {evtno : Nat}

theorem doerIntAt_ahead (h0 : 0 ∈ s) (hn : s.length ≤ n) :
    Total (Ahead s pos) (doerIntAt n pos evtno)
      (fun r => Ahead (doerInt s evtno : Done F).rest r.next) :=
  (atoiSignedAt_ahead h0 hn).bind fun _ => Total.pure _ fun _ h => h

theorem doerHexAt_ahead (h0 : 0 ∈ s) (hn : s.length ≤ n) :
    Total (Ahead s pos) (doerHexAt n pos evtno)
      (fun r => Ahead (doerHex s evtno : Done F).rest r.next) :=
  (digitsAt_ahead 16 (by decide) 0 h0 hn).bind fun _ => Total.pure _ fun _ h => h

/-- The text behind the number of `action_doer_dev`, where it reads another one. -/
def minorRest (s : List UInt8) : List UInt8 :=
  match s.dropWhile isDigit with
  | 58 :: s => s.dropWhile isDigit
  | s => s

theorem minorRest_colon {t : List UInt8} (ht : s.dropWhile isDigit = 58 :: t) :
    minorRest s = t.dropWhile isDigit := by
  rw [minorRest, ht]
  rfl

theorem minorRest_ne {c : UInt8} {t : List UInt8} (ht : s.dropWhile isDigit = c :: t) (hc : c ≠ 58) :
    minorRest s = c :: t := by
  rw [minorRest, ht]
  split
  · rename_i heq
    exact absurd (List.cons.inj heq).1 hc
  · rfl

theorem zero_mem_minorRest (h0 : 0 ∈ s) : 0 ∈ minorRest s := by
  have h0' : 0 ∈ s.dropWhile isDigit := zero_mem_dropWhile (by decide) h0
  unfold minorRest
  split
  · rename_i t ht
    rw [ht] at h0'
    exact zero_mem_dropWhile (by decide) (ne_zero_mem (by decide) h0')
  · exact h0'

theorem suffix_minorRest (s : List UInt8) : minorRest s <:+ s := by
  have hs := List.dropWhile_suffix isDigit (l := s)
  unfold minorRest
  split
  · rename_i t ht
    rw [ht] at hs
    exact (List.dropWhile_suffix isDigit).trans ((List.suffix_cons 58 t).trans hs)
  · exact hs

theorem doerDev_rest : (doerDev s evtno : Done F).rest = (atoiUnsigned (minorRest s)).2 := rfl

theorem doerDevAt_ahead (h0 : 0 ∈ s) (hn : s.length ≤ n) :
    Total (Ahead s pos) (doerDevAt n pos evtno)
      (fun r => Ahead (doerDev s evtno : Done F).rest r.next) := by
  have h0' : 0 ∈ s.dropWhile isDigit := zero_mem_dropWhile (by decide) h0
  have hn' : (s.dropWhile isDigit).length ≤ n := (List.length_dropWhile_le isDigit s).trans hn
  have hlast : ∀ i, Total (Ahead (minorRest s) i)
      (atoiUnsignedAt n i >>= fun r => pure { evtno, fields := [.int r.1], next := r.2 })
      (fun r : Filled => Ahead (atoiUnsigned (minorRest s)).2 r.next) := fun i =>
    (atoiUnsignedAt_ahead (zero_mem_minorRest h0) ((suffix_minorRest s).length_le.trans hn)).bind fun _ =>
      Total.pure _ fun _ h => h
  rw [doerDev_rest]
  refine (digitsAt_ahead 10 (by decide) 0 h0 hn).bind fun r => ?_
  obtain ⟨c, t, ht⟩ := List.exists_cons_of_ne_nil (List.ne_nil_of_mem h0')
  rw [ht] at h0' hn' ⊢
  by_cases hc : c = 58
  · subst hc
    refine Total.next_bind ?_
    rw [if_pos rfl]
    have hminor := @digitsAt_ahead n t (r.2 + 1) 10 isDigit (by decide) 0 (ne_zero_mem (by decide) h0')
      (Nat.le_of_succ_le hn')
    rw [← minorRest_colon ht] at hminor
    exact hminor.bind fun r' => hlast r'.2
  · refine Total.peek_bind ?_
    rw [if_neg hc, ← minorRest_ne ht hc]
    exact hlast r.2

/-- A byte in a word of `action_doer_id`. -/
def inWord (c : UInt8) : Bool := !(c == 0 || isSpace c)

theorem inWord_iff {c : UInt8} : inWord c ↔ c ≠ 0 ∧ ¬ isSpace c := by
  simp only [inWord, Bool.not_eq_true', Bool.or_eq_false_iff, beq_eq_false_iff_ne, Bool.not_eq_true, ne_eq]

theorem wordEndAt_ahead (h0 : 0 ∈ s) (hn : s.length ≤ n) :
    Total (Ahead s pos) (wordEndAt n pos) (fun t => Ahead (s.dropWhile inWord) t) := by
  induction n generalizing s pos with
  | zero =>
    rw [List.length_eq_zero_iff.mp (Nat.le_zero.mp hn)] at h0
    cases h0
  | succ n ih =>
    obtain ⟨c, s, rfl⟩ := List.exists_cons_of_ne_nil (List.ne_nil_of_mem h0)
    rw [wordEndAt]
    by_cases hc : c ≠ 0 ∧ ¬ isSpace c
    · refine Total.next_bind ?_
      rw [if_pos hc, List.dropWhile_cons_of_pos (inWord_iff.mpr hc)]
      exact ih (ne_zero_mem hc.1 h0) (Nat.le_of_succ_le_succ hn)
    · refine Total.peek_bind ?_
      rw [if_neg hc, List.dropWhile_cons_of_neg fun h => hc (inWord_iff.mp h)]
      exact Total.pure _ fun _ h => h

theorem doerId_rest {c : UInt8} {t : List UInt8} (ht : s.dropWhile inWord = c :: t) :
    (doerId s evtno : Done F).rest = if c = 0 then c :: t else t := by
  have ht' : s.dropWhile (fun c => !(c == 0 || isSpace c)) = c :: t := ht
  simp only [doerId]
  rw [ht']
  exact apply_ite Done.rest _ _ _

theorem doerIdAt_ahead (h0 : 0 ∈ s) (hn : s.length ≤ n) :
    Total (Ahead s pos) (doerIdAt n pos evtno)
      (fun r => Ahead (doerId s evtno : Done F).rest r.next) := by
  have h0' : 0 ∈ s.dropWhile inWord := zero_mem_dropWhile (by decide) h0
  obtain ⟨c, t, ht⟩ := List.exists_cons_of_ne_nil (List.ne_nil_of_mem h0')
  rw [doerId_rest ht]
  refine (wordEndAt_ahead h0 hn).bind fun i => ?_
  rw [ht]
  by_cases hc : c = 0
  · refine Total.peek_bind ?_
    rw [if_neg (not_not.mpr hc), if_pos hc]
    exact Total.pure _ fun _ h => h
  · refine Total.next_bind ?_
    rw [if_pos hc, if_neg hc]
    exact Total.put_bind (Nat.lt_succ_self i) (Total.pure _ fun _ h => h)

theorem zero_mem_doerId (h0 : 0 ∈ s) : 0 ∈ (doerId s evtno : Done F).rest := by
  have h0' : 0 ∈ s.dropWhile inWord := zero_mem_dropWhile (by decide) h0
  obtain ⟨c, t, ht⟩ := List.exists_cons_of_ne_nil (List.ne_nil_of_mem h0')
  rw [ht] at h0'
  rw [doerId_rest ht]
  split
  · exact h0'
  · rename_i hc
    exact ne_zero_mem hc h0'

theorem suffix_doerId (s : List UInt8) : (doerId s evtno : Done F).rest <:+ s := by
  have hs := List.dropWhile_suffix inWord (l := s)
  cases ht : s.dropWhile inWord with
  | nil =>
    have ht' : s.dropWhile (fun c => !(c == 0 || isSpace c)) = [] := ht
    simp only [doerId]
    rw [ht']
    exact List.nil_suffix
  | cons c t =>
    rw [ht] at hs
    rw [doerId_rest ht]
    split
    · exact hs
    · exact (List.suffix_cons c t).trans hs

/-! ## Quoted texts -/

variable {c : UInt8}

theorem octalEscape_cases (c : UInt8) (h0 : 0 ∈ s) :
    (∃ d t, s = d :: t ∧ ¬ isOctal d ∧ (octalEscape c s).2 = s) ∨
      (∃ d e t, s = d :: e :: t ∧ isOctal d ∧ 0 ∈ e :: t ∧
        (octalEscape c s).2 = if isOctal e then t else e :: t) := by
  obtain ⟨d, t, rfl⟩ := List.exists_cons_of_ne_nil (List.ne_nil_of_mem h0)
  by_cases hd : isOctal d
  · have hne : d ≠ 0 := by
      rintro rfl
      exact absurd hd (by decide)
    have h0' := ne_zero_mem hne h0
    obtain ⟨e, t, rfl⟩ := List.exists_cons_of_ne_nil (List.ne_nil_of_mem h0')
    refine .inr ⟨d, e, t, rfl, hd, h0', ?_⟩
    by_cases he : isOctal e
    · simp [octalEscape, hd, he]
    · simp [octalEscape, hd, he]
  · refine .inl ⟨d, t, rfl, hd, ?_⟩
    simp [octalEscape, hd]

theorem octalEscapeAt_ahead (h0 : 0 ∈ s) :
    Total (Ahead s pos) (octalEscapeAt c pos)
      (fun r b => pos ≤ r.2 ∧ Ahead (octalEscape c s).2 r.2 b) := by
  rw [octalEscapeAt]
  obtain ⟨d, t, rfl, hd, hrest⟩ | ⟨d, e, t, rfl, hd, h0', hrest⟩ := octalEscape_cases c h0
  · rw [hrest]
    refine Total.peek_bind ?_
    rw [if_neg hd]
    exact Total.pure _ fun _ h => ⟨Nat.le_refl _, h⟩
  · rw [hrest]
    refine Total.next_bind ?_
    rw [if_pos hd]
    by_cases he : isOctal e
    · rw [if_pos he]
      refine Total.next_bind ?_
      rw [if_pos he]
      exact Total.pure _ fun _ h => ⟨Nat.le_add_right _ 2, h⟩
    · rw [if_neg he]
      refine Total.peek_bind ?_
      rw [if_neg he]
      exact Total.pure _ fun _ h => ⟨Nat.le_succ _, h⟩

theorem zero_mem_octalEscape (h0 : 0 ∈ s) : 0 ∈ (octalEscape c s).2 := by
  obtain ⟨d, t, rfl, hd, hrest⟩ | ⟨d, e, t, rfl, hd, h0', hrest⟩ := octalEscape_cases c h0
  · rw [hrest]
    exact h0
  · rw [hrest]
    split
    · rename_i he
      refine ne_zero_mem ?_ h0'
      rintro rfl
      exact absurd he (by decide)
    · exact h0'

theorem suffix_octalEscape (c : UInt8) (s : List UInt8) : (octalEscape c s).2 <:+ s :=
  List.drop_suffix _ s

theorem unquoteAt_ahead {m out : Nat} (h0 : 0 ∈ s) (hm : s.length ≤ m) (hn : s.length ≤ n)
    (hout : out < pos) :
    Total (Ahead s pos) (unquoteAt n out pos)
      (fun r b => r.1 < r.2 ∧ Ahead (unquote m s).2 r.2 b) := by
  induction n generalizing m s pos out with
  | zero =>
    rw [List.length_eq_zero_iff.mp (Nat.le_zero.mp hn)] at h0
    cases h0
  | succ n ih =>
    obtain ⟨c, s, rfl⟩ := List.exists_cons_of_ne_nil (List.ne_nil_of_mem h0)
    obtain ⟨m, rfl⟩ : ∃ k, m = k + 1 := Nat.exists_eq_succ_of_ne_zero (Nat.ne_of_gt (Nat.zero_lt_of_lt hm))
    have hm' : s.length ≤ m := Nat.le_of_succ_le_succ hm
    have hn' : s.length ≤ n := Nat.le_of_succ_le_succ hn
    rw [unquoteAt, unquote.eq_def]
    dsimp only
    by_cases hzero : c = 0
    · refine Total.peek_bind ?_
      simp only [hzero, if_true]
      exact Total.pure _ fun _ h => ⟨hout, h⟩
    · have h0' : 0 ∈ s := ne_zero_mem hzero h0
      refine Total.next_bind ?_
      rw [if_neg hzero, if_neg hzero]
      by_cases hquote : c = 34
      · rw [if_pos hquote, if_pos hquote]
        exact Total.pure _ fun _ h => ⟨Nat.lt_succ_of_lt hout, h⟩
      · rw [if_neg hquote, if_neg hquote]
        by_cases hesc : c = 92
        · obtain ⟨d, t, rfl⟩ := List.exists_cons_of_ne_nil (List.ne_nil_of_mem h0')
          rw [if_pos hesc, if_pos hesc]
          refine Total.next_bind ?_
          dsimp only
          by_cases hend : d = 0 ∨ d = 34
          · rw [if_pos hend, if_pos hend]
            exact Total.pure _ fun _ h => ⟨by omega, h⟩
          · rw [if_neg hend, if_neg hend]
            have h0'' : 0 ∈ t := ne_zero_mem (fun h => hend (.inl h)) h0'
            by_cases hoct : isOctal d
            · rw [if_pos hoct, if_pos hoct]
              have hlen := (suffix_octalEscape d t).length_le
              refine (octalEscapeAt_ahead h0'').bind fun r => Total.lift fun hr => ?_
              refine Total.put_bind (by omega) ?_
              exact ih (zero_mem_octalEscape h0'') (by grind) (by grind) (by omega)
            · rw [if_neg hoct, if_neg hoct]
              refine Total.put_bind (by omega) ?_
              exact ih h0'' (Nat.le_of_succ_le hm') (Nat.le_of_succ_le hn') (by omega)
        · rw [if_neg hesc, if_neg hesc]
          refine Total.put_bind (by omega) ?_
          exact ih h0' hm' hn' (by omega)

theorem suffix_unquote (m : Nat) (s : List UInt8) : (unquote m s).2 <:+ s := by
  induction m generalizing s with
  | zero => exact List.suffix_refl s
  | succ m ih =>
    rw [unquote.eq_def]
    dsimp only
    cases s with
    | nil => exact List.suffix_refl _
    | cons c s =>
      have hs := List.suffix_cons c s
      dsimp only
      split
      · exact List.suffix_refl _
      · split
        · exact hs
        · split
          · cases s with
            | nil => exact List.nil_suffix
            | cons d t =>
              have ht : t <:+ c :: d :: t := (List.suffix_cons d t).trans hs
              dsimp only
              split
              · exact ht
              · split
                · exact (ih _).trans ((suffix_octalEscape d t).trans ht)
                · exact (ih _).trans ht
          · exact (ih _).trans hs

theorem doerStringAt_ahead (h0 : 0 ∈ s) (hn : s.length ≤ n) :
    Total (Ahead s pos) (doerStringAt n pos evtno)
      (fun r => Ahead (doerString s evtno : Done F).rest r.next) := by
  obtain ⟨c, s, rfl⟩ := List.exists_cons_of_ne_nil (List.ne_nil_of_mem h0)
  rw [doerStringAt]
  by_cases hc : c = 34
  · subst hc
    refine Total.next_bind ?_
    rw [if_neg (not_not.mpr rfl)]
    refine (unquoteAt_ahead (ne_zero_mem (by decide) h0) (Nat.le_refl _) (Nat.le_of_succ_le hn)
      (Nat.lt_succ_self pos)).bind fun r => Total.lift fun hr => ?_
    exact Total.put_bind hr (Total.pure _ fun _ h => h)
  · refine Total.peek_bind ?_
    rw [if_pos hc]
    have hword : (doerString (c :: s) evtno : Done F) = doerId (c :: s) evtno := by
      rw [doerString.eq_def]
      split
      · rename_i heq
        exact absurd (List.cons.inj heq).1 hc
      · rfl
    rw [hword]
    exact doerIdAt_ahead h0 hn

/-! ## Times -/

/-- The text behind the serial number. -/
def serialRest : List UInt8 → List UInt8
  | [] => []
  | c :: t =>
    if c ≠ 0 then
      match (atoiUnsigned t).2 with
      | 41 :: t => t
      | t => t
    else c :: t

theorem doerAudit_rest (strtod : List UInt8 → Timeval × Nat) :
    (doerAudit strtod s : Done F).rest = serialRest (timeConvert strtod 40 s).2.1 := by
  simp only [doerAudit]
  cases (timeConvert strtod 40 s).2.1 with
  | nil => rfl
  | cons c t => exact apply_ite Prod.snd (c ≠ 0) ((atoiUnsigned t).1, _) (0, c :: t)

/-- The number ends before the `NUL`. -/
def Stays (strtod : List UInt8 → Timeval × Nat) : Prop :=
  ∀ s : List UInt8, 0 ∉ s.take (strtod s).2

variable {strtod : List UInt8 → Timeval × Nat}

theorem Stays.drop_mem (hstrtod : Stays strtod) (h0 : 0 ∈ s) : 0 ∈ s.drop (strtod s).2 := by
  have hsplit : 0 ∈ s.take (strtod s).2 ++ s.drop (strtod s).2 := by
    rw [List.take_append_drop]
    exact h0
  exact (List.mem_append.mp hsplit).resolve_left (hstrtod s)

/-- Behind the time the text goes on with what follows the number, or one byte before that. -/
theorem timeConvert_cases (hstrtod : Stays strtod) (c : UInt8) (h0 : 0 ∈ s) :
    ∃ d t, s.drop (strtod s).2 = d :: t ∧ 0 ∈ d :: t ∧
      (timeConvert strtod c s).2.1 = if d = 58 ∨ d = 41 then t else (c :: s).drop (strtod s).2 := by
  have hmem := hstrtod.drop_mem h0
  rw [timeConvert]
  generalize strtod s = r at hmem ⊢
  obtain ⟨time, size⟩ := r
  obtain ⟨d, t, ht⟩ := List.exists_cons_of_ne_nil (List.ne_nil_of_mem hmem)
  refine ⟨d, t, ht, ht ▸ hmem, ?_⟩
  dsimp only at ht ⊢
  rw [ht]
  dsimp only
  split <;> rfl

theorem zero_mem_timeConvert (hstrtod : Stays strtod) (c : UInt8) (h0 : 0 ∈ s) :
    0 ∈ (timeConvert strtod c s).2.1 := by
  obtain ⟨d, t, ht, h0', hrest⟩ := timeConvert_cases hstrtod c h0
  rw [hrest]
  split
  · rename_i hd
    refine ne_zero_mem ?_ h0'
    rintro rfl
    exact absurd hd (by decide)
  · rw [← ht] at h0'
    generalize (strtod s).2 = size at h0' ⊢
    cases size with
    | zero => exact List.mem_cons_of_mem c h0
    | succ k => exact List.drop_subset_drop_left s (Nat.le_succ k) h0'

theorem suffix_timeConvert (strtod : List UInt8 → Timeval × Nat) (c : UInt8) (s : List UInt8) :
    (timeConvert strtod c s).2.1 <:+ c :: s := by
  simp only [timeConvert]
  split
  · rename_i d t ht
    split
    · have hs : d :: t <:+ s := ht ▸ List.drop_suffix _ s
      exact (List.suffix_cons d t).trans (hs.trans (List.suffix_cons c s))
    · exact List.drop_suffix _ _
  · exact List.drop_suffix _ _

theorem timeConvertAt_ahead (hstrtod : Stays strtod) (h0 : 0 ∈ s) :
    Total (fun b => Ahead (c :: s) pos b ∧ pos + 1 ≤ b.seen) (timeConvertAt strtod (pos + 1))
      (fun r => Ahead (timeConvert strtod c s).2.1 r.2) := by
  obtain ⟨d, t, ht, h0', hrest⟩ := timeConvert_cases hstrtod c h0
  rw [timeConvertAt, hrest]
  refine Total.rest_bind (s := s) (fun b h => (h.1.advance (Nat.le_add_left 1 _) h.2).drop) ?_
  generalize strtod s = r at ht ⊢
  obtain ⟨time, size⟩ := r
  have hlen := congrArg List.length ht
  rw [List.length_drop, List.length_cons] at hlen
  have hget : (c :: s)[size + 1]? = some d := by
    rw [List.getElem?_cons_succ, ← Nat.add_zero size, ← List.getElem?_drop, ht]
    rfl
  have hpos : pos + 1 + size = pos + (size + 1) := by omega
  dsimp only at ht hlen ⊢
  rw [hpos]
  refine (Total.get_bind hget ?_).pre fun b h => h.1
  by_cases hd : d = 58 ∨ d = 41
  · have hdrop : (c :: s).drop (size + 2) = t := by
      rw [List.drop_succ_cons, ← List.drop_drop, ht]
      rfl
    rw [if_pos hd, if_pos hd]
    refine Total.pre (Total.put_bind (Nat.lt_succ_self _) ?_ :
      Total (Ahead t (pos + (size + 2))) _ _) fun b h => ?_
    · exact Total.pure _ fun b h => h
    · rw [← hdrop]
      exact h.1.advance (by rw [List.length_cons]; omega) h.2
  · have hle : size ≤ (c :: s).length := by
      rw [List.length_cons]
      omega
    rw [if_neg hd, if_neg hd]
    exact Total.back_bind (Total.pure _ fun b h => h.1.advance hle (by omega))

/-- The byte before the number matters only as no `NUL`. -/
theorem serialRest_timeConvert (hstrtod : Stays strtod) {d : UInt8} (hc : c ≠ 0) (hd : d ≠ 0) (h0 : 0 ∈ s) :
    serialRest (timeConvert strtod c s).2.1 = serialRest (timeConvert strtod d s).2.1 := by
  obtain ⟨e, t, ht, -, hrest⟩ := timeConvert_cases hstrtod c h0
  obtain ⟨e', t', ht', -, hrest'⟩ := timeConvert_cases hstrtod d h0
  obtain ⟨rfl, rfl⟩ := List.cons.inj (ht.symm.trans ht')
  rw [hrest, hrest']
  split
  · rfl
  · cases (strtod s).2 with
    | zero =>
      change serialRest (c :: s) = serialRest (d :: s)
      rw [serialRest, serialRest, if_pos hc, if_pos hd]
    | succ k => rfl

theorem serialAt_ahead {i : Nat} {time : Timeval} (h0 : 0 ∈ s) (hn : s.length ≤ n + 1) :
    Total (Ahead s i) (do
      let c ← get i
      if c ≠ 0 then
        let (serial, t) ← atoiUnsignedAt n (i + 1)
        let c ← get t
        return { evtno := 2, fields := [.timeval time, .int serial], next := if c = 41 then t + 1 else t }
      else return { evtno := 2, fields := [.timeval time, .int 0], next := i })
      (fun r : Filled => Ahead (serialRest s) r.next) := by
  obtain ⟨c, s, rfl⟩ := List.exists_cons_of_ne_nil (List.ne_nil_of_mem h0)
  rw [serialRest]
  by_cases hc : c = 0
  · refine Total.peek_bind ?_
    rw [if_neg (not_not.mpr hc), if_neg (not_not.mpr hc)]
    exact Total.pure _ fun _ h => h
  · have h0' := ne_zero_mem hc h0
    refine Total.next_bind ?_
    rw [if_pos hc, if_pos hc]
    refine (atoiUnsignedAt_ahead h0' (Nat.le_of_succ_le_succ hn)).bind fun r => ?_
    have hrest := zero_mem_atoiUnsigned h0'
    generalize (atoiUnsigned s).2 = t at hrest ⊢
    obtain ⟨d, t, rfl⟩ := List.exists_cons_of_ne_nil (List.ne_nil_of_mem hrest)
    by_cases hd : d = 41
    · subst hd
      exact Total.next_bind (Total.pure _ fun _ h => h)
    · refine Total.peek_bind ?_
      rw [if_neg hd]
      refine Total.pure _ fun _ h => ?_
      split
      · rename_i heq
        exact absurd (List.cons.inj heq).1 hd
      · exact h

theorem doerAuditAt_ahead (hstrtod : Stays strtod) (hc : c ≠ 0) (h0 : 0 ∈ s) (hn : s.length ≤ n) :
    Total (fun b => Ahead (c :: s) pos b ∧ pos + 1 ≤ b.seen) (doerAuditAt n strtod (pos + 1))
      (fun r => Ahead (doerAudit strtod s : Done F).rest r.next) := by
  rw [doerAudit_rest, serialRest_timeConvert hstrtod (by decide) hc h0]
  exact (timeConvertAt_ahead hstrtod h0).bind fun r =>
    serialAt_ahead (zero_mem_timeConvert hstrtod c h0)
      ((suffix_timeConvert strtod c s).length_le.trans (Nat.succ_le_succ hn))

theorem zero_mem_serialRest (h0 : 0 ∈ s) : 0 ∈ serialRest s := by
  obtain ⟨c, s, rfl⟩ := List.exists_cons_of_ne_nil (List.ne_nil_of_mem h0)
  rw [serialRest]
  split
  · rename_i hc
    have hrest := zero_mem_atoiUnsigned (ne_zero_mem hc h0)
    split
    · rename_i heq
      rw [heq] at hrest
      exact ne_zero_mem (by decide) hrest
    · exact hrest
  · exact h0

theorem suffix_atoiUnsigned (s : List UInt8) : (atoiUnsigned s).2 <:+ s := by
  unfold atoiUnsigned
  split
  · rename_i s
    exact (List.dropWhile_suffix _).trans ((List.suffix_cons 120 s).trans (List.suffix_cons 48 _))
  · rename_i s _
    exact (List.dropWhile_suffix _).trans (List.suffix_cons 48 s)
  · exact List.dropWhile_suffix _

theorem suffix_atoiSigned (s : List UInt8) : (atoiSigned s).2 <:+ s := by
  unfold atoiSigned
  split
  · rename_i s
    exact (suffix_atoiUnsigned s).trans (List.suffix_cons 45 s)
  · exact suffix_atoiUnsigned s

theorem suffix_serialRest {t : List UInt8} (hc : c ≠ 0) (ht : t <:+ c :: s) : serialRest t <:+ s := by
  have hcons : ∀ d u, serialRest (d :: u) <:+ d :: u ∧ (d ≠ 0 → serialRest (d :: u) <:+ u) := by
    intro d u
    have hu := suffix_atoiUnsigned u
    rw [serialRest]
    by_cases hd : d = 0
    · rw [if_neg (not_not.mpr hd)]
      exact ⟨List.suffix_refl _, fun h => absurd hd h⟩
    · have hsuffix : (match (atoiUnsigned u).2 with
          | 41 :: t => t
          | t => t) <:+ u := by
        split
        · rename_i t heq
          rw [heq] at hu
          exact (List.suffix_cons 41 t).trans hu
        · exact hu
      rw [if_pos hd]
      exact ⟨hsuffix.trans (List.suffix_cons d u), fun _ => hsuffix⟩
  rcases List.suffix_cons_iff.mp ht with rfl | ht
  · exact (hcons c s).2 hc
  · cases t with
    | nil => exact List.nil_suffix
    | cons d u => exact (hcons d u).1.trans ht

/-! ## Actions -/

theorem actionDoerAt_ahead (hstrtod : Stays strtod) (a : Action) (hc : c ≠ 0) (h0 : 0 ∈ s)
    (hn : s.length ≤ n) :
    Total (fun b => Ahead (c :: s) pos b ∧ pos + 1 ≤ b.seen) (actionDoerAt n strtod a (pos + 1))
      (fun r => Ahead (actionDoer strtod a s : Done F).rest r.next) := by
  have hnext : ∀ b, Ahead (c :: s) pos b ∧ pos + 1 ≤ b.seen → Ahead s (pos + 1) b :=
    fun b h => h.1.advance (k := 1) (Nat.le_add_left 1 _) h.2
  obtain ⟨name, code, evtno⟩ := a
  cases code with
  | audit => exact doerAuditAt_ahead hstrtod hc h0 hn
  | int => exact (doerIntAt_ahead h0 hn).pre hnext
  | hex => exact (doerHexAt_ahead h0 hn).pre hnext
  | string => exact (doerStringAt_ahead h0 hn).pre hnext
  | dev => exact (doerDevAt_ahead h0 hn).pre hnext

theorem suffix_doerString (s : List UInt8) : (doerString s evtno : Done F).rest <:+ s := by
  unfold doerString
  split
  · rename_i t
    exact (suffix_unquote _ t).trans (List.suffix_cons 34 t)
  · exact suffix_doerId s

theorem suffix_actionDoer (strtod : List UInt8 → Timeval × Nat) (a : Action) (s : List UInt8) :
    (actionDoer strtod a s : Done F).rest <:+ s := by
  unfold actionDoer
  split
  · rw [doerAudit_rest]
    exact suffix_serialRest (by decide) (suffix_timeConvert strtod 40 s)
  · exact suffix_atoiSigned s
  · exact List.dropWhile_suffix _
  · exact suffix_doerString s
  · rw [doerDev_rest]
    exact (suffix_atoiUnsigned _).trans (suffix_minorRest s)

/-- A line, or the end of one, with its `NUL`. -/
def Ends (s : List UInt8) : Prop := ∃ t, 0 ∉ t ∧ s = t ++ [0]

theorem Ends.zero_mem (h : Ends s) : 0 ∈ s := by
  obtain ⟨t, -, rfl⟩ := h
  exact List.mem_append_right t (List.mem_singleton_self 0)

theorem Ends.suffix {t : List UInt8} (h : Ends s) (ht : t <:+ s) : t = [] ∨ Ends t := by
  obtain ⟨u, hu, rfl⟩ := h
  rcases List.suffix_concat_iff.mp ht with rfl | ⟨v, rfl, hv⟩
  · exact .inl rfl
  · exact .inr ⟨v, fun hmem => hu (hv.subset hmem), rfl⟩

theorem Ends.tail (h : Ends (c :: s)) (hc : c ≠ 0) : Ends s := by
  refine (h.suffix (List.suffix_cons c s)).resolve_left ?_
  rintro rfl
  exact absurd (List.mem_singleton.mp h.zero_mem) (Ne.symm hc)

/-- Both come back, or both read behind the text. -/
def InStep {α β : Type} (y : Except Reject α) (x : Except Breach β) : Prop :=
  (∃ d r, y = .ok d ∧ x = .ok r) ∨ y = .error (.crash .overread) ∧ x = .error .overread

/-- The positions and the texts of `Orchids.Mod.Auditd` go on in step. -/
theorem actionParseEventAt_inStep (hstrtod : Stays strtod) (node : List Action) (hs : s = [] ∨ Ends s)
    (hn : s.length < n) {b : Tape UInt8} (hb : Ahead s pos b) :
    InStep (actionParseEvent strtod n node s : Except Reject (List (Done F)))
      (actionParseEventAt strtod n node pos b) := by
  induction n generalizing node s pos b with
  | zero => cases hn
  | succ n ih =>
    cases s with
    | nil => exact .inr ⟨rfl, run_bind_error hb.get_error⟩
    | cons c s =>
      have hs : Ends (c :: s) := hs.resolve_left (List.cons_ne_nil c s)
      have hn : s.length < n := Nat.lt_of_succ_lt_succ hn
      obtain ⟨b', hget, hb'⟩ := hb.get (k := 0) rfl
      rw [Nat.add_zero] at hget hb'
      have hnext : Ahead s (pos + 1) b' := hb'.1.advance (k := 1) (Nat.le_add_left 1 _) hb'.2
      rw [actionParseEventAt, run_bind hget, actionParseEvent]
      by_cases hc : c = 0
      · rw [if_pos hc, if_pos hc]
        exact .inl ⟨_, _, rfl, rfl⟩
      · have htail := hs.tail hc
        rw [if_neg hc, if_neg hc]
        by_cases hskip : node = actions ∧ isSpace c
        · rw [if_pos hskip, if_pos hskip]
          exact ih actions (.inr htail) hn hnext
        · rw [if_neg hskip, if_neg hskip]
          dsimp only
          by_cases hnone : proceed node c = []
          · rw [if_pos hnone, if_pos hnone]
            exact ih actions (.inr htail) hn hnext
          · rw [if_neg hnone, if_neg hnone]
            cases hend : endTag (proceed node c) with
            | none => exact ih _ (.inr htail) hn hnext
            | some a =>
              obtain ⟨done, b'', hrun, hb''⟩ :=
                actionDoerAt_ahead (F := F) hstrtod a hc htail.zero_mem (Nat.le_of_lt hn) b' hb'
              have hrest := suffix_actionDoer (F := F) strtod a s
              have hmore := ih actions (htail.suffix hrest) (hrest.length_le.trans_lt hn) hb''
              dsimp only
              rw [run_bind hrun]
              rcases hmore with ⟨d, r, hd, hr⟩ | ⟨hd, hr⟩
              · refine .inl ⟨_, _, bind_of_ok hd _, run_bind hr⟩
              · refine .inr ⟨?_, run_bind_error hr⟩
                rw [hd]
                rfl

/-! ## Open quoted texts -/

/-- A quoted text that is open at its end, after a backslash. -/
inductive Dangling : List UInt8 → Prop
  | stop : Dangling [92]
  | plain {c : UInt8} {t : List UInt8} (hquote : c ≠ 34) (hesc : c ≠ 92) (h : Dangling t) :
    Dangling (c :: t)
  | escaped {c : UInt8} {t : List UInt8} (hquote : c ≠ 34) (h : Dangling t) : Dangling (92 :: c :: t)

theorem not_dangling_nil : ¬ Dangling [] := nofun

theorem not_dangling_quote {t : List UInt8} : ¬ Dangling (34 :: t) := by
  intro h
  cases h with
  | plain hquote => exact hquote rfl

theorem dangling_cons {t : List UInt8} (hquote : c ≠ 34) (hesc : c ≠ 92) :
    Dangling (c :: t) ↔ Dangling t := by
  constructor
  · intro h
    cases h with
    | stop => exact absurd rfl hesc
    | plain _ _ h => exact h
    | escaped => exact absurd rfl hesc
  · exact .plain hquote hesc

theorem dangling_escaped {t : List UInt8} :
    Dangling (92 :: c :: t) ↔ c ≠ 34 ∧ Dangling t := by
  constructor
  · intro h
    cases h with
    | plain _ hesc => exact absurd rfl hesc
    | escaped hquote h => exact ⟨hquote, h⟩
  · exact fun h => .escaped h.1 h.2

theorem isOctal_ne (hc : isOctal c) : c ≠ 34 ∧ c ≠ 92 := by
  constructor <;>
  · rintro rfl
    exact absurd hc (by decide)

/-- The digits of an octal escape do not matter for what is open. -/
theorem octalEscape_dangling {t : List UInt8} (c : UInt8) :
    ∃ u, (octalEscape c (t ++ [0])).2 = u ++ [0] ∧ u <:+ t ∧ (Dangling t ↔ Dangling u) := by
  obtain ⟨d, x, hx, hd, hrest⟩ | ⟨d, e, x, hx, hd, -, hrest⟩ :=
    octalEscape_cases c (List.mem_append_right t (List.mem_singleton_self 0))
  · exact ⟨t, hrest, List.suffix_refl t, Iff.rfl⟩
  · cases t with
    | nil =>
      have h := congrArg List.length hx
      simp at h
    | cons d' t =>
      obtain ⟨rfl, ht⟩ := List.cons.inj hx
      have hdang : Dangling (d' :: t) ↔ Dangling t := dangling_cons (isOctal_ne hd).1 (isOctal_ne hd).2
      by_cases he : isOctal e
      · cases t with
        | nil =>
          obtain ⟨rfl, -⟩ := List.cons.inj ht
          exact absurd he (by decide)
        | cons e' t =>
          obtain ⟨rfl, rfl⟩ := List.cons.inj ht
          rw [if_pos he] at hrest
          refine ⟨t, hrest, (List.suffix_cons e' t).trans (List.suffix_cons d' _), hdang.trans ?_⟩
          exact dangling_cons (isOctal_ne he).1 (isOctal_ne he).2
      · rw [if_neg he, ← ht] at hrest
        exact ⟨t, hrest, List.suffix_cons d' t, hdang⟩

theorem unquote_rest {m : Nat} {t : List UInt8} (ht : 0 ∉ t) (hm : t.length < m) :
    (unquote m (t ++ [0])).2 = [] ↔ Dangling t := by
  induction m generalizing t with
  | zero => cases hm
  | succ m ih =>
    cases t with
    | nil => exact iff_of_false (List.cons_ne_nil 0 []) not_dangling_nil
    | cons c t =>
      have hc : c ≠ 0 := fun h => ht (h ▸ List.mem_cons_self)
      have ht' : 0 ∉ t := fun h => ht (List.mem_cons_of_mem c h)
      have hm' : t.length < m := Nat.lt_of_succ_lt_succ hm
      have hne : t ++ [0] ≠ [] := List.append_ne_nil_of_right_ne_nil t (List.cons_ne_nil 0 [])
      rw [List.cons_append, unquote.eq_def]
      dsimp only
      rw [if_neg hc]
      by_cases hquote : c = 34
      · rw [if_pos hquote, hquote]
        exact iff_of_false hne not_dangling_quote
      · rw [if_neg hquote]
        by_cases hesc : c = 92
        · rw [if_pos hesc, hesc]
          cases t with
          | nil => exact iff_of_true rfl .stop
          | cons d t =>
            have hd : d ≠ 0 := fun h => ht' (h ▸ List.mem_cons_self)
            rw [List.cons_append, dangling_escaped]
            dsimp only
            by_cases hq : d = 34
            · rw [if_pos (.inr hq)]
              exact iff_of_false (List.append_ne_nil_of_right_ne_nil t (List.cons_ne_nil 0 []))
                fun h => h.1 hq
            · have ht'' : 0 ∉ t := fun h => ht' (List.mem_cons_of_mem d h)
              have hm'' : t.length < m := Nat.lt_of_succ_lt hm'
              rw [if_neg (not_or.mpr ⟨hd, hq⟩)]
              by_cases hoct : isOctal d
              · obtain ⟨u, hu, hsuffix, hdang⟩ := @octalEscape_dangling t d
                rw [if_pos hoct, hu, hdang, ← ih (fun h => ht'' (hsuffix.subset h))
                  (hsuffix.length_le.trans_lt hm'')]
                exact (and_iff_right hq).symm
              · rw [if_neg hoct, ← ih ht'' hm'']
                exact (and_iff_right hq).symm
        · rw [if_neg hesc, dangling_cons hquote hesc, ← ih ht' hm']

/-- Only a quoted text that is open takes an action past the `NUL`. -/
theorem actionDoer_rest_eq_nil (hstrtod : Stays strtod) (a : Action) (hs : Ends s) :
    (actionDoer strtod a s : Done F).rest = [] ↔
      a.code = .string ∧ ∃ t, s = 34 :: (t ++ [0]) ∧ Dangling t := by
  have h0 := hs.zero_mem
  have hne : ∀ {u : List UInt8}, 0 ∈ u → a.code ≠ .string →
      (u = [] ↔ a.code = .string ∧ ∃ t, s = 34 :: (t ++ [0]) ∧ Dangling t) :=
    fun hu hcode => iff_of_false (List.ne_nil_of_mem hu) fun h => hcode h.1
  obtain ⟨name, code, evtno⟩ := a
  cases code with
  | audit =>
    rw [actionDoer, doerAudit_rest]
    exact hne (zero_mem_serialRest (zero_mem_timeConvert hstrtod 40 h0)) nofun
  | int => exact hne (zero_mem_atoiSigned h0) nofun
  | hex => exact hne (zero_mem_dropWhile (by decide) h0) nofun
  | dev =>
    rw [actionDoer, doerDev_rest]
    exact hne (zero_mem_atoiUnsigned (zero_mem_minorRest h0)) nofun
  | string =>
    obtain ⟨t, ht, rfl⟩ := hs
    change (doerString (t ++ [0]) evtno : Done F).rest = [] ↔ _
    rw [and_iff_right rfl]
    by_cases hquote : ∃ u, t = 34 :: u
    · obtain ⟨u, rfl⟩ := hquote
      have hu : 0 ∉ u := fun h => ht (List.mem_cons_of_mem 34 h)
      have hlen : u.length < (u ++ [0]).length := by
        rw [List.length_append]
        exact Nat.lt_succ_self _
      change (unquote (u ++ [0]).length (u ++ [0])).2 = [] ↔ _
      rw [unquote_rest hu hlen]
      constructor
      · exact fun h => ⟨u, rfl, h⟩
      · rintro ⟨v, hv, h⟩
        rw [List.cons_append, List.cons.injEq, List.append_left_inj] at hv
        rw [hv.2]
        exact h
    · have hfirst : ∀ u, t ++ [0] ≠ 34 :: u := by
        intro u hu
        cases t with
        | nil => exact absurd (List.cons.inj hu).1 (by decide)
        | cons c t => exact hquote ⟨t, congrArg (· :: t) (List.cons.inj hu).1⟩
      have hword : (doerString (t ++ [0]) evtno : Done F) = doerId (t ++ [0]) evtno := by
        rw [doerString.eq_def]
        split
        · rename_i u hu
          exact absurd hu (hfirst u)
        · rfl
      rw [hword]
      refine iff_of_false (List.ne_nil_of_mem (zero_mem_doerId h0)) ?_
      rintro ⟨u, hu, -⟩
      exact hfirst _ hu

/-- From here the scan comes to a quoted text that is open at the end of the line, after a backslash. -/
inductive Opens (strtod : List UInt8 → Timeval × Nat) : List Action → List UInt8 → Prop
  | opened {node : List Action} {c : UInt8} {t : List UInt8} {a : Action} (hc : c ≠ 0)
    (hstay : ¬ (node = actions ∧ isSpace c)) (hend : endTag (proceed node c) = some a)
    (hcode : a.code = .string) (h : Dangling t) : Opens strtod node (c :: 34 :: (t ++ [0]))
  | blank {c : UInt8} {s : List UInt8} (hc : c ≠ 0) (hspace : isSpace c) (h : Opens strtod actions s) :
    Opens strtod actions (c :: s)
  | foiled {node : List Action} {c : UInt8} {s : List UInt8} (hc : c ≠ 0)
    (hstay : ¬ (node = actions ∧ isSpace c)) (hnone : proceed node c = [])
    (h : Opens strtod actions s) : Opens strtod node (c :: s)
  | part {node : List Action} {c : UInt8} {s : List UInt8} (hc : c ≠ 0)
    (hstay : ¬ (node = actions ∧ isSpace c)) (hsome : proceed node c ≠ [])
    (hend : endTag (proceed node c) = none) (h : Opens strtod (proceed node c) s) :
    Opens strtod node (c :: s)
  | action {node : List Action} {c : UInt8} {s : List UInt8} {a : Action} (hc : c ≠ 0)
    (hstay : ¬ (node = actions ∧ isSpace c)) (hend : endTag (proceed node c) = some a)
    (h : Opens strtod actions (actionDoer strtod a s : Done Unit).rest) : Opens strtod node (c :: s)

section

variable {node : List Action}

theorem opens_of_blank (hc : c ≠ 0) (hskip : node = actions ∧ isSpace c) :
    Opens strtod node (c :: s) ↔ Opens strtod actions s := by
  refine ⟨fun h => ?_, fun h => hskip.1 ▸ .blank hc hskip.2 h⟩
  cases h with
  | opened _ hstay => exact absurd hskip hstay
  | blank _ _ h => exact h
  | foiled _ hstay => exact absurd hskip hstay
  | part _ hstay => exact absurd hskip hstay
  | action _ hstay => exact absurd hskip hstay

theorem opens_of_foiled (hc : c ≠ 0) (hstay : ¬ (node = actions ∧ isSpace c))
    (hnone : proceed node c = []) : Opens strtod node (c :: s) ↔ Opens strtod actions s := by
  refine ⟨fun h => ?_, .foiled hc hstay hnone⟩
  cases h with
  | opened _ _ hend =>
    rw [hnone] at hend
    cases hend
  | blank _ hspace => exact absurd ⟨rfl, hspace⟩ hstay
  | foiled _ _ _ h => exact h
  | part _ _ hsome => exact absurd hnone hsome
  | action _ _ hend =>
    rw [hnone] at hend
    cases hend

theorem opens_of_part (hc : c ≠ 0) (hstay : ¬ (node = actions ∧ isSpace c)) (hsome : proceed node c ≠ [])
    (hend : endTag (proceed node c) = none) :
    Opens strtod node (c :: s) ↔ Opens strtod (proceed node c) s := by
  refine ⟨fun h => ?_, .part hc hstay hsome hend⟩
  cases h with
  | opened _ _ hend' => cases hend.symm.trans hend'
  | blank _ hspace => exact absurd ⟨rfl, hspace⟩ hstay
  | foiled _ _ hnone => exact absurd hnone hsome
  | part _ _ _ _ h => exact h
  | action _ _ hend' => cases hend.symm.trans hend'

theorem opens_of_action {a : Action} (hc : c ≠ 0) (hstay : ¬ (node = actions ∧ isSpace c))
    (hend : endTag (proceed node c) = some a) :
    Opens strtod node (c :: s) ↔
      (a.code = .string ∧ ∃ t, s = 34 :: (t ++ [0]) ∧ Dangling t) ∨
        Opens strtod actions (actionDoer strtod a s : Done Unit).rest := by
  constructor
  · intro h
    cases h with
    | opened _ _ hend' hcode h =>
      cases hend.symm.trans hend'
      exact .inl ⟨hcode, _, rfl, h⟩
    | blank _ hspace => exact absurd ⟨rfl, hspace⟩ hstay
    | foiled _ _ hnone =>
      rw [hnone] at hend
      cases hend
    | part _ _ _ hend' => cases hend.symm.trans hend'
    | action _ _ hend' h =>
      cases hend.symm.trans hend'
      exact .inr h
  · rintro (⟨hcode, t, rfl, h⟩ | h)
    · exact .opened hc hstay hend hcode h
    · exact .action hc hstay hend h

theorem not_opens_zero : ¬ Opens strtod node (0 :: s) := by
  intro h
  cases h with
  | opened hc => exact hc rfl
  | blank hc => exact hc rfl
  | foiled hc => exact hc rfl
  | part hc => exact hc rfl
  | action hc => exact hc rfl

/-- From a text with one `NUL`, at its end, the scan leaves it only past an open text. -/
theorem leaves_iff_opens (hstrtod : Stays strtod) (hs : Ends s) :
    Leaves strtod node s ↔ Opens strtod node s := by
  obtain ⟨n, hn⟩ : ∃ n, s.length < n := ⟨_, Nat.lt_succ_self _⟩
  induction n generalizing node s with
  | zero => cases hn
  | succ n ih =>
    obtain ⟨c, s, rfl⟩ := List.exists_cons_of_ne_nil (List.ne_nil_of_mem hs.zero_mem)
    have hn : s.length < n := Nat.lt_of_succ_lt_succ hn
    by_cases hc : c = 0
    · subst hc
      exact iff_of_false not_leaves_zero not_opens_zero
    · have htail := hs.tail hc
      by_cases hskip : node = actions ∧ isSpace c
      · rw [leaves_of_blank hc hskip, opens_of_blank hc hskip]
        exact ih htail hn
      · by_cases hnone : proceed node c = []
        · rw [leaves_of_foiled hc hskip hnone, opens_of_foiled hc hskip hnone]
          exact ih htail hn
        · cases hend : endTag (proceed node c) with
          | none =>
            rw [leaves_of_part hc hskip hnone hend, opens_of_part hc hskip hnone hend]
            exact ih htail hn
          | some a =>
            have hsuffix := suffix_actionDoer (F := Unit) strtod a s
            rw [leaves_of_action hc hskip hend, opens_of_action hc hskip hend,
              ← actionDoer_rest_eq_nil (F := Unit) hstrtod a htail]
            by_cases hrest : (actionDoer strtod a s : Done Unit).rest = []
            · rw [hrest]
              exact iff_of_true (.behind actions) (.inl rfl)
            · rw [or_iff_right hrest]
              exact ih ((htail.suffix hsuffix).resolve_left hrest)
                (hsuffix.length_le.trans_lt hn)

/-- The function of `Orchids.Mod.Auditd` comes back unless there is an open text. -/
theorem actionParseEvent_eq_ok_iff (hstrtod : Stays strtod) (hs : Ends s) (hn : s.length < n) :
    (∃ dones : List (Done Unit), actionParseEvent strtod n node s = .ok dones) ↔
      ¬ Opens strtod node s := by
  rw [← leaves_iff_opens hstrtod hs, ← crashes_actionParseEvent (F := Unit) strtod node hn]
  cases h : actionParseEvent strtod n node s with
  | ok dones => exact iff_of_true ⟨dones, rfl⟩ (not_crashes_ok dones)
  | error e =>
    cases e with
    | failed => exact (actionParseEvent_ne_failed strtod n node s h).elim
    | crash c => exact iff_of_false (fun hok => nomatch hok) (not_not.mpr ⟨c, rfl⟩)

/-- What the dissector can read of the lines without `NUL`. -/
theorem readable_iff (hstrtod : Stays strtod) {line : Text} (h0 : 0 ∉ line.bytes) :
    Readable strtod line ↔ ¬ Opens strtod actions (line.bytes ++ [0]) :=
  not_congr (leaves_iff_opens hstrtod ⟨line.bytes, h0, rfl⟩)

end

end

theorem InStep.ok_iff {α β : Type} {y : Except Reject α} {x : Except Breach β} (h : InStep y x) :
    (∃ r, x = .ok r) ↔ ∃ d, y = .ok d := by
  obtain ⟨d, r, rfl, rfl⟩ | ⟨rfl, rfl⟩ := h
  · exact iff_of_true ⟨r, rfl⟩ ⟨d, rfl⟩
  · exact iff_of_false nofun nofun

theorem ahead_unread (line : CStr) : Ahead (line ++ [0]) 0 (unread line) :=
  ⟨rfl, Nat.le_refl 0, Nat.zero_le _⟩

/-- A line is parsed: with enough steps the parser comes back, without a read behind the `NUL` and
without a write where it has not read yet. -/
def Parses (strtod : List UInt8 → Timeval × Nat) (line : CStr) : Prop :=
  ∀ᶠ n in Filter.atTop, ∃ r, actionParseEventAt strtod n actions 0 (unread line) = .ok r

theorem actionParseEventAt_ok_iff {strtod : List UInt8 → Timeval × Nat} (hstrtod : Stays strtod)
    {line : CStr} (hline : 0 ∉ line) {n : Nat} (hn : (line ++ [0]).length < n) :
    (∃ r, actionParseEventAt strtod n actions 0 (unread line) = .ok r) ↔
      ¬ Opens strtod actions (line ++ [0]) := by
  have hs : Ends (line ++ [0]) := ⟨line, hline, rfl⟩
  have hstep := actionParseEventAt_inStep (F := Unit) hstrtod actions (.inr hs) hn (ahead_unread line)
  exact hstep.ok_iff.trans (actionParseEvent_eq_ok_iff hstrtod hs hn)

/-- A line is parsed exactly when its scan comes to no quoted text that is open at the end of the line and
has a backslash there. -/
theorem parses_iff {strtod : List UInt8 → Timeval × Nat} (hstrtod : Stays strtod) {line : CStr}
    (hline : 0 ∉ line) : Parses strtod line ↔ ¬ Opens strtod actions (line ++ [0]) := by
  constructor
  · intro h
    obtain ⟨n, hok, hn⟩ := (h.and (Filter.eventually_gt_atTop (line ++ [0]).length)).exists
    exact (actionParseEventAt_ok_iff hstrtod hline hn).mp hok
  · intro h
    filter_upwards [Filter.eventually_gt_atTop (line ++ [0]).length] with n hn
    exact (actionParseEventAt_ok_iff hstrtod hline hn).mpr h

def digitValue (c : UInt8) : Nat :=
  if c ≤ 57 then c.toNat - 48 else if c ≤ 70 then c.toNat - 55 else c.toNat - 87

/-- The number that digits stand for. -/
def numeral (base : Nat) (ds : CStr) : Nat := ds.foldl (fun n c => n * base + digitValue c) 0

/-- `strtod` of the seconds, without a fraction. -/
def strtodSeconds (s : List UInt8) : Timeval × Nat :=
  ({ sec := BitVec.ofNat 64 (numeral 10 (s.takeWhile isDigit)), usec := 0 }, (s.takeWhile isDigit).length)

theorem stays_strtodSeconds : Stays strtodSeconds := by
  intro s h0
  have hdigits : s.take (s.takeWhile isDigit).length = s.takeWhile isDigit :=
    List.prefix_iff_eq_take.mp (List.takeWhile_prefix _) |>.symm
  rw [strtodSeconds, hdigits] at h0
  exact absurd (List.mem_takeWhile_imp h0) (by decide)

/-- A header, a number, and a quoted text with escapes. -/
def commLine : CStr := ascii "msg=audit(1144670400:0451): pid=7 comm=\"a\\101\\tb\" key=x"

theorem parses_commLine : Parses strtodSeconds commLine := by
  have h0 : 0 ∉ commLine := by decide
  refine (parses_iff stays_strtodSeconds h0).mpr ?_
  refine (actionParseEvent_eq_ok_iff (n := 80) stays_strtodSeconds ⟨commLine, h0, rfl⟩ (by decide)).mp ?_
  have hok : (actionParseEvent strtodSeconds 80 actions (commLine ++ [0]) :
      Except Reject (List (Done Unit))).isOk = true := by decide +kernel
  cases h : (actionParseEvent strtodSeconds 80 actions (commLine ++ [0]) :
      Except Reject (List (Done Unit))) with
  | ok dones => exact ⟨dones, rfl⟩
  | error e =>
    rw [h] at hok
    cases hok

/-- The quoted text is taken past the `NUL` by a backslash. -/
theorem not_parses : ¬ Parses (fun _ => ({ sec := 0, usec := 0 }, 0)) (ascii "key=\"\\") := by
  intro h
  obtain ⟨n, hok, hn⟩ := (h.and (Filter.eventually_gt_atTop (ascii "key=\"\\" ++ [0]).length)).exists
  refine (actionParseEventAt_ok_iff (fun _ => List.not_mem_nil) (by decide) hn).mp hok ?_
  refine .part (by decide) (by decide) (by decide) (by decide) ?_
  refine .part (by decide) (by decide) (by decide) (by decide) ?_
  refine .part (by decide) (by decide) (by decide) (by decide) ?_
  exact .opened (a := ⟨[], .string, 29⟩) (by decide) (by decide) (by decide) rfl .stop

end Auditd

end Orchids
