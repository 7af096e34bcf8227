import Orchids.Lib.Except
import Orchids.Lib.Fuel
import Orchids.Lib.Lists
import Orchids.Mod.Auditd
import Orchids.Mod.Generic
import Orchids.Mod.Records

/-!
# What a dissector can read

For each dissector the values that it comes back from, with fields or without.

* `Crashes`: a result that is a crash; where one of a sequence is.
* `crashes_syslogAttrs`, `crashes_netfilterAttrs`, `crashes_snareAttrs`, `crashes_auditdParse`,
  `crashes_prism2Attrs`, `crashes_genericAttrs`: a dissector crashes on the values that are not
  `Readable` for it.
-/

namespace Orchids

/-! ## Crashes -/

/-- The program stops. -/
def Crashes {α : Type} (r : Except Reject α) : Prop := ∃ c, r = .error (.crash c)

section

variable {α β : Type}

@[simp] theorem not_crashes_ok (a : α) : ¬ Crashes (.ok a) := by rintro ⟨c, ⟨⟩⟩

@[simp] theorem not_crashes_pure (a : α) : ¬ Crashes (pure a) := not_crashes_ok a

@[simp] theorem not_crashes_failed : ¬ Crashes (.error .failed : Except Reject α) := by
  rintro ⟨c, ⟨⟩⟩

@[simp] theorem not_crashes_throw : ¬ Crashes (throw .failed : Except Reject α) :=
  not_crashes_failed

@[simp] theorem crashes_crash (c : Crash) : Crashes (.error (.crash c) : Except Reject α) := ⟨c, rfl⟩

theorem crashes_bind {r : Except Reject α} {f : α → Except Reject β} :
    Crashes (r >>= f) ↔ Crashes r ∨ ∃ a, r = .ok a ∧ Crashes (f a) := by
  cases r with
  | error e =>
    constructor
    · rintro ⟨c, hc⟩
      cases hc
      exact .inl ⟨c, rfl⟩
    · rintro (⟨c, hc⟩ | ⟨a, ⟨⟩, -⟩)
      cases hc
      exact ⟨c, rfl⟩
  | ok a =>
    constructor
    · exact fun h => .inr ⟨a, rfl, h⟩
    · rintro (⟨c, ⟨⟩⟩ | ⟨a', ha, h⟩)
      cases ha
      exact h

/-- Nothing after the first part crashes. -/
theorem crashes_bind_left {r : Except Reject α} {f : α → Except Reject β}
    (hf : ∀ a, ¬ Crashes (f a)) : Crashes (r >>= f) ↔ Crashes r := by
  rw [crashes_bind]
  exact ⟨fun h => h.resolve_right fun ⟨a, _, ha⟩ => hf a ha, .inl⟩

end

variable {F : Type}

/-- A dissector that reads a text object. -/
theorem crashes_strValue_bind {α : Type} {f : Text → Except Reject α} {v : OvmVar F}
    (P : Text → Prop) (hf : ∀ line, Crashes (f line) ↔ ¬ P line) :
    Crashes (strValue v >>= f) ↔ ¬ ∃ line, v = .str line ∧ P line := by
  cases v with
  | str line =>
    refine (hf line).trans (not_congr ?_)
    constructor
    · exact fun h => ⟨line, rfl, h⟩
    · rintro ⟨line', hline, h⟩
      cases hline
      exact h
  | _ =>
    refine iff_of_true (crashes_crash .misread) ?_
    rintro ⟨line, ⟨⟩, -⟩

/-! ## `dissect_syslog` -/

namespace Syslog

/-- The priority of the line, if it has one, is not negative. -/
def Readable (line : Text) : Prop :=
  line.byteAt 0 = 60 →
    0 ≤ (getNextInt (line.advance 1) (toSize (toInt line.bytes.length))).2.toInt

theorem facilities_eq_none {priority : BitVec 64} (h : ¬ (191 : BitVec 64).slt priority) :
    facilities[priority.toNat >>> 3]? = none ↔ ¬ 0 ≤ priority.toInt := by
  have hlen : facilities.length = 24 := rfl
  rw [List.getElem?_eq_none_iff, hlen, Nat.shiftRight_eq_div_pow]
  have hle : priority.toInt ≤ 191 := by
    rw [BitVec.slt_iff_toInt_lt] at h
    exact Int.not_lt.mp h
  rw [BitVec.toInt_eq_toNat_cond] at hle ⊢
  have := priority.isLt
  split at hle <;> rename_i hlt
  · rw [if_pos hlt]
    omega
  · rw [if_neg hlt]
    omega

namespace State

variable (s : State F) (mktime : Tm → BitVec 64)

theorem crashes_readPriority : Crashes s.readPriority ↔ s.txtLine.byteAt 0 = 60 ∧
    ¬ 0 ≤ (getNextInt (s.txtLine.advance 1) (toSize s.txtLen)).2.toInt := by
  unfold readPriority
  split
  · rename_i h60
    dsimp only
    split
    · rename_i hpri
      refine iff_of_false not_crashes_failed ?_
      rintro ⟨-, hneg⟩
      rw [BitVec.slt_iff_toInt_lt] at hpri
      have : (191 : BitVec 64).toInt = 191 := rfl
      omega
    · rename_i hpri
      have hiff := facilities_eq_none hpri
      split
      · rename_i hnone
        exact iff_of_true (crashes_crash _) ⟨h60, hiff.mp hnone⟩
      · rename_i facility hsome
        refine iff_of_false (not_crashes_ok _) ?_
        rintro ⟨-, hneg⟩
        rw [hiff.mpr hneg] at hsome
        cases hsome
  · rename_i h60
    exact iff_of_false (not_crashes_ok _) fun h => h60 h.1

theorem not_crashes_checkLen : ¬ Crashes s.checkLen := by
  unfold checkLen
  split
  · exact not_crashes_failed
  · exact not_crashes_ok _

theorem not_crashes_readDate : ¬ Crashes (s.readDate mktime) := by
  unfold readDate
  split
  · split
    · exact not_crashes_failed
    · exact not_crashes_ok _
  · exact not_crashes_ok _

theorem not_crashes_readHost : ¬ Crashes s.readHost := by
  unfold readHost
  dsimp only
  split
  · exact not_crashes_checkLen _
  · exact not_crashes_ok _

theorem not_crashes_readProg : ¬ Crashes s.readProg := not_crashes_checkLen _

theorem not_crashes_readPid : ¬ Crashes s.readPid := by
  unfold readPid
  split
  · exact not_crashes_checkLen _
  · split <;> exact not_crashes_checkLen _

end State

/-- Only the priority is looked up. -/
theorem crashes_attrs (mktime : Tm → BitVec 64) (line : Text) :
    Crashes (attrs mktime line : Except Reject (Attr F)) ↔ ¬ Readable line := by
  unfold attrs Readable
  dsimp only
  rw [crashes_bind_left, State.crashes_readPriority]
  · exact Classical.not_imp.symm
  intro s₁
  rw [crashes_bind_left]
  · exact State.not_crashes_readDate s₁ mktime
  intro s₂
  rw [crashes_bind_left]
  · exact State.not_crashes_checkLen s₂
  intro s₃
  rw [crashes_bind_left]
  · exact State.not_crashes_readHost s₃
  intro s₄
  split
  · exact not_crashes_pure _
  · rw [crashes_bind_left]
    · exact State.not_crashes_readProg s₄
    intro s₅
    rw [crashes_bind_left]
    · exact State.not_crashes_readPid s₅
    intro s₆
    exact not_crashes_pure _

end Syslog

theorem crashes_syslogAttrs (mktime : Tm → BitVec 64) (v : OvmVar F) :
    Crashes (syslogAttrs mktime v) ↔ ¬ ∃ line, v = .str line ∧ Syslog.Readable line := by
  unfold syslogAttrs
  refine crashes_strValue_bind _ fun line => ?_
  rw [crashes_bind_left fun _ => not_crashes_pure _]
  exact Syslog.crashes_attrs mktime line

/-! ## `netfilter_dissect` and `snare_dissect` -/

/-- The parser keeps to the attributes. -/
def KeepsTo (size : Nat) (parser : AttrParser F) (line : Text) : Prop :=
  ∀ a ∈ (parser line).2, a.1 < size

theorem crashes_assignAttrs (size : Nat) (l : List (Nat × OvmVar F))
    (attr : List (Slot (OvmVar F))) :
    Crashes (assignAttrs size l attr) ↔ ¬ ∀ a ∈ l, a.1 < size := by
  induction l generalizing attr with
  | nil => exact iff_of_false (not_crashes_ok _) fun h => h (List.forall_mem_nil _)
  | cons a l ih =>
    obtain ⟨i, v⟩ := a
    rw [List.forall_mem_cons]
    simp only [assignAttrs]
    split
    · rename_i hi
      rw [ih]
      exact not_congr (and_iff_right hi).symm
    · rename_i hi
      exact iff_of_true (crashes_crash _) fun h => hi h.1

theorem crashes_parsedAttrs (size : Nat) (parser : AttrParser F) (line : Text) :
    Crashes (parsedAttrs size parser line) ↔ ¬ KeepsTo size parser line := by
  unfold parsedAttrs
  dsimp only
  rw [crashes_bind_left, crashes_assignAttrs]
  · rfl
  intro attr
  split
  · exact not_crashes_pure _
  · exact not_crashes_throw

theorem crashes_netfilterAttrs (parser : AttrParser F) (v : OvmVar F) :
    Crashes (netfilterAttrs parser v) ↔
      ¬ ∀ line, v = .str line ∨ v = .vstr line → KeepsTo netfilterFields parser line := by
  cases v with
  | str line | vstr line =>
    refine (crashes_parsedAttrs netfilterFields parser line).trans (not_congr ?_)
    constructor
    · rintro h line' (hline | hline) <;> cases hline
      exact h
    · intro h
      exact h line (by simp)
  | _ =>
    refine iff_of_false not_crashes_failed fun h => h ?_
    rintro line (⟨⟨⟩⟩ | ⟨⟨⟩⟩)

theorem crashes_snareAttrs (parser : AttrParser F) (v : OvmVar F) :
    Crashes (snareAttrs parser v) ↔
      ¬ ∃ line, v = .str line ∧ KeepsTo snareFields parser line := by
  unfold snareAttrs
  exact crashes_strValue_bind _ fun line => crashes_parsedAttrs _ parser line

/-! ## `prism2_callback` -/

theorem crashes_prism2Attrs (v : OvmVar F) :
    Crashes (prism2Attrs v) ↔ ¬ ∃ packet, v = .bstr packet := by
  cases v with
  | bstr packet =>
    refine iff_of_false ?_ fun h => h ⟨packet, rfl⟩
    simp only [prism2Attrs]
    split
    · exact not_crashes_failed
    · exact not_crashes_ok _
  | _ =>
    refine iff_of_true (crashes_crash .misread) ?_
    rintro ⟨packet, ⟨⟩⟩

/-! ## `dissect_auditd` -/

namespace Auditd

/-! No action goes on before the place where it starts, so that there are steps enough. -/

theorem length_atoiHex (s : List UInt8) : (atoiHex s).2.length ≤ s.length :=
  List.length_dropWhile_le _ s

theorem length_atoiDec (s : List UInt8) : (atoiDec s).2.length ≤ s.length :=
  List.length_dropWhile_le _ s

theorem length_atoiUnsigned (s : List UInt8) : (atoiUnsigned s).2.length ≤ s.length := by
  unfold atoiUnsigned
  split
  · rename_i s
    have := length_atoiHex s
    simp only [List.length_cons]
    omega
  · rename_i s _
    have := List.length_dropWhile_le (fun c => decide (48 ≤ c) && decide (c < 56)) s
    simp only [List.length_cons]
    omega
  · exact length_atoiDec s

theorem length_atoiSigned (s : List UInt8) : (atoiSigned s).2.length ≤ s.length := by
  unfold atoiSigned
  split
  · rename_i s
    have := length_atoiUnsigned s
    simp only [List.length_cons]
    omega
  · exact length_atoiUnsigned s

theorem length_doerDev (s : List UInt8) (n : Nat) : (doerDev s n : Done F).rest.length ≤ s.length := by
  have hdec := length_atoiDec s
  simp only [doerDev, intField]
  refine (length_atoiUnsigned _).trans ?_
  split
  · rename_i t ht
    have := length_atoiDec t
    rw [ht, List.length_cons] at hdec
    omega
  · exact hdec

theorem length_doerId (s : List UInt8) (n : Nat) : (doerId s n : Done F).rest.length ≤ s.length := by
  have hle := List.length_dropWhile_le (fun c => !(c == 0 || isSpace c)) s
  simp only [doerId]
  split
  · rename_i c t ht
    rw [ht, List.length_cons] at hle
    split
    · rw [ht]
      exact hle
    · exact (Nat.le_succ _).trans hle
  · exact hle

theorem length_octalEscape (c : UInt8) (s : List UInt8) : (octalEscape c s).2.length ≤ s.length := by
  simp only [octalEscape, List.length_drop]
  omega

theorem length_unquote (n : Nat) (s : List UInt8) : (unquote n s).2.length ≤ s.length := by
  induction n generalizing s with
  | zero => exact Nat.le_refl _
  | succ n ih =>
    cases s with
    | nil => exact Nat.le_refl _
    | cons c s =>
      have hs := ih s
      simp only [unquote]
      split
      · exact Nat.le_refl _
      · split
        · exact Nat.le_succ _
        · split
          · cases s with
            | nil => exact Nat.zero_le _
            | cons c' s =>
              have hs' := ih s
              have hoct := length_octalEscape c' s
              have hrest := ih (octalEscape c' s).2
              simp only [List.length_cons]
              split
              · simp only
                omega
              · split
                · simp only
                  omega
                · simp only
                  omega
          · simp only [List.length_cons]
            omega

theorem length_doerString (s : List UInt8) (n : Nat) :
    (doerString s n : Done F).rest.length ≤ s.length := by
  unfold doerString
  split
  · rename_i t
    exact (length_unquote _ t).trans (Nat.le_succ _)
  · exact length_doerId s n

/-- One byte back is the one before the number if there is no number. -/
theorem timeConvert_rest (strtod : List UInt8 → Timeval × Nat) (before : UInt8)
    (str : List UInt8) : (timeConvert strtod before str).2.1.length ≤ str.length ∨
      (timeConvert strtod before str).2.1 = before :: str := by
  have hback : ((before :: str).drop (strtod str).2).length ≤ str.length ∨
      (before :: str).drop (strtod str).2 = before :: str := by
    cases (strtod str).2 with
    | zero => exact .inr rfl
    | succ size =>
      left
      rw [List.drop_succ_cons, List.length_drop]
      exact Nat.sub_le _ _
  simp only [timeConvert]
  split
  · rename_i c s hdrop
    split
    · left
      have hlen := congrArg List.length hdrop
      rw [List.length_drop, List.length_cons] at hlen
      simp only
      omega
    · exact hback
  · exact hback

theorem length_doerAudit (strtod : List UInt8 → Timeval × Nat) (s : List UInt8) :
    (doerAudit strtod s : Done F).rest.length ≤ s.length := by
  have hrest := timeConvert_rest strtod 40 s
  simp only [doerAudit]
  split
  · rename_i c t ht
    rw [ht] at hrest
    -- the byte before the number is no `NUL`, and is skipped
    have hskip : c ≠ 0 → t.length ≤ s.length := by
      intro _
      rcases hrest with hle | heq
      · exact Nat.le_of_succ_le hle
      · exact le_of_eq (congrArg List.length (List.cons.inj heq).2)
    split
    · rename_i hc
      have hlen := (length_atoiUnsigned t).trans (hskip hc)
      simp only
      split
      · rename_i t' ht'
        rw [ht'] at hlen
        exact (Nat.le_succ _).trans hlen
      · exact hlen
    · rename_i hc
      rw [ht]
      rcases hrest with hle | heq
      · exact hle
      · exact absurd ((List.cons.inj heq).1 ▸ by decide) hc
  · rename_i ht
    rw [ht]
    exact Nat.zero_le _

theorem length_actionDoer (strtod : List UInt8 → Timeval × Nat) (a : Action) (s : List UInt8) :
    (actionDoer strtod a s : Done F).rest.length ≤ s.length := by
  unfold actionDoer
  split
  · exact length_doerAudit strtod s
  · exact length_atoiSigned s
  · exact length_atoiHex s
  · exact length_doerString s a.evtno
  · exact length_doerDev s a.evtno

/-- There is a step for each byte. -/
theorem actionParseEvent_succ (strtod : List UInt8 → Timeval × Nat) {n : Nat} (node : List Action)
    {s : List UInt8} (hn : s.length < n) :
    actionParseEvent strtod (n + 1) node s =
      (actionParseEvent strtod n node s : Except Reject (List (Done F))) := by
  induction n generalizing node s with
  | zero => cases hn
  | succ n ih =>
    cases s with
    | nil => rfl
    | cons c s =>
      have hs : s.length < n := Nat.lt_of_succ_lt_succ hn
      rw [actionParseEvent, actionParseEvent]
      simp only [ih _ hs]
      have hdone : ∀ a,
          actionParseEvent strtod (n + 1) actions (actionDoer strtod a s : Done F).rest =
            (actionParseEvent strtod n actions (actionDoer strtod a s : Done F).rest :
              Except Reject (List (Done F))) :=
        fun a => ih _ ((length_actionDoer strtod a s).trans_lt hs)
      simp only [hdone]

theorem rest_doerId (s : List UInt8) (n : Nat) :
    (doerId s n : Done F).rest = (doerId s n : Done Unit).rest := by
  simp only [doerId]
  split
  · split <;> rfl
  · rfl

/-- Where an action leaves the text is not a matter of the values. -/
theorem rest_actionDoer (strtod : List UInt8 → Timeval × Nat) (a : Action) (s : List UInt8) :
    (actionDoer strtod a s : Done F).rest = (actionDoer strtod a s : Done Unit).rest := by
  obtain ⟨name, code, evtno⟩ := a
  cases code with
  | string =>
    show (doerString s evtno : Done F).rest = (doerString s evtno : Done Unit).rest
    unfold doerString
    split
    · rfl
    · exact rest_doerId s evtno
  | _ => rfl

/-- From here the scan comes to the end of the text and reads behind it. -/
inductive Leaves (strtod : List UInt8 → Timeval × Nat) : List Action → List UInt8 → Prop
  | behind (node : List Action) : Leaves strtod node []
  | blank {c : UInt8} {s : List UInt8} (hc : c ≠ 0) (hspace : isSpace c)
    (h : Leaves strtod actions s) : Leaves strtod actions (c :: s)
  | foiled {node : List Action} {c : UInt8} {s : List UInt8} (hc : c ≠ 0)
    (hstay : ¬ (node = actions ∧ isSpace c)) (hnone : proceed node c = [])
    (h : Leaves strtod actions s) : Leaves strtod node (c :: s)
  | part {node : List Action} {c : UInt8} {s : List UInt8} (hc : c ≠ 0)
    (hstay : ¬ (node = actions ∧ isSpace c)) (hsome : proceed node c ≠ [])
    (hend : endTag (proceed node c) = none) (h : Leaves strtod (proceed node c) s) :
    Leaves strtod node (c :: s)
  | action {node : List Action} {c : UInt8} {s : List UInt8} {a : Action} (hc : c ≠ 0)
    (hstay : ¬ (node = actions ∧ isSpace c)) (hend : endTag (proceed node c) = some a)
    (h : Leaves strtod actions (actionDoer strtod a s : Done Unit).rest) :
    Leaves strtod node (c :: s)

section

variable {strtod : List UInt8 → Timeval × Nat} {node : List Action} {c : UInt8} {s : List UInt8}

theorem leaves_of_blank (hc : c ≠ 0) (hskip : node = actions ∧ isSpace c) :
    Leaves strtod node (c :: s) ↔ Leaves strtod actions s := by
  refine ⟨fun h => ?_, fun h => hskip.1 ▸ .blank hc hskip.2 h⟩
  cases h with
  | blank _ _ h => exact h
  | foiled _ hstay => exact absurd hskip hstay
  | part _ hstay => exact absurd hskip hstay
  | action _ hstay => exact absurd hskip hstay

theorem leaves_of_foiled (hc : c ≠ 0) (hstay : ¬ (node = actions ∧ isSpace c))
    (hnone : proceed node c = []) : Leaves strtod node (c :: s) ↔ Leaves strtod actions s := by
  refine ⟨fun h => ?_, .foiled hc hstay hnone⟩
  cases h with
  | blank _ hspace => exact absurd ⟨rfl, hspace⟩ hstay
  | foiled _ _ _ h => exact h
  | part _ _ hsome => exact absurd hnone hsome
  | action _ _ hend =>
    rw [hnone] at hend
    cases hend

theorem leaves_of_part (hc : c ≠ 0) (hstay : ¬ (node = actions ∧ isSpace c))
    (hsome : proceed node c ≠ []) (hend : endTag (proceed node c) = none) :
    Leaves strtod node (c :: s) ↔ Leaves strtod (proceed node c) s := by
  refine ⟨fun h => ?_, .part hc hstay hsome hend⟩
  cases h with
  | blank _ hspace => exact absurd ⟨rfl, hspace⟩ hstay
  | foiled _ _ hnone => exact absurd hnone hsome
  | part _ _ _ _ h => exact h
  | action _ _ hend' => cases hend.symm.trans hend'

theorem leaves_of_action {a : Action} (hc : c ≠ 0) (hstay : ¬ (node = actions ∧ isSpace c))
    (hend : endTag (proceed node c) = some a) :
    Leaves strtod node (c :: s) ↔
      Leaves strtod actions (actionDoer strtod a s : Done Unit).rest := by
  refine ⟨fun h => ?_, .action hc hstay hend⟩
  cases h with
  | blank _ hspace => exact absurd ⟨rfl, hspace⟩ hstay
  | foiled _ _ hnone =>
    rw [hnone] at hend
    cases hend
  | part _ _ _ hend' => cases hend.symm.trans hend'
  | action _ _ hend' h =>
    cases hend.symm.trans hend'
    exact h

theorem not_leaves_zero : ¬ Leaves strtod node (0 :: s) := by
  intro h
  cases h with
  | blank hc => exact hc rfl
  | foiled hc => exact hc rfl
  | part hc => exact hc rfl
  | action hc => exact hc rfl

end

/-- The parser crashes exactly where the scan leaves the text. -/
theorem crashes_actionParseEvent (strtod : List UInt8 → Timeval × Nat) {n : Nat}
    (node : List Action) {s : List UInt8} (hn : s.length < n) :
    Crashes (actionParseEvent strtod n node s : Except Reject (List (Done F))) ↔
      Leaves strtod node s := by
  induction n generalizing node s with
  | zero => cases hn
  | succ n ih =>
    cases s with
    | nil => exact iff_of_true ⟨_, rfl⟩ (.behind node)
    | cons c s =>
      have hs : s.length < n := Nat.lt_of_succ_lt_succ hn
      rw [actionParseEvent]
      by_cases hc : c = 0
      · subst hc
        rw [if_pos rfl]
        exact iff_of_false (not_crashes_ok _) not_leaves_zero
      · rw [if_neg hc]
        by_cases hskip : node = actions ∧ isSpace c
        · rw [if_pos hskip, leaves_of_blank hc hskip]
          exact ih _ hs
        · rw [if_neg hskip]
          dsimp only
          by_cases hnone : proceed node c = []
          · rw [if_pos hnone, leaves_of_foiled hc hskip hnone]
            exact ih _ hs
          · rw [if_neg hnone]
            cases hend : endTag (proceed node c) with
            | none =>
              rw [leaves_of_part hc hskip hnone hend]
              exact ih _ hs
            | some a =>
              rw [leaves_of_action hc hskip hend, ← rest_actionDoer (F := F),
                ← ih _ ((length_actionDoer strtod a s).trans_lt hs)]
              exact crashes_bind_left fun _ => not_crashes_pure _

/-- The parser only stops by a crash. -/
theorem actionParseEvent_ne_failed (strtod : List UInt8 → Timeval × Nat) (n : Nat)
    (node : List Action) (s : List UInt8) :
    (actionParseEvent strtod n node s : Except Reject (List (Done F))) ≠ .error .failed := by
  induction n generalizing node s with
  | zero => exact nofun
  | succ n ih =>
    cases s with
    | nil => exact nofun
    | cons c s =>
      rw [actionParseEvent]
      split
      · exact nofun
      split
      · exact ih _ _
      dsimp only
      split
      · exact ih _ _
      split
      · exact ih _ _
      · intro h
        cases hmore : (actionParseEvent strtod n actions _ : Except Reject (List (Done F))) with
        | ok more =>
          rw [hmore] at h
          cases h
        | error e =>
          rw [hmore] at h
          cases h
          exact ih _ _ hmore

/-- The scan of the text does not read behind its `NUL`. -/
def Readable (strtod : List UInt8 → Timeval × Nat) (line : Text) : Prop :=
  ¬ Leaves strtod actions (line.bytes ++ [0])

end Auditd

theorem crashes_auditdParse (strtod : List UInt8 → Timeval × Nat) (v : OvmVar F) :
    Crashes (auditdParse strtod v) ↔
      ¬ ∃ line, v = .str line ∧ Auditd.Readable strtod line := by
  unfold auditdParse
  refine crashes_strValue_bind _ fun line => ?_
  rw [crashes_bind_left fun _ => not_crashes_pure _, Auditd.Readable, not_not]
  exact Auditd.crashes_actionParseEvent strtod Auditd.actions (Nat.lt_succ_self _)

/-! ## `generic_dissect` -/

namespace Generic

variable (lib : Library F)

/-- The copy of the text is not too long. -/
def Fits (line : Text) : Prop :=
  0 ≤ toInt line.bytes.length ∧ toInt line.bytes.length < bufSize

/-- Each field that is looked at is one of the substrings; the first one without a value is the
last. -/
def FieldsReadable (line : Text) (regmatch : Nat → Option (Nat × Nat)) : List Field → Prop
  | [] => True
  | f :: fs =>
    (0 ≤ f.substring ∧ f.substring < nmatch) ∧
      ((∃ v, fieldValue lib f.type (substringText lib line (regmatch f.substring.toNat)) = .ok v) →
        FieldsReadable line regmatch fs)

/-- The line is short enough, there is a hook, and the fields of its first match can be read. -/
def Readable (data : Option Hook) (line : Text) : Prop :=
  Fits line ∧ ∃ hook, data = some hook ∧
    ∀ vmod m regmatch,
      firstMatch hook (cString (line.mem (toInt line.bytes.length).toNat)) = some (vmod, m, regmatch) →
        FieldsReadable lib line regmatch m.fieldList

theorem firstMatch_eq_some {hook : Hook} {buf : CStr} {vmod : Vmod} {m : Match}
    {regmatch : Nat → Option (Nat × Nat)} (h : firstMatch hook buf = some (vmod, m, regmatch)) :
    vmod ∈ hook.vmodList ∧ m ∈ vmod.matchList ∧ m.regexec buf = some regmatch := by
  obtain ⟨vmod', hvmod, h⟩ := mem_of_firstM h
  obtain ⟨m', hm, h⟩ := mem_of_firstM h
  obtain ⟨regmatch', hregexec, h⟩ := Option.map_eq_some_iff.mp h
  cases h
  exact ⟨hvmod, hm, hregexec⟩

theorem not_crashes_fieldValue (type : IssdlTag) (text : Text) :
    ¬ Crashes (fieldValue lib type text) := by
  unfold fieldValue
  dsimp only
  split
  · exact not_crashes_ok _
  · exact not_crashes_ok _
  · split
    · exact not_crashes_ok _
    · exact not_crashes_failed
  · exact not_crashes_ok _
  · exact not_crashes_failed

theorem crashes_fieldValues (line : Text) (regmatch : Nat → Option (Nat × Nat)) (fs : List Field)
    (values : List (Slot (OvmVar F))) :
    Crashes (fieldValues lib line regmatch fs values) ↔
      ¬ FieldsReadable lib line regmatch fs := by
  induction fs generalizing values with
  | nil => exact iff_of_false (not_crashes_ok _) fun h => h trivial
  | cons f fs ih =>
    simp only [fieldValues, FieldsReadable]
    split
    · rename_i hsub
      rw [crashes_bind, and_iff_right hsub, or_iff_right (not_crashes_fieldValue lib _ _)]
      constructor
      · rintro ⟨v, hv, hc⟩ h
        exact (ih _).mp hc (h ⟨v, hv⟩)
      · intro h
        obtain ⟨⟨v, hv⟩, hfs⟩ := Classical.not_imp.mp h
        exact ⟨v, hv, (ih _).mpr hfs⟩
    · rename_i hsub
      exact iff_of_true (crashes_crash _) fun h => hsub h.1

end Generic

theorem crashes_genericAttrs_text (lib : Generic.Library F) (data : Option Generic.Hook)
    {v : OvmVar F} {line : Text} (hv : v = .str line ∨ v = .vstr line) :
    Crashes (genericAttrs lib data v) ↔ ¬ Generic.Readable lib data line := by
  have hcopy : Generic.copyLine v =
      if 0 ≤ toInt line.bytes.length ∧ toInt line.bytes.length < Generic.bufSize then
        .ok (line, cString (line.mem (toInt line.bytes.length).toNat))
      else .error (.crash .overflow) := by
    rcases hv with rfl | rfl <;> rfl
  unfold genericAttrs Generic.Readable Generic.Fits
  rw [hcopy]
  split
  · rename_i hfits
    rw [and_iff_right hfits]
    cases data with
    | none =>
      refine iff_of_true (crashes_crash .nullData) ?_
      rintro ⟨hook, ⟨⟩, -⟩
    | some hook =>
      rw [ok_bind_eq]
      dsimp only
      split
      · rename_i hnone
        refine iff_of_false not_crashes_failed fun h => h ⟨hook, rfl, ?_⟩
        intro vmod m regmatch hsome
        rw [hnone] at hsome
        cases hsome
      · rename_i vmod m regmatch hsome
        rw [crashes_bind_left fun _ => not_crashes_pure _, Generic.crashes_fieldValues]
        refine not_congr ⟨?_, ?_⟩
        · intro h
          refine ⟨hook, rfl, ?_⟩
          intro vmod' m' regmatch' hsome'
          rw [hsome] at hsome'
          cases hsome'
          exact h
        · rintro ⟨hook', hhook, h⟩
          cases hhook
          exact h vmod m regmatch hsome
  · rename_i hfits
    exact iff_of_true (crashes_crash .overflow) fun h => hfits h.1

theorem crashes_genericAttrs (lib : Generic.Library F) (data : Option Generic.Hook)
    (v : OvmVar F) :
    Crashes (genericAttrs lib data v) ↔
      ¬ ∀ line, v = .str line ∨ v = .vstr line → Generic.Readable lib data line := by
  by_cases hv : ∃ line, v = .str line ∨ v = .vstr line
  · obtain ⟨line, hv⟩ := hv
    rw [crashes_genericAttrs_text lib data hv]
    refine not_congr ⟨?_, fun h => h line hv⟩
    intro h line' hv'
    rcases hv with rfl | rfl <;> rcases hv' with hv' | hv' <;> cases hv'
    · exact h
    · exact h
  · have hfailed : genericAttrs lib data v = .error .failed := by
      cases v with
      | str line => exact absurd ⟨line, .inl rfl⟩ hv
      | vstr line => exact absurd ⟨line, .inr rfl⟩ hv
      | _ => rfl
    rw [hfailed]
    exact iff_of_false not_crashes_failed fun h => h fun line hline => absurd ⟨line, hline⟩ hv

end Orchids
