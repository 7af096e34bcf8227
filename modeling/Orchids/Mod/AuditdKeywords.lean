import Orchids.Mod.AuditdScan

/-!
# The keywords of an audit record (`mod_auditd.c`)

The scan of `action_parse_event` with steps enough, and what it does in front of a keyword and in a text
without one.

* `after`: what is left of the keywords behind a text, which is where the tree of `action_insert` is at.
* `scan_keyword`: at a keyword its action is done.
* `noted`: a keyword is recognised in a text; `scan_quiet`: in one without the scan only goes on.
-/

namespace Orchids

namespace Auditd

/-! ## The tree -/

section

variable {node : List Action} {a : Action} {c : UInt8} {p : CStr}

theorem mem_proceed : a ∈ proceed node c ↔ { a with name := c :: a.name } ∈ node := by
  rw [proceed, List.mem_filterMap]
  constructor
  · rintro ⟨b, hb, h⟩
    obtain ⟨name, code, evtno⟩ := b
    cases name with
    | nil => cases h
    | cons d name =>
      dsimp only at h
      split at h
      · rename_i hd
        cases h
        rw [← hd]
        exact hb
      · cases h
  · exact fun h => ⟨_, h, if_pos rfl⟩

theorem endTag_eq_some (h : endTag node = some a) : a ∈ node ∧ a.name = [] := by
  rw [endTag] at h
  have hname := List.find?_some h
  exact ⟨List.mem_of_find?_eq_some h, of_decide_eq_true hname⟩

theorem endTag_eq_none : endTag node = none ↔ ∀ a ∈ node, a.name ≠ [] := by
  rw [endTag, List.find?_eq_none]
  exact forall₂_congr fun a _ => not_congr decide_eq_true_iff

/-- What is left of the keywords that go on from a text. -/
def after (p : CStr) : List Action := p.foldl proceed actions

theorem after_append (p : CStr) (c : UInt8) : after (p ++ [c]) = proceed (after p) c :=
  List.foldl_append

theorem mem_foldl_proceed : a ∈ p.foldl proceed node ↔ { a with name := p ++ a.name } ∈ node := by
  induction p generalizing node with
  | nil => exact Iff.rfl
  | cons c p ih => exact ih.trans mem_proceed

theorem mem_after : a ∈ after p ↔ { a with name := p ++ a.name } ∈ actions := mem_foldl_proceed

/-- No keyword goes on another one. -/
theorem prefix_free {b : Action} (ha : a ∈ actions) (hb : b ∈ actions) (h : a.name <+: b.name) : a = b := by
  have hall : (actions.all fun a => actions.all fun b => !a.name.isPrefixOf b.name || a == b) = true := by
    decide +kernel
  have hab := List.all_eq_true.mp (List.all_eq_true.mp hall a ha) b hb
  rw [List.isPrefixOf_iff_prefix.mpr h] at hab
  exact eq_of_beq hab

/-- The bytes of a keyword are no `NUL` and no blank. -/
theorem keyword_bytes (ha : a ∈ actions) (hc : c ∈ a.name) : c ≠ 0 ∧ ¬ isSpace c := by
  have hall : (actions.all fun a => a.name.all fun c => c != 0 && !isSpace c) = true := by decide +kernel
  have h := List.all_eq_true.mp (List.all_eq_true.mp hall a ha) c hc
  rw [Bool.and_eq_true, bne_iff_ne, Bool.not_eq_true'] at h
  exact ⟨h.1, ne_true_of_eq_false h.2⟩

/-- In a keyword the tree has a tag only at the end. -/
theorem endTag_after {r : CStr} (ha : a ∈ actions) (hname : a.name = p ++ r) :
    endTag (after p) = if r = [] then some { a with name := [] } else none := by
  have heq : ∀ b ∈ after p, b.name = [] → r = [] ∧ b = { a with name := [] } := by
    intro b hb hnil
    rw [mem_after, hnil, List.append_nil] at hb
    have hab := prefix_free hb ha (hname ▸ List.prefix_append p r)
    rw [← hab] at hname
    refine ⟨List.append_cancel_left (hname.symm.trans (List.append_nil p).symm), ?_⟩
    rw [← hab, ← hnil]
  split
  · rename_i hr
    have hmem : { a with name := [] } ∈ after p := by
      rw [mem_after]
      dsimp only
      rw [List.append_nil, ← List.append_nil p, ← hr, ← hname]
      exact ha
    cases hend : endTag (after p) with
    | none => exact absurd rfl (endTag_eq_none.mp hend _ hmem)
    | some b =>
      have hb := endTag_eq_some hend
      rw [(heq b hb.1 hb.2).2]
  · rename_i hr
    exact endTag_eq_none.mpr fun b hb hnil => hr (heq b hb hnil).1

end

/-! ## The scan -/

section

variable {F : Type} {strtod : List UInt8 → Timeval × Nat} {node : List Action} {a : Action}
  {c : UInt8} {s : List UInt8}

/-- `action_parse_event` with steps enough. -/
def scan (F : Type) (strtod : List UInt8 → Timeval × Nat) (node : List Action) (s : List UInt8) :
    Except Reject (List (Done F)) :=
  actionParseEvent strtod (s.length + 1) node s

theorem actionParseEvent_eq_scan {n : Nat} (hn : s.length < n) :
    actionParseEvent strtod n node s = scan F strtod node s := by
  induction n, hn using Nat.le_induction with
  | base => rfl
  | succ n hn ih => exact (actionParseEvent_succ strtod node hn).trans ih

theorem scan_zero (s : List UInt8) : scan F strtod node (0 :: s) = .ok [] := rfl

theorem scan_blank (hc : isSpace c) : scan F strtod actions (c :: s) = scan F strtod actions s := by
  have hne : c ≠ 0 := by
    rintro rfl
    exact absurd hc (by decide)
  rw [scan, List.length_cons, actionParseEvent, if_neg hne, if_pos ⟨rfl, hc⟩]
  rfl

theorem scan_foiled (hc : c ≠ 0) (hstay : ¬ (node = actions ∧ isSpace c)) (hnone : proceed node c = []) :
    scan F strtod node (c :: s) = scan F strtod actions s := by
  rw [scan, List.length_cons, actionParseEvent, if_neg hc, if_neg hstay]
  dsimp only
  rw [if_pos hnone]
  rfl

theorem scan_part (hc : c ≠ 0) (hstay : ¬ (node = actions ∧ isSpace c)) (hsome : proceed node c ≠ [])
    (hend : endTag (proceed node c) = none) :
    scan F strtod node (c :: s) = scan F strtod (proceed node c) s := by
  rw [scan, List.length_cons, actionParseEvent, if_neg hc, if_neg hstay]
  dsimp only
  rw [if_neg hsome, hend]
  rfl

theorem scan_action (hc : c ≠ 0) (hstay : ¬ (node = actions ∧ isSpace c))
    (hend : endTag (proceed node c) = some a) :
    scan F strtod node (c :: s) = (do
      let more ← scan F strtod actions (actionDoer strtod a s : Done F).rest
      return actionDoer strtod a s :: more) := by
  have hsome : proceed node c ≠ [] := List.ne_nil_of_mem (endTag_eq_some hend).1
  have hrest := (suffix_actionDoer (F := F) strtod a s).length_le
  rw [scan, List.length_cons, actionParseEvent, if_neg hc, if_neg hstay]
  dsimp only
  rw [if_neg hsome, hend]
  dsimp only
  rw [actionParseEvent_eq_scan (Nat.lt_succ_of_le hrest)]

/-- Inside a keyword the scan goes on to its end. -/
theorem scan_after {p r : CStr} (ha : a ∈ actions) (hr : r ≠ []) (hname : a.name = p ++ r) :
    scan F strtod (after p) (r ++ s) = (do
      let more ← scan F strtod actions (actionDoer strtod { a with name := [] } s : Done F).rest
      return actionDoer strtod { a with name := [] } s :: more) := by
  induction r generalizing p with
  | nil => exact absurd rfl hr
  | cons c r ih =>
    have hname' : a.name = (p ++ [c]) ++ r := by rw [hname, List.append_assoc, List.singleton_append]
    obtain ⟨hc, hspace⟩ := keyword_bytes ha (hname ▸ List.mem_append_right p List.mem_cons_self)
    have hstay : ¬ (after p = actions ∧ isSpace c) := fun h => hspace h.2
    have hend := endTag_after ha hname'
    rw [after_append] at hend
    by_cases hnil : r = []
    · subst hnil
      exact scan_action hc hstay (hend.trans (if_pos rfl))
    · rw [if_neg hnil] at hend
      have hsome : proceed (after p) c ≠ [] := by
        rw [← after_append]
        refine List.ne_nil_of_mem (a := { a with name := r }) (mem_after.mpr ?_)
        dsimp only
        rw [← hname']
        exact ha
      rw [List.cons_append, scan_part hc hstay hsome hend, ← after_append]
      exact ih hnil hname'

theorem keyword_ne_nil (ha : a ∈ actions) : a.name ≠ [] := by
  intro hnil
  have hfree := fun b hb => prefix_free (b := b) ha hb (hnil ▸ List.nil_prefix)
  have hone : actions[0] = actions[1] :=
    (hfree _ (List.getElem_mem _)).symm.trans (hfree _ (List.getElem_mem _))
  exact absurd hone (by decide)

theorem scan_keyword (ha : a ∈ actions) :
    scan F strtod actions (a.name ++ s) = (do
      let more ← scan F strtod actions (actionDoer strtod { a with name := [] } s : Done F).rest
      return actionDoer strtod { a with name := [] } s :: more) := by
  exact scan_after (p := []) ha (keyword_ne_nil ha) rfl

/-- A keyword is recognised in a text. -/
def noted (node : List Action) : CStr → Bool
  | [] => false
  | c :: s =>
    if node = actions ∧ isSpace c then noted actions s
    else if proceed node c = [] then noted actions s
    else (endTag (proceed node c)).isSome || noted (proceed node c) s

/-- The end of a line, or a blank. -/
def Breaks (s : List UInt8) : Prop := ∃ c t, s = c :: t ∧ (c = 0 ∨ isSpace c)

theorem proceed_after_blank (p : CStr) (hc : isSpace c) : proceed (after p) c = [] := by
  rw [← after_append, List.eq_nil_iff_forall_not_mem]
  intro a ha
  exact (keyword_bytes (mem_after.mp ha) (List.mem_append_left _ (List.mem_append_right p List.mem_cons_self))).2 hc

theorem isSpace_ne_zero (hc : isSpace c) : c ≠ 0 := by
  rintro rfl
  exact absurd hc (by decide)

/-- At a blank, and at the end, the part of a keyword before it does not matter. -/
theorem scan_breaks (p : CStr) (hs : Breaks s) : scan F strtod (after p) s = scan F strtod actions s := by
  obtain ⟨c, t, rfl, rfl | hc⟩ := hs
  · rw [scan_zero, scan_zero]
  · by_cases hp : after p = actions
    · rw [hp]
    · rw [scan_foiled (isSpace_ne_zero hc) (fun h => hp h.1) (proceed_after_blank p hc), scan_blank hc]

/-- A text without a keyword does nothing. -/
theorem scan_quiet {p text : CStr} (h0 : 0 ∉ text) (hquiet : noted (after p) text = false) (hs : Breaks s) :
    scan F strtod (after p) (text ++ s) = scan F strtod actions s := by
  induction text generalizing p with
  | nil => exact scan_breaks p hs
  | cons c text ih =>
    have hc : c ≠ 0 := fun h => h0 (h ▸ List.mem_cons_self)
    have h0' : 0 ∉ text := fun h => h0 (List.mem_cons_of_mem c h)
    rw [noted] at hquiet
    by_cases hskip : after p = actions ∧ isSpace c
    · rw [if_pos hskip] at hquiet
      rw [hskip.1, List.cons_append, scan_blank hskip.2]
      exact ih (p := []) h0' hquiet
    · rw [if_neg hskip] at hquiet
      by_cases hnone : proceed (after p) c = []
      · rw [if_pos hnone] at hquiet
        rw [List.cons_append, scan_foiled hc hskip hnone]
        exact ih (p := []) h0' hquiet
      · rw [if_neg hnone, Bool.or_eq_false_iff, Option.isSome_eq_false_iff, Option.isNone_iff_eq_none] at hquiet
        rw [List.cons_append, scan_part hc hskip hnone hquiet.1, ← after_append]
        rw [← after_append] at hquiet
        exact ih h0' hquiet.2

/-- Keywords start with a letter. -/
theorem proceed_eq_nil (hc : c < 97) : proceed actions c = [] := by
  have hall : (actions.all fun a => a.name.head?.all (97 ≤ ·)) = true := by decide +kernel
  rw [List.eq_nil_iff_forall_not_mem]
  intro a ha
  have hle := List.all_eq_true.mp hall _ (mem_proceed.mp ha)
  exact absurd hc (UInt8.not_lt.mpr (of_decide_eq_true hle))

theorem noted_eq_false {text : CStr} (h : ∀ c ∈ text, c < 97) : noted actions text = false := by
  induction text with
  | nil => rfl
  | cons c text ih =>
    have hrest := ih fun c hc => h c (List.mem_cons_of_mem _ hc)
    rw [noted, if_pos (proceed_eq_nil (h c List.mem_cons_self)), hrest]
    exact ite_self _

/-- Where a keyword is recognised something is done. -/
theorem exists_of_noted {text : CStr} (h0 : 0 ∉ text) (hnoted : noted node text = true)
    {dones : List (Done F)} (hscan : scan F strtod node (text ++ s) = .ok dones) :
    ∃ a t more, dones = actionDoer strtod a t :: more := by
  induction text generalizing node with
  | nil => cases hnoted
  | cons c text ih =>
    have hc : c ≠ 0 := fun h => h0 (h ▸ List.mem_cons_self)
    have h0' : 0 ∉ text := fun h => h0 (List.mem_cons_of_mem c h)
    rw [noted] at hnoted
    rw [List.cons_append] at hscan
    by_cases hskip : node = actions ∧ isSpace c
    · rw [if_pos hskip] at hnoted
      rw [hskip.1, scan_blank hskip.2] at hscan
      exact ih h0' hnoted hscan
    · rw [if_neg hskip] at hnoted
      by_cases hnone : proceed node c = []
      · rw [if_pos hnone] at hnoted
        rw [scan_foiled hc hskip hnone] at hscan
        exact ih h0' hnoted hscan
      · rw [if_neg hnone] at hnoted
        cases hend : endTag (proceed node c) with
        | none =>
          rw [hend] at hnoted
          rw [scan_part hc hskip hnone hend] at hscan
          exact ih h0' hnoted hscan
        | some a =>
          rw [scan_action hc hskip hend] at hscan
          obtain ⟨more, -, hok⟩ := bind_ok hscan
          cases hok
          exact ⟨a, _, more, rfl⟩

end

end Auditd

end Orchids
