import Orchids.Compiler.Layout
import Orchids.Engine.Context
import Orchids.Lib.Lists

/-!
# The rule compiler (`rule_compiler.c`)

The nodes that `issdl.y` builds for a rule, and `compile_and_add_rule_ast` with what it calls. A
`NULL` action list or transition list is the empty one: the grammar has no empty lists.

* `compileAndAddRuleAst`: the compiled rule, or the error that the source stops with.
* `destsOk_iff`: every transition of a compiled rule has its destination if and only if none has a
  block in the place of a name.
-/

namespace Orchids

open Opcode

/-! ## Rule nodes -/

/-- `node_trans_t`: with the name of its destination (`build_direct_transition`, where no condition
is an unconditional `goto`), or with a block (`build_indirect_transition`). -/
inductive TransNode where
  | direct (cond : Option Expr) (dest : String)
  | indirect (cond : Expr) (actionlist : List Stmt) (translist : List TransNode)

/-- `node_state_t`. -/
structure StateNode where
  name : String
  actionlist : List Stmt
  translist : List TransNode

/-- `node_rule_t`. -/
structure RuleNode where
  name : String
  init : StateNode
  statelist : List StateNode
  syncVars : Option (List String)

/-- The states in the order of their ids: 0 for the initial one, and from 1 on in the list
(`build_statelist`, `statelist_add`). -/
def RuleNode.states (r : RuleNode) : List StateNode := r.init :: r.statelist

/-! ## Compiled rules -/

/-- `transition_t`; `dest` is a place in the array of states, `none` is `NULL`. -/
structure CompiledTrans where
  requiredFields : List Nat
  evalCode : Option (List Nat)
  dest : Option Nat
  deriving DecidableEq, Repr

/-- `state_t`; `havePushfield` is the flag `BYTECODE_HAVE_PUSHFIELD`. -/
structure CompiledState where
  name : String
  action : Option (List Nat)
  trans : List CompiledTrans
  havePushfield : Bool
  deriving DecidableEq, Repr

/-- `rule_t`. -/
structure CompiledRule where
  name : String
  states : List CompiledState
  syncVars : Option (List Nat)
  deriving DecidableEq, Repr

/-- What the compiler stops with. -/
inductive CompileError where
  | code (f : Fault)
  | ruleDefined (name : String)
  | unknownVariable (name : String)
  | stateDefined (name : String)
  | undefinedState (name : String)
  deriving DecidableEq, Repr

/-- `rule_compiler_t`: the names of the rules so far, and the variables of the rule at hand by their
ids. -/
structure RuleCompiler where
  rulenames : List String
  ruleEnv : List String

/-- `strhash_get( ctx->statenames_hash, name )`, for its `state_id` -/
def statenamesGet (names : List String) (name : String) : Option Nat := names.findIdx? (· == name)

/-- `set_state_label` on each state: a name is taken only once. -/
def setStateLabels : List String → List StateNode → Except CompileError Unit
  | _, [] => pure ()
  | names, s :: ss =>
    if s.name ∈ names then throw (.stateDefined s.name) else setStateLabels (s.name :: names) ss

/-- What the code generator stops with is an error of the compiler. -/
def liftGen {α : Type} : Except Fault α → Except CompileError α
  | .ok a => .ok a
  | .error f => .error (.code f)

/-- `compile_trans_bytecode`: the code and the used fields. -/
def compileTransBytecode (e : Expr) : Except CompileError (List Nat × List Nat) := do
  let b ← liftGen (compileBytecodeExpr e Buffer.init)
  if bytecodeBufSz - 2 ≤ b.pos then throw (.code .bufferFull)
  else pure (compileSetLabels b ++ [opEnd], b.usedFields)

/-- One turn of the loop of `compile_transitions_ast`, with the ids of the states by their names. -/
def compileTransition (statenames : String → Option Nat) : TransNode → Except CompileError CompiledTrans
  | .direct cond dest =>
    match statenames dest with
    | none => throw (.undefinedState dest)
    | some i =>
      match cond with
      | none => pure { requiredFields := [], evalCode := none, dest := some i }
      | some e => do
        let (code, fields) ← compileTransBytecode e
        pure { requiredFields := fields, evalCode := some code, dest := some i }
  | .indirect e _ _ => do
    let (code, fields) ← compileTransBytecode e
    -- only a message for the block
    pure { requiredFields := fields, evalCode := some code, dest := none }

/-- `compile_actions_ast`: the code and the flag. -/
def compileActionsAst (ss : List Stmt) : Except CompileError (Option (List Nat) × Bool) :=
  if ss.isEmpty then pure (none, false)
  else do
    let b ← liftGen (compileActionsBytecode ss Buffer.init)
    pure (some (compileSetLabels b ++ [opEnd]), b.havePushfield)

/-- `compile_state_ast` -/
def compileStateAst (statenames : String → Option Nat) (s : StateNode) :
    Except CompileError CompiledState := do
  let (action, havePushfield) ← compileActionsAst s.actionlist
  let trans ← s.translist.mapM (compileTransition statenames)
  pure { name := s.name, action, trans, havePushfield }

/-- The loop over the synchronization variables. -/
def compileSyncVars (ruleEnv : List String) : Option (List String) →
    Except CompileError (Option (List Nat))
  | none => pure none
  | some vars => do
    let ids ← vars.mapM fun x =>
      match ruleEnv.findIdx? (· == x) with
      | none => throw (.unknownVariable x)
      | some i => pure i
    pure (some ids)

/-- `compile_and_add_rule_ast`, with the labels that the parser has set. -/
def compileAndAddRuleAst (ctx : RuleCompiler) (r : RuleNode) : Except CompileError CompiledRule := do
  setStateLabels [] r.states
  if r.name ∈ ctx.rulenames then throw (.ruleDefined r.name)
  else
    let syncVars ← compileSyncVars ctx.ruleEnv r.syncVars
    let states ← r.states.mapM (compileStateAst (statenamesGet (r.states.map StateNode.name)))
    pure { name := r.name, states, syncVars }

/-! ## The rule in the engine -/

/-- A transition as the engine reads it, which needs its destination. -/
def CompiledTrans.load (t : CompiledTrans) : Option Trans :=
  t.dest.map fun i =>
    { requiredFieldsNb := t.requiredFields.length, evalCode := t.evalCode, dest := i }

/-- A state as the engine reads it. -/
def CompiledState.load (s : CompiledState) : Option State :=
  (s.trans.mapM CompiledTrans.load).map fun trans =>
    { action := s.action, trans, havePushfield := s.havePushfield }

/-- A rule as the engine reads it: it has a lock table where it has synchronization variables. -/
def CompiledRule.load (r : CompiledRule) : Option Rule :=
  (r.states.mapM CompiledState.load).map fun states =>
    { states, syncVars := r.syncVars.getD [], syncLock := r.syncVars.isSome }

/-! ## Destinations -/

/-- The state `s` is compiled from a block with these lists, under some name. -/
def CompiledFrom (statenames : String → Option Nat) (actionlist : List Stmt)
    (translist : List TransNode) (s : CompiledState) : Prop :=
  ∃ name, compileStateAst statenames { name, actionlist, translist } = .ok s

/-- The destination of a transition is the state of its name, or is compiled from its block. -/
def DestOk (statenames : String → Option Nat) (states : List CompiledState) (tr : TransNode)
    (c : CompiledTrans) : Prop :=
  ∃ i s, c.dest = some i ∧ states[i]? = some s ∧
    match tr with
    | .direct _ dest => s.name = dest
    | .indirect _ actionlist translist => CompiledFrom statenames actionlist translist s

/-- Every transition of the rule, at its place in the array, has its destination. -/
def DestsOk (r : RuleNode) (c : CompiledRule) : Prop :=
  ∀ (i : Nat) (s : StateNode) (st : CompiledState), r.states[i]? = some s →
    c.states[i]? = some st →
      ∀ (j : Nat) (tr : TransNode) (ct : CompiledTrans), s.translist[j]? = some tr →
        st.trans[j]? = some ct → DestOk (statenamesGet (r.states.map StateNode.name)) c.states tr ct

/-- A transition with the name of its destination. -/
def TransNode.isDirect : TransNode → Bool
  | .direct _ _ => true
  | .indirect _ _ _ => false

theorem mapM_ok {α β ε : Type} {f : α → Except ε β} :
    ∀ {l : List α} {l' : List β}, l.mapM f = .ok l' →
      List.Forall₂ (fun a b => f a = .ok b) l l'
  | [], l', h => by
    rw [List.mapM_nil] at h
    cases h
    exact .nil
  | a :: l, l', h => by
    rw [List.mapM_cons] at h
    obtain ⟨b, hb, h⟩ := bind_ok h
    obtain ⟨bs, hbs, h⟩ := bind_ok h
    cases h
    exact .cons hb (mapM_ok hbs)

/-- The array of states has the compiled states in the order of the nodes. -/
theorem compileAndAddRuleAst_states {ctx : RuleCompiler} {r : RuleNode} {c : CompiledRule}
    (h : compileAndAddRuleAst ctx r = .ok c) :
    List.Forall₂ (fun s st => compileStateAst (statenamesGet (r.states.map StateNode.name)) s = .ok st)
      r.states c.states := by
  unfold compileAndAddRuleAst at h
  obtain ⟨_, -, h⟩ := bind_ok h
  split at h
  · cases h
  · obtain ⟨sync, -, h⟩ := bind_ok h
    obtain ⟨states, hstates, h⟩ := bind_ok h
    cases h
    exact mapM_ok hstates

/-- A compiled state has the name of its node, and a transition for each of the node. -/
theorem compileStateAst_ok {statenames : String → Option Nat} {s : StateNode} {st : CompiledState}
    (h : compileStateAst statenames s = .ok st) :
    st.name = s.name ∧
      List.Forall₂ (fun tr c => compileTransition statenames tr = .ok c) s.translist st.trans := by
  unfold compileStateAst at h
  obtain ⟨⟨action, flag⟩, -, h⟩ := bind_ok h
  obtain ⟨trans, htrans, h⟩ := bind_ok h
  cases h
  exact ⟨rfl, mapM_ok htrans⟩

/-- The id of a state is the place of its name. -/
theorem statenamesGet_eq_some {names : List String} {name : String} {i : Nat}
    (h : statenamesGet names name = some i) : names[i]? = some name := by
  obtain ⟨hlt, hname, -⟩ := List.findIdx?_eq_some_iff_getElem.mp h
  rw [List.getElem?_eq_getElem hlt, beq_iff_eq.mp hname]

/-- The destination of a transition with a name is the state of this name; with a block there is
none. -/
theorem compileTransition_ok {statenames : String → Option Nat} {tr : TransNode}
    {c : CompiledTrans} (h : compileTransition statenames tr = .ok c) :
    match tr with
    | .direct _ dest => ∃ i, c.dest = some i ∧ statenames dest = some i
    | .indirect _ _ _ => c.dest = none := by
  cases tr with
  | direct cond dest =>
    simp only [compileTransition] at h ⊢
    cases hd : statenames dest with
    | none =>
      rw [hd] at h
      cases h
    | some i =>
      rw [hd] at h
      refine ⟨i, ?_, rfl⟩
      cases cond with
      | none =>
        cases h
        rfl
      | some e =>
        obtain ⟨⟨code, fields⟩, -, h⟩ := bind_ok h
        cases h
        rfl
  | indirect e as ts =>
    simp only [compileTransition] at h ⊢
    obtain ⟨⟨code, fields⟩, -, h⟩ := bind_ok h
    cases h
    rfl

/-- After `compile_and_add_rule_ast`, every transition has its destination if and only if no
transition has a block in the place of a name. -/
theorem destsOk_iff {ctx : RuleCompiler} {r : RuleNode} {c : CompiledRule}
    (h : compileAndAddRuleAst ctx r = .ok c) :
    DestsOk r c ↔ ∀ s ∈ r.states, ∀ tr ∈ s.translist, tr.isDirect = true := by
  have hstates := compileAndAddRuleAst_states h
  constructor
  · intro hall s hs tr htr
    obtain ⟨i, hi⟩ := List.mem_iff_getElem?.mp hs
    obtain ⟨j, hj⟩ := List.mem_iff_getElem?.mp htr
    obtain ⟨st, hst, hcs⟩ := forall₂_getElem? hstates hi
    obtain ⟨ct, hct, hc⟩ := forall₂_getElem? (compileStateAst_ok hcs).2 hj
    obtain ⟨k, st', hk, -⟩ := hall i s st hi hst j tr ct hj hct
    cases tr with
    | direct cond dest => rfl
    | indirect e as ts =>
      have hnone : ct.dest = none := compileTransition_ok hc
      rw [hnone] at hk
      cases hk
  · intro hall i s st hi hst j tr ct hj hct
    have hdirect := hall s (List.mem_of_getElem? hi) tr (List.mem_of_getElem? hj)
    obtain ⟨st', hst', hcs⟩ := forall₂_getElem? hstates hi
    obtain rfl := Option.some.inj (hst.symm.trans hst')
    obtain ⟨ct', hct', hc⟩ := forall₂_getElem? (compileStateAst_ok hcs).2 hj
    obtain rfl := Option.some.inj (hct.symm.trans hct')
    cases tr with
    | indirect e as ts => cases hdirect
    | direct cond dest =>
      obtain ⟨k, hk, hget⟩ := compileTransition_ok hc
      have hname := statenamesGet_eq_some hget
      rw [List.getElem?_map, Option.map_eq_some_iff] at hname
      obtain ⟨node, hnode, rfl⟩ := hname
      obtain ⟨dst, hdst, hcd⟩ := forall₂_getElem? hstates hnode
      exact ⟨k, dst, hk, hdst, (compileStateAst_ok hcd).1⟩

/-- A rule that waits for a field, then for another one in a block. -/
def nestedRule : RuleNode where
  name := "nested"
  init :=
    { name := "init", actionlist := []
      translist := [.indirect (.field 0) [] [.direct (some (.field 1)) "done"]] }
  statelist := [{ name := "done", actionlist := [], translist := [] }]
  syncVars := none

/-- A rule that waits for two fields, one after the other. -/
def gotoRule : RuleNode where
  name := "goto"
  init := { name := "init", actionlist := [], translist := [.direct (some (.field 0)) "wait"] }
  statelist :=
    [{ name := "wait", actionlist := [], translist := [.direct (some (.field 1)) "done"] },
      { name := "done", actionlist := [], translist := [] }]
  syncVars := none

/-- The compiler at the start of a file. -/
def emptyCompiler : RuleCompiler := { rulenames := [], ruleEnv := [] }

theorem destsOk_iff_gotoRule :
    ∃ c, compileAndAddRuleAst emptyCompiler gotoRule = .ok c ∧ DestsOk gotoRule c := by
  obtain ⟨c, hc⟩ : ∃ c, compileAndAddRuleAst emptyCompiler gotoRule = .ok c := ⟨_, rfl⟩
  refine ⟨c, hc, (destsOk_iff hc).mpr ?_⟩
  intro s hs tr htr
  simp only [gotoRule, RuleNode.states, List.mem_cons, List.not_mem_nil, or_false] at hs
  rcases hs with rfl | rfl | rfl
  · rw [List.mem_singleton.mp htr]
    rfl
  · rw [List.mem_singleton.mp htr]
    rfl
  · cases htr

/-- The transition of the initial state of `nestedRule` has no destination. -/
theorem not_destsOk :
    ∃ c, compileAndAddRuleAst emptyCompiler nestedRule = .ok c ∧ ¬ DestsOk nestedRule c := by
  obtain ⟨c, hc⟩ : ∃ c, compileAndAddRuleAst emptyCompiler nestedRule = .ok c := ⟨_, rfl⟩
  refine ⟨c, hc, fun hall => ?_⟩
  obtain ⟨st, hst, hcs⟩ := forall₂_getElem? (compileAndAddRuleAst_states hc) (i := 0) rfl
  obtain ⟨ct, hct, hct'⟩ := forall₂_getElem? (compileStateAst_ok hcs).2 (i := 0) rfl
  obtain ⟨k, s, hk, -⟩ := hall 0 _ st rfl hst 0 _ ct rfl hct
  have hnone : ct.dest = none := compileTransition_ok hct'
  rw [hnone] at hk
  cases hk

end Orchids
