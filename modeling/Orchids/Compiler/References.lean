import Orchids.Compiler.Resources

/-!
# References

The code of a tree has an instruction with an id at each place where a variable or a constant occurs.

* `IdRef`: what such an id stands for; `RuleTree.refs`: those of the codes of a rule, in the order of
  the instructions.
* `RuleTree.refsIn`: their constants are constants of the rule.
* `buildRule_refs`: the nodes of a rule refer to the names and to the objects of its text.
-/

namespace Orchids

/-- What becomes of the value of an expression. -/
inductive Use where
  | value
  | jump
  | discard

/-- What the id of an instruction stands for. -/
inductive IdRef (p : Phase) where
  | const (c : p.Const)
  | pattern (c : p.Pat) (splits : Nat)
  /-- The value of a condition. -/
  | truth (b : Bool)
  | read (x : p.Sym)
  | write (x : p.Sym)

section Subtrees

variable {p : Phase} {γ : Type} {lit : p.Const → γ} {split : p.Pat → Nat → γ}

theorem RuleTree.vars_of_mem {r : RuleTree p} {s : StateTree p} (hs : s ∈ r.states) {v : p.Sym}
    (hv : v ∈ s.vars) : v ∈ r.vars := by
  rcases List.mem_cons.mp hs with rfl | hs
  · exact List.mem_append_left _ hv
  · exact List.mem_append_right _ (List.mem_flatMap.mpr ⟨s, hs, hv⟩)

theorem RuleTree.consts_of_mem {r : RuleTree p} {s : StateTree p} (hs : s ∈ r.states) {c : γ}
    (hc : c ∈ s.consts lit split) : c ∈ r.consts lit split := by
  rcases List.mem_cons.mp hs with rfl | hs
  · exact List.mem_append_left _ hc
  · exact List.mem_append_right _ (List.mem_flatMap.mpr ⟨s, hs, hc⟩)

theorem transsConsts_of_mem {ts : List (TransTree p)} {t : TransTree p} (ht : t ∈ ts) {c : γ}
    (hc : c ∈ t.consts lit split) : c ∈ transsConsts lit split ts := by
  induction ts with
  | nil => cases ht
  | cons t' ts ih =>
    rcases List.mem_cons.mp ht with rfl | ht
    · exact List.mem_append_left _ hc
    · exact List.mem_append_right _ (ih ht)

end Subtrees

section Refs

variable {p : Phase}

def Leaf.refs : Leaf p → List (IdRef p)
  | const c => [.const c]
  | var x => [.read x]
  | field _ => []

def ExprTree.refs : ExprTree p → Use → List (IdRef p)
  | leaf l, _ => l.refs
  -- the last parameter is the first on the stack
  | call _ ps, _ => ps.reverse.flatMap Leaf.refs
  | binop _ l r, .discard => l.refs .discard ++ r.refs .discard
  | binop _ l r, _ => l.refs .value ++ r.refs .value
  | cond _ l r, .discard => l.refs .discard ++ r.refs .discard
  | cond (.cmp _) l r, .jump => l.refs .value ++ r.refs .value
  | cond (.cmp _) l r, .value => l.refs .value ++ r.refs .value ++ [.truth true, .truth false]
  | cond _ l r, _ => l.refs .jump ++ r.refs .jump ++ [.truth true, .truth false]
  | assoc x e, .discard => e.refs .value ++ [.write x]
  | assoc x e, _ => e.refs .value ++ [.write x, .read x]

mutual

def StmtTree.refs : StmtTree p → List (IdRef p)
  | .expr e => e.refs .discard
  | .regsplit x t xs => .read x :: .pattern t xs.length :: xs.map .write
  | .ifstmt e thn els => e.refs .jump ++ (stmtsRefs thn ++ stmtsRefs els)

def stmtsRefs : List (StmtTree p) → List (IdRef p)
  | [] => []
  | s :: ss => s.refs ++ stmtsRefs ss

end

/-- The condition of a transition. -/
def TransTree.condition : TransTree p → Option (ExprTree p)
  | direct e _ => e
  | indirect e _ _ => some e

/-- One list for the code of the actions, if there are any, and for each condition. -/
def StateTree.refs (s : StateTree p) : List (List (IdRef p)) :=
  (if s.actionlist.isEmpty then [] else [stmtsRefs s.actionlist]) ++
    (s.translist.filterMap TransTree.condition).map fun e => e.refs .value

def RuleTree.refs (r : RuleTree p) : List (List (IdRef p)) := r.states.flatMap StateTree.refs

end Refs

/-! ## Constants -/

/-- The constant that a reference is to. -/
def IdRef.constant : IdRef .text → Option Constant
  | .const l => some (.literal l)
  | .pattern s n => some (.split s n)
  | _ => none

/-- The constants of the references are among these. -/
def RefsIn (ks : List Constant) (rs : List (IdRef .text)) : Prop :=
  ∀ r ∈ rs, ∀ k, r.constant = some k → k ∈ ks

namespace RefsIn

variable {ks ks' : List Constant} {rs rs' : List (IdRef .text)}

theorem nil : RefsIn ks [] := nofun

theorem append (h : RefsIn ks rs) (h' : RefsIn ks' rs') : RefsIn (ks ++ ks') (rs ++ rs') := by
  intro r hr k hk
  rcases List.mem_append.mp hr with hr | hr
  · exact List.mem_append_left _ (h r hr k hk)
  · exact List.mem_append_right _ (h' r hr k hk)

/-- More references, to no constant. -/
theorem skip (h : RefsIn ks rs) (h' : ∀ r ∈ rs', r.constant = none) : RefsIn ks (rs ++ rs') := by
  intro r hr k hk
  rcases List.mem_append.mp hr with hr | hr
  · exact h r hr k hk
  · rw [h' r hr] at hk
    cases hk

theorem mono (h : RefsIn ks rs) (hs : ks ⊆ ks') : RefsIn ks' rs :=
  fun r hr k hk => hs (h r hr k hk)

end RefsIn

theorem Leaf.refsIn (l : Leaf .text) : RefsIn (l.consts.map .literal) l.refs := by
  cases l with
  | const c =>
    intro r hr k hk
    obtain rfl := List.mem_singleton.mp hr
    obtain rfl := Option.some.inj hk
    exact List.mem_singleton_self _
  | var x =>
    intro r hr k hk
    obtain rfl := List.mem_singleton.mp hr
    cases hk
  | field f => exact .nil

theorem paramsRefsIn (ps : List (Leaf .text)) :
    RefsIn ((ps.flatMap Leaf.consts).map .literal) (ps.reverse.flatMap Leaf.refs) := by
  intro r hr k hk
  obtain ⟨l, hl, hr⟩ := List.mem_flatMap.mp hr
  obtain ⟨c, hc, rfl⟩ := List.mem_map.mp (l.refsIn r hr k hk)
  exact List.mem_map_of_mem (List.mem_flatMap.mpr ⟨l, List.mem_reverse.mp hl, hc⟩)

theorem ExprTree.refsIn : ∀ (e : ExprTree .text) (u : Use),
    RefsIn (e.consts.map .literal) (e.refs u)
  | .leaf l, _ => l.refsIn
  | .call _ ps, _ => paramsRefsIn ps
  | .binop op l r, u => by
    rw [ExprTree.consts, List.map_append]
    cases u <;> exact (refsIn l _).append (refsIn r _)
  | .cond op l r, u => by
    rw [ExprTree.consts, List.map_append]
    have hboth := fun u => (refsIn l u).append (refsIn r u)
    have htruth : ∀ r ∈ ([.truth true, .truth false] : List (IdRef .text)), r.constant = none := by
      simp [IdRef.constant]
    cases u with
    | discard => cases op <;> exact hboth .discard
    | jump =>
      cases op with
      | cmp op => exact hboth .value
      | _ => exact (hboth .jump).skip htruth
    | value =>
      cases op with
      | cmp op => exact (hboth .value).skip htruth
      | _ => exact (hboth .jump).skip htruth
  | .assoc x e, u => by
    have hval := refsIn e .value
    cases u with
    | discard => exact hval.skip (by simp [IdRef.constant])
    | _ => exact hval.skip (by simp [IdRef.constant])

mutual

theorem StmtTree.refsIn : ∀ s : StmtTree .text, RefsIn (s.consts .literal .split) s.refs
  | .expr e => e.refsIn .discard
  | .regsplit x t xs => by
    intro r hr k hk
    rcases List.mem_cons.mp hr with rfl | hr
    · cases hk
    rcases List.mem_cons.mp hr with rfl | hr
    · obtain rfl := Option.some.inj hk
      exact List.mem_singleton_self _
    · obtain ⟨y, -, rfl⟩ := List.mem_map.mp hr
      cases hk
  | .ifstmt e thn els => by
    rw [StmtTree.refs, StmtTree.consts]
    exact (e.refsIn .jump).append ((stmtsRefsIn thn).append (stmtsRefsIn els))

theorem stmtsRefsIn : ∀ ss : List (StmtTree .text),
    RefsIn (stmtsConsts .literal .split ss) (stmtsRefs ss)
  | [] => .nil
  | s :: ss => (StmtTree.refsIn s).append (stmtsRefsIn ss)

end

theorem condition_refsIn {t : TransTree .text} {e : ExprTree .text} (he : t.condition = some e) :
    RefsIn (t.consts .literal .split) (e.refs .value) := by
  cases t with
  | direct cond dest =>
    cases he
    rw [TransTree.consts, Option.toList_some, List.flatMap_singleton]
    exact e.refsIn .value
  | indirect cond as ts =>
    cases he
    exact (e.refsIn .value).mono (List.subset_append_left _ _)

/-- The constants of the references of a rule are constants of the rule. -/
theorem RuleTree.refsIn {r : RuleTree .text} {rs : List (IdRef .text)} (h : rs ∈ r.refs) :
    RefsIn (r.consts .literal .split) rs := by
  obtain ⟨s, hs, hrs⟩ := List.mem_flatMap.mp h
  have hstate : RefsIn (s.consts .literal .split) rs := by
    rcases List.mem_append.mp hrs with hrs | hrs
    · split at hrs
      · cases hrs
      · obtain rfl := List.mem_singleton.mp hrs
        exact (stmtsRefsIn s.actionlist).mono (List.subset_append_left _ _)
    · obtain ⟨e, he, rfl⟩ := List.mem_map.mp hrs
      obtain ⟨t, ht, he⟩ := List.mem_filterMap.mp he
      refine (condition_refsIn he).mono fun k hk => ?_
      exact List.mem_append_right _ (transsConsts_of_mem ht hk)
  exact hstate.mono fun k hk => RuleTree.consts_of_mem hs hk

/-! ## The references of nodes -/

/-- The node refers to what is in the text. -/
inductive IdRef.Same (env : ParserEnv) : IdRef .text → IdRef .node → Prop
  | const {l : Literal} {t : Term} : l.object env = some t.data → Same env (.const l) (.const t)
  | pattern {s : String} {n : Nat} {t : Term} : (Constant.split s n).object env = some t.data →
      Same env (.pattern s n) (.pattern t n)
  | truth (b : Bool) : Same env (.truth b) (.truth b)
  | read (s : Symbol) : Same env (.read s.name) (.read s)
  | write (s : Symbol) : Same env (.write s.name) (.write s)

variable {env : ParserEnv} {ctx ctx' : Compiler}

/-- The references are the same, one after the other. -/
abbrev SameRefs (env : ParserEnv) : List (IdRef .text) → List (IdRef .node) → Prop :=
  List.Forall₂ (IdRef.Same env)

theorem buildVarname_name {x : String} {s : Symbol} (h : buildVarname x ctx = .ok (s, ctx')) :
    s.name = x := by
  unfold buildVarname at h
  split at h <;> (cases h; rfl)

theorem buildLiteral_data {l : Literal} {t : Term} (h : buildLiteral env l ctx = .ok (t, ctx')) :
    l.object env = some t.data := by
  cases l with
  | ipv4 hostname =>
    simp only [buildLiteral, buildIpv4] at h
    cases hh : env.gethostbyname hostname with
    | none =>
      rw [hh] at h
      cases h
    | some addr =>
      rw [hh] at h
      cases h
      simp only [Literal.object, hh, Option.map_some]
  | regex regexStr =>
    simp only [buildLiteral, buildRegex] at h
    split at h
    · rename_i hr
      cases h
      exact if_pos hr
    · cases h
  | _ =>
    cases h
    rfl

theorem buildLeaf_refs {l : Leaf .text} {n : Leaf .node} (h : buildLeaf env l ctx = .ok (n, ctx')) :
    SameRefs env l.refs n.refs := by
  cases l with
  | const c =>
    obtain ⟨⟨t, ctx₁⟩, ht, h⟩ := bind_ok (x := buildLiteral env c ctx) h
    cases h
    exact .cons (.const (buildLiteral_data ht)) .nil
  | var x =>
    obtain ⟨⟨s, ctx₁⟩, hs, h⟩ := bind_ok (x := buildVarname x ctx) h
    cases h
    obtain rfl := buildVarname_name hs
    exact .cons (.read s) .nil
  | field f =>
    obtain ⟨⟨s, ctx₁⟩, -, h⟩ := bind_ok (x := buildFieldname env f ctx) h
    cases h
    exact .nil

theorem buildEach_forall₂ {α β : Type} {build : α → Parser β} {R : α → β → Prop}
    (hR : ∀ x y ctx ctx', build x ctx = .ok (y, ctx') → R x y) :
    ∀ {l : List α} {ys : List β} {ctx : Compiler}, buildEach build l ctx = .ok (ys, ctx') →
      List.Forall₂ R l ys
  | [], _, _, h => by
    cases h
    exact .nil
  | x :: l, _, ctx, h => by
    obtain ⟨⟨y, ctx₁⟩, hy, h⟩ := bind_ok (x := build x ctx) h
    obtain ⟨⟨ys, ctx₂⟩, hys, h⟩ := bind_ok (x := buildEach build l ctx₁) h
    cases h
    exact .cons (hR x y ctx ctx₁ hy) (buildEach_forall₂ hR hys)

/-- The parameters of a call, the last one first. -/
theorem sameRefs_params {ps : List (Leaf .text)} {ns : List (Leaf .node)}
    (h : List.Forall₂ (fun l n => SameRefs env l.refs n.refs) ps ns) :
    SameRefs env (ps.reverse.flatMap Leaf.refs) (ns.reverse.flatMap Leaf.refs) := by
  induction h with
  | nil => exact .nil
  | cons hl _ ih =>
    simp only [List.reverse_cons, List.flatMap_append, List.flatMap_singleton]
    exact List.rel_append ih hl

theorem sameRefs_truth : SameRefs env [.truth true, .truth false] [.truth true, .truth false] :=
  .cons (.truth true) (.cons (.truth false) .nil)

theorem buildExpr_refs : ∀ {e : ExprTree .text} {n : ExprTree .node} {ctx ctx' : Compiler},
    buildExpr env e ctx = .ok (n, ctx') → ∀ u, SameRefs env (e.refs u) (n.refs u)
  | .leaf l, _, ctx, _, h, _ => by
    obtain ⟨⟨l', ctx₁⟩, hl, h⟩ := bind_ok (x := buildLeaf env l ctx) h
    cases h
    exact buildLeaf_refs hl
  | .call sym ps, _, ctx, _, h, _ => by
    obtain ⟨⟨ps', ctx₁⟩, hps, h⟩ := bind_ok (x := buildEach (buildLeaf env) ps ctx) h
    simp only [buildFunctionCall] at h
    cases hf : env.functionsHash.get sym with
    | none =>
      rw [hf] at h
      cases h
    | some id =>
      rw [hf] at h
      cases h
      exact sameRefs_params (buildEach_forall₂ (fun l n _ _ => buildLeaf_refs (l := l) (n := n)) hps)
  | .binop op l r, _, ctx, _, h, u => by
    obtain ⟨⟨l', ctx₁⟩, hl, h⟩ := bind_ok (x := buildExpr env l ctx) h
    obtain ⟨⟨r', ctx₂⟩, hr, h⟩ := bind_ok (x := buildExpr env r ctx₁) h
    cases h
    cases u <;> exact List.rel_append (buildExpr_refs hl _) (buildExpr_refs hr _)
  | .cond op l r, _, ctx, _, h, u => by
    obtain ⟨⟨l', ctx₁⟩, hl, h⟩ := bind_ok (x := buildExpr env l ctx) h
    obtain ⟨⟨r', ctx₂⟩, hr, h⟩ := bind_ok (x := buildExpr env r ctx₁) h
    cases h
    have hboth : ∀ u, SameRefs env (l.refs u ++ r.refs u) (l'.refs u ++ r'.refs u) := fun u =>
      List.rel_append (buildExpr_refs hl u) (buildExpr_refs hr u)
    cases u with
    | discard => cases op <;> exact hboth .discard
    | jump =>
      cases op with
      | cmp op => exact hboth .value
      | _ => exact List.rel_append (hboth .jump) sameRefs_truth
    | value =>
      cases op with
      | cmp op => exact List.rel_append (hboth .value) sameRefs_truth
      | _ => exact List.rel_append (hboth .jump) sameRefs_truth
  | .assoc x e, _, ctx, _, h, u => by
    obtain ⟨⟨e', ctx₁⟩, he, h⟩ := bind_ok (x := buildExpr env e ctx) h
    obtain ⟨⟨s, ctx₂⟩, hs, h⟩ := bind_ok (x := buildVarname x ctx₁) h
    cases h
    obtain rfl := buildVarname_name hs
    have hval := buildExpr_refs he .value
    cases u with
    | discard => exact List.rel_append hval (.cons (.write s) .nil)
    | _ => exact List.rel_append hval (.cons (.write s) (.cons (.read s) .nil))

theorem buildSplit_refs {x pattern : String} {xs : List String} {n : StmtTree .node}
    (h : buildAction env (.regsplit x pattern xs) ctx = .ok (n, ctx')) :
    SameRefs env (StmtTree.refs (.regsplit x pattern xs)) n.refs := by
  obtain ⟨⟨s, ctx₁⟩, hs, h⟩ := bind_ok (x := buildVarname x ctx) h
  obtain ⟨⟨t, ctx₂⟩, ht, h⟩ := bind_ok (x := buildSplitRegex env pattern ctx₁) h
  obtain ⟨⟨ss, ctx₃⟩, hss, h⟩ := bind_ok (x := buildEach buildVarname xs ctx₂) h
  cases h
  obtain rfl := buildVarname_name hs
  have hnames : List.Forall₂ (fun x (s : Symbol) => s.name = x) xs ss :=
    buildEach_forall₂ (fun x s _ _ => buildVarname_name (x := x) (s := s)) hss
  have hwrite : SameRefs env (xs.map .write) (ss.map .write) := by
    refine List.forall₂_map_left_iff.mpr (List.forall₂_map_right_iff.mpr (hnames.imp ?_))
    rintro _ s' rfl
    exact .write s'
  unfold buildSplitRegex at ht
  split at ht
  · rename_i hr
    cases ht
    have hpat : (Constant.split pattern xs.length).object env =
        some ((StaticVar.sregex pattern 0).setSregexnum ss.length) := by
      rw [← hnames.length_eq]
      exact if_pos hr
    show SameRefs env _ (.read s :: .pattern _ ss.length :: ss.map .write)
    rw [← hnames.length_eq] at hpat ⊢
    exact .cons (.read s) (.cons (.pattern hpat) hwrite)
  · cases ht

mutual

theorem buildAction_refs : ∀ {s : StmtTree .text} {n : StmtTree .node} {ctx ctx' : Compiler},
    buildAction env s ctx = .ok (n, ctx') → SameRefs env s.refs n.refs
  | .expr e, _, ctx, _, h => by
    obtain ⟨⟨e', ctx₁⟩, he, h⟩ := bind_ok (x := buildExpr env e ctx) h
    cases h
    exact buildExpr_refs he .discard
  | .regsplit _ _ _, _, _, _, h => buildSplit_refs h
  | .ifstmt cond thn els, _, ctx, _, h => by
    obtain ⟨⟨cond', ctx₁⟩, hc, h⟩ := bind_ok (x := buildExpr env cond ctx) h
    obtain ⟨⟨thn', ctx₂⟩, ht, h⟩ := bind_ok (x := buildActionlist env thn ctx₁) h
    obtain ⟨⟨els', ctx₃⟩, he, h⟩ := bind_ok (x := buildActionlist env els ctx₂) h
    cases h
    exact List.rel_append (buildExpr_refs hc .jump)
      (List.rel_append (buildActionlist_refs ht).2 (buildActionlist_refs he).2)

theorem buildActionlist_refs : ∀ {ss : List (StmtTree .text)} {ns : List (StmtTree .node)}
    {ctx ctx' : Compiler}, buildActionlist env ss ctx = .ok (ns, ctx') →
      ss.isEmpty = ns.isEmpty ∧ SameRefs env (stmtsRefs ss) (stmtsRefs ns)
  | [], _, _, _, h => by
    cases h
    exact ⟨rfl, .nil⟩
  | s :: ss, _, ctx, _, h => by
    obtain ⟨⟨n, ctx₁⟩, hn, h⟩ := bind_ok (x := buildAction env s ctx) h
    obtain ⟨⟨ns, ctx₂⟩, hns, h⟩ := bind_ok (x := buildActionlist env ss ctx₁) h
    cases h
    exact ⟨rfl, List.rel_append (buildAction_refs hn) (buildActionlist_refs hns).2⟩

end

/-- The condition of the node is that of the text. -/
def SameCondition (env : ParserEnv) (t : TransTree .text) (n : TransTree .node) : Prop :=
  Option.Rel (fun e e' => SameRefs env (ExprTree.refs e .value) (ExprTree.refs e' .value))
    t.condition n.condition

theorem buildTransition_refs {t : TransTree .text} {n : TransTree .node}
    (h : buildTransition env t ctx = .ok (n, ctx')) : SameCondition env t n := by
  cases t with
  | direct cond dest =>
    obtain ⟨⟨cond', ctx₁⟩, hc, h⟩ := bind_ok (x := buildCond env cond ctx) h
    cases h
    cases cond with
    | none =>
      cases hc
      exact .none
    | some e =>
      obtain ⟨⟨e', ctx₂⟩, he, hc⟩ := bind_ok (x := buildExpr env e ctx) hc
      cases hc
      exact .some (buildExpr_refs he .value)
  | indirect cond as ts =>
    obtain ⟨⟨cond', ctx₁⟩, hc, h⟩ := bind_ok (x := buildExpr env cond ctx) h
    obtain ⟨⟨as', ctx₂⟩, -, h⟩ := bind_ok (x := buildActionlist env as ctx₁) h
    obtain ⟨⟨ts', ctx₃⟩, -, h⟩ := bind_ok (x := buildTransitionlist env ts ctx₂) h
    cases h
    exact .some (buildExpr_refs hc .value)

theorem buildTransitionlist_refs : ∀ {ts : List (TransTree .text)} {ns : List (TransTree .node)}
    {ctx : Compiler}, buildTransitionlist env ts ctx = .ok (ns, ctx') →
      List.Forall₂ (SameCondition env) ts ns
  | [], _, _, h => by
    cases h
    exact .nil
  | t :: ts, _, ctx, h => by
    obtain ⟨⟨n, ctx₁⟩, hn, h⟩ := bind_ok (x := buildTransition env t ctx) h
    obtain ⟨⟨ns, ctx₂⟩, hns, h⟩ := bind_ok (x := buildTransitionlist env ts ctx₁) h
    cases h
    exact .cons (buildTransition_refs hn) (buildTransitionlist_refs hns)

theorem sameConditions {ts : List (TransTree .text)} {ns : List (TransTree .node)}
    (h : List.Forall₂ (SameCondition env) ts ns) :
    List.Forall₂ (SameRefs env)
      ((ts.filterMap TransTree.condition).map fun e => e.refs .value)
      ((ns.filterMap TransTree.condition).map fun e => e.refs .value) := by
  induction h with
  | nil => exact .nil
  | @cons t n ts ns ht _ ih =>
    unfold SameCondition at ht
    cases hc : t.condition with
    | none =>
      rw [hc] at ht
      cases hn : n.condition with
      | none =>
        rw [List.filterMap_cons_none hc, List.filterMap_cons_none hn]
        exact ih
      | some e' =>
        rw [hn] at ht
        cases ht
    | some e =>
      rw [hc] at ht
      cases hn : n.condition with
      | none =>
        rw [hn] at ht
        cases ht
      | some e' =>
        rw [hn] at ht
        cases ht with
        | some he =>
          rw [List.filterMap_cons_some hc, List.filterMap_cons_some hn]
          exact .cons he ih

theorem buildState_refs {stateId : Nat} {s : StateTree .text} {n : StateTree .node}
    (h : buildState env stateId s ctx = .ok (n, ctx')) :
    List.Forall₂ (SameRefs env) s.refs n.refs := by
  obtain ⟨⟨as, ctx₁⟩, has, h⟩ := bind_ok (x := buildActionlist env s.actionlist ctx) h
  obtain ⟨⟨ts, ctx₂⟩, hts, h⟩ := bind_ok (x := buildTransitionlist env s.translist ctx₁) h
  obtain ⟨⟨_, ctx₃⟩, -, h⟩ := bind_ok (x := setStateLabel stateId s.name ctx₂) h
  cases h
  obtain ⟨hempty, hrefs⟩ := buildActionlist_refs has
  refine List.rel_append ?_ (sameConditions (buildTransitionlist_refs hts))
  rw [hempty]
  split
  · exact .nil
  · exact .cons hrefs .nil

theorem buildStates_refs : ∀ {ss : List (StateTree .text)} {ns : List (StateTree .node)}
    {stateId : Nat} {ctx : Compiler}, buildStates env stateId ss ctx = .ok (ns, ctx') →
      List.Forall₂ (SameRefs env) (ss.flatMap StateTree.refs) (ns.flatMap StateTree.refs)
  | [], _, _, _, h => by
    cases h
    exact .nil
  | s :: ss, _, stateId, ctx, h => by
    obtain ⟨⟨n, ctx₁⟩, hn, h⟩ := bind_ok (x := buildState env stateId s ctx) h
    obtain ⟨⟨ns, ctx₂⟩, hns, h⟩ := bind_ok (x := buildStates env (stateId + 1) ss ctx₁) h
    cases h
    exact List.rel_append (buildState_refs hn) (buildStates_refs hns)

/-- The nodes of a rule have the references of its text. -/
theorem buildRule_refs {r : RuleTree .text} {n : RuleTree .node}
    (h : buildRule env r ctx = .ok (n, ctx')) : List.Forall₂ (SameRefs env) r.refs n.refs := by
  obtain ⟨⟨i, ctx₁⟩, hi, h⟩ := bind_ok (x := buildState env 0 r.init ctx) h
  obtain ⟨⟨ns, ctx₂⟩, hns, h⟩ := bind_ok (x := buildStates env 1 r.statelist ctx₁) h
  cases h
  exact List.rel_append (buildState_refs hi) (buildStates_refs hns)

end Orchids
