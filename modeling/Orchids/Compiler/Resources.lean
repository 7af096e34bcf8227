import Orchids.Compiler.Jumps
import Orchids.Compiler.Parser

/-!
# The numbers of variables and constants

What the parser makes of a rule depends on what its tables hold (`Pool`) and on nothing else in them:
not on what was in the chains and arrays before, nor on their sizes.

* `Meets`: from tables that hold a pool, a piece of the parser stops with one error, or it makes one
  value, and tables that hold one pool.
* `buildRule_meets`: what a rule adds to the pool; one lemma for each kind of tree.
* `compileAndAddRule_eq`: the tables of the compiled rule are the pool.
* `rulelist_compiled`: the rules of a run, each from the pool of its text.
-/

namespace Orchids

open Opcode

/-! ## What the tables hold -/

/-- The names of the variables, the constants and the names of the states, by their ids. -/
structure Pool where
  names : List String
  consts : List StaticVar
  states : List String

/-- The pool before a rule. -/
def Pool.fresh : Pool := { names := [], consts := firstStatics, states := [] }

namespace Compiler

/-- The tables hold the pool: the hash tables find ids by names, the arrays have the names and the
constants by ids. -/
structure Holds (ctx : Compiler) (a : Pool) : Prop where
  env : ctx.ruleEnv.Holds a.names.zipIdx.reverse
  varName : ctx.dynVarName.elements = a.names
  nodup : a.names.Nodup
  statics : ctx.statics.elements = a.consts
  labels : ctx.statenamesHash.Holds a.states.zipIdx.reverse
  distinct : a.states.Nodup

/-- What is kept from rule to rule. -/
def registered (ctx : Compiler) : Nat × HashTable String Nat × List NumberedRule :=
  (ctx.rules, ctx.rulenamesHash, ctx.firstRule)

namespace Holds

variable {ctx : Compiler} {a : Pool}

theorem elmts (h : ctx.Holds a) : ctx.ruleEnv.elmts = a.names.length := by
  rw [h.env.count, List.length_reverse, List.length_zipIdx]

theorem nb (h : ctx.Holds a) : ctx.statics.nb = a.consts.length := by
  rw [← h.statics, GrowArray.length_elements]

theorem get (h : ctx.Holds a) (x : String) :
    ctx.ruleEnv.get x = if x ∈ a.names then some (a.names.idxOf x) else none := by
  rw [h.env.get, lookup_zipIdx_reverse h.nodup]

theorem get_label (h : ctx.Holds a) (x : String) :
    ctx.statenamesHash.get x = if x ∈ a.states then some (a.states.idxOf x) else none := by
  rw [h.labels.get, lookup_zipIdx_reverse h.distinct]

theorem staticsAdd (h : ctx.Holds a) (data : StaticVar) :
    (ctx.staticsAdd data).Holds { a with consts := a.consts ++ [data] } where
  env := h.env
  varName := h.varName
  nodup := h.nodup
  statics := by
    show (ctx.statics.add staticsSz staticsSz_pos data).elements = a.consts ++ [data]
    rw [GrowArray.elements_add, h.statics]
  labels := h.labels
  distinct := h.distinct

theorem staticsSet (h : ctx.Holds a) (i : Nat) (data : StaticVar) :
    (ctx.staticsSet i data).Holds { a with consts := a.consts.set i data } where
  env := h.env
  varName := h.varName
  nodup := h.nodup
  statics := by
    show (ctx.statics.set i data).elements = a.consts.set i data
    rw [GrowArray.elements_set, h.statics]
  labels := h.labels
  distinct := h.distinct

/-- A new variable is the next of both tables. -/
theorem varAdd (h : ctx.Holds a) {x : String} (hx : x ∉ a.names) :
    Compiler.Holds ({ ctx with ruleEnv := ctx.ruleEnv.add a.names.length x }.dynamicAdd x)
      { a with names := a.names ++ [x] } where
  env := by
    rw [zipIdx_concat_reverse]
    exact h.env.add a.names.length x
  varName := by
    show (ctx.dynVarName.add staticsSz staticsSz_pos x).elements = a.names ++ [x]
    rw [GrowArray.elements_add, h.varName]
  nodup := by
    rw [← number_of_not_mem hx]
    exact nodup_number h.nodup x
  statics := h.statics
  labels := h.labels
  distinct := h.distinct

theorem labelAdd (h : ctx.Holds a) {name : String} (hn : name ∉ a.states) :
    Compiler.Holds
      { ctx with statenamesHash := ctx.statenamesHash.add a.states.length name }
      { a with states := a.states ++ [name] } where
  env := h.env
  varName := h.varName
  nodup := h.nodup
  statics := h.statics
  labels := by
    rw [zipIdx_concat_reverse]
    exact h.labels.add a.states.length name
  distinct := by
    rw [← number_of_not_mem hn]
    exact nodup_number h.distinct name

/-- After `compiler_reset`, the tables hold the pool before a rule, whatever they held. -/
theorem reset (h : ctx.Holds a) (hf : a.consts.take 5 = firstStatics) :
    ctx.reset.Holds .fresh where
  env := .clear _
  varName := GrowArray.elements_shrink ctx.dynVarName (Nat.zero_le _)
  nodup := .nil
  statics := by
    show (ctx.statics.shrink 5 ctx.five_le).elements = firstStatics
    rw [GrowArray.elements_shrink, h.statics]
    exact hf
  labels := .clear _
  distinct := .nil

end Holds

end Compiler

theorem newRuleCompilerCtx_holds : newRuleCompilerCtx.Holds .fresh where
  env := .new _ _
  varName := rfl
  nodup := .nil
  statics := rfl
  labels := .new _ _
  distinct := .nil

/-! ## Pieces of the parser -/

/-- From any tables that hold `a`, the parser stops with one error, or makes one value and leaves
tables that hold one pool, as `Q` says. -/
def Meets {α : Type} (p : Parser α) (a : Pool) (Q : α → Pool → Prop) : Prop :=
  (∃ e, ∀ ctx : Compiler, ctx.Holds a → p ctx = .error e) ∨
    ∃ b a', Q b a' ∧ ∀ ctx : Compiler, ctx.Holds a →
      ∃ ctx', p ctx = .ok (b, ctx') ∧ ctx'.Holds a' ∧ ctx'.registered = ctx.registered

namespace Meets

variable {α β : Type} {p : Parser α} {k : α → Parser β} {a : Pool} {Q Q' : α → Pool → Prop}
  {R : β → Pool → Prop}

theorem pure {b : α} (h : Q b a) : Meets (pure b) a Q :=
  .inr ⟨b, a, h, fun ctx hc => ⟨ctx, rfl, hc, rfl⟩⟩

theorem throw (e : ParseError) : Meets (throw e) a Q := .inl ⟨e, fun _ _ => rfl⟩

theorem mono (hp : Meets p a Q) (h : ∀ b a', Q b a' → Q' b a') : Meets p a Q' := by
  rcases hp with hp | ⟨b, a', hq, hp⟩
  · exact .inl hp
  · exact .inr ⟨b, a', h b a' hq, hp⟩

theorem bind (hp : Meets p a Q) (hk : ∀ b a', Q b a' → Meets (k b) a' R) :
    Meets (p >>= k) a R := by
  rcases hp with ⟨e, he⟩ | ⟨b, a', hq, hp⟩
  · refine .inl ⟨e, fun ctx hc => ?_⟩
    show (p ctx >>= fun r => k r.1 r.2) = _
    rw [he ctx hc]
    rfl
  · rcases hk b a' hq with ⟨e, he⟩ | ⟨c, a'', hr, hk⟩
    · refine .inl ⟨e, fun ctx hc => ?_⟩
      obtain ⟨ctx', hb, hc', -⟩ := hp ctx hc
      show (p ctx >>= fun r => k r.1 r.2) = _
      rw [hb]
      exact he ctx' hc'
    · refine .inr ⟨c, a'', hr, fun ctx hc => ?_⟩
      obtain ⟨ctx', hb, hc', hreg⟩ := hp ctx hc
      obtain ⟨ctx'', hb', hc'', hreg'⟩ := hk ctx' hc'
      refine ⟨ctx'', ?_, hc'', hreg'.trans hreg⟩
      show (p ctx >>= fun r => k r.1 r.2) = _
      rw [hb]
      exact hb'

/-- Where the parser makes a value from some tables, it makes the same from all tables that hold the
same pool. -/
theorem ok (hp : Meets p a Q) {ctx ctx' : Compiler} {b : α} (hc : ctx.Holds a)
    (h : p ctx = .ok (b, ctx')) :
    ∃ a', Q b a' ∧ ctx'.Holds a' ∧ ctx'.registered = ctx.registered ∧
      ∀ ctx₂ : Compiler, ctx₂.Holds a →
        ∃ ctx₂', p ctx₂ = .ok (b, ctx₂') ∧ ctx₂'.Holds a' ∧
          ctx₂'.registered = ctx₂.registered := by
  rcases hp with ⟨e, he⟩ | ⟨b', a', hq, hp⟩
  · rw [he ctx hc] at h
    cases h
  · obtain ⟨ctx'', hb, hc', hreg⟩ := hp ctx hc
    rw [hb] at h
    cases h
    exact ⟨a', hq, hc', hreg, hp⟩

end Meets

/-! ## Occurrences -/

/-- A constant in the text of a rule; the one of a split has the number of its variables. -/
inductive Constant where
  | literal (l : Literal)
  | split (pattern : String) (splits : Nat)

/-- The object that the parser makes of a literal: of a date, it makes 0. -/
def Literal.object (env : ParserEnv) : Literal → Option StaticVar
  | string s => some (.str s)
  | number i => some (.int (i.signExtend 64))
  | fpDouble f => some (.float (env.round f))
  | ctimeInt time => some (.ctime (time.signExtend 64))
  | ctimeString _ => some (.ctime 0)
  | ipv4 hostname => (env.gethostbyname hostname).map .ipv4
  | timevalInt sec usec => some (.timeval (sec.signExtend 64) (usec.signExtend 64))
  | timevalString _ usec => some (.timeval 0 (usec.signExtend 64))
  | counter initialValue => some (.counter (initialValue.signExtend 64))
  | regex regexStr => if env.regcomp true regexStr then some (.regex regexStr) else none

/-- The object that the parser makes of a constant. -/
def Constant.object (env : ParserEnv) : Constant → Option StaticVar
  | literal l => l.object env
  | split pattern splits =>
    if env.regcomp false pattern then some (.sregex pattern splits) else none

section Occurrences

variable {p : Phase}

def Leaf.vars : Leaf p → List p.Sym
  | var x => [x]
  | _ => []

def Leaf.consts : Leaf p → List p.Const
  | const c => [c]
  | _ => []

/-- The occurrences of variables, in the order in which they get their ids. -/
def ExprTree.vars : ExprTree p → List p.Sym
  | leaf l => l.vars
  | call _ ps => ps.flatMap Leaf.vars
  | binop _ l r => l.vars ++ r.vars
  | cond _ l r => l.vars ++ r.vars
  | assoc x e => e.vars ++ [x]

/-- The constants, in the order in which they get their ids. -/
def ExprTree.consts : ExprTree p → List p.Const
  | leaf l => l.consts
  | call _ ps => ps.flatMap Leaf.consts
  | binop _ l r => l.consts ++ r.consts
  | cond _ l r => l.consts ++ r.consts
  | assoc _ e => e.consts

mutual

def StmtTree.vars : StmtTree p → List p.Sym
  | .expr e => e.vars
  | .regsplit x _ xs => x :: xs
  | .ifstmt e thn els => e.vars ++ (stmtsVars thn ++ stmtsVars els)

def stmtsVars : List (StmtTree p) → List p.Sym
  | [] => []
  | s :: ss => s.vars ++ stmtsVars ss

end

mutual

def TransTree.vars : TransTree p → List p.Sym
  | .direct e _ => e.toList.flatMap ExprTree.vars
  | .indirect e as ts => e.vars ++ (stmtsVars as ++ transsVars ts)

def transsVars : List (TransTree p) → List p.Sym
  | [] => []
  | t :: ts => t.vars ++ transsVars ts

end

def StateTree.vars (s : StateTree p) : List p.Sym := stmtsVars s.actionlist ++ transsVars s.translist

def RuleTree.vars (r : RuleTree p) : List p.Sym := r.init.vars ++ r.statelist.flatMap StateTree.vars

variable {γ : Type} (lit : p.Const → γ) (split : p.Pat → Nat → γ)

mutual

def StmtTree.consts : StmtTree p → List γ
  | .expr e => e.consts.map lit
  | .regsplit _ t xs => [split t xs.length]
  | .ifstmt e thn els => e.consts.map lit ++ (stmtsConsts thn ++ stmtsConsts els)

def stmtsConsts : List (StmtTree p) → List γ
  | [] => []
  | s :: ss => s.consts ++ stmtsConsts ss

end

mutual

def TransTree.consts : TransTree p → List γ
  | .direct e _ => (e.toList.flatMap ExprTree.consts).map lit
  | .indirect e as ts => e.consts.map lit ++ (stmtsConsts lit split as ++ transsConsts ts)

def transsConsts : List (TransTree p) → List γ
  | [] => []
  | t :: ts => t.consts ++ transsConsts ts

end

def StateTree.consts (s : StateTree p) : List γ :=
  stmtsConsts lit split s.actionlist ++ transsConsts lit split s.translist

def RuleTree.consts (r : RuleTree p) : List γ :=
  r.init.consts lit split ++ r.statelist.flatMap (StateTree.consts lit split)

end Occurrences

/-! ## What a piece adds -/

/-- From the pool `a` to `a'`, a piece of a rule with these occurrences and constants has been built,
as nodes with these symbols and terms, and these states have got their labels. -/
structure Built (env : ParserEnv) (a a' : Pool) (vars : List String) (consts : List Constant)
    (syms : List Symbol) (terms : List Term) (labels : List String) : Prop where
  names : a'.names = numberAll a.names vars
  symNames : syms.map Symbol.name = vars
  symIds : ∀ s ∈ syms, a'.names[s.resId]? = some s.name
  statics : a'.consts = a.consts ++ terms.map Term.data
  termIds : ∀ t ∈ terms, a'.consts[t.resId]? = some t.data
  values : List.Forall₂ (fun c t => c.object env = some t.data) consts terms
  states : a'.states = a.states ++ labels

theorem getElem?_of_prefix {α : Type} {l l' : List α} (h : l <+: l') {i : Nat} {x : α}
    (hi : l[i]? = some x) : l'[i]? = some x := by
  obtain ⟨s, rfl⟩ := h
  rwa [List.getElem?_append_left (List.getElem?_eq_some_iff.mp hi).1]

namespace Built

variable {env : ParserEnv} {a a' a'' : Pool} {vars vars' : List String}
  {consts consts' : List Constant} {syms syms' : List Symbol} {terms terms' : List Term}
  {labels labels' : List String}

theorem refl (a : Pool) : Built env a a [] [] [] [] [] where
  names := rfl
  symNames := rfl
  symIds := nofun
  statics := (List.append_nil _).symm
  termIds := nofun
  values := .nil
  states := (List.append_nil _).symm

theorem trans (h : Built env a a' vars consts syms terms labels)
    (h' : Built env a' a'' vars' consts' syms' terms' labels') :
    Built env a a'' (vars ++ vars') (consts ++ consts') (syms ++ syms') (terms ++ terms')
      (labels ++ labels') where
  names := by rw [h'.names, h.names, numberAll_append]
  symNames := by rw [List.map_append, h.symNames, h'.symNames]
  symIds := by
    intro s hs
    rcases List.mem_append.mp hs with hs | hs
    · refine getElem?_of_prefix ?_ (h.symIds s hs)
      rw [h'.names]
      exact prefix_numberAll _ _
    · exact h'.symIds s hs
  statics := by rw [h'.statics, h.statics, List.map_append, List.append_assoc]
  termIds := by
    intro t ht
    rcases List.mem_append.mp ht with ht | ht
    · refine getElem?_of_prefix ?_ (h.termIds t ht)
      rw [h'.statics]
      exact List.prefix_append _ _
    · exact h'.termIds t ht
  values := List.rel_append h.values h'.values
  states := by rw [h'.states, h.states, List.append_assoc]

/-- One constant more. -/
theorem term {c : Constant} {data : StaticVar} (hc : c.object env = some data) (a : Pool) :
    Built env a { a with consts := a.consts ++ [data] } [] [c] []
      [{ data, resId := a.consts.length }] [] where
  names := rfl
  symNames := rfl
  symIds := nofun
  statics := rfl
  termIds := by
    intro t ht
    obtain rfl := List.mem_singleton.mp ht
    exact List.getElem?_concat_length
  values := .cons hc .nil
  states := (List.append_nil _).symm

/-- A piece without constants does the same with others in the pool. -/
theorem of_consts (h : Built env a a' vars [] syms [] labels) (cs : List StaticVar) :
    Built env { a with consts := cs } { a' with consts := cs } vars [] syms [] labels where
  names := h.names
  symNames := h.symNames
  symIds := h.symIds
  statics := (List.append_nil _).symm
  termIds := nofun
  values := .nil
  states := h.states

end Built

variable {env : ParserEnv}

/-! ## Leaves -/

theorem buildVarname_meets (env : ParserEnv) (x : String) (a : Pool) :
    Meets (buildVarname x) a fun s a' => Built env a a' [x] [] [s] [] [] := by
  by_cases hx : x ∈ a.names
  · refine .inr ⟨{ name := x, resId := a.names.idxOf x }, a, ?_, fun ctx hc => ⟨ctx, ?_, hc, rfl⟩⟩
    · exact
        { names := (number_of_mem hx).symm
          symNames := rfl
          symIds := by
            intro s hs
            obtain rfl := List.mem_singleton.mp hs
            exact List.getElem?_idxOf hx
          statics := (List.append_nil _).symm
          termIds := nofun
          values := .nil
          states := (List.append_nil _).symm }
    · simp only [buildVarname, hc.get, if_pos hx]
  · refine .inr ⟨{ name := x, resId := a.names.length }, { a with names := a.names ++ [x] }, ?_,
      fun ctx hc => ⟨_, ?_, hc.varAdd hx, rfl⟩⟩
    · exact
        { names := (number_of_not_mem hx).symm
          symNames := rfl
          symIds := by
            intro s hs
            obtain rfl := List.mem_singleton.mp hs
            exact List.getElem?_concat_length
          statics := (List.append_nil _).symm
          termIds := nofun
          values := .nil
          states := (List.append_nil _).symm }
    · simp only [buildVarname, hc.get, if_neg hx, hc.elmts]

theorem buildTerm_meets (data : StaticVar) (a : Pool) :
    Meets (buildTerm data) a fun t a' =>
      t = { data, resId := a.consts.length } ∧ a' = { a with consts := a.consts ++ [data] } := by
  refine .inr ⟨_, _, ⟨rfl, rfl⟩, fun ctx hc => ⟨_, ?_, hc.staticsAdd data, rfl⟩⟩
  simp only [buildTerm, hc.nb]

theorem buildTerm_built {c : Constant} {data : StaticVar} (hc : c.object env = some data)
    (a : Pool) : Meets (buildTerm data) a fun t a' => Built env a a' [] [c] [] [t] [] := by
  refine (buildTerm_meets data a).mono ?_
  rintro t a' ⟨rfl, rfl⟩
  exact .term hc a

theorem buildLiteral_meets (l : Literal) (a : Pool) :
    Meets (buildLiteral env l) a fun t a' => Built env a a' [] [.literal l] [] [t] [] := by
  cases l with
  | ipv4 hostname =>
    simp only [buildLiteral, buildIpv4]
    cases hh : env.gethostbyname hostname with
    | none => exact .throw _
    | some addr =>
      refine buildTerm_built ?_ a
      simp only [Constant.object, Literal.object, hh, Option.map_some]
  | regex regexStr =>
    simp only [buildLiteral, buildRegex]
    split
    · rename_i hr
      have hv : Constant.object env (.literal (.regex regexStr)) = some (.regex regexStr) := if_pos hr
      exact buildTerm_built hv a
    · exact .throw _
  | _ => exact buildTerm_built rfl a

theorem buildFieldname_meets (f : String) (a : Pool) :
    Meets (buildFieldname env f) a fun _ a' => a' = a := by
  unfold buildFieldname
  split
  · exact .throw _
  · exact .pure rfl

theorem buildLeaf_meets (l : Leaf .text) (a : Pool) :
    Meets (buildLeaf env l) a fun n a' =>
      Built env a a' l.vars (l.consts.map .literal) n.vars n.consts [] := by
  cases l with
  | const c => exact (buildLiteral_meets c a).bind fun t a' h => .pure h
  | var x => exact (buildVarname_meets env x a).bind fun s a' h => .pure h
  | field f =>
    refine (buildFieldname_meets f a).bind fun s a' h => .pure ?_
    subst h
    exact .refl a'

/-- One element after the other. -/
theorem buildEach_meets {α β : Type} {build : α → Parser β} {vars : α → List String}
    {consts : α → List Constant} {syms : β → List Symbol} {terms : β → List Term}
    (h : ∀ x a, Meets (build x) a fun y a' =>
      Built env a a' (vars x) (consts x) (syms y) (terms y) []) (l : List α) (a : Pool) :
    Meets (buildEach build l) a fun ys a' =>
      Built env a a' (l.flatMap vars) (l.flatMap consts) (ys.flatMap syms) (ys.flatMap terms) [] := by
  induction l generalizing a with
  | nil => exact .pure (.refl a)
  | cons x l ih =>
    refine (h x a).bind fun y a₁ h₁ => (ih a₁).bind fun ys a₂ h₂ => .pure ?_
    simpa only [List.flatMap_cons, List.append_nil] using h₁.trans h₂

theorem buildVars_meets (env : ParserEnv) (xs : List String) (a : Pool) :
    Meets (buildEach buildVarname xs) a fun ss a' => Built env a a' xs [] ss [] [] := by
  have h : Meets (buildEach buildVarname xs) a fun ss a' =>
      Built env a a' (xs.flatMap fun x => [x]) (xs.flatMap fun _ => []) (ss.flatMap fun s => [s])
        (ss.flatMap fun _ => []) [] :=
    buildEach_meets (buildVarname_meets env) xs a
  refine h.mono fun ss a' hb => ?_
  have hnil : ∀ {α β : Type} (l : List α), (l.flatMap fun _ => ([] : List β)) = [] := by
    intro α β l
    rw [List.flatMap_eq_nil_iff]
    exact fun _ _ => rfl
  simpa only [List.flatMap_singleton', hnil] using hb

/-! ## Trees -/

theorem buildExpr_meets : ∀ (e : ExprTree .text) (a : Pool),
    Meets (buildExpr env e) a fun n a' =>
      Built env a a' e.vars (e.consts.map .literal) n.vars n.consts []
  | .leaf l, a => (buildLeaf_meets l a).bind fun l' a' h => .pure h
  | .call sym params, a => by
    refine (buildEach_meets buildLeaf_meets params a).bind fun ps a' h => ?_
    unfold buildFunctionCall
    split
    · exact .throw _
    · refine .pure ?_
      simpa only [ExprTree.vars, ExprTree.consts, List.map_flatMap] using h
  | .binop op l r, a => by
    refine (buildExpr_meets l a).bind fun l' a₁ h₁ =>
      (buildExpr_meets r a₁).bind fun r' a₂ h₂ => .pure ?_
    simpa only [ExprTree.vars, ExprTree.consts, List.map_append, List.append_nil] using h₁.trans h₂
  | .cond op l r, a => by
    refine (buildExpr_meets l a).bind fun l' a₁ h₁ =>
      (buildExpr_meets r a₁).bind fun r' a₂ h₂ => .pure ?_
    simpa only [ExprTree.vars, ExprTree.consts, List.map_append, List.append_nil] using h₁.trans h₂
  | .assoc x e, a => by
    refine (buildExpr_meets e a).bind fun e' a₁ h₁ =>
      (buildVarname_meets env x a₁).bind fun s a₂ h₂ => .pure ?_
    simpa only [ExprTree.vars, ExprTree.consts, List.append_nil] using h₁.trans h₂

/-- The nodes have the constants of the terms themselves. -/
abbrev termOf (t : Term) : Term := t

/-- The pattern of a split is a term. -/
abbrev patternOf (t : Term) (_ : Nat) : Term := t

theorem buildStringSplit_meets (s : Symbol) (t : Term) (ss : List Symbol) (a : Pool) :
    Meets (buildStringSplit s t ss) a fun n a' =>
      n = .regsplit s { t with data := t.data.setSregexnum ss.length } ss ∧
        a' = { a with consts := a.consts.set t.resId (t.data.setSregexnum ss.length) } :=
  .inr ⟨_, _, ⟨rfl, rfl⟩, fun _ hc => ⟨_, rfl, hc.staticsSet _ _, rfl⟩⟩

/-- A split: the pattern gets its number when its variables are there. -/
theorem buildSplit_meets (x pattern : String) (xs : List String) (a : Pool) :
    Meets (buildAction env (.regsplit x pattern xs)) a fun n a' =>
      Built env a a' (x :: xs) [.split pattern xs.length] n.vars (n.consts termOf patternOf) [] := by
  refine (buildVarname_meets env x a).bind fun s a₁ h₁ => ?_
  refine Meets.bind (Q := fun t a₂ => env.regcomp false pattern = true ∧
    t = { data := .sregex pattern 0, resId := a₁.consts.length } ∧
      a₂ = { a₁ with consts := a₁.consts ++ [.sregex pattern 0] }) ?_ ?_
  · unfold buildSplitRegex
    split
    · rename_i hr
      exact (buildTerm_meets _ a₁).mono fun t a₂ h => ⟨hr, h⟩
    · exact .throw _
  · rintro t a₂ ⟨hr, rfl, rfl⟩
    refine (buildVars_meets env xs _).bind fun ss a₃ h₃ => ?_
    refine (buildStringSplit_meets s _ ss a₃).mono ?_
    rintro n a₄ ⟨rfl, rfl⟩
    have hlen : ss.length = xs.length := by rw [← h₃.symNames, List.length_map]
    have hset : a₃.consts.set a₁.consts.length (.sregex pattern xs.length) =
        a₁.consts ++ [.sregex pattern xs.length] := by
      rw [h₃.statics]
      simp
    have hv : Constant.object env (.split pattern xs.length) = some (.sregex pattern xs.length) :=
      if_pos hr
    have h := h₁.trans ((Built.term hv a₁).trans (h₃.of_consts _))
    simp only [StaticVar.setSregexnum, hlen, hset]
    exact h

mutual

theorem buildAction_meets : ∀ (s : StmtTree .text) (a : Pool),
    Meets (buildAction env s) a fun n a' =>
      Built env a a' s.vars (s.consts .literal .split) n.vars (n.consts termOf patternOf) []
  | .expr e, a => by
    refine (buildExpr_meets e a).bind fun e' a' h => .pure ?_
    simpa only [StmtTree.vars, StmtTree.consts, List.map_id'] using h
  | .regsplit x pattern xs, a => buildSplit_meets x pattern xs a
  | .ifstmt cond thn els, a => by
    refine (buildExpr_meets cond a).bind fun cond' a₁ h₁ =>
      (buildActionlist_meets thn a₁).bind fun thn' a₂ h₂ =>
        (buildActionlist_meets els a₂).bind fun els' a₃ h₃ => .pure ?_
    simpa only [StmtTree.vars, StmtTree.consts, List.map_id', List.append_nil] using
      h₁.trans (h₂.trans h₃)

theorem buildActionlist_meets : ∀ (ss : List (StmtTree .text)) (a : Pool),
    Meets (buildActionlist env ss) a fun ns a' =>
      Built env a a' (stmtsVars ss) (stmtsConsts .literal .split ss) (stmtsVars ns)
        (stmtsConsts termOf patternOf ns) []
  | [], a => .pure (.refl a)
  | s :: ss, a =>
    (buildAction_meets s a).bind fun _ a₁ h₁ =>
      (buildActionlist_meets ss a₁).bind fun _ _ h₂ => .pure (h₁.trans h₂)

end

theorem buildCond_meets (e : Option (ExprTree .text)) (a : Pool) :
    Meets (buildCond env e) a fun n a' =>
      Built env a a' (e.toList.flatMap ExprTree.vars)
        ((e.toList.flatMap ExprTree.consts).map .literal) (n.toList.flatMap ExprTree.vars)
        (n.toList.flatMap ExprTree.consts) [] := by
  cases e with
  | none => exact .pure (.refl a)
  | some e =>
    refine (buildExpr_meets e a).bind fun e' a' h => .pure ?_
    simpa only [Option.toList_some, List.flatMap_singleton] using h

mutual

theorem buildTransition_meets : ∀ (t : TransTree .text) (a : Pool),
    Meets (buildTransition env t) a fun n a' =>
      Built env a a' t.vars (t.consts .literal .split) n.vars (n.consts termOf patternOf) []
  | .direct cond dest, a => by
    refine (buildCond_meets cond a).bind fun cond' a' h => .pure ?_
    simpa only [TransTree.vars, TransTree.consts, List.map_id'] using h
  | .indirect cond as ts, a => by
    refine (buildExpr_meets cond a).bind fun cond' a₁ h₁ =>
      (buildActionlist_meets as a₁).bind fun as' a₂ h₂ =>
        (buildTransitionlist_meets ts a₂).bind fun ts' a₃ h₃ => .pure ?_
    simpa only [TransTree.vars, TransTree.consts, List.map_id', List.append_nil] using
      h₁.trans (h₂.trans h₃)

theorem buildTransitionlist_meets : ∀ (ts : List (TransTree .text)) (a : Pool),
    Meets (buildTransitionlist env ts) a fun ns a' =>
      Built env a a' (transsVars ts) (transsConsts .literal .split ts) (transsVars ns)
        (transsConsts termOf patternOf ns) []
  | [], a => .pure (.refl a)
  | t :: ts, a =>
    (buildTransition_meets t a).bind fun _ a₁ h₁ =>
      (buildTransitionlist_meets ts a₁).bind fun _ _ h₂ => .pure (h₁.trans h₂)

end

/-! ## States and rules -/

/-- A state gets the next number. -/
theorem setStateLabel_meets (env : ParserEnv) (name : String) (a : Pool) :
    Meets (setStateLabel a.states.length name) a fun _ a' =>
      Built env a a' [] [] [] [] [name] := by
  by_cases hn : name ∈ a.states
  · refine .inl ⟨.compile (.stateDefined name), fun ctx hc => ?_⟩
    simp only [setStateLabel, hc.get_label, if_pos hn]
  · refine .inr ⟨(), { a with states := a.states ++ [name] }, ?_,
      fun ctx hc => ⟨_, ?_, hc.labelAdd hn, rfl⟩⟩
    · exact { Built.refl a with states := rfl }
    · simp only [setStateLabel, hc.get_label, if_neg hn]

theorem buildState_meets (s : StateTree .text) (a : Pool) :
    Meets (buildState env a.states.length s) a fun n a' =>
      n.name = s.name ∧
        Built env a a' s.vars (s.consts .literal .split) n.vars (n.consts termOf patternOf)
          [s.name] := by
  refine (buildActionlist_meets s.actionlist a).bind fun as a₁ h₁ =>
    (buildTransitionlist_meets s.translist a₁).bind fun ts a₂ h₂ => ?_
  have hst : a.states.length = a₂.states.length := by
    rw [h₂.states, h₁.states, List.append_nil, List.append_nil]
  rw [hst]
  refine (setStateLabel_meets env s.name a₂).bind fun _ a₃ h₃ => .pure ⟨rfl, ?_⟩
  simpa only [StateTree.vars, StateTree.consts, List.append_nil, List.nil_append] using
    (h₁.trans h₂).trans h₃

theorem buildStates_meets (ss : List (StateTree .text)) (a : Pool) :
    Meets (buildStates env a.states.length ss) a fun ns a' =>
      ns.map StateTree.name = ss.map StateTree.name ∧
        Built env a a' (ss.flatMap StateTree.vars) (ss.flatMap (StateTree.consts .literal .split))
          (ns.flatMap StateTree.vars) (ns.flatMap (StateTree.consts termOf patternOf))
          (ss.map StateTree.name) := by
  induction ss generalizing a with
  | nil => exact .pure ⟨rfl, .refl a⟩
  | cons s ss ih =>
    refine (buildState_meets s a).bind fun n a₁ h₁ => ?_
    have hst : a.states.length + 1 = a₁.states.length := by
      rw [h₁.2.states, List.length_append, List.length_singleton]
    rw [hst]
    refine (ih a₁).bind fun ns a₂ h₂ => .pure ⟨?_, h₁.2.trans h₂.2⟩
    rw [List.map_cons, List.map_cons, h₁.1, h₂.1]

/-- The states of a tree in the order of their ids. -/
def RuleTree.states {p : Phase} (r : RuleTree p) : List (StateTree p) := r.init :: r.statelist

/-- What a rule adds to the pool. -/
theorem buildRule_meets (r : RuleTree .text) (a : Pool) (ha : a.states = []) :
    Meets (buildRule env r) a fun n a' =>
      (n.name = r.name ∧ n.syncVars = r.syncVars ∧
          n.states.map StateTree.name = r.states.map StateTree.name) ∧
        Built env a a' r.vars (r.consts .literal .split) n.vars (n.consts termOf patternOf)
          (r.states.map StateTree.name) := by
  have h0 : a.states.length = 0 := by rw [ha, List.length_nil]
  have hinit : Meets (buildState env a.states.length r.init) a _ := buildState_meets r.init a
  rw [h0] at hinit
  refine hinit.bind fun n a₁ h₁ => ?_
  have hone : a₁.states.length = 1 := by
    rw [h₁.2.states, List.length_append, h0, List.length_singleton]
  have hrest : Meets (buildStates env a₁.states.length r.statelist) a₁ _ :=
    buildStates_meets r.statelist a₁
  rw [hone] at hrest
  refine hrest.bind fun ns a₂ h₂ => .pure ⟨⟨rfl, rfl, ?_⟩, h₁.2.trans h₂.2⟩
  simp only [RuleTree.states, List.map_cons, h₁.1, h₂.1]

/-! ## The compiled rule -/

/-- The rule that `compile_and_add_rule_ast` makes where the tables hold a pool. -/
def Pool.rule (a : Pool) (n : RuleTree .node) (id : Nat) : Except CompileError NumberedRule := do
  let syncVars ← compileSyncVars a.names n.syncVars
  let states ← n.erase.states.mapM (compileStateAst (statenamesGet a.states))
  pure
    { name := n.name, states, syncVars, id, staticEnv := a.consts, staticEnvSz := a.consts.length
      dynamicEnvSz := a.names.length, varName := a.names }

theorem findIdx?_beq (ns : List String) (x : String) :
    ns.findIdx? (· == x) = if x ∈ ns then some (ns.idxOf x) else none := by
  by_cases hx : x ∈ ns
  · rw [if_pos hx, List.findIdx?_eq_some_of_exists (p := fun y => y == x) ⟨x, hx, by simp⟩]
    rfl
  · rw [if_neg hx, List.findIdx?_eq_none_iff]
    rintro y hy
    exact beq_false_of_ne fun h => hx (h ▸ hy)

variable {ctx ctx' : Compiler} {a : Pool} {n : RuleTree .node} {rule : NumberedRule}

theorem syncVarIds_eq (h : ctx.Holds a) (vars : Option (List String)) :
    syncVarIds ctx.ruleEnv vars = compileSyncVars a.names vars := by
  cases vars with
  | none => rfl
  | some vars =>
    have hget : ∀ x, ctx.ruleEnv.get x = a.names.findIdx? (· == x) := fun x =>
      (h.get x).trans (findIdx?_beq a.names x).symm
    simp only [syncVarIds, hget]
    rfl

/-- The table of the labels finds the states by their names. -/
theorem get_statenamesHash (h : ctx.Holds a) : ctx.statenamesHash.get = statenamesGet a.states := by
  funext x
  exact (h.get_label x).trans (findIdx?_beq a.states x).symm

theorem compileAndAddRule_eq (h : ctx.Holds a) (hnew : ctx.rulenamesHash.get n.name = none) :
    compileAndAddRule n ctx =
      match a.rule n ctx.rules with
      | .ok rule => .ok (rule,
        { ctx with
          rules := ctx.rules + 1
          rulenamesHash := ctx.rulenamesHash.add ctx.rules n.name
          firstRule := ctx.firstRule ++ [rule] })
      | .error e => .error (.compile e) := by
  have hstat : ctx.statics.cells.take a.consts.length = a.consts := by
    rw [← h.nb]
    exact h.statics
  have hdyn : ctx.dynVarName.cells.take a.names.length = a.names := by
    rw [← h.varName, GrowArray.length_elements]
    rfl
  unfold compileAndAddRule Pool.rule
  rw [hnew, Option.isSome_none, if_neg Bool.false_ne_true, syncVarIds_eq h,
    get_statenamesHash h]
  simp only [h.nb, h.elmts, hstat, hdyn]
  cases compileSyncVars a.names n.syncVars with
  | error e => rfl
  | ok syncVars =>
    cases n.erase.states.mapM (compileStateAst (statenamesGet a.states)) with
    | error e => rfl
    | ok states => rfl

theorem compileAndAddRule_new (h : compileAndAddRule n ctx = .ok (rule, ctx')) :
    ctx.rulenamesHash.get n.name = none := by
  cases hg : ctx.rulenamesHash.get n.name with
  | none => rfl
  | some i =>
    unfold compileAndAddRule at h
    rw [hg, Option.isSome_some, if_pos rfl] at h
    cases h

theorem compileAndAddRule_ok (hc : ctx.Holds a) (h : compileAndAddRule n ctx = .ok (rule, ctx')) :
    a.rule n ctx.rules = .ok rule ∧ ctx'.Holds a := by
  rw [compileAndAddRule_eq hc (compileAndAddRule_new h)] at h
  cases hr : a.rule n ctx.rules with
  | error e =>
    rw [hr] at h
    cases h
  | ok rule' =>
    rw [hr] at h
    cases h
    exact ⟨rfl, { hc with }⟩

/-- The number of the rule is the only part that the rules before it change. -/
theorem Pool.rule_id {id : Nat} (h : a.rule n id = .ok rule) (id' : Nat) :
    a.rule n id' = .ok { rule with id := id' } ∧ rule.id = id := by
  unfold Pool.rule at h
  obtain ⟨syncVars, hsync, h⟩ := bind_ok h
  obtain ⟨states, hstates, h⟩ := bind_ok h
  cases h
  unfold Pool.rule
  rw [hsync, hstates]
  exact ⟨rfl, rfl⟩

/-! ## Runs of the parser -/

/-- The rule is compiled from the pool of its text, from the pool before a rule. -/
structure Compiled (env : ParserEnv) (r : RuleTree .text) (n : RuleTree .node)
    (rule : NumberedRule) (a : Pool) : Prop where
  built : Built env .fresh a r.vars (r.consts .literal .split) n.vars
    (n.consts termOf patternOf) (r.states.map StateTree.name)
  rule_eq : a.rule n rule.id = .ok rule
  nodup : a.names.Nodup
  distinct : a.states.Nodup
  syncVars : n.syncVars = r.syncVars
  stateNames : n.states.map StateTree.name = r.states.map StateTree.name
  /-- The rule alone has the same nodes and the same tables. -/
  alone : ∃ ctx', rulelist env [r] newRuleCompilerCtx = .ok ([(n, { rule with id := 0 })], ctx')

theorem Built.first {env : ParserEnv} {vars : List String} {consts : List Constant}
    {syms : List Symbol} {terms : List Term} {labels : List String}
    (h : Built env .fresh a vars consts syms terms labels) : a.consts.take 5 = firstStatics := by
  rw [h.statics]
  exact List.take_left' rfl

theorem rulelist_single {env : ParserEnv} {r : RuleTree .text} {ctx₁ ctx₂ : Compiler}
    (hb : buildRule env r ctx = .ok (n, ctx₁)) (hr : compileAndAddRule n ctx₁ = .ok (rule, ctx₂)) :
    rulelist env [r] ctx = .ok ([(n, rule)], ctx₂.reset) := by
  show (buildRule env r ctx >>= fun p => _) = _
  rw [hb]
  show (compileAndAddRule n ctx₁ >>= fun p => _) = _
  rw [hr]
  rfl

/-- One rule of a run. -/
theorem rulelist_step {env : ParserEnv} {r : RuleTree .text} {ctx₁ ctx₂ : Compiler}
    (hc : ctx.Holds .fresh) (hb : buildRule env r ctx = .ok (n, ctx₁))
    (hr : compileAndAddRule n ctx₁ = .ok (rule, ctx₂)) :
    ctx₂.reset.Holds .fresh ∧ ∃ a, Compiled env r n rule a := by
  obtain ⟨a, ⟨⟨hname, hsync, hstates⟩, hbuilt⟩, hc₁, -, hall⟩ :=
    (buildRule_meets r .fresh rfl).ok hc hb
  obtain ⟨hrule, hc₂⟩ := compileAndAddRule_ok hc₁ hr
  obtain ⟨hrule₀, hid⟩ := Pool.rule_id hrule 0
  refine ⟨hc₂.reset hbuilt.first, a, hbuilt, hid ▸ hrule, hc₁.nodup, hc₁.distinct, hsync, hstates, ?_⟩
  -- the same rule at the start of a run
  obtain ⟨ctx₁', hb', hc₁', hreg⟩ := hall _ newRuleCompilerCtx_holds
  have hrules : ctx₁'.rules = 0 := congrArg Prod.fst hreg
  have hnames : ctx₁'.rulenamesHash = newRuleCompilerCtx.rulenamesHash :=
    congrArg (fun p => p.2.1) hreg
  have hnew : ctx₁'.rulenamesHash.get n.name = none := by
    rw [hnames]
    rfl
  have hr' := compileAndAddRule_eq hc₁' hnew
  rw [hrules, hrule₀] at hr'
  exact ⟨_, rulelist_single hb' hr'⟩

theorem rulelist_compiled {env : ParserEnv} {rs : List (RuleTree .text)}
    {out : List (RuleTree .node × NumberedRule)} (hc : ctx.Holds .fresh)
    (h : rulelist env rs ctx = .ok (out, ctx')) :
    List.Forall₂ (fun r p => ∃ a, Compiled env r p.1 p.2 a) rs out := by
  induction rs generalizing ctx out with
  | nil =>
    cases h
    exact .nil
  | cons r rs ih =>
    obtain ⟨⟨n, ctx₁⟩, hb, h⟩ := bind_ok (x := buildRule env r ctx) h
    obtain ⟨⟨rule, ctx₂⟩, hr, h⟩ := bind_ok (x := compileAndAddRule n ctx₁) h
    obtain ⟨⟨rest, ctx₃⟩, hrest, h⟩ := bind_ok (x := rulelist env rs ctx₂.reset) h
    cases h
    obtain ⟨hc₂, hone⟩ := rulelist_step hc hb hr
    exact .cons hone (ih hc₂ hrest)

end Orchids
