import Orchids.Compiler.RuleCompiler
import Orchids.Lib.HashTable
import Orchids.Lib.Numbering

/-!
# The parser (`issdl.y`) and its tables

The actions of the grammar in the order of the reductions: each node is built after its parts, and an
assignment after its value. The tables that give the numbers are in the compiler (`rule_compiler_t`)
and are used for one rule after the other: `compile_and_add_rule_ast` copies what is in use, and
`compiler_reset` sets them back.

A tree is the same for the text and for the nodes: a `Phase` says what stands at its leaves.
-/

namespace Orchids

/-! ## Trees -/

/-- What a tree has for a symbol (a variable, a field, a function), for a constant and for the
pattern of a split. -/
structure Phase where
  Sym : Type
  Const : Type
  Pat : Type

/-- The parameters of a call are leaves. -/
inductive Leaf (p : Phase) where
  | const (c : p.Const)
  | var (x : p.Sym)
  | field (f : p.Sym)

inductive ExprTree (p : Phase) where
  | leaf (l : Leaf p)
  | call (symbol : p.Sym) (paramlist : List (Leaf p))
  | binop (op : ArithOp) (lval rval : ExprTree p)
  | cond (op : CondOp) (lval rval : ExprTree p)
  | assoc (var : p.Sym) (rval : ExprTree p)

inductive StmtTree (p : Phase) where
  | expr (e : ExprTree p)
  | regsplit (string : p.Sym) (splitPat : p.Pat) (destVars : List p.Sym)
  | ifstmt (cond : ExprTree p) (thn els : List (StmtTree p))

inductive TransTree (p : Phase) where
  | direct (cond : Option (ExprTree p)) (dest : String)
  | indirect (cond : ExprTree p) (actionlist : List (StmtTree p)) (translist : List (TransTree p))

structure StateTree (p : Phase) where
  name : String
  actionlist : List (StmtTree p)
  translist : List (TransTree p)

structure RuleTree (p : Phase) where
  name : String
  init : StateTree p
  statelist : List (StateTree p)
  syncVars : Option (List String)

/-! ## The text -/

/-- The constants of the grammar. A number is the `int` of the lexer, a floating point number the
`double`. -/
inductive Literal where
  | string (s : String)
  | number (i : BitVec 32)
  | fpDouble (f : BitVec 64)
  | ctimeInt (time : BitVec 32)
  | ctimeString (date : String)
  | ipv4 (hostname : String)
  | timevalInt (sec usec : BitVec 32)
  | timevalString (date : String) (usec : BitVec 32)
  | counter (initialValue : BitVec 32)
  | regex (regexStr : String)
  deriving DecidableEq, Repr

/-- The text of a rule: names, literals, and the string of a split. -/
abbrev Phase.text : Phase := { Sym := String, Const := Literal, Pat := String }

/-! ## The nodes -/

/-- The objects that the parser makes. A compiled pattern is left out: it depends on its string
alone. -/
inductive StaticVar where
  | null (errNo : BitVec 32)
  | int (val : BitVec 64)
  | str (s : String)
  | float (val : BitVec 32)
  | ipv4 (addr : BitVec 32)
  | ctime (time : BitVec 64)
  | timeval (sec usec : BitVec 64)
  | counter (val : BitVec 64)
  | regex (regexStr : String)
  | sregex (regexStr : String) (splits : Nat)
  deriving DecidableEq, Repr

/-- `node_expr_symbol_s`, and the symbol of a `node_expr_call_s`. -/
structure Symbol where
  name : String
  resId : Nat
  deriving DecidableEq, Repr

/-- `node_expr_term_s` -/
structure Term where
  data : StaticVar
  resId : Nat
  deriving DecidableEq, Repr

/-- The nodes of a rule, with their resource ids. -/
abbrev Phase.node : Phase := { Sym := Symbol, Const := Term, Pat := Term }

/-! ## The compiler -/

/-- What stops the parser. -/
inductive ParseError where
  | field (name : String)
  | function (name : String)
  | hostname (name : String)
  | regex (regexStr : String)
  | compile (e : CompileError)
  deriving DecidableEq, Repr

/-- `rule_t` -/
structure NumberedRule extends CompiledRule where
  id : Nat
  staticEnv : List StaticVar
  staticEnvSz : Nat
  dynamicEnvSz : Nat
  varName : List String
  deriving DecidableEq, Repr

/-- What the parser reads and no rule changes. -/
structure ParserEnv where
  fieldsHash : HashTable String Nat
  functionsHash : HashTable String Nat
  gethostbyname : String → Option (BitVec 32)
  /-- Whether `regcomp` returns 0, without and with `REG_NOSUB`. -/
  regcomp : Bool → String → Bool
  /-- A `double` as a `float`. -/
  round : BitVec 64 → BitVec 32

/-- `rule_compiler_t`. Of a node in a table only the number is read: the `res_id` of a variable, the
`state_id` of a state. -/
structure Compiler where
  rules : Nat
  rulenamesHash : HashTable String Nat
  statenamesHash : HashTable String Nat
  ruleEnv : HashTable String Nat
  statics : GrowArray StaticVar
  dynVarName : GrowArray String
  firstRule : List NumberedRule
  /-- The constants of `new_rule_compiler_ctx` stay. -/
  five_le : 5 ≤ statics.nb

/-- `STATICS_SZ`, also the growth of `dyn_var_name`. -/
def staticsSz : Nat := 16

theorem staticsSz_pos : 0 < staticsSz := by decide

/-- `strhash_djb`. Names have one byte for each character. -/
def strhashDjb (key : String) : Nat :=
  (key.toList.foldl (fun (h : BitVec 64) c => (h <<< 5) + h + .ofNat 64 c.toNat) 5381).toNat

/-- The objects of `static_1_res_id`, `static_0_res_id`, `static_null_res_id`,
`static_param_error_res_id` and `static_regex_error_res_id`. -/
def firstStatics : List StaticVar := [.int 1, .int 0, .null 1, .null 2, .null 3]

/-- `new_rule_compiler_ctx` -/
def newRuleCompilerCtx : Compiler where
  rules := 0
  rulenamesHash := .new strhashDjb 251
  statenamesHash := .new strhashDjb 251
  ruleEnv := .new strhashDjb 251
  statics := firstStatics.foldl (fun a v => a.add staticsSz staticsSz_pos v) .empty
  dynVarName := .empty
  firstRule := []
  five_le := le_rfl

namespace Compiler

def staticsAdd (ctx : Compiler) (data : StaticVar) : Compiler :=
  { ctx with
    statics := ctx.statics.add staticsSz staticsSz_pos data
    five_le := ctx.five_le.trans (Nat.le_succ _) }

def dynamicAdd (ctx : Compiler) (varName : String) : Compiler :=
  { ctx with dynVarName := ctx.dynVarName.add staticsSz staticsSz_pos varName }

/-- The object of a constant changes. -/
def staticsSet (ctx : Compiler) (resId : Nat) (data : StaticVar) : Compiler :=
  { ctx with statics := ctx.statics.set resId data, five_le := ctx.five_le }

/-- `compiler_reset` -/
def reset (ctx : Compiler) : Compiler :=
  { ctx with
    statenamesHash := ctx.statenamesHash.clear
    ruleEnv := ctx.ruleEnv.clear
    statics := ctx.statics.shrink 5 ctx.five_le
    dynVarName := ctx.dynVarName.shrink 0 (Nat.zero_le _)
    five_le := le_rfl }

end Compiler

/-- An action of the grammar. -/
abbrev Parser (α : Type) : Type := StateT Compiler (Except ParseError) α

/-- An action for each element of a list, in its order. -/
def buildEach {α β : Type} (build : α → Parser β) : List α → Parser (List β)
  | [] => pure []
  | a :: as => do
    let b ← build a
    let bs ← buildEach build as
    pure (b :: bs)

/-! ## Variables and constants -/

/-- `build_varname` -/
def buildVarname (varname : String) : Parser Symbol := fun ctx =>
  match ctx.ruleEnv.get varname with
  | none =>
    let resId := ctx.ruleEnv.elmts
    .ok ({ name := varname, resId },
      { ctx with ruleEnv := ctx.ruleEnv.add resId varname }.dynamicAdd varname)
  | some resId => .ok ({ name := varname, resId }, ctx)

/-- The end of each of the functions that build a constant. -/
def buildTerm (data : StaticVar) : Parser Term := fun ctx =>
  .ok ({ data, resId := ctx.statics.nb }, ctx.staticsAdd data)

def buildInteger (i : BitVec 32) : Parser Term := buildTerm (.int (i.signExtend 64))

def buildDouble (env : ParserEnv) (f : BitVec 64) : Parser Term := buildTerm (.float (env.round f))

def buildString (str : String) : Parser Term := buildTerm (.str str)

def buildIpv4 (env : ParserEnv) (hostname : String) : Parser Term :=
  match env.gethostbyname hostname with
  | none => throw (.hostname hostname)
  | some addr => buildTerm (.ipv4 addr)

def buildCtimeFromInt (ctime : BitVec 32) : Parser Term := buildTerm (.ctime (ctime.signExtend 64))

/-- The date is not read. -/
def buildCtimeFromString (_date : String) : Parser Term := buildTerm (.ctime 0)

def buildTimevalFromInt (sec usec : BitVec 32) : Parser Term :=
  buildTerm (.timeval (sec.signExtend 64) (usec.signExtend 64))

/-- The date is not read. -/
def buildTimevalFromString (_date : String) (usec : BitVec 32) : Parser Term :=
  buildTerm (.timeval 0 (usec.signExtend 64))

def buildCounter (initialValue : BitVec 32) : Parser Term :=
  buildTerm (.counter (initialValue.signExtend 64))

def buildRegex (env : ParserEnv) (regexStr : String) : Parser Term :=
  if env.regcomp true regexStr then buildTerm (.regex regexStr) else throw (.regex regexStr)

/-- `ovm_sregex_new` has 0 splits. -/
def buildSplitRegex (env : ParserEnv) (regexStr : String) : Parser Term :=
  if env.regcomp false regexStr then buildTerm (.sregex regexStr 0) else throw (.regex regexStr)

/-- The constants of an expression. -/
def buildLiteral (env : ParserEnv) : Literal → Parser Term
  | .string s => buildString s
  | .number i => buildInteger i
  | .fpDouble f => buildDouble env f
  | .ctimeInt time => buildCtimeFromInt time
  | .ctimeString date => buildCtimeFromString date
  | .ipv4 hostname => buildIpv4 env hostname
  | .timevalInt sec usec => buildTimevalFromInt sec usec
  | .timevalString date usec => buildTimevalFromString date usec
  | .counter initialValue => buildCounter initialValue
  | .regex regexStr => buildRegex env regexStr

/-- `build_fieldname` -/
def buildFieldname (env : ParserEnv) (fieldname : String) : Parser Symbol :=
  match env.fieldsHash.get fieldname with
  | none => throw (.field fieldname)
  | some id => pure { name := fieldname, resId := id }

/-! ## Expressions and actions -/

/-- The leaves of an expression, also `param`. -/
def buildLeaf (env : ParserEnv) : Leaf .text → Parser (Leaf .node)
  | .const c => do
    let t ← buildLiteral env c
    pure (.const t)
  | .var x => do
    let s ← buildVarname x
    pure (.var s)
  | .field f => do
    let s ← buildFieldname env f
    pure (.field s)

/-- `build_function_call` -/
def buildFunctionCall (env : ParserEnv) (sym : String) (paramlist : List (Leaf .node)) :
    Parser (ExprTree .node) :=
  match env.functionsHash.get sym with
  | none => throw (.function sym)
  | some id => pure (.call { name := sym, resId := id } paramlist)

/-- `build_assoc`: the value is there when the variable gets its id. -/
def buildAssoc (var : String) (expr : ExprTree .node) : Parser (ExprTree .node) := do
  let lval ← buildVarname var
  pure (.assoc lval expr)

/-- `expr` -/
def buildExpr (env : ParserEnv) : ExprTree .text → Parser (ExprTree .node)
  | .leaf l => do
    let l ← buildLeaf env l
    pure (.leaf l)
  | .call sym params => do
    let params ← buildEach (buildLeaf env) params
    buildFunctionCall env sym params
  | .binop op l r => do
    let l ← buildExpr env l
    let r ← buildExpr env r
    pure (.binop op l r)
  | .cond op l r => do
    let l ← buildExpr env l
    let r ← buildExpr env r
    pure (.cond op l r)
  | .assoc x e => do
    let e ← buildExpr env e
    buildAssoc x e

/-- `SREGEXNUM(x) = n` -/
def StaticVar.setSregexnum (n : Nat) : StaticVar → StaticVar
  | .sregex regexStr _ => .sregex regexStr n
  | v => v

/-- `build_string_split`: the pattern is the object in the table, which gets its number of splits
here. -/
def buildStringSplit (source : Symbol) (pattern : Term) (destList : List Symbol) :
    Parser (StmtTree .node) := fun ctx =>
  let data := pattern.data.setSregexnum destList.length
  .ok (.regsplit source { pattern with data } destList, ctx.staticsSet pattern.resId data)

mutual

/-- `action` -/
def buildAction (env : ParserEnv) : StmtTree .text → Parser (StmtTree .node)
  | .expr e => do
    let e ← buildExpr env e
    pure (.expr e)
  | .regsplit source pattern destList => do
    let source ← buildVarname source
    let pattern ← buildSplitRegex env pattern
    let destList ← buildEach buildVarname destList
    buildStringSplit source pattern destList
  | .ifstmt cond thn els => do
    let cond ← buildExpr env cond
    let thn ← buildActionlist env thn
    let els ← buildActionlist env els
    pure (.ifstmt cond thn els)

/-- `actionlist` -/
def buildActionlist (env : ParserEnv) : List (StmtTree .text) → Parser (List (StmtTree .node))
  | [] => pure []
  | s :: ss => do
    let s ← buildAction env s
    let ss ← buildActionlist env ss
    pure (s :: ss)

end

/-! ## States and rules -/

/-- A condition that may be missing. -/
def buildCond (env : ParserEnv) : Option (ExprTree .text) → Parser (Option (ExprTree .node))
  | none => pure none
  | some e => do
    let e ← buildExpr env e
    pure (some e)

mutual

/-- `transition` -/
def buildTransition (env : ParserEnv) : TransTree .text → Parser (TransTree .node)
  | .direct cond dest => do
    let cond ← buildCond env cond
    pure (.direct cond dest)
  | .indirect cond actionlist translist => do
    let cond ← buildExpr env cond
    let actionlist ← buildActionlist env actionlist
    let translist ← buildTransitionlist env translist
    pure (.indirect cond actionlist translist)

/-- `transitionlist` -/
def buildTransitionlist (env : ParserEnv) :
    List (TransTree .text) → Parser (List (TransTree .node))
  | [] => pure []
  | t :: ts => do
    let t ← buildTransition env t
    let ts ← buildTransitionlist env ts
    pure (t :: ts)

end

/-- `set_state_label`, for the state that gets the number `stateId`. -/
def setStateLabel (stateId : Nat) (name : String) : Parser Unit := fun ctx =>
  match ctx.statenamesHash.get name with
  | some _ => .error (.compile (.stateDefined name))
  | none => .ok ((), { ctx with statenamesHash := ctx.statenamesHash.add stateId name })

/-- `firststate` and `state` -/
def buildState (env : ParserEnv) (stateId : Nat) (s : StateTree .text) :
    Parser (StateTree .node) := do
  let actionlist ← buildActionlist env s.actionlist
  let translist ← buildTransitionlist env s.translist
  setStateLabel stateId s.name
  pure { name := s.name, actionlist, translist }

/-- `states`: the ids from `stateId` on (`build_statelist`, `statelist_add`). -/
def buildStates (env : ParserEnv) : Nat → List (StateTree .text) → Parser (List (StateTree .node))
  | _, [] => pure []
  | stateId, s :: ss => do
    let s ← buildState env stateId s
    let ss ← buildStates env (stateId + 1) ss
    pure (s :: ss)

/-- `rule` -/
def buildRule (env : ParserEnv) (r : RuleTree .text) : Parser (RuleTree .node) := do
  let init ← buildState env 0 r.init
  let statelist ← buildStates env 1 r.statelist
  pure { name := r.name, init, statelist, syncVars := r.syncVars }

/-! ## The nodes with their ids only -/

def Leaf.erase : Leaf .node → Expr
  | .const t => .const t.resId
  | .var s => .var s.resId
  | .field s => .field s.resId

def ExprTree.erase : ExprTree .node → Expr
  | .leaf l => l.erase
  | .call s ps => .call s.resId (ps.map Leaf.erase)
  | .binop op l r => .binop op l.erase r.erase
  | .cond op l r => .cond op l.erase r.erase
  | .assoc s e => .assoc s.resId e.erase

mutual

def StmtTree.erase : StmtTree .node → Stmt
  | .expr e => .expr e.erase
  | .regsplit s t xs => .regsplit (.var s.resId) t.resId (xs.map Symbol.resId)
  | .ifstmt c thn els => .ifstmt c.erase (eraseStmts thn) (eraseStmts els)

def eraseStmts : List (StmtTree .node) → List Stmt
  | [] => []
  | s :: ss => s.erase :: eraseStmts ss

end

mutual

def TransTree.erase : TransTree .node → TransNode
  | .direct cond dest => .direct (cond.map ExprTree.erase) dest
  | .indirect cond as ts => .indirect cond.erase (eraseStmts as) (eraseTranss ts)

def eraseTranss : List (TransTree .node) → List TransNode
  | [] => []
  | t :: ts => t.erase :: eraseTranss ts

end

def StateTree.erase (s : StateTree .node) : StateNode :=
  { name := s.name, actionlist := eraseStmts s.actionlist, translist := eraseTranss s.translist }

def RuleTree.erase (r : RuleTree .node) : RuleNode :=
  { name := r.name, init := r.init.erase, statelist := r.statelist.map StateTree.erase
    syncVars := r.syncVars }

/-! ## Rules -/

/-- The loop over the synchronization variables. -/
def syncVarIds (ruleEnv : HashTable String Nat) : Option (List String) →
    Except CompileError (Option (List Nat))
  | none => pure none
  | some vars => do
    let ids ← vars.mapM fun x =>
      match ruleEnv.get x with
      | none => throw (.unknownVariable x)
      | some i => pure i
    pure (some ids)

/-- `compile_and_add_rule_ast` on the tables. -/
def compileAndAddRule (r : RuleTree .node) : Parser NumberedRule := fun ctx =>
  if (ctx.rulenamesHash.get r.name).isSome then .error (.compile (.ruleDefined r.name))
  else
    let staticEnvSz := ctx.statics.nb
    let dynamicEnvSz := ctx.ruleEnv.elmts
    match syncVarIds ctx.ruleEnv r.syncVars,
      r.erase.states.mapM (compileStateAst ctx.statenamesHash.get) with
    | .ok syncVars, .ok states =>
      let rule : NumberedRule :=
        { name := r.name, states, syncVars, id := ctx.rules
          staticEnv := ctx.statics.cells.take staticEnvSz, staticEnvSz
          dynamicEnvSz, varName := ctx.dynVarName.cells.take dynamicEnvSz }
      .ok (rule,
        { ctx with
          rules := ctx.rules + 1
          rulenamesHash := ctx.rulenamesHash.add ctx.rules r.name
          firstRule := ctx.firstRule ++ [rule] })
    | .error e, _ => .error (.compile e)
    | .ok _, .error e => .error (.compile e)

/-- `rulelist`: the rules of all files, each with its nodes. -/
def rulelist (env : ParserEnv) :
    List (RuleTree .text) → Parser (List (RuleTree .node × NumberedRule))
  | [] => pure []
  | r :: rs => do
    let node ← buildRule env r
    let rule ← compileAndAddRule node
    modify Compiler.reset
    let rest ← rulelist env rs
    pure ((node, rule) :: rest)

end Orchids
