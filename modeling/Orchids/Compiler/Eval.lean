import Orchids.Compiler.Ast
import Orchids.Ovm.Machine

/-!
# The value of an expression

The meaning of the trees of `issdl.y` as a recursive evaluator, to compare with the code that
`compile_bytecode_expr` makes for them.

* `eval`: the value and the new environment. Operands go left to right, the parameters of a call
  last to first; `&&` and `||` leave the right operand out when the left one decides.
* `arithDefined`: no arithmetic operator of the evaluation has a `NULL` operand, and none traps.
* `CallsMade`: each call that the evaluation comes to has as many parameters as the built-in pops.
-/

namespace Orchids

namespace Frame

variable {V : Type} [Issdl V] (F : Frame V)

mutual

/-- The value of an expression and the environment after it. An assignment binds the variable and
reads it again. -/
def eval : Expr → Env V → Option V × Env V
  | .const c, env => (F.staticEnv.get c, env)
  | .var x, env => (F.readVar env x, env)
  | .field f, env => (F.fields f, env)
  | .binop op l r, env =>
    let (a, env) := eval l env
    let (b, env) := eval r env
    (F.arithResult op a b, env)
  | .cond (.cmp op) l r, env =>
    let (a, env) := eval l env
    let (b, env) := eval r env
    (F.boolVar (issdlTest (F.cmpResult op a b)), env)
  | .cond .andand l r, env =>
    let (a, env) := eval l env
    if issdlTest a then
      let (b, env) := eval r env
      (F.boolVar (issdlTest b), env)
    else (F.boolVar false, env)
  | .cond .oror l r, env =>
    let (a, env) := eval l env
    if issdlTest a then (F.boolVar true, env)
    else
      let (b, env) := eval r env
      (F.boolVar (issdlTest b), env)
  | .assoc x e, env =>
    let (v, env) := eval e env
    let env := Function.update env x v
    (F.readVar env x, env)
  | .call f ps, env =>
    let (args, env) := evalParams ps env
    (F.builtin f args, env)

/-- The parameters of a call, the last one first. -/
def evalParams : List Expr → Env V → List (Option V) × Env V
  | [], env => ([], env)
  | p :: ps, env =>
    let (args, env) := evalParams ps env
    let (v, env) := eval p env
    (v :: args, env)

end

mutual

/-- No arithmetic operator that the evaluation comes to has an operand `NULL`, and none traps. -/
def arithDefined : Expr → Env V → Bool
  | .const _, _ => true
  | .var _, _ => true
  | .field _, _ => true
  | .binop op l r, env =>
    let a := F.eval l env
    let b := F.eval r a.2
    arithDefined l env && (arithDefined r a.2 && arithEnds op a.1 b.1)
  | .cond (.cmp _) l r, env =>
    arithDefined l env && arithDefined r (F.eval l env).2
  | .cond .andand l r, env =>
    let a := F.eval l env
    arithDefined l env && (!issdlTest a.1 || arithDefined r a.2)
  | .cond .oror l r, env =>
    let a := F.eval l env
    arithDefined l env && (issdlTest a.1 || arithDefined r a.2)
  | .assoc _ e, env => arithDefined e env
  | .call _ ps, env => arithDefinedParams ps env

/-- The same for the parameters of a call. -/
def arithDefinedParams : List Expr → Env V → Bool
  | [], _ => true
  | p :: ps, env =>
    arithDefinedParams ps env && arithDefined p (F.evalParams ps env).2

end

mutual

/-- The built-ins that the evaluation calls pop their arguments. -/
def CallsMade : Expr → Env V → Prop
  | .const _, _ => True
  | .var _, _ => True
  | .field _, _ => True
  | .binop _ l r, env =>
    CallsMade l env ∧ (F.arithDefined l env = true → CallsMade r (F.eval l env).2)
  | .cond (.cmp _) l r, env =>
    CallsMade l env ∧ (F.arithDefined l env = true → CallsMade r (F.eval l env).2)
  | .cond .andand l r, env =>
    CallsMade l env ∧ (F.arithDefined l env = true → issdlTest (F.eval l env).1 = true →
      CallsMade r (F.eval l env).2)
  | .cond .oror l r, env =>
    CallsMade l env ∧ (F.arithDefined l env = true → issdlTest (F.eval l env).1 = false →
      CallsMade r (F.eval l env).2)
  | .assoc _ e, env => CallsMade e env
  | .call f ps, env =>
    CallsMadeParams ps env ∧ (F.arithDefinedParams ps env = true → F.argsNb f = ps.length)

/-- The same for the parameters of a call. -/
def CallsMadeParams : List Expr → Env V → Prop
  | [], _ => True
  | p :: ps, env =>
    CallsMadeParams ps env ∧
      (F.arithDefinedParams ps env = true → CallsMade p (F.evalParams ps env).2)

end

theorem length_evalParams (ps : List Expr) (env : Env V) :
    (F.evalParams ps env).1.length = ps.length := by
  induction ps with
  | nil => rfl
  | cons p ps ih => simp [evalParams, ih]

end Frame

end Orchids
