import Orchids.Ovm.Machine

/-!
# Two types of the language (`lang.c`)

The rows `null` and `int` of `issdl_types_g`: values to run the virtual machine on. The results
elsewhere are for any type of values with the operations of `Issdl`.
-/

namespace Orchids

/-- `T_NULL` and `T_INT` values; `INT(x)` is a `long`. -/
inductive Val where
  | null
  | int (v : BitVec 64)
  deriving DecidableEq, Repr, Inhabited

namespace Val

/-- The type tags `T_NULL` and `T_INT`. -/
def type : Val → Int
  | null => 0
  | int _ => 2

/-- `issdl_test`: the `long` is returned as an `int`. -/
def test : Val → Bool
  | null => false
  | int v => v.setWidth 32 != 0

/-- `issdl_cmp`: `int_cmp` returns a difference of `long`s as an `int`, and null has no
comparison. -/
def cmp : Val → Val → Int
  | null, _ => -1
  | int v, int w => ((v - w).setWidth 32).toInt
  | int v, null => (int v).type - null.type

/-- `int_add` .. `int_mod`, on two's complement words. The quotient of `LONG_MIN` and `-1` is never
used (`arithTraps`). -/
def arith : ArithOp → Val → Val → Option Val
  | .add, int v, int w => some (int (v + w))
  | .sub, int v, int w => some (int (v - w))
  | .mul, int v, int w => some (int (v * w))
  | .div, int v, int w => if w = 0 then none else some (int (v.sdiv w))
  | .mod, int v, int w => if w = 0 then none else some (int (v.srem w))
  | _, _, _ => none

/-- `int_div` and `int_mod` test for zero only: `LONG_MIN` by `-1` traps. -/
def arithTraps : ArithOp → Val → Val → Bool
  | .div, int v, int w => v == BitVec.intMin 64 && w == -1#64
  | .mod, int v, int w => v == BitVec.intMin 64 && w == -1#64
  | _, _, _ => false

end Val

instance : Issdl Val where
  isNull v := v == .null
  test := Val.test
  cmp := Val.cmp
  arith := Val.arith
  arithTraps := Val.arithTraps
  -- neither type is a string or a regular expression
  regexec _ _ := .paramError
  isSregex _ := false
  regsplit _ _ := none

/-- The static environment of `new_rule_compiler_ctx` (1, 0 and the static null, which the two
errors are here too) with `consts` behind it. -/
def valStaticEnv (consts : List Val) : StaticEnv Val where
  get n := ([.int 1, .int 0, .null, .null, .null] ++ consts)[n]?
  test_one := rfl
  test_zero := rfl

end Orchids
