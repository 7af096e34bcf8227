import Orchids.Lang.Arith
import Orchids.Lib.HashTable
import Orchids.Lib.Heap
import Orchids.Util.Stdio

/-!
# Shared variables (`mod_sharedvars.c`)

`set_shared_var`, `get_shared_var` and `del_shared_var` on a memory of objects. The data of a virtual
string are in some other piece of memory, which may come to its end before the object.

* `OvmData`: what is in an object; `OvmData.clone`: `issdl_clone`.
* `Memory.value`: the value of an object, if its data are there.
* `SharedVars`: the memory and `vars_hash`.
-/

namespace Orchids

/-- Bytes in a piece of memory. -/
structure Ref where
  piece : Nat
  off : Nat
  len : Nat

namespace OvmVar

variable {F : Type}

/-- The types that refer to bytes elsewhere. -/
def isVirtual : OvmVar F → Bool
  | vstr _ | vbstr _ => true
  | _ => false

/-- The value, without what happens to be in the memory behind its bytes. -/
def trim : OvmVar F → OvmVar F
  | str t => .str ⟨t.bytes, fun _ => 0⟩
  | bstr t => .bstr ⟨t.bytes, fun _ => 0⟩
  | v => v

/-- `issdl_types_g[...].clone` is there. -/
def hasClone : OvmVar F → Bool
  | int _ | bstr _ | vbstr _ | str _ | vstr _ | ctime _ | ipv4 _ | timeval _ | counter _ | uint _
  | float _ => true
  | _ => false

end OvmVar

/-- What is in an object: its data, or where the data of a virtual string are. -/
inductive OvmData (F : Type) where
  | own (v : OvmVar F) (h : v.isVirtual = false)
  | vstr (str : Ref)
  | vbstr (str : Ref)

/-- A piece of memory: an object with its flags, or bytes. -/
inductive Piece (F : Type) where
  | obj (flags : BitVec 32) (data : OvmData F)
  | bytes (b : List UInt8)

/-- The pieces of memory by address. -/
abbrev Memory (F : Type) := Heap (Piece F)

variable {F : Type}

theorem OvmVar.isVirtual_trim (v : OvmVar F) : v.trim.isVirtual = v.isVirtual := by
  cases v <;> rfl

namespace OvmData

def type : OvmData F → IssdlTag
  | own v _ => v.type
  | vstr _ => .vstr
  | vbstr _ => .vbstr

/-- The `clone` of the type: bytes of the object are copied, bytes elsewhere are not. -/
def clone : OvmData F → Option (OvmData F)
  | own v h => if v.hasClone then some (.own v.trim (v.isVirtual_trim.trans h)) else none
  | vstr str => some (.vstr str)
  | vbstr str => some (.vbstr str)

end OvmData

/-- The bytes that others may refer to. -/
def Piece.content : Piece F → List UInt8
  | obj _ (.own (.str t) _) => t.bytes
  | obj _ (.own (.bstr t) _) => t.bytes
  | obj _ _ => []
  | bytes b => b

namespace Memory

variable (m : Memory F)

/-- The bytes, if they are still there. -/
def read (r : Ref) : Option (List UInt8) :=
  if m.live r.piece && decide (r.off + r.len ≤ (m.cell r.piece).content.length) then
    some (((m.cell r.piece).content.drop r.off).take r.len)
  else none

/-- The value of the data. -/
def valueOf : OvmData F → Option (OvmVar F)
  | .own v _ => some v.trim
  | .vstr str => (m.read str).map fun b => .vstr ⟨b, fun _ => 0⟩
  | .vbstr str => (m.read str).map fun b => .vbstr ⟨b, fun _ => 0⟩

/-- The value of an object. -/
def value (a : Nat) : Option (OvmVar F) :=
  if m.live a then
    match m.cell a with
    | .obj _ data => m.valueOf data
    | .bytes _ => none
  else none

/-- What is behind an `ovm_var_t *`. -/
def obj : Option Nat → Except Stop (BitVec 32 × OvmData F)
  | none => .error .nullRead
  | some a =>
    match m.cell a with
    | .obj flags data => .ok (flags, data)
    | .bytes _ => .error .badCode

/-- A change of the flags of an object. -/
def setFlags (a : Nat) (f : BitVec 32 → BitVec 32) : Memory F :=
  m.modify a fun
    | .obj flags data => .obj (f flags) data
    | p => p

/-- `issdl_clone` -/
def issdlClone (var : Option Nat) : Except Stop (Option Nat × Memory F) := do
  let (_, data) ← m.obj var
  match data.clone with
  | none => return (none, m)
  | some data =>
    return (some m.size, m.alloc (.obj (newFlags data.type ||| typeCanfree ||| typeNotbound) data))

end Memory

/-- The memory, and `mod_sharedvars_cfg_g->vars_hash`. -/
structure SharedVars (F : Type) where
  memory : Memory F
  varsHash : HashTable CStr Nat

/-- `STATIC_VAR(ctx, state, static_0_res_id)` and `STATIC_VAR(ctx, state, static_1_res_id)` -/
structure Statics where
  zero : Option Nat
  one : Option Nat

namespace SharedVars

variable (w : SharedVars F) (st : Statics)

/-- `ovm_strdup(varname)`, of a `T_STR` -/
def key : OvmData F → Option CStr
  | .own (.str t) _ => some (cString t.bytes)
  | _ => none

/-- `issdl_get_shared_var` -/
def getSharedVar (s : List (Option Nat)) : Except Stop (List (Option Nat) × SharedVars F) := do
  let (varname, s) := stackPop s
  let (_, data) ← w.memory.obj varname
  match key data with
  | none => return (st.zero :: s, w)
  | some key =>
    match w.varsHash.get key with
    | none => return (st.zero :: s, w)
    | some value =>
      let (value, memory) ← w.memory.issdlClone (some value)
      let a ← deref value
      let memory := memory.setFlags a fun flags => flags ||| typeCanfree ||| typeNotbound
      return (some a :: s, { w with memory })

/-- `issdl_del_shared_var` -/
def delSharedVar (s : List (Option Nat)) : Except Stop (List (Option Nat) × SharedVars F) := do
  let (varname, s) := stackPop s
  let (_, data) ← w.memory.obj varname
  match key data with
  | none => return (s, w)
  | some key =>
    let (value, varsHash) := w.varsHash.del key
    let memory := match value with
      | none => w.memory
      | some value => w.memory.free value
    return (st.one :: s, { memory, varsHash })

/-- `issdl_set_shared_var` -/
def setSharedVar (s : List (Option Nat)) : Except Stop (List (Option Nat) × SharedVars F) := do
  let (varname, s) := stackPop s
  let (_, data) ← w.memory.obj varname
  match key data with
  | none => return (st.zero :: s, w)
  | some key =>
    let (value, s) := stackPop s
    let (newValue, memory) ← w.memory.issdlClone value
    let newValue ← deref newValue
    -- the memory of the copy is not under the control of the virtual machine
    let memory := memory.setFlags newValue fun flags => flags &&& ~~~typeCanfree
    let (oldValue, varsHash) := w.varsHash.updateOrAdd newValue key
    let memory := match oldValue with
      | none => memory
      | some oldValue => memory.free oldValue
    return (st.one :: s, { memory, varsHash })

end SharedVars

end Orchids
