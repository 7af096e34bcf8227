import Mathlib.Data.List.Basic
import Orchids.Lang.Values
import Orchids.Lib.HashTable
import Orchids.Util.Stdio

/-!
# Modules and their fields (`mod_mgr.c`, `orchids_api.c`)

The array `ctx->mods`, the table `ctx->global_fields` and the events that are built of its fields.
`pre_config` runs inside `add_module`; what counts of it is what it registers. The type of the
function pointers to dissectors, with what goes with them, is a parameter.
-/

namespace Orchids

/-! ## Data -/

/-- `field_t` -/
structure FieldDecl where
  name : String
  type : IssdlTag
  desc : String
  deriving DecidableEq

/-- `field_record_t`, an entry of the global table. -/
structure GlobalField where
  active : Bool
  name : String
  type : IssdlTag
  desc : String
  id : Nat
  deriving DecidableEq

def modMagic : Nat := 0x4F524348
def orchidsVersion : Nat := 0 ||| 1
def maxModules : Nat := 256

/-- `input_module_t`, with what its `pre_config` registers. -/
structure InputModule where
  magic : Nat
  version : Nat
  name : Option CStr
  dependencies : List CStr
  preConfig : Option (List FieldDecl)

/-- `mod_entry_t`; `genericDissect` is what `dlsym` finds under that name. -/
structure ModEntry (D : Type) where
  mod : InputModule
  genericDissect : Option D
  numFields : Nat
  firstFieldPos : Nat
  posts : Nat
  dissect : Option D
  subDissectors : Option (HashTable (List UInt8) D)

/-- What is used of `orchids_t`; `ctx->loaded_modules` is the length of `mods`. -/
structure ModCtx (D : Type) where
  mods : List (ModEntry D)
  globalFields : List GlobalField
  numFields : Nat

namespace ModCtx

variable {D : Type}

def empty : ModCtx D := { mods := [], globalFields := [], numFields := 0 }

/-! ## Operations -/

/-- `find_module_entry`: the index of the module. -/
def findModuleEntry (s : ModCtx D) (name : CStr) : Option Nat :=
  s.mods.findIdx? fun m => m.mod.name == some name

/-- `register_fields`: the new entries follow the others in the table, and the module gets their
place and number. -/
def registerFields (s : ModCtx D) (i : Nat) (fieldTab : List FieldDecl) : ModCtx D where
  mods := s.mods.modify i fun m =>
    { m with firstFieldPos := s.numFields, numFields := fieldTab.length }
  globalFields := s.globalFields ++ fieldTab.zipIdx.map fun (f, i) =>
    { active := true, name := f.name, type := f.type, desc := f.desc, id := s.numFields + i }
  numFields := s.numFields + fieldTab.length

/-- A new entry of `ctx->mods`. -/
def newEntry (mod : InputModule) (genericDissect : Option D) : ModEntry D :=
  { mod, genericDissect, numFields := 0, firstFieldPos := 0, posts := 0, dissect := none
    subDissectors := none }

/-- `add_module`, where it does not fail. -/
def addModule (s : ModCtx D) (mod : InputModule) (genericDissect : Option D) : Option (ModCtx D) :=
  if maxModules ≤ s.mods.length then none
  else if mod.magic ≠ modMagic ∨ mod.version ≠ orchidsVersion then none
  else match mod.name with
    | none => none
    | some name =>
      if (s.findModuleEntry name).isSome then none
      else if mod.dependencies.any fun d => (s.findModuleEntry d).isNone then none
      else
        let s' : ModCtx D := { s with mods := s.mods ++ [newEntry mod genericDissect] }
        match mod.preConfig with
        | none => some s'
        | some fieldTab => some (s'.registerFields s.mods.length fieldTab)

end ModCtx

/-! ## Events -/

/-- An entry of `tbl_event`: `NULL`, `F_NOT_NEEDED` or a value. -/
inductive Slot (V : Type) where
  | null
  | notNeeded
  | value (v : V)

/-- `event_t`: the ids and values of its fields. -/
abbrev EventList (V : Type) := List (Nat × V)

namespace ModCtx

variable {D V : Type}

/-- `ctx->global_fields[id].active` -/
def isActive (s : ModCtx D) (id : Nat) : Bool :=
  match s.globalFields[id]? with
  | none => false
  | some f => f.active

/-- `add_fields_to_event_stride(ctx, mod, event, tbl_event, from, to)`, with the `to - from` entries
of the table. -/
def addFieldsToEventStride (s : ModCtx D) (mod : ModEntry D) (event : EventList V) :
    List (Slot V) → Nat → EventList V
  | [], _ => event
  | .value v :: tblEvent, i =>
    let id := mod.firstFieldPos + i
    if s.isActive id then s.addFieldsToEventStride mod ((id, v) :: event) tblEvent (i + 1)
    else s.addFieldsToEventStride mod event tblEvent (i + 1)
  | _ :: tblEvent, i => s.addFieldsToEventStride mod event tblEvent (i + 1)

/-- `add_fields_to_event` -/
def addFieldsToEvent (s : ModCtx D) (mod : ModEntry D) (event : EventList V)
    (tblEvent : List (Slot V)) : EventList V :=
  s.addFieldsToEventStride mod event tblEvent 0

end ModCtx

end Orchids
