import Orchids.Mod.Syslog

/-!
# The generic dissector (`mod_generic.c`)

`generic_dissect`, up to the fields that it adds. A hook has virtual modules, a virtual module has
matches, and a match has a regular expression and the fields that its substrings are. `regexec`,
`inet_aton` and `atof` are parameters, and so is the byte before a text, which a substring that takes
no part in a match points to.
-/

namespace Orchids

namespace Generic

/-- `generic_field_t` -/
structure Field where
  substring : Int
  type : IssdlTag
  fieldId : Nat

/-- `generic_match_t`; `regexec` gives the substrings that take part, or fails. -/
structure Match where
  regexec : CStr → Option (Nat → Option (Nat × Nat))
  fieldList : List Field

/-- `generic_vmod_t`; `add_field` counts each field that has a new name. -/
structure Vmod where
  modId : Nat
  fields : Nat
  matchList : List Match
  fieldId_lt : ∀ m ∈ matchList, ∀ f ∈ m.fieldList, f.fieldId < fields

/-- `generic_hook_t` -/
structure Hook where
  vmodList : List Vmod

/-- `sizeof (buf)` and `sizeof (buff)` -/
def bufSize : Nat := 4096

/-- The number of substrings that `regexec` is asked for. -/
def nmatch : Nat := 255

/-- What is used of the library. -/
structure Library (F : Type) where
  inetAton : CStr → Option (BitVec 32)
  atof : CStr → F
  before : Text → UInt8

variable {F : Type}

/-- The part of the line that a substring is. -/
def substringText (lib : Library F) (line : Text) : Option (Nat × Nat) → Text
  | some (so, eo) => (line.advance so).slice (min (eo - so) (bufSize - 1))
  | none =>
    { bytes := [], behind := fun i => if i = 0 then lib.before line else line.byteAt (i - 1) }

/-- The value of a field. -/
def fieldValue (lib : Library F) (type : IssdlTag) (text : Text) : Except Reject (OvmVar F) :=
  let buff := cString text.bytes
  match type with
  | .vstr => .ok (.vstr text)
  | .int => .ok (.int ((atoi buff).signExtend 64))
  | .ipv4 =>
    match lib.inetAton buff with
    | some addr => .ok (.ipv4 addr)
    | none => .error .failed
  | .float => .ok (.float (lib.atof buff))
  | _ => .error .failed

/-- The loop over the fields of a match. -/
def fieldValues (lib : Library F) (line : Text) (regmatch : Nat → Option (Nat × Nat)) :
    List Field → List (Slot (OvmVar F)) → Except Reject (List (Slot (OvmVar F)))
  | [], values => .ok values
  | f :: fs, values =>
    if 0 ≤ f.substring ∧ f.substring < nmatch then do
      let res ← fieldValue lib f.type (substringText lib line (regmatch f.substring.toNat))
      fieldValues lib line regmatch fs (values.set f.fieldId (.value res))
    else .error (.crash .misread)

/-- The first match of the virtual modules, in their order. -/
def firstMatch (hook : Hook) (buf : CStr) : Option (Vmod × Match × (Nat → Option (Nat × Nat))) :=
  hook.vmodList.firstM fun vmod => vmod.matchList.firstM fun m =>
    (m.regexec buf).map fun regmatch => (vmod, m, regmatch)

/-- The line, and its copy in `buf`. -/
def copyLine (v : OvmVar F) : Except Reject (Text × CStr) :=
  match v with
  | .str line | .vstr line =>
    let txtLen := toInt line.bytes.length
    if 0 ≤ txtLen ∧ txtLen < bufSize then .ok (line, cString (line.mem txtLen.toNat))
    else .error (.crash .overflow)
  | _ => .error .failed

end Generic

open Generic

/-- `generic_dissect`, up to `add_fields_to_event`: the module that posts, and the table of the
values. -/
def genericAttrs {F : Type} (lib : Generic.Library F) (data : Option Hook) (v : OvmVar F) :
    Except Reject (Nat × List (Slot (OvmVar F))) := do
  let (line, buf) ← copyLine v
  match data with
  | none => .error (.crash .nullData)
  | some hook =>
    match firstMatch hook buf with
    | none => .error .failed
    | some (vmod, m, regmatch) =>
      let values ← fieldValues lib line regmatch m.fieldList (.replicate vmod.fields .null)
      return (vmod.modId, values)

end Orchids
