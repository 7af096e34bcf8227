import Orchids.Api.Modules

/-!
# Dissectors (`orchids_api.c`, `orchids_cfg.c`)

`register_conditional_dissector`, the directive `DISSECT` and the choice that `post_event` makes. A
key is encoded twice: from the text of the directive, and from the value of the event. What the
library makes of a text is `atoi` and the parameter `inetAddr`; `rawData` is the data of the values
that no directive can discriminate on.
-/

namespace Orchids

/-! ## Keys -/

/-- The `n` bytes of a number, the lowest first. -/
def littleEndian : Nat → Nat → List UInt8
  | 0, _ => []
  | n + 1, v => UInt8.ofNat v :: littleEndian n (v / 256)

/-- The bytes of an `int` or an `in_addr_t`. -/
def bytes32 (v : BitVec 32) : List UInt8 := littleEndian 4 v.toNat

/-- The bytes of a `long`. -/
def bytes64 (v : BitVec 64) : List UInt8 := littleEndian 8 v.toNat

/-- `hash_djb` -/
def hashDjb (key : List UInt8) : Nat :=
  key.foldl (fun h c => (h * 33 + c.toNat) % 2 ^ 64) 5381

/-- `isspace` -/
def isSpace (c : UInt8) : Bool := c == 32 || (9 ≤ c && c ≤ 13)

/-- `isblank` -/
def isBlank (c : UInt8) : Bool := c == 32 || c == 9

/-- `isdigit` -/
def isDigit (c : UInt8) : Bool := 48 ≤ c && c ≤ 57

/-- The number that some digits write. -/
def digits (l : CStr) : Nat := l.foldl (fun n c => n * 10 + (c.toNat - 48)) 0

/-- `strtol(str, NULL, 10)`, with its limits. -/
def strtol (str : CStr) : Int :=
  let s := str.dropWhile isSpace
  match s with
  | 45 :: t => max (-(2 ^ 63)) (-(digits (t.takeWhile isDigit) : Int))
  | 43 :: t => min (2 ^ 63 - 1) (digits (t.takeWhile isDigit) : Int)
  | t => min (2 ^ 63 - 1) (digits (t.takeWhile isDigit) : Int)

/-- `atoi`: the `long` as an `int`. -/
def atoi (str : CStr) : BitVec 32 := BitVec.ofInt 32 (strtol str)

/-- The key of a text, for the type of the field. -/
def encodeKey (inetAddr : CStr → BitVec 32) (type : IssdlTag) (str : CStr) : Option (List UInt8) :=
  match type with
  | .str | .vstr => some str
  | .int | .uint => some (bytes32 (atoi str))
  | .ipv4 => some (bytes32 (inetAddr str))
  | _ => none

/-- `issdl_get_data` and `issdl_get_data_len` -/
def getData {F : Type} (rawData : OvmVar F → List UInt8) : OvmVar F → List UInt8
  | .int v | .uint v => bytes64 v
  | .ipv4 a => bytes32 a
  | .str t | .vstr t | .bstr t | .vbstr t => t.bytes
  | v => rawData v

/-! ## Registration -/

/-- Why a directive is not accepted. -/
inductive DissectError where
  | illFormed
  | unknownModule (name : CStr)
  /-- There is no such field: the index is out of the table. -/
  | noField
  | badType
  | noGenericDissector
  /-- `exit`: an unconditional dissector is present. -/
  | unconditional
  /-- `exit`: another module registered this value. -/
  | registered
  deriving DecidableEq

/-- A word of the arguments, and what follows it and its blanks. -/
def nextWord (args : CStr) : CStr × CStr :=
  (args.takeWhile (!isBlank ·), (args.dropWhile (!isBlank ·)).dropWhile isBlank)

/-- A directive `DISSECT` with its names found and its key encoded. -/
structure Directive (D : Type) where
  source : Nat
  type : IssdlTag
  cond : CStr
  key : List UInt8
  dissect : D

namespace ModCtx

variable {D : Type}

/-- `register_conditional_dissector`, for a parent that is loaded. -/
def registerConditionalDissector (s : ModCtx D) (parent : Nat) (key : List UInt8) (d : D) :
    Except DissectError (ModCtx D) :=
  match s.mods[parent]? with
  | none => .error (.unknownModule [])
  | some m =>
    if m.dissect.isSome then .error .unconditional
    else
      let h := m.subDissectors.getD (.new hashDjb 31)
      if (h.get key).isSome then .error .registered
      else .ok { s with mods := s.mods.set parent { m with subDissectors := some (h.add d key) } }

/-- `ctx->global_fields[m->first_field_pos + m->num_fields - 2].type` -/
def keyType (s : ModCtx D) (m : ModEntry D) : Option IssdlTag :=
  if m.firstFieldPos + m.numFields < 2 then none
  else (s.globalFields[m.firstFieldPos + m.numFields - 2]?).map GlobalField.type

/-- The names of the modules that a directive is for, and its key, as `add_cond_dissector` reads
them. -/
def readDirective (inetAddr : CStr → BitVec 32) (s : ModCtx D) (args : CStr) :
    Except DissectError (Directive D) :=
  let (modDissectName, args) := nextWord args
  let (modSourceName, args) := nextWord args
  let (cond, _) := nextWord args
  if modDissectName = [] ∨ modSourceName = [] ∨ cond = [] then .error .illFormed
  else match s.findModuleEntry modSourceName with
  | none => .error (.unknownModule modSourceName)
  | some source =>
    match (s.findModuleEntry modDissectName).bind (s.mods[·]?) with
    | none => .error (.unknownModule modDissectName)
    | some mDissect =>
      match (s.mods[source]?).bind s.keyType with
      | none => .error .noField
      | some type =>
        match encodeKey inetAddr type cond, mDissect.genericDissect with
        | none, _ => .error .badType
        | some _, none => .error .noGenericDissector
        | some key, some dissect => .ok { source, type, cond, key, dissect }

/-- `add_cond_dissector`, the directive `DISSECT`. -/
def addCondDissector (inetAddr : CStr → BitVec 32) (s : ModCtx D) (args : CStr) :
    Except DissectError (ModCtx D) := do
  let d ← s.readDirective inetAddr args
  s.registerConditionalDissector d.source d.key d.dissect

end ModCtx

/-! ## Dispatch -/

/-- What `post_event` calls. -/
inductive Dispatch (D : Type) where
  | dissect (d : D)
  | injectEvent
  /-- `event->next` is `NULL`, and its value is read. -/
  | nullNext
  deriving DecidableEq

/-- The choice of `post_event`. -/
def dispatch {D F : Type} (rawData : OvmVar F → List UInt8) (sender : ModEntry D)
    (event : EventList (OvmVar F)) : Dispatch D :=
  match sender.dissect, sender.subDissectors with
  | some d, _ => .dissect d
  | none, some h =>
    match event with
    | _ :: next :: _ =>
      match h.get (getData rawData next.2) with
      | some d => .dissect d
      | none => .injectEvent
    | _ => .nullNext
  | none, none => .injectEvent

end Orchids
