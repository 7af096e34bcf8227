import Orchids.Mod.Syslog

/-!
# The dissectors of netfilter, Snare and Prism2

`netfilter_dissect`, `snare_dissect` and `prism2_callback`, up to the fields that they add. The
parsers of the first two are generated from grammars; what they assign to the array of the attributes
is a parameter.
-/

namespace Orchids

variable {F : Type}

/-! ## `mod_netfilter.c` and `mod_snare.c` -/

/-- What a parser makes of a text: it accepts the text or not, after assignments to the attributes. -/
abbrev AttrParser (F : Type) := Text → Bool × List (Nat × OvmVar F)

/-- `NETFILTER_FIELDS` and `SNARE_FIELDS` -/
def netfilterFields : Nat := 30
def snareFields : Nat := 32

/-- The assignments to an array with this number of attributes. -/
def assignAttrs (size : Nat) : List (Nat × OvmVar F) → List (Slot (OvmVar F)) →
    Except Reject (List (Slot (OvmVar F)))
  | [], attr => .ok attr
  | (i, v) :: l, attr =>
    if i < size then assignAttrs size l (attr.set i (.value v)) else .error (.crash .overflow)

/-- The attributes of a text. -/
def parsedAttrs (size : Nat) (parser : AttrParser F) (line : Text) :
    Except Reject (List (Slot (OvmVar F))) := do
  let (accepted, assignments) := parser line
  let attr ← assignAttrs size assignments (List.replicate size .null)
  if accepted then return attr else throw .failed

/-- `netfilter_dissect` -/
def netfilterAttrs (netfilterparse : AttrParser F) (v : OvmVar F) :
    Except Reject (List (Slot (OvmVar F))) :=
  match v with
  | .str line | .vstr line => parsedAttrs netfilterFields netfilterparse line
  | _ => .error .failed

/-- `snare_dissect` -/
def snareAttrs (snareparse : AttrParser F) (v : OvmVar F) :
    Except Reject (List (Slot (OvmVar F))) := do
  let line ← strValue v
  parsedAttrs snareFields snareparse line

/-! ## `mod_prism2.c` -/

/-- The bytes of a number, the lowest first. -/
def readUint (n : Nat) (l : List UInt8) : Nat :=
  (l.take n).foldr (fun c i => c.toNat + 256 * i) 0

/-- `sizeof (prism2_hdr_t)` -/
def prism2HdrSize : Nat := 144

/-- `DECODE_PRISM_VALUE`, of the value number `i` of the header. -/
def decodePrismValue (packet : List UInt8) (i : Nat) : Slot (OvmVar F) :=
  let value := packet.drop (24 + 12 * i)
  if readUint 2 (value.drop 4) = 0 then .value (.uint (BitVec.ofNat 64 (readUint 4 (value.drop 8))))
  else .null

/-- `prism2_callback` -/
def prism2Attrs (v : OvmVar F) : Except Reject (List (Slot (OvmVar F))) :=
  match v with
  | .bstr packet =>
    if packet.bytes.length < prism2HdrSize then .error .failed
    else
      let field (n : Nat) : Slot (OvmVar F) := .value (.uint (BitVec.ofNat 64 n))
      .ok ([field (readUint 4 packet.bytes), field (readUint 4 (packet.bytes.drop 4)), .null] ++
        (List.range 9).map (decodePrismValue packet.bytes) ++
        [.null, .value (.vbstr (packet.advance prism2HdrSize))])
  | _ => .error (.crash .misread)

end Orchids
