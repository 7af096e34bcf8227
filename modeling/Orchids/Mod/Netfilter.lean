import Orchids.Api.Dissectors
import Orchids.Lib.Lexer
import Orchids.Lib.Predictive
import Orchids.Util.StringUtil

/-!
# Netfilter lines (`netfilter.l`, `netfilter.y`, `mod_netfilter.c`)

The scanner, the productions of `nfline` with their actions, and the dissector. Each production is
chosen by the next token, and an empty one is taken where no other is. The address `inet_addr` gives
is a parameter.

* `tokens`: the tokens of a line, up to its end.
* `nfline`, `netfilterparse`: the actions of the productions, in the order of the reductions.
* `netfilterDissect`: the values that are allocated, and which of them are added to the event or
  freed.
-/

namespace Orchids

namespace Netfilter

/-! ## The scanner -/

/-- The tokens without a value. -/
inductive Keyword where
  | nfIn | nfPhysin | nfOut | nfPhysout | nfMac
  | nfSrc | nfDst | nfLen | nfTos | nfPrec | nfTtl | nfId
  | nfCe | nfDf | nfMf | nfFrag | nfOpt
  | nfProto | nfIncomplete
  | nfTcp | nfSpt | nfDpt | nfSeq | nfAck | nfWindow | nfRes
  | nfCwr | nfEce | nfUrg | nfPsh | nfRst | nfSyn | nfFin | nfUrgp
  | nfUdp | nfIcmp | nfType | nfCode | nfParam | nfGateway | nfMtu
  | nfBytes
  deriving DecidableEq

/-- The reserved keywords. -/
def keywords : List (String × Keyword) :=
  [("IN", .nfIn), ("PHYSIN", .nfPhysin), ("OUT", .nfOut), ("PHYSOUT", .nfPhysout), ("MAC", .nfMac),
    ("SRC", .nfSrc), ("DST", .nfDst), ("LEN", .nfLen), ("TOS", .nfTos), ("PREC", .nfPrec),
    ("TTL", .nfTtl), ("ID", .nfId), ("CE", .nfCe), ("DF", .nfDf), ("MF", .nfMf), ("FRAG", .nfFrag),
    ("OPT", .nfOpt), ("PROTO", .nfProto), ("INCOMPLETE", .nfIncomplete), ("TCP", .nfTcp),
    ("SPT", .nfSpt), ("DPT", .nfDpt), ("SEQ", .nfSeq), ("ACK", .nfAck), ("WINDOW", .nfWindow),
    ("RES", .nfRes), ("CWR", .nfCwr), ("ECE", .nfEce), ("URG", .nfUrg), ("PSH", .nfPsh),
    ("RST", .nfRst), ("SYN", .nfSyn), ("FIN", .nfFin), ("URGP", .nfUrgp), ("UDP", .nfUdp),
    ("ICMP", .nfIcmp), ("TYPE", .nfType), ("CODE", .nfCode), ("PARAMETER", .nfParam),
    ("GATEWAY", .nfGateway), ("MTU", .nfMtu), ("bytes", .nfBytes)]

/-- The rules of the scanner. -/
inductive Rule where
  | keyword (k : Keyword)
  | integer
  | string
  | hexbyte
  | inetaddr
  | macinfo
  | newline
  | any
  deriving DecidableEq

def isLetter (c : UInt8) : Bool := (65 ≤ c && c ≤ 90) || (97 ≤ c && c ≤ 122)

/-- `[a-zA-Z0-9_\-]` -/
def isNameByte (c : UInt8) : Bool := isLetter c || isDigit c || c == 95 || c == 45

/-- `[0-9A-F]` -/
def isUpperHex (c : UInt8) : Bool := isDigit c || (65 ≤ c && c ≤ 70)

/-- `[0-9a-f]` -/
def isLowerHex (c : UInt8) : Bool := isDigit c || (97 ≤ c && c ≤ 102)

/-- `[0-9]+` -/
def isInteger (text : CStr) : Bool := text ≠ [] && text.all isDigit

/-- `[a-zA-Z][a-zA-Z0-9_\-]+` -/
def isString : CStr → Bool
  | c :: d :: s => isLetter c && isNameByte d && s.all isNameByte
  | _ => false

/-- `0x[0-9A-F][0-9A-F]` -/
def isHexbyte : CStr → Bool
  | [48, 120, a, b] => isUpperHex a && isUpperHex b
  | _ => false

/-- `([0-9]{1,3}\.){3}[0-9]{1,3}` -/
def isInetaddr (text : CStr) : Bool :=
  (text.splitOn 46).length = 4 &&
    (text.splitOn 46).all fun part => part ≠ [] && part.length ≤ 3 && part.all isDigit

/-- `([0-9a-f]{2}:)+[0-9a-f]{2}` -/
def isMacinfo (text : CStr) : Bool :=
  2 ≤ (text.splitOn 58).length &&
    (text.splitOn 58).all fun part => part.length = 2 && part.all isLowerHex

def rules : List (LexRule UInt8 Rule) :=
  keywords.map (fun (s, k) => ⟨(· == ascii s), .keyword k⟩) ++
    [⟨isInteger, .integer⟩, ⟨isString, .string⟩, ⟨isHexbyte, .hexbyte⟩, ⟨isInetaddr, .inetaddr⟩,
      ⟨isMacinfo, .macinfo⟩, ⟨(· == [10]), .newline⟩, ⟨fun text => text.length = 1, .any⟩]

/-- A text that the scanner matched: where it begins, and what `input_offset_g` was. -/
structure Lexeme where
  text : CStr
  start : Nat
  offset : BitVec 32
  deriving DecidableEq

/-- `netfilterlval.integer` of an `INTEGER` -/
def Lexeme.integer (l : Lexeme) : BitVec 32 := atoi l.text

/-- The value of a hexadecimal digit. -/
def hexDigit (c : UInt8) : Nat := if c ≤ 57 then c.toNat - 48 else c.toNat - 55

/-- `sscanf(netfiltertext, "0x%02X", …)` -/
def Lexeme.hexbyte (l : Lexeme) : BitVec 32 :=
  BitVec.ofNat 32 ((l.text.drop 2).foldl (fun n c => n * 16 + hexDigit c) 0)

inductive Tok where
  | keyword (k : Keyword)
  | char (c : UInt8)
  | integer (l : Lexeme)
  | string (l : Lexeme)
  | hexbyte (l : Lexeme)
  | inetaddr (l : Lexeme)
  | macinfo (l : Lexeme)
  deriving DecidableEq

/-- The token that a rule returns. A code that is not positive is the end: that of a NUL, and that
of a byte from 128 on, since the `char` is signed. -/
def Rule.token : Rule → Lexeme → Option Tok
  | .keyword k, _ => some (.keyword k)
  | .integer, l => some (.integer l)
  | .string, l => some (.string l)
  | .hexbyte, l => some (.hexbyte l)
  | .inetaddr, l => some (.inetaddr l)
  | .macinfo, l => some (.macinfo l)
  | .newline, _ => none
  | .any, l => l.text.head?.bind fun c => if 0 < c ∧ c < 128 then some (.char c) else none

/-- The tokens of the input, from a place on: `COUNT_OFFSET` is in all rules but that of the new
lines. -/
def tokensFrom : Nat → Nat → BitVec 32 → CStr → List Tok
  | 0, _, _, _ => []
  | n + 1, start, offset, input =>
    match LexRule.longest rules input with
    | none => []
    | some (.newline, text, rest) => tokensFrom n (start + text.length) offset rest
    | some (r, text, rest) =>
      match r.token ⟨text, start, offset⟩ with
      | none => []
      | some t =>
        t :: tokensFrom n (start + text.length) (offset + BitVec.ofNat 32 text.length) rest

/-- `netfilter_set_str`, and `netfilterlex` up to the end -/
def tokens (text : CStr) : List Tok := tokensFrom text.length 0 0 text

/-! ## The attributes -/

/-- The fields, in the order of their numbers. -/
inductive Field where
  | fIn | fPhysin | fOut | fPhysout | fMac | fSrc | fDst | fIplen | fTos | fPrec | fTtl | fIpid
  | fIpflags | fFrag | fIpopts | fProto | fSpt | fDpt | fSeq | fAck | fWindow | fRes | fTcpflags
  | fUrgp | fUdplen | fIcmptype | fIcmpcode | fIcmpid | fIcmpseq | fIcmpparam | fIcmpgateway
  | fIcmpmtu
  deriving DecidableEq

/-- The values: a `T_VSTR` is a part of the line from `vstr_base_g` on, or a name of `ip_proto_g`. -/
inductive Attr where
  | vstr (pos : BitVec 32) (len : Nat)
  | name (s : CStr)
  | ipv4 (a : BitVec 32)
  | int (v : BitVec 64)
  | uint (v : BitVec 64)
  deriving DecidableEq

/-- A new value that is stored in `fields_g`. -/
abbrev Action := Field × Attr

/-- `INT(fields_g[f]) = v`, where `v` is an `int` -/
def int (v : BitVec 32) : Attr := .int (v.signExtend 64)

/-- `UINT(fields_g[f]) = v` -/
def uint (v : BitVec 32) : Attr := .uint (v.signExtend 64)

/-- A part of the line. -/
def vstr (l : Lexeme) : Attr := .vstr l.offset l.text.length

/-! ## The productions -/

abbrev Yacc := Predictive Tok Action

open Predictive

def keyword (k : Keyword) : Yacc Unit := shift fun t => if t = .keyword k then some () else none

def char (c : UInt8) : Yacc Unit := shift fun t => if t = .char c then some () else none

def integer : Yacc Lexeme := shift fun | .integer l => some l | _ => none

def string : Yacc Lexeme := shift fun | .string l => some l | _ => none

def hexbyte : Yacc Lexeme := shift fun | .hexbyte l => some l | _ => none

def inetaddr : Yacc Lexeme := shift fun | .inetaddr l => some l | _ => none

def macinfoToken : Yacc Lexeme := shift fun | .macinfo l => some l | _ => none

/-- `NF_… '=' value ' '` -/
def entry {α : Type} (k : Keyword) (value : Yacc α) : Yacc α := do
  keyword k
  char 61
  let a ← value
  char 32
  return a

def isStringToken : Tok → Bool
  | .string _ => true
  | _ => false

def isMacinfoToken : Tok → Bool
  | .macinfo _ => true
  | _ => false

/-- `interface`: the length is 0 where there is none. -/
def interface : Yacc (Option Lexeme) :=
  ifNext isStringToken (do return some (← string)) (return none)

/-- A production with an empty one beside it. -/
def option (k : Keyword) (p : Yacc Unit) : Yacc Unit := ifNext (· = .keyword k) p (return ())

/-- `physin` and `physout` -/
def phys (k : Keyword) (f : Field) : Yacc Unit := option k do
  let l ← entry k string
  perform (f, vstr l)

def physin : Yacc Unit := phys .nfPhysin .fPhysin

def physout : Yacc Unit := phys .nfPhysout .fPhysout

def macHeader : Yacc (Option Lexeme) :=
  ifNext isMacinfoToken (do return some (← macinfoToken)) (return none)

def macinfo : Yacc Unit := option .nfMac do
  let _ ← entry .nfMac macHeader

/-- A flag and its blank. -/
def flag (k : Keyword) (bit : BitVec 32) : Yacc (BitVec 32) :=
  ifNext (· = .keyword k) (do keyword k; char 32; return bit) (return 0)

def ecnCongestionExperienced : Yacc (BitVec 32) := flag .nfCe 1

def dontFragment : Yacc (BitVec 32) := flag .nfDf 4

def moreFragments : Yacc (BitVec 32) := flag .nfMf 2

def ipFlags : Yacc Unit := do
  let ce ← ecnCongestionExperienced
  let df ← dontFragment
  let mf ← moreFragments
  perform (.fIpflags, int (ce ||| df ||| mf))

def fragOffset : Yacc Unit := option .nfFrag do
  let l ← entry .nfFrag integer
  perform (.fFrag, int l.integer)

def ipOptions : Yacc Unit := option .nfOpt do
  keyword .nfOpt
  char 32
  char 40
  let _ ← string
  char 41
  char 32

/-- `NF_INCOMPLETE ' ' '[' INTEGER ' ' NF_BYTES ']'` -/
def incomplete : Yacc Unit := do
  keyword .nfIncomplete
  char 32
  char 91
  let _ ← integer
  char 32
  keyword .nfBytes
  char 93

def sequenceNumbers : Yacc Unit := option .nfSeq do
  let seq ← entry .nfSeq integer
  let ack ← entry .nfAck integer
  perform (.fSeq, uint seq.integer)
  perform (.fAck, uint ack.integer)

def cwr : Yacc (BitVec 32) := flag .nfCwr 0x01
def ece : Yacc (BitVec 32) := flag .nfEce 0x02
def urg : Yacc (BitVec 32) := flag .nfUrg 0x04
def ack : Yacc (BitVec 32) := flag .nfAck 0x08
def psh : Yacc (BitVec 32) := flag .nfPsh 0x10
def rst : Yacc (BitVec 32) := flag .nfRst 0x20
def syn : Yacc (BitVec 32) := flag .nfSyn 0x40
def fin : Yacc (BitVec 32) := flag .nfFin 0x80

def tcpFlags : Yacc Unit := do
  let cwr ← cwr
  let ece ← ece
  let urg ← urg
  let ack ← ack
  let psh ← psh
  let rst ← rst
  let syn ← syn
  let fin ← fin
  perform (.fTcpflags, int (cwr ||| ece ||| urg ||| ack ||| psh ||| rst ||| syn ||| fin))

/-- The third production of `proto_tcp`, from `NF_SPT` on. -/
def tcpHeader : Yacc Unit := do
  let spt ← entry .nfSpt integer
  let dpt ← entry .nfDpt integer
  sequenceNumbers
  let window ← entry .nfWindow integer
  let res ← entry .nfRes hexbyte
  tcpFlags
  let urgp ← entry .nfUrgp integer
  perform (.fProto, .name (ascii "TCP"))
  perform (.fSpt, int spt.integer)
  perform (.fDpt, int dpt.integer)
  perform (.fWindow, int window.integer)
  perform (.fRes, int res.hexbyte)
  perform (.fUrgp, int urgp.integer)

/-- The third production of `proto_udp`, from `NF_SPT` on. -/
def udpHeader : Yacc Unit := do
  let spt ← entry .nfSpt integer
  let dpt ← entry .nfDpt integer
  let len ← entry .nfLen integer
  perform (.fSpt, int spt.integer)
  perform (.fDpt, int dpt.integer)
  perform (.fUdplen, int len.integer)

def icmpEcho : Yacc Unit := do
  let id ← entry .nfId integer
  let seq ← entry .nfSeq integer
  perform (.fIcmpid, int id.integer)
  perform (.fIcmpseq, int seq.integer)

def icmpParameter : Yacc Unit := do
  let _ ← entry .nfParam integer

def icmpRedirect : Yacc Unit := do
  let _ ← entry .nfGateway inetaddr

def mtu : Yacc Unit := option .nfMtu do
  let _ ← entry .nfMtu integer

/-- `icmp_other`, with the parser of the quoted line -/
def icmpOther (nfline : Yacc Unit) : Yacc Unit := do
  char 91
  nfline
  char 93
  mtu

def icmpSpecific (nfline : Yacc Unit) : Yacc Unit :=
  ifNext (· = .keyword .nfId) icmpEcho <|
  ifNext (· = .keyword .nfParam) icmpParameter <|
  ifNext (· = .keyword .nfGateway) icmpRedirect (icmpOther nfline)

/-- The third production of `proto_icmp`, from `NF_TYPE` on. -/
def icmpHeader (nfline : Yacc Unit) : Yacc Unit := do
  let type ← entry .nfType integer
  let code ← entry .nfCode integer
  icmpSpecific nfline
  perform (.fIcmptype, int type.integer)
  perform (.fIcmpcode, int code.integer)

/-- What is behind the name of a protocol: nothing, a notice or the header, which begins with
`first`. -/
def protocol (k first : Keyword) (header : Yacc Unit) : Yacc Unit := do
  keyword k
  char 32
  ifNext (· = .keyword .nfIncomplete) incomplete (option first header)

def protoTcp : Yacc Unit := protocol .nfTcp .nfSpt tcpHeader

def protoUdp : Yacc Unit := protocol .nfUdp .nfSpt udpHeader

def protoIcmp (nfline : Yacc Unit) : Yacc Unit := protocol .nfIcmp .nfType (icmpHeader nfline)

def protoOther : Yacc Unit := do
  let _ ← integer
  char 32

/-- All its productions begin with `NF_PROTO '='`. -/
def protoSpecifics (nfline : Yacc Unit) : Yacc Unit := do
  keyword .nfProto
  char 61
  ifNext (· = .keyword .nfTcp) protoTcp <|
    ifNext (· = .keyword .nfUdp) protoUdp <|
    ifNext (· = .keyword .nfIcmp) (protoIcmp nfline) protoOther

/-- The values of the symbols of `nfline` that its action reads. -/
structure Head where
  inn : Option Lexeme
  out : Option Lexeme
  src : Lexeme
  dst : Lexeme
  len : Lexeme
  tos : Lexeme
  prec : Lexeme
  ttl : Lexeme
  id : Lexeme
  deriving DecidableEq

/-- `nfline` up to `ip_flags`. -/
def head : Yacc Head := do
  let inn ← entry .nfIn interface
  physin
  let out ← entry .nfOut interface
  physout
  macinfo
  let src ← entry .nfSrc inetaddr
  let dst ← entry .nfDst inetaddr
  let len ← entry .nfLen integer
  let tos ← entry .nfTos hexbyte
  let prec ← entry .nfPrec hexbyte
  let ttl ← entry .nfTtl integer
  let id ← entry .nfId integer
  return { inn, out, src, dst, len, tos, prec, ttl, id }

/-- An interface name, where its length is not 0. -/
def emitInterface (f : Field) : Option Lexeme → Yacc Unit
  | some l => if l.text.length ≠ 0 then perform (f, vstr l) else return ()
  | none => return ()

/-- The action of `nfline`. -/
def reduce (inetAddr : CStr → BitVec 32) (h : Head) : Yacc Unit := do
  emitInterface .fIn h.inn
  emitInterface .fOut h.out
  perform (.fSrc, .ipv4 (inetAddr h.src.text))
  perform (.fDst, .ipv4 (inetAddr h.dst.text))
  perform (.fIplen, int h.len.integer)
  perform (.fTos, int h.tos.hexbyte)
  perform (.fPrec, int h.prec.hexbyte)
  perform (.fTtl, int h.ttl.integer)
  perform (.fIpid, int h.id.integer)

/-- The production of `nfline`, where `inner` is the parser of a quoted line. -/
def production (inetAddr : CStr → BitVec 32) (inner : Yacc Unit) : Yacc Unit := do
  let h ← head
  ipFlags
  fragOffset
  ipOptions
  protoSpecifics inner
  reduce inetAddr h

/-- `nfline`, with at most `n` lines one in the other. -/
def nfline (inetAddr : CStr → BitVec 32) : Nat → Yacc Unit
  | 0 => fun _ => ([], none)
  | n + 1 => production inetAddr (nfline inetAddr n)

/-- `netfilterparse`: each quoted line begins with a token. -/
def netfilterparse (inetAddr : CStr → BitVec 32) (ts : List Tok) : List Action × Bool :=
  let p : Yacc Unit := do
    nfline inetAddr (ts.length + 1)
    eof
  ((p ts).1, (p ts).2.isSome)

/-! ## The dissector -/

/-- The values that were allocated, by address, and the table of attributes. -/
structure Attrs where
  values : List Attr
  table : Field → Option Nat

/-- `memset(attr, 0, …)` -/
def Attrs.empty : Attrs := ⟨[], fun _ => none⟩

/-- A value is allocated and stored. -/
def Attrs.store (s : Attrs) (x : Action) : Attrs where
  values := s.values ++ [x.2]
  table := Function.update s.table x.1 (some s.values.length)

/-- The fields that the module registers, which are those of its table. -/
def netfilterFields : List Field :=
  [.fIn, .fPhysin, .fOut, .fPhysout, .fMac, .fSrc, .fDst, .fIplen, .fTos, .fPrec, .fTtl, .fIpid,
    .fIpflags, .fFrag, .fIpopts, .fProto, .fSpt, .fDpt, .fSeq, .fAck, .fWindow, .fRes, .fTcpflags,
    .fUrgp, .fUdplen, .fIcmptype, .fIcmpcode, .fIcmpid, .fIcmpseq, .fIcmpparam]

/-- What a call leaves. -/
structure Dissection where
  ret : Nat
  values : List Attr
  /-- The addresses that are added to the event. -/
  event : Field → Option Nat
  /-- The addresses that are freed. -/
  freed : List Nat

/-- `netfilter_dissect`, for the text of the event -/
def netfilterDissect (inetAddr : CStr → BitVec 32) (text : CStr) : Dissection :=
  let (actions, accepted) := netfilterparse inetAddr (tokens text)
  let attrs := actions.foldl Attrs.store .empty
  if accepted then
    { ret := 0
      values := attrs.values
      event := fun f => if f ∈ netfilterFields then attrs.table f else none
      freed := [] }
  else
    { ret := 1
      values := attrs.values
      event := fun _ => none
      freed := netfilterFields.filterMap attrs.table }

end Netfilter

end Orchids
