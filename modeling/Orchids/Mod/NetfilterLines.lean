import Orchids.Mod.Netfilter

/-!
# The lines of the grammar (`netfilter.y`)

The derivations of `nfline`, with the tokens that each one spells and the values that its actions
store. A line quotes another one in an ICMP message, and the derivation is a list of such lines.

* `HeadPart`, `IpPart`, `PlainProto`, `NfLine`: the derivations.
* `gives_head`, `gives_flags`: what is read up to the flags, and from which tokens.
* `gives_nfline`: each line is read from its tokens.
-/

namespace Orchids

namespace Netfilter

open Predictive

/-! ## Derivations -/

/-- `k '=' value ' '` -/
def entryTokens (k : Keyword) (value : List Tok) : List Tok :=
  .keyword k :: .char 61 :: (value ++ [.char 32])

/-- An entry that may be left out. -/
def optTokens (k : Keyword) (token : Lexeme → Tok) (o : Option Lexeme) : List Tok :=
  o.elim [] fun l => entryTokens k [token l]

def flagTokens (k : Keyword) (b : Bool) : List Tok := if b then [.keyword k, .char 32] else []

/-- Flags, each with whether it is there. -/
def flagsTokens (l : List (Keyword × Bool)) : List Tok := l.flatMap fun (k, b) => flagTokens k b

def flagBit (b : Bool) (bit : BitVec 32) : BitVec 32 := if b then bit else 0

/-- A line up to `ip_flags`. -/
structure HeadPart extends Head where
  physin : Option Lexeme
  physout : Option Lexeme
  mac : Option (Option Lexeme)

/-- A line up to `proto_specifics`. -/
structure IpPart extends HeadPart where
  ce : Bool
  df : Bool
  mf : Bool
  frag : Option Lexeme
  options : Option Lexeme

structure TcpHeader where
  spt : Lexeme
  dpt : Lexeme
  numbers : Option (Lexeme × Lexeme)
  window : Lexeme
  res : Lexeme
  cwr : Bool
  ece : Bool
  urg : Bool
  ack : Bool
  psh : Bool
  rst : Bool
  syn : Bool
  fin : Bool
  urgp : Lexeme

structure UdpHeader where
  spt : Lexeme
  dpt : Lexeme
  len : Lexeme

/-- `icmp_specific`, but for `icmp_other`. -/
inductive PlainIcmp where
  | echo (id seq : Lexeme)
  | parameter (l : Lexeme)
  | redirect (l : Lexeme)

structure IcmpHeader where
  type : Lexeme
  code : Lexeme
  specific : PlainIcmp

/-- What is behind the name of a protocol. -/
inductive Behind (α : Type) where
  | nothing
  | incomplete (l : Lexeme)
  | header (h : α)

inductive PlainProto where
  | tcp (b : Behind TcpHeader)
  | udp (b : Behind UdpHeader)
  | icmp (b : Behind IcmpHeader)
  | other (l : Lexeme)

/-- `nfline` -/
inductive NfLine where
  | plain (ip : IpPart) (proto : PlainProto)
  | quoting (ip : IpPart) (type code : Lexeme) (line : NfLine) (mtu : Option Lexeme)

/-! ## Tokens -/

def interfaceTokens (o : Option Lexeme) : List Tok := o.elim [] fun l => [.string l]

/-- `NF_IN '=' interface ' ' physin` -/
def HeadPart.inTokens (p : HeadPart) : List Tok :=
  entryTokens .nfIn (interfaceTokens p.inn) ++ optTokens .nfPhysin .string p.physin

/-- `NF_OUT '=' interface ' ' physout` -/
def HeadPart.outTokens (p : HeadPart) : List Tok :=
  entryTokens .nfOut (interfaceTokens p.out) ++ optTokens .nfPhysout .string p.physout

def macTokens (o : Option (Option Lexeme)) : List Tok :=
  o.elim [] fun m => entryTokens .nfMac (m.elim [] fun l => [.macinfo l])

def HeadPart.tokens (p : HeadPart) : List Tok :=
  p.inTokens ++ (p.outTokens ++ (macTokens p.mac ++
    (entryTokens .nfSrc [.inetaddr p.src] ++ (entryTokens .nfDst [.inetaddr p.dst] ++
    (entryTokens .nfLen [.integer p.len] ++ (entryTokens .nfTos [.hexbyte p.tos] ++
    (entryTokens .nfPrec [.hexbyte p.prec] ++ (entryTokens .nfTtl [.integer p.ttl] ++
    entryTokens .nfId [.integer p.id]))))))))

def ipFlagTokens (ce df mf : Bool) : List Tok :=
  flagsTokens [(.nfCe, ce), (.nfDf, df), (.nfMf, mf)]

def optionsTokens (o : Option Lexeme) : List Tok :=
  o.elim [] fun l => [.keyword .nfOpt, .char 32, .char 40, .string l, .char 41, .char 32]

def IpPart.tokens (ip : IpPart) : List Tok :=
  ip.toHeadPart.tokens ++ (ipFlagTokens ip.ce ip.df ip.mf ++
    (optTokens .nfFrag .integer ip.frag ++ optionsTokens ip.options))

def TcpHeader.flagTokens (h : TcpHeader) : List Tok :=
  flagsTokens [(.nfCwr, h.cwr), (.nfEce, h.ece), (.nfUrg, h.urg), (.nfAck, h.ack), (.nfPsh, h.psh),
    (.nfRst, h.rst), (.nfSyn, h.syn), (.nfFin, h.fin)]

def numbersTokens (o : Option (Lexeme × Lexeme)) : List Tok :=
  o.elim [] fun (seq, ack) => entryTokens .nfSeq [.integer seq] ++ entryTokens .nfAck [.integer ack]

def TcpHeader.tokens (h : TcpHeader) : List Tok :=
  entryTokens .nfSpt [.integer h.spt] ++ (entryTokens .nfDpt [.integer h.dpt] ++
    (numbersTokens h.numbers ++ (entryTokens .nfWindow [.integer h.window] ++
    (entryTokens .nfRes [.hexbyte h.res] ++ (h.flagTokens ++
    entryTokens .nfUrgp [.integer h.urgp])))))

def UdpHeader.tokens (h : UdpHeader) : List Tok :=
  entryTokens .nfSpt [.integer h.spt] ++ (entryTokens .nfDpt [.integer h.dpt] ++
    entryTokens .nfLen [.integer h.len])

def PlainIcmp.tokens : PlainIcmp → List Tok
  | .echo id seq => entryTokens .nfId [.integer id] ++ entryTokens .nfSeq [.integer seq]
  | .parameter l => entryTokens .nfParam [.integer l]
  | .redirect l => entryTokens .nfGateway [.inetaddr l]

def IcmpHeader.tokens (h : IcmpHeader) : List Tok :=
  entryTokens .nfType [.integer h.type] ++ (entryTokens .nfCode [.integer h.code] ++
    h.specific.tokens)

def Behind.tokens {α : Type} (header : α → List Tok) : Behind α → List Tok
  | .nothing => []
  | .incomplete l =>
    [.keyword .nfIncomplete, .char 32, .char 91, .integer l, .char 32, .keyword .nfBytes, .char 93]
  | .header h => header h

/-- `NF_PROTO '=' k ' '` and what is behind it -/
def protoTokens (k : Keyword) (behind : List Tok) : List Tok :=
  .keyword .nfProto :: .char 61 :: .keyword k :: .char 32 :: behind

def PlainProto.tokens : PlainProto → List Tok
  | .tcp b => protoTokens .nfTcp (b.tokens TcpHeader.tokens)
  | .udp b => protoTokens .nfUdp (b.tokens UdpHeader.tokens)
  | .icmp b => protoTokens .nfIcmp (b.tokens IcmpHeader.tokens)
  | .other l => entryTokens .nfProto [.integer l]

/-- An ICMP message up to the line that it quotes. -/
def quotationTokens (ip : IpPart) (type code : Lexeme) : List Tok :=
  ip.tokens ++ protoTokens .nfIcmp
    (entryTokens .nfType [.integer type] ++ (entryTokens .nfCode [.integer code] ++ [.char 91]))

def NfLine.tokens : NfLine → List Tok
  | .plain ip proto => ip.tokens ++ proto.tokens
  | .quoting ip type code line mtu =>
    quotationTokens ip type code ++ (line.tokens ++ .char 93 :: optTokens .nfMtu .integer mtu)

/-! ## Actions -/

def HeadPart.writes (p : HeadPart) : List Action :=
  (p.physin.elim [] fun l => [(.fPhysin, vstr l)]) ++ p.physout.elim [] fun l => [(.fPhysout, vstr l)]

def ipFlagsWrite (ce df mf : Bool) : Action :=
  (.fIpflags, int (flagBit ce 1 ||| flagBit df 4 ||| flagBit mf 2))

def IpPart.writes (ip : IpPart) : List Action :=
  ip.toHeadPart.writes ++ (ipFlagsWrite ip.ce ip.df ip.mf ::
    ip.frag.elim [] fun l => [(.fFrag, int l.integer)])

/-- `tcp_flags` -/
def TcpHeader.flags (h : TcpHeader) : BitVec 32 :=
  flagBit h.cwr 0x01 ||| flagBit h.ece 0x02 ||| flagBit h.urg 0x04 ||| flagBit h.ack 0x08 |||
    flagBit h.psh 0x10 ||| flagBit h.rst 0x20 ||| flagBit h.syn 0x40 ||| flagBit h.fin 0x80

def TcpHeader.writes (h : TcpHeader) : List Action :=
  (h.numbers.elim [] fun (seq, ack) => [(.fSeq, uint seq.integer), (.fAck, uint ack.integer)]) ++
    [(.fTcpflags, int h.flags), (.fProto, .name (ascii "TCP")), (.fSpt, int h.spt.integer),
      (.fDpt, int h.dpt.integer), (.fWindow, int h.window.integer), (.fRes, int h.res.hexbyte),
      (.fUrgp, int h.urgp.integer)]

def UdpHeader.writes (h : UdpHeader) : List Action :=
  [(.fSpt, int h.spt.integer), (.fDpt, int h.dpt.integer), (.fUdplen, int h.len.integer)]

def PlainIcmp.writes : PlainIcmp → List Action
  | .echo id seq => [(.fIcmpid, int id.integer), (.fIcmpseq, int seq.integer)]
  | _ => []

def IcmpHeader.writes (h : IcmpHeader) : List Action :=
  h.specific.writes ++ [(.fIcmptype, int h.type.integer), (.fIcmpcode, int h.code.integer)]

def Behind.writes {α : Type} (header : α → List Action) : Behind α → List Action
  | .header h => header h
  | _ => []

def PlainProto.writes : PlainProto → List Action
  | .tcp b => b.writes TcpHeader.writes
  | .udp b => b.writes UdpHeader.writes
  | .icmp b => b.writes IcmpHeader.writes
  | .other _ => []

def interfaceWrites (f : Field) (o : Option Lexeme) : List Action :=
  o.elim [] fun l => if l.text.length ≠ 0 then [(f, vstr l)] else []

/-- The action of `nfline`. -/
def Head.writes (inetAddr : CStr → BitVec 32) (h : Head) : List Action :=
  interfaceWrites .fIn h.inn ++ (interfaceWrites .fOut h.out ++
    [(.fSrc, .ipv4 (inetAddr h.src.text)), (.fDst, .ipv4 (inetAddr h.dst.text)),
      (.fIplen, int h.len.integer), (.fTos, int h.tos.hexbyte), (.fPrec, int h.prec.hexbyte),
      (.fTtl, int h.ttl.integer), (.fIpid, int h.id.integer)])

def NfLine.writes (inetAddr : CStr → BitVec 32) : NfLine → List Action
  | .plain ip proto => ip.writes ++ (proto.writes ++ ip.toHead.writes inetAddr)
  | .quoting ip type code line _ =>
    ip.writes ++ (line.writes inetAddr ++ ([(.fIcmptype, int type.integer),
      (.fIcmpcode, int code.integer)] ++ ip.toHead.writes inetAddr))

/-! ## What is read -/

variable {ts rest : List Tok} {w : List Action} {k : Keyword} {l : Lexeme} {u : Unit}

/-- The input does not go on with `k`. -/
def NotNext (k : Keyword) (ts : List Tok) : Prop := ts.head? ≠ some (.keyword k)

@[simp]
theorem notNext_cons {t : Tok} : NotNext k (t :: ts) ↔ t ≠ .keyword k := by
  simp [NotNext]

@[simp]
theorem notNext_entryTokens {k' : Keyword} {v : List Tok} :
    NotNext k (entryTokens k' v ++ rest) ↔ k' ≠ k := by
  simp [NotNext, entryTokens]

theorem NotNext.optTokens {k' : Keyword} {token : Lexeme → Tok} {o : Option Lexeme} (hk : k' ≠ k)
    (h : NotNext k rest) : NotNext k (optTokens k' token o ++ rest) := by
  cases o with
  | none => exact h
  | some l => exact notNext_entryTokens.mpr hk

theorem NotNext.flagTokens {k' : Keyword} {b : Bool} (hk : k' ≠ k) (h : NotNext k rest) :
    NotNext k (flagTokens k' b ++ rest) := by
  cases b with
  | false => exact h
  | true => exact notNext_cons.mpr (by simpa using hk)

theorem NotNext.flagsTokens {flags : List (Keyword × Bool)} (hk : k ∉ flags.map Prod.fst)
    (h : NotNext k rest) : NotNext k (flagsTokens flags ++ rest) := by
  induction flags with
  | nil => exact h
  | cons x flags ih =>
    rw [List.map_cons, List.mem_cons, not_or] at hk
    rw [Netfilter.flagsTokens, List.flatMap_cons, List.append_assoc]
    exact .flagTokens (Ne.symm hk.1) (ih hk.2)

theorem any_head_iff : (ts.head?.any fun t => decide (t = .keyword k)) = false ↔ NotNext k ts := by
  cases ts <;> simp [NotNext]

@[simp]
theorem gives_keyword : (keyword k).Gives ts w u rest ↔ w = [] ∧ ts = .keyword k :: rest := by
  simp [keyword, eq_comm]

@[simp]
theorem gives_char {c : UInt8} : (char c).Gives ts w u rest ↔ w = [] ∧ ts = .char c :: rest := by
  simp [char, eq_comm]

@[simp]
theorem gives_integer : integer.Gives ts w l rest ↔ w = [] ∧ ts = .integer l :: rest :=
  gives_shift_iff fun t _ => by cases t <;> simp

@[simp]
theorem gives_string : string.Gives ts w l rest ↔ w = [] ∧ ts = .string l :: rest :=
  gives_shift_iff fun t _ => by cases t <;> simp

@[simp]
theorem gives_hexbyte : hexbyte.Gives ts w l rest ↔ w = [] ∧ ts = .hexbyte l :: rest :=
  gives_shift_iff fun t _ => by cases t <;> simp

@[simp]
theorem gives_inetaddr : inetaddr.Gives ts w l rest ↔ w = [] ∧ ts = .inetaddr l :: rest :=
  gives_shift_iff fun t _ => by cases t <;> simp

@[simp]
theorem gives_macinfoToken : macinfoToken.Gives ts w l rest ↔ w = [] ∧ ts = .macinfo l :: rest :=
  gives_shift_iff fun t _ => by cases t <;> simp

theorem gives_entry {α : Type} {value : Yacc α} {a : α} :
    (entry k value).Gives ts w a rest ↔
      ∃ v, ts = .keyword k :: .char 61 :: v ∧ value.Gives v w a (.char 32 :: rest) := by
  simp [entry, gives_bind]

/-- An entry whose value is one token. -/
theorem gives_entry_token {value : Yacc Lexeme} {token : Lexeme → Tok}
    (hv : ∀ {ts w l rest}, value.Gives ts w l rest ↔ w = [] ∧ ts = token l :: rest) :
    (entry k value).Gives ts w l rest ↔ w = [] ∧ ts = entryTokens k [token l] ++ rest := by
  simp [gives_entry, hv, entryTokens, and_comm]

@[simp]
theorem gives_entry_interface {o : Option Lexeme} : (entry k interface).Gives ts w o rest ↔
    w = [] ∧ ts = entryTokens k (interfaceTokens o) ++ rest := by
  cases o <;>
    simp [gives_entry, interface, gives_ifNext, interfaceTokens, entryTokens, and_comm,
      isStringToken]

@[simp]
theorem gives_entry_mac {o : Option Lexeme} : (entry .nfMac macHeader).Gives ts w o rest ↔
    w = [] ∧ ts = macTokens (some o) ++ rest := by
  cases o <;>
    simp [gives_entry, macHeader, gives_ifNext, macTokens, entryTokens, and_comm,
      isMacinfoToken]

theorem gives_option {p : Yacc Unit} : (option k p).Gives ts w u rest ↔
    (¬ NotNext k ts ∧ p.Gives ts w u rest) ∨ (NotNext k ts ∧ w = [] ∧ rest = ts) := by
  rw [option, gives_ifNext, any_head_iff, ← Bool.not_eq_false, any_head_iff, gives_pure]
  simp

/-- An entry that may be left out. -/
theorem gives_optEntry {value : Yacc Lexeme} {token : Lexeme → Tok} {act : Lexeme → Action}
    (hv : ∀ {ts w l rest}, value.Gives ts w l rest ↔ w = [] ∧ ts = token l :: rest) :
    (option k (do let l ← entry k value; perform (act l))).Gives ts w u rest ↔
      ∃ o : Option Lexeme, ts = optTokens k token o ++ rest ∧ w = o.elim [] (fun l => [act l]) ∧
        (o = none → NotNext k rest) := by
  simp only [gives_option, gives_bind, gives_entry_token hv, gives_perform]
  constructor
  · rintro (⟨-, _, l, mid, _, ⟨rfl, rfl⟩, ⟨rfl, rfl⟩, rfl⟩ | ⟨h, rfl, rfl⟩)
    · exact ⟨some l, rfl, rfl, fun h => by cases h⟩
    · exact ⟨none, rfl, rfl, fun _ => h⟩
  · rintro ⟨o, rfl, rfl, h⟩
    cases o with
    | none => exact .inr ⟨h rfl, rfl, rfl⟩
    | some l =>
      exact .inl ⟨fun hn => notNext_entryTokens.mp hn rfl, [], l, rest, _, ⟨rfl, rfl⟩, ⟨rfl, rfl⟩,
        rfl⟩

theorem gives_physin : physin.Gives ts w u rest ↔ ∃ o : Option Lexeme,
    ts = optTokens .nfPhysin .string o ++ rest ∧ w = o.elim [] (fun l => [(.fPhysin, vstr l)]) ∧
      (o = none → NotNext .nfPhysin rest) :=
  gives_optEntry gives_string

theorem gives_physout : physout.Gives ts w u rest ↔ ∃ o : Option Lexeme,
    ts = optTokens .nfPhysout .string o ++ rest ∧ w = o.elim [] (fun l => [(.fPhysout, vstr l)]) ∧
      (o = none → NotNext .nfPhysout rest) :=
  gives_optEntry gives_string

theorem gives_fragOffset : fragOffset.Gives ts w u rest ↔ ∃ o : Option Lexeme,
    ts = optTokens .nfFrag .integer o ++ rest ∧ w = o.elim [] (fun l => [(.fFrag, int l.integer)]) ∧
      (o = none → NotNext .nfFrag rest) :=
  gives_optEntry gives_integer

theorem gives_macinfo : macinfo.Gives ts w u rest ↔
    ∃ o : Option (Option Lexeme), ts = macTokens o ++ rest ∧ w = [] ∧
      (o = none → NotNext .nfMac rest) := by
  simp only [macinfo, gives_option, gives_bind, gives_entry_mac, gives_pure]
  constructor
  · rintro (⟨-, _, m, mid, _, ⟨rfl, rfl⟩, ⟨rfl, -, rfl⟩, rfl⟩ | ⟨h, rfl, rfl⟩)
    · exact ⟨some m, rfl, rfl, fun h => by cases h⟩
    · exact ⟨none, rfl, rfl, fun _ => h⟩
  · rintro ⟨o, rfl, rfl, h⟩
    cases o with
    | none => exact .inr ⟨h rfl, rfl, rfl⟩
    | some m =>
      exact .inl ⟨fun hn => notNext_entryTokens.mp hn rfl, [], m, rest, _, ⟨rfl, rfl⟩,
        ⟨rfl, trivial, rfl⟩, rfl⟩

/-- What was read up to `ip_flags`. -/
theorem parts_of_head {h : Head} (hg : head.Gives ts w h rest) :
    ∃ p : HeadPart, ts = p.tokens ++ rest ∧ w = p.writes ∧ p.toHead = h := by
  obtain ⟨inn, _, t₁, hg⟩ := (gives_bind_silent gives_entry_interface).mp hg
  obtain ⟨_, _, _, _, h₁, hg, w₁⟩ := gives_bind.mp hg
  obtain ⟨physin, t₂, w₂, -⟩ := gives_physin.mp h₁
  obtain ⟨out, _, t₃, hg⟩ := (gives_bind_silent gives_entry_interface).mp hg
  obtain ⟨_, _, _, _, h₂, hg, w₃⟩ := gives_bind.mp hg
  obtain ⟨physout, t₄, w₄, -⟩ := gives_physout.mp h₂
  obtain ⟨_, _, _, _, h₃, hg, w₅⟩ := gives_bind.mp hg
  obtain ⟨mac, t₅, w₆, -⟩ := gives_macinfo.mp h₃
  obtain ⟨src, _, t₆, hg⟩ := (gives_bind_silent (gives_entry_token gives_inetaddr)).mp hg
  obtain ⟨dst, _, t₇, hg⟩ := (gives_bind_silent (gives_entry_token gives_inetaddr)).mp hg
  obtain ⟨len, _, t₈, hg⟩ := (gives_bind_silent (gives_entry_token gives_integer)).mp hg
  obtain ⟨tos, _, t₉, hg⟩ := (gives_bind_silent (gives_entry_token gives_hexbyte)).mp hg
  obtain ⟨prec, _, t₁₀, hg⟩ := (gives_bind_silent (gives_entry_token gives_hexbyte)).mp hg
  obtain ⟨ttl, _, t₁₁, hg⟩ := (gives_bind_silent (gives_entry_token gives_integer)).mp hg
  obtain ⟨id, _, t₁₂, hg⟩ := (gives_bind_silent (gives_entry_token gives_integer)).mp hg
  obtain ⟨w₇, hh, t₁₃⟩ := gives_pure.mp hg
  refine ⟨{ inn, out, src, dst, len, tos, prec, ttl, id, physin, physout, mac }, ?_, ?_, hh.symm⟩
  · simp only [t₁, t₂, t₃, t₄, t₅, t₆, t₇, t₈, t₉, t₁₀, t₁₁, t₁₂, t₁₃, HeadPart.tokens,
      HeadPart.inTokens, HeadPart.outTokens, List.append_assoc]
  · simp only [w₁, w₂, w₃, w₄, w₅, w₆, w₇, HeadPart.writes, List.append_nil]

theorem gives_head (p : HeadPart) : head.Gives (p.tokens ++ rest) p.writes p.toHead rest := by
  have hw : p.writes = (p.physin.elim [] fun l => [(.fPhysin, vstr l)]) ++
      ((p.physout.elim [] fun l => [(.fPhysout, vstr l)]) ++ ([] ++ [])) := by
    simp only [HeadPart.writes, List.append_nil]
  simp only [hw, HeadPart.tokens, HeadPart.inTokens, HeadPart.outTokens, List.append_assoc]
  refine (gives_bind_silent gives_entry_interface).mpr ⟨_, _, rfl, ?_⟩
  refine (gives_physin (u := ()).mpr ⟨p.physin, rfl, rfl, fun _ => by simp⟩).bind ?_
  refine (gives_bind_silent gives_entry_interface).mpr ⟨_, _, rfl, ?_⟩
  refine (gives_physout (u := ()).mpr ⟨p.physout, rfl, rfl, fun _ => ?_⟩).bind ?_
  · cases p.mac <;> simp [macTokens]
  refine (gives_macinfo (u := ()).mpr ⟨p.mac, rfl, rfl, fun _ => by simp⟩).bind ?_
  refine (gives_bind_silent (gives_entry_token gives_inetaddr)).mpr ⟨_, _, rfl, ?_⟩
  refine (gives_bind_silent (gives_entry_token gives_inetaddr)).mpr ⟨_, _, rfl, ?_⟩
  refine (gives_bind_silent (gives_entry_token gives_integer)).mpr ⟨_, _, rfl, ?_⟩
  refine (gives_bind_silent (gives_entry_token gives_hexbyte)).mpr ⟨_, _, rfl, ?_⟩
  refine (gives_bind_silent (gives_entry_token gives_hexbyte)).mpr ⟨_, _, rfl, ?_⟩
  refine (gives_bind_silent (gives_entry_token gives_integer)).mpr ⟨_, _, rfl, ?_⟩
  refine (gives_bind_silent (gives_entry_token gives_integer)).mpr ⟨_, _, rfl, ?_⟩
  exact gives_pure.mpr ⟨rfl, rfl, rfl⟩

theorem gives_flag {bit v : BitVec 32} : (flag k bit).Gives ts w v rest ↔
    ∃ b : Bool, ts = flagTokens k b ++ rest ∧ w = [] ∧ v = flagBit b bit ∧
      (b = false → NotNext k rest) := by
  rw [flag, gives_ifNext, any_head_iff, ← Bool.not_eq_false, any_head_iff, gives_pure]
  simp only [gives_bind, gives_keyword, gives_char, gives_pure]
  constructor
  · rintro (⟨-, _, _, _, _, ⟨rfl, rfl⟩, ⟨_, _, _, _, ⟨rfl, rfl⟩, ⟨rfl, rfl, rfl⟩, rfl⟩, rfl⟩ |
      ⟨h, rfl, rfl, rfl⟩)
    · exact ⟨true, rfl, rfl, rfl, fun h => by cases h⟩
    · exact ⟨false, rfl, rfl, rfl, fun _ => h⟩
  · rintro ⟨b, rfl, rfl, rfl, h⟩
    cases b with
    | false => exact .inr ⟨h rfl, rfl, rfl, rfl⟩
    | true =>
      exact .inl ⟨fun hn => notNext_cons.mp hn rfl, [], (), _, [], ⟨rfl, rfl⟩,
        ⟨[], (), _, [], ⟨rfl, rfl⟩, ⟨rfl, rfl, rfl⟩, rfl⟩, rfl⟩

/-- A flag is left out only where the input does not go on with it. -/
def FlagsRead (ce df mf : Bool) (rest : List Tok) : Prop :=
  (ce = false → NotNext .nfCe (flagsTokens [(.nfDf, df), (.nfMf, mf)] ++ rest)) ∧
    (df = false → NotNext .nfDf (flagsTokens [(.nfMf, mf)] ++ rest)) ∧
    (mf = false → NotNext .nfMf rest)

theorem gives_ipFlags : ipFlags.Gives ts w u rest ↔ ∃ ce df mf,
    ts = ipFlagTokens ce df mf ++ rest ∧ w = [ipFlagsWrite ce df mf] ∧ FlagsRead ce df mf rest := by
  constructor
  · intro hg
    obtain ⟨_, _, _, _, h₁, h, hw₁⟩ := gives_bind.mp hg
    obtain ⟨_, _, _, _, h₂, h, hw₂⟩ := gives_bind.mp h
    obtain ⟨_, _, _, _, h₃, h, hw₃⟩ := gives_bind.mp h
    obtain ⟨ce, rfl, rfl, rfl, hce⟩ := gives_flag.mp h₁
    obtain ⟨df, rfl, rfl, rfl, hdf⟩ := gives_flag.mp h₂
    obtain ⟨mf, rfl, rfl, rfl, hmf⟩ := gives_flag.mp h₃
    obtain ⟨rfl, rfl⟩ := gives_perform.mp h
    have hts : flagTokens .nfCe ce ++ (flagTokens .nfDf df ++ (flagTokens .nfMf mf ++ rest)) =
        ipFlagTokens ce df mf ++ rest := by
      simp [ipFlagTokens, flagsTokens]
    refine ⟨ce, df, mf, hts, ?_, ?_⟩
    · simp only [hw₁, hw₂, hw₃, ipFlagsWrite, List.nil_append]
    · exact ⟨by simpa [flagsTokens] using hce, by simpa [flagsTokens] using hdf, hmf⟩
  · rintro ⟨ce, df, mf, rfl, rfl, hce, hdf, hmf⟩
    refine Gives.bind (w := []) (gives_flag.mpr ⟨ce, List.append_assoc _ _ _, rfl, rfl, hce⟩) ?_
    refine Gives.bind (w := []) (gives_flag.mpr ⟨df, List.append_assoc _ _ _, rfl, rfl, hdf⟩) ?_
    refine Gives.bind (w := []) (gives_flag.mpr ⟨mf, List.append_assoc _ _ _, rfl, rfl, hmf⟩) ?_
    exact gives_perform.mpr ⟨rfl, rfl⟩

theorem gives_ipOptions : ipOptions.Gives ts w u rest ↔
    ∃ o : Option Lexeme, ts = optionsTokens o ++ rest ∧ w = [] ∧ (o = none → NotNext .nfOpt rest) := by
  simp only [ipOptions, gives_option, gives_bind_token gives_keyword, gives_bind_token gives_char,
    gives_bind_token gives_string, gives_char]
  constructor
  · rintro (⟨-, _, _, rfl, _, _, rfl, _, _, rfl, l, _, rfl, _, _, rfl, rfl, rfl⟩ | ⟨h, rfl, rfl⟩)
    · exact ⟨some l, rfl, rfl, fun h => by cases h⟩
    · exact ⟨none, rfl, rfl, fun _ => h⟩
  · rintro ⟨o, rfl, rfl, h⟩
    cases o with
    | none => exact .inr ⟨h rfl, rfl, rfl⟩
    | some l =>
      exact .inl ⟨fun hn => notNext_cons.mp hn rfl, (), _, rfl, (), _, rfl, (), _, rfl, l, _, rfl, (),
        _, rfl, rfl, rfl⟩

/-- `nfline` up to `proto_specifics`. -/
def ipPart : Yacc Head := do
  let h ← head
  ipFlags
  fragOffset
  ipOptions
  return h

theorem production_eq (inetAddr : CStr → BitVec 32) (inner : Yacc Unit) :
    production inetAddr inner =
      ipPart >>= fun h => protoSpecifics inner >>= fun _ => reduce inetAddr h := by
  simp only [production, ipPart, bind_assoc, pure_bind]

theorem parts_of_ipPart {h : Head} (hg : ipPart.Gives ts w h rest) :
    ∃ ip : IpPart, ts = ip.tokens ++ rest ∧ w = ip.writes ∧ ip.toHead = h := by
  obtain ⟨_, _, _, _, h₁, hr, hw₁⟩ := gives_bind.mp hg
  obtain ⟨_, _, _, _, h₂, hr, hw₂⟩ := gives_bind.mp hr
  obtain ⟨_, _, _, _, h₃, hr, hw₃⟩ := gives_bind.mp hr
  obtain ⟨_, _, _, _, h₄, hp, hw₄⟩ := gives_bind.mp hr
  obtain ⟨p, rfl, rfl, rfl⟩ := parts_of_head h₁
  obtain ⟨ce, df, mf, rfl, rfl, -⟩ := gives_ipFlags.mp h₂
  obtain ⟨frag, rfl, rfl, -⟩ := gives_fragOffset.mp h₃
  obtain ⟨options, rfl, rfl, -⟩ := gives_ipOptions.mp h₄
  obtain ⟨rfl, rfl, rfl⟩ := gives_pure.mp hp
  refine ⟨{ toHeadPart := p, ce, df, mf, frag, options }, ?_, ?_, rfl⟩
  · simp only [IpPart.tokens, List.append_assoc]
  · simp only [hw₁, hw₂, hw₃, hw₄, IpPart.writes, List.nil_append, List.append_nil, List.cons_append]

theorem gives_ipPart (ip : IpPart) {ts : List Tok} :
    ipPart.Gives (ip.tokens ++ .keyword .nfProto :: ts) ip.writes ip.toHead
      (.keyword .nfProto :: ts) := by
  have hw : ip.writes = ip.toHeadPart.writes ++ ([ipFlagsWrite ip.ce ip.df ip.mf] ++
      ((ip.frag.elim [] fun l => [(.fFrag, int l.integer)]) ++ ([] ++ []))) := by
    simp only [IpPart.writes, List.append_nil, List.cons_append, List.nil_append]
  have hopt : ∀ {k}, .nfOpt ≠ k → .nfProto ≠ k →
      NotNext k (optionsTokens ip.options ++ .keyword .nfProto :: ts) := by
    intro k ho hp
    cases ip.options <;> simp [optionsTokens, ho, hp]
  simp only [hw, IpPart.tokens, List.append_assoc]
  refine (gives_head _).bind ?_
  have hrest : ∀ {k}, .nfFrag ≠ k → .nfOpt ≠ k → .nfProto ≠ k → NotNext k
      (optTokens .nfFrag .integer ip.frag ++ (optionsTokens ip.options ++ .keyword .nfProto :: ts)) :=
    fun hf ho hp => .optTokens hf (hopt ho hp)
  refine Gives.bind (a := ()) (gives_ipFlags.mpr ⟨_, _, _, rfl, rfl, fun _ => ?_, fun _ => ?_,
    fun _ => ?_⟩) ?_
  · exact .flagsTokens (by simp) (hrest (by decide) (by decide) (by decide))
  · exact .flagsTokens (by simp) (hrest (by decide) (by decide) (by decide))
  · exact hrest (by decide) (by decide) (by decide)
  refine Gives.bind (a := ()) (gives_fragOffset.mpr ⟨_, rfl, rfl, fun _ => ?_⟩) ?_
  · exact hopt (by decide) (by decide)
  refine Gives.bind (a := ()) (gives_ipOptions.mpr ⟨_, rfl, rfl, fun _ => ?_⟩) ?_
  · simp
  exact gives_pure.mpr ⟨rfl, rfl, rfl⟩

/-! ## Lines are read -/

theorem gives_sequenceNumbers (o : Option (Lexeme × Lexeme)) (h : NotNext .nfSeq rest) :
    sequenceNumbers.Gives (numbersTokens o ++ rest)
      (o.elim [] fun (seq, ack) => [(.fSeq, uint seq.integer), (.fAck, uint ack.integer)]) u rest := by
  cases o with
  | none => exact gives_option.mpr (.inr ⟨h, rfl, rfl⟩)
  | some x =>
    refine gives_option.mpr (.inl ⟨fun hn => hn rfl, ?_⟩)
    simp only [numbersTokens, Option.elim_some, List.append_assoc]
    refine Gives.bind (w := []) ((gives_entry_token gives_integer).mpr ⟨rfl, rfl⟩) ?_
    refine Gives.bind (w := []) ((gives_entry_token gives_integer).mpr ⟨rfl, rfl⟩) ?_
    exact Gives.bind (w := [_]) (a := ()) (gives_perform.mpr ⟨rfl, rfl⟩)
      (gives_perform.mpr ⟨rfl, rfl⟩)

theorem gives_flag_cons {bit : BitVec 32} {b : Bool} {flags : List (Keyword × Bool)}
    (h : NotNext k (flagsTokens flags ++ rest)) :
    (flag k bit).Gives (flagsTokens ((k, b) :: flags) ++ rest) [] (flagBit b bit)
      (flagsTokens flags ++ rest) :=
  gives_flag.mpr ⟨b, List.append_assoc _ _ _, rfl, rfl, fun _ => h⟩

theorem gives_tcpFlags (h : TcpHeader) (hrest : ∀ k ∈ [Keyword.nfCwr, .nfEce, .nfUrg, .nfAck, .nfPsh,
    .nfRst, .nfSyn, .nfFin], NotNext k rest) :
    tcpFlags.Gives (h.flagTokens ++ rest) [(.fTcpflags, int h.flags)] u rest := by
  refine (gives_flag_cons (.flagsTokens (by simp) (hrest _ (by decide)))).bind ?_
  refine (gives_flag_cons (.flagsTokens (by simp) (hrest _ (by decide)))).bind ?_
  refine (gives_flag_cons (.flagsTokens (by simp) (hrest _ (by decide)))).bind ?_
  refine (gives_flag_cons (.flagsTokens (by simp) (hrest _ (by decide)))).bind ?_
  refine (gives_flag_cons (.flagsTokens (by simp) (hrest _ (by decide)))).bind ?_
  refine (gives_flag_cons (.flagsTokens (by simp) (hrest _ (by decide)))).bind ?_
  refine (gives_flag_cons (.flagsTokens (by simp) (hrest _ (by decide)))).bind ?_
  refine (gives_flag_cons (.flagsTokens (by simp) (hrest _ (by decide)))).bind ?_
  exact gives_perform.mpr ⟨rfl, rfl⟩

theorem gives_tcpHeader (h : TcpHeader) : tcpHeader.Gives (h.tokens ++ rest) h.writes u rest := by
  simp only [TcpHeader.tokens, List.append_assoc]
  refine Gives.bind (w := []) ((gives_entry_token gives_integer).mpr ⟨rfl, rfl⟩) ?_
  refine Gives.bind (w := []) ((gives_entry_token gives_integer).mpr ⟨rfl, rfl⟩) ?_
  refine (gives_sequenceNumbers (u := ()) h.numbers (by simp)).bind ?_
  refine Gives.bind (w := []) ((gives_entry_token gives_integer).mpr ⟨rfl, rfl⟩) ?_
  refine Gives.bind (w := []) ((gives_entry_token gives_hexbyte).mpr ⟨rfl, rfl⟩) ?_
  refine (gives_tcpFlags (u := ()) h fun k hk => ?_).bind ?_
  · refine notNext_entryTokens.mpr ?_
    rintro rfl
    exact absurd hk (by decide)
  refine Gives.bind (w := []) ((gives_entry_token gives_integer).mpr ⟨rfl, rfl⟩) ?_
  rfl

theorem gives_udpHeader (h : UdpHeader) : udpHeader.Gives (h.tokens ++ rest) h.writes u rest := by
  simp only [UdpHeader.tokens, List.append_assoc]
  refine Gives.bind (w := []) ((gives_entry_token gives_integer).mpr ⟨rfl, rfl⟩) ?_
  refine Gives.bind (w := []) ((gives_entry_token gives_integer).mpr ⟨rfl, rfl⟩) ?_
  refine Gives.bind (w := []) ((gives_entry_token gives_integer).mpr ⟨rfl, rfl⟩) ?_
  rfl

variable {inetAddr : CStr → BitVec 32} {inner : Yacc Unit}

theorem gives_ifNext_keyword {α : Type} {p q : Yacc α} {a : α} {ts : List Tok}
    (h : p.Gives (.keyword k :: ts) w a rest) :
    (ifNext (· = .keyword k) p q).Gives (.keyword k :: ts) w a rest :=
  Gives.ifNext_pos (by simp) h

theorem gives_ifNext_other {α : Type} {p q : Yacc α} {a : α} (hn : NotNext k ts)
    (h : q.Gives ts w a rest) : (ifNext (· = .keyword k) p q).Gives ts w a rest :=
  Gives.ifNext_neg (any_head_iff.mpr hn) h

theorem gives_icmpSpecific (s : PlainIcmp) :
    (icmpSpecific inner).Gives (s.tokens ++ rest) s.writes u rest := by
  cases s with
  | echo id seq =>
    have hid : (entry .nfId integer).Gives ((PlainIcmp.echo id seq).tokens ++ rest) [] id
        (entryTokens .nfSeq [.integer seq] ++ rest) :=
      (gives_entry_token gives_integer).mpr ⟨rfl, List.append_assoc _ _ _⟩
    refine gives_ifNext_keyword (hid.bind ?_)
    refine Gives.bind (w := []) ((gives_entry_token gives_integer).mpr ⟨rfl, rfl⟩) ?_
    rfl
  | parameter l =>
    refine gives_ifNext_other (by simp [PlainIcmp.tokens]) (gives_ifNext_keyword ?_)
    exact Gives.bind (w := []) ((gives_entry_token gives_integer).mpr ⟨rfl, rfl⟩) rfl
  | redirect l =>
    refine gives_ifNext_other (by simp [PlainIcmp.tokens])
      (gives_ifNext_other (by simp [PlainIcmp.tokens]) (gives_ifNext_keyword ?_))
    exact Gives.bind (w := []) ((gives_entry_token gives_inetaddr).mpr ⟨rfl, rfl⟩) rfl

theorem gives_icmpHeader (h : IcmpHeader) :
    (icmpHeader inner).Gives (h.tokens ++ rest) h.writes u rest := by
  simp only [IcmpHeader.tokens, List.append_assoc]
  refine Gives.bind (w := []) ((gives_entry_token gives_integer).mpr ⟨rfl, rfl⟩) ?_
  refine Gives.bind (w := []) ((gives_entry_token gives_integer).mpr ⟨rfl, rfl⟩) ?_
  exact (gives_icmpSpecific (u := ()) h.specific).bind rfl

/-- What may follow a line: none of its parts. -/
def Closed (rest : List Tok) : Prop := ∀ k, NotNext k rest

theorem gives_protocol {α : Type} {first : Keyword} {header : Yacc Unit} {tokens : α → List Tok}
    {writes : α → List Action} (hfirst : first ≠ .nfIncomplete)
    (htokens : ∀ a, ∃ l, tokens a ++ rest = .keyword first :: l)
    (hheader : ∀ a, header.Gives (tokens a ++ rest) (writes a) u rest) (hrest : Closed rest)
    (b : Behind α) :
    (protocol k first header).Gives (.keyword k :: .char 32 :: (b.tokens tokens ++ rest))
      (b.writes writes) u rest := by
  refine Gives.bind (w := []) (a := ()) (gives_keyword.mpr ⟨rfl, rfl⟩) ?_
  refine Gives.bind (w := []) (a := ()) (gives_char.mpr ⟨rfl, rfl⟩) ?_
  cases b with
  | nothing =>
    exact gives_ifNext_other (hrest _) (gives_option.mpr (.inr ⟨hrest _, rfl, rfl⟩))
  | incomplete l => exact gives_ifNext_keyword (by simp [incomplete, gives_bind])
  | header a =>
    obtain ⟨l, hl⟩ := htokens a
    have ha := hheader a
    simp only [Behind.tokens, hl] at ha ⊢
    exact gives_ifNext_other (by simpa using hfirst) (gives_ifNext_keyword ha)

/-- The part behind `NF_PROTO '='`. -/
theorem gives_protoSpecifics {proto : Keyword} {p : Yacc Unit} {ts : List Tok}
    (hp : (proto, p) ∈ [(.nfTcp, protoTcp), (.nfUdp, protoUdp), (.nfIcmp, protoIcmp inner)])
    (h : p.Gives (.keyword proto :: ts) w u rest) :
    (protoSpecifics inner).Gives (.keyword .nfProto :: .char 61 :: .keyword proto :: ts) w u rest := by
  refine Gives.bind (w := []) (a := ()) (gives_keyword.mpr ⟨rfl, rfl⟩) ?_
  refine Gives.bind (w := []) (a := ()) (gives_char.mpr ⟨rfl, rfl⟩) ?_
  simp only [List.mem_cons, Prod.mk.injEq, List.not_mem_nil, or_false] at hp
  obtain ⟨rfl, rfl⟩ | ⟨rfl, rfl⟩ | ⟨rfl, rfl⟩ := hp
  · exact gives_ifNext_keyword h
  · exact gives_ifNext_other (by simp) (gives_ifNext_keyword h)
  · exact gives_ifNext_other (by simp) (gives_ifNext_other (by simp) (gives_ifNext_keyword h))

theorem gives_plainProto (hrest : Closed rest) (proto : PlainProto) :
    (protoSpecifics inner).Gives (proto.tokens ++ rest) proto.writes u rest := by
  cases proto with
  | tcp b =>
    refine gives_protoSpecifics (.head _) ?_
    exact gives_protocol (by decide) (fun a => ⟨_, rfl⟩) gives_tcpHeader hrest b
  | udp b =>
    refine gives_protoSpecifics (.tail _ (.head _)) ?_
    exact gives_protocol (by decide) (fun a => ⟨_, rfl⟩) gives_udpHeader hrest b
  | icmp b =>
    refine gives_protoSpecifics (.tail _ (.tail _ (.head _))) ?_
    exact gives_protocol (by decide) (fun a => ⟨_, rfl⟩) gives_icmpHeader hrest b
  | other l =>
    refine Gives.bind (w := []) (a := ()) (gives_keyword.mpr ⟨rfl, rfl⟩) ?_
    refine Gives.bind (w := []) (a := ()) (gives_char.mpr ⟨rfl, rfl⟩) ?_
    refine gives_ifNext_other (by simp) (gives_ifNext_other (by simp)
      (gives_ifNext_other (by simp) ?_))
    simp [protoOther, gives_bind]

theorem gives_mtu (o : Option Lexeme) (hrest : Closed rest) :
    mtu.Gives (optTokens .nfMtu .integer o ++ rest) [] u rest := by
  cases o with
  | none => exact gives_option.mpr (.inr ⟨hrest _, rfl, rfl⟩)
  | some l =>
    refine gives_ifNext_keyword ?_
    exact Gives.bind (w := []) ((gives_entry_token gives_integer).mpr ⟨rfl, rfl⟩) rfl

theorem gives_emitInterface (f : Field) (o : Option Lexeme) :
    (emitInterface f o).Gives ts (interfaceWrites f o) u ts := by
  cases o with
  | none => rfl
  | some l =>
    simp only [emitInterface, interfaceWrites, Option.elim_some]
    split <;> rfl

theorem gives_reduce (h : Head) : (reduce inetAddr h).Gives ts (h.writes inetAddr) u ts := by
  refine (gives_emitInterface (u := ()) _ _).bind ?_
  refine (gives_emitInterface (u := ()) _ _).bind ?_
  rfl

theorem gives_production {ip : IpPart} {ts : List Tok}
    (h : (protoSpecifics inner).Gives (.keyword .nfProto :: ts) w () rest) :
    (production inetAddr inner).Gives (ip.tokens ++ .keyword .nfProto :: ts)
      (ip.writes ++ (w ++ ip.toHead.writes inetAddr)) u rest := by
  rw [production_eq]
  exact (gives_ipPart ip).bind (h.bind (gives_reduce _))

/-- `proto_icmp` from the line that it quotes on. -/
def quoted (inner : Yacc Unit) (type code : Lexeme) : Yacc Unit := do
  inner
  char 93
  mtu
  perform (.fIcmptype, int type.integer)
  perform (.fIcmpcode, int code.integer)

theorem protoSpecifics_quotation {type code : Lexeme} {ts : List Tok} :
    protoSpecifics inner (protoTokens .nfIcmp (entryTokens .nfType [.integer type] ++
      (entryTokens .nfCode [.integer code] ++ .char 91 :: ts))) = quoted inner type code ts := by
  have hother : icmpSpecific inner (.char 91 :: ts) = (do inner; char 93; mtu : Yacc Unit) ts :=
    (ifNext_neg (any_head_iff.mpr (by simp))).trans <|
      (ifNext_neg (any_head_iff.mpr (by simp))).trans <|
      (ifNext_neg (any_head_iff.mpr (by simp))).trans <|
      Gives.bind_eq (a := ()) (gives_char.mpr ⟨rfl, rfl⟩)
  refine (Gives.bind_eq (a := ()) (gives_keyword.mpr ⟨rfl, rfl⟩)).trans ?_
  refine (Gives.bind_eq (a := ()) (gives_char.mpr ⟨rfl, rfl⟩)).trans ?_
  refine (ifNext_neg (any_head_iff.mpr (by simp))).trans ?_
  refine (ifNext_neg (any_head_iff.mpr (by simp))).trans ?_
  refine (ifNext_pos (by simp)).trans ?_
  refine (Gives.bind_eq (a := ()) (gives_keyword.mpr ⟨rfl, rfl⟩)).trans ?_
  refine (Gives.bind_eq (a := ()) (gives_char.mpr ⟨rfl, rfl⟩)).trans ?_
  refine (ifNext_neg (any_head_iff.mpr (by simp))).trans ?_
  refine (ifNext_pos (by rfl)).trans ?_
  refine (Gives.bind_eq ((gives_entry_token gives_integer).mpr ⟨rfl, rfl⟩)).trans ?_
  refine (Gives.bind_eq ((gives_entry_token gives_integer).mpr ⟨rfl, rfl⟩)).trans ?_
  refine (bind_congr hother).trans ?_
  simp only [quoted, bind_assoc]

theorem gives_quoted {type code : Lexeme} {o : Option Lexeme} {ts : List Tok} (hrest : Closed rest)
    (h : inner.Gives ts w () (.char 93 :: (optTokens .nfMtu .integer o ++ rest))) :
    (quoted inner type code).Gives ts
      (w ++ [(.fIcmptype, int type.integer), (.fIcmpcode, int code.integer)]) u rest := by
  refine h.bind (Gives.bind (w := []) (a := ()) (gives_char.mpr ⟨rfl, rfl⟩) ?_)
  exact (gives_mtu (u := ()) o hrest).bind rfl

/-- Lines one in the other. -/
def NfLine.depth : NfLine → Nat
  | .plain _ _ => 0
  | .quoting _ _ _ line _ => line.depth + 1

theorem PlainProto.tokens_append (proto : PlainProto) (rest : List Tok) :
    ∃ ts, proto.tokens ++ rest = .keyword .nfProto :: ts := by
  cases proto <;> exact ⟨_, rfl⟩

/-- A line is read from its tokens, with its actions. -/
theorem gives_nfline (line : NfLine) {n : Nat} (hn : line.depth < n) (hrest : Closed rest) :
    (nfline inetAddr n).Gives (line.tokens ++ rest) (line.writes inetAddr) () rest := by
  induction line generalizing n rest with
  | plain ip proto =>
    obtain ⟨n, rfl⟩ := Nat.exists_eq_succ_of_ne_zero (Nat.ne_zero_of_lt hn)
    obtain ⟨ts, hts⟩ := proto.tokens_append rest
    have hproto : (protoSpecifics (nfline inetAddr n)).Gives (proto.tokens ++ rest) proto.writes ()
        rest :=
      gives_plainProto hrest proto
    rw [hts] at hproto
    rw [NfLine.tokens, List.append_assoc, hts]
    exact gives_production hproto
  | quoting ip type code line mtu ih =>
    obtain ⟨n, rfl⟩ := Nat.exists_eq_succ_of_ne_zero (Nat.ne_zero_of_lt hn)
    have hline : (nfline inetAddr n).Gives
        (line.tokens ++ .char 93 :: (optTokens .nfMtu .integer mtu ++ rest)) (line.writes inetAddr) ()
        (.char 93 :: (optTokens .nfMtu .integer mtu ++ rest)) :=
      ih (Nat.lt_of_succ_lt_succ hn) fun k => by simp
    have hquoted : (quoted (nfline inetAddr n) type code).Gives _ _ () rest := gives_quoted hrest hline
    have hp : (protoSpecifics (nfline inetAddr n)).Gives _ _ () rest :=
      protoSpecifics_quotation.trans hquoted
    have h : (production inetAddr (nfline inetAddr n)).Gives (ip.tokens ++ _) _ () rest :=
      gives_production hp
    simp only [NfLine.tokens, NfLine.writes, quotationTokens, protoTokens, List.append_assoc,
      List.cons_append, List.nil_append] at h ⊢
    exact h

theorem NfLine.depth_lt (line : NfLine) : line.depth < line.tokens.length + 1 := by
  induction line with
  | plain ip proto => exact Nat.succ_pos _
  | quoting ip type code line mtu ih =>
    simp only [NfLine.depth, NfLine.tokens, List.length_append, List.length_cons] at ih ⊢
    omega

/-- The line is accepted, with its actions. -/
theorem netfilterparse_line (line : NfLine) :
    netfilterparse inetAddr line.tokens = (line.writes inetAddr, true) := by
  have hline : (nfline inetAddr (line.tokens.length + 1)).Gives (line.tokens ++ [])
      (line.writes inetAddr) () [] :=
    gives_nfline line line.depth_lt fun _ h => by cases h
  have h := hline.bind (f := fun _ => eof) (gives_eof (u := ()).mpr ⟨rfl, rfl, rfl⟩)
  rw [List.append_nil, List.append_nil] at h
  simp only [netfilterparse, show _ = _ from h, Option.isSome_some]

end Netfilter

end Orchids
