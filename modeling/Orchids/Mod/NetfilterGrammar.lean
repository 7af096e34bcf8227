import Orchids.Mod.NetfilterLines

/-!
# The grammar is what is accepted (`netfilter.y`)

The parser against the grammar: it accepts the token lists that `nfline` derives and no others, with
the values of the derivation's actions in the order of the reductions.

* `line_of_nfline`: what was read is a line.
* `netfilterparse_iff`: the accepted lists are those of the lines.
-/

namespace Orchids

namespace Netfilter

open Predictive

variable {ts rest : List Tok} {w : List Action} {k : Keyword} {u : Unit}
  {inetAddr : CStr → BitVec 32} {inner : Yacc Unit}

/-- A last part that only stores values. -/
theorem rest_of_performs {α : Type} {v : Action} {p : Yacc α} {a : α}
    (hg : (perform v >>= fun _ => p).Gives ts w a rest) : ∃ w, p.Gives ts w a rest := by
  obtain ⟨_, _, _, w₂, h, hr, -⟩ := gives_bind.mp hg
  obtain ⟨-, rfl⟩ := gives_perform.mp h
  exact ⟨w₂, hr⟩

theorem parts_of_sequenceNumbers (hg : sequenceNumbers.Gives ts w u rest) :
    ∃ o, ts = numbersTokens o ++ rest := by
  obtain ⟨-, hg⟩ | ⟨-, -, rfl⟩ := gives_option.mp hg
  · obtain ⟨seq, _, t₁, hg⟩ := (gives_bind_silent (gives_entry_token gives_integer)).mp hg
    obtain ⟨ack, _, t₂, hg⟩ := (gives_bind_silent (gives_entry_token gives_integer)).mp hg
    obtain ⟨_, hg⟩ := rest_of_performs hg
    obtain ⟨-, rfl⟩ := gives_perform.mp hg
    refine ⟨some (seq, ack), ?_⟩
    simp only [t₁, t₂, numbersTokens, Option.elim_some, List.append_assoc]
  · exact ⟨none, rfl⟩

/-- A flag, and what is behind it. -/
theorem rest_of_flag {bit : BitVec 32} {f : BitVec 32 → Yacc Unit}
    (hg : (flag k bit >>= f).Gives ts w u rest) :
    ∃ b mid v w, ts = flagTokens k b ++ mid ∧ (f v).Gives mid w u rest := by
  obtain ⟨_, v, mid, w₂, h, hr, -⟩ := gives_bind.mp hg
  obtain ⟨b, hts, -⟩ := gives_flag.mp h
  exact ⟨b, mid, v, w₂, hts, hr⟩

theorem parts_of_tcpFlags (hg : tcpFlags.Gives ts w u rest) :
    ∃ cwr ece urg ack psh rst syn fin, ts = flagsTokens [(.nfCwr, cwr), (.nfEce, ece), (.nfUrg, urg),
      (.nfAck, ack), (.nfPsh, psh), (.nfRst, rst), (.nfSyn, syn), (.nfFin, fin)] ++ rest := by
  obtain ⟨cwr, _, _, _, t₁, hg⟩ := rest_of_flag hg
  obtain ⟨ece, _, _, _, t₂, hg⟩ := rest_of_flag hg
  obtain ⟨urg, _, _, _, t₃, hg⟩ := rest_of_flag hg
  obtain ⟨ack, _, _, _, t₄, hg⟩ := rest_of_flag hg
  obtain ⟨psh, _, _, _, t₅, hg⟩ := rest_of_flag hg
  obtain ⟨rst, _, _, _, t₆, hg⟩ := rest_of_flag hg
  obtain ⟨syn, _, _, _, t₇, hg⟩ := rest_of_flag hg
  obtain ⟨fin, _, _, _, t₈, hg⟩ := rest_of_flag hg
  obtain ⟨-, t₉⟩ := gives_perform.mp hg
  refine ⟨cwr, ece, urg, ack, psh, rst, syn, fin, ?_⟩
  simp only [t₁, t₂, t₃, t₄, t₅, t₆, t₇, t₈, t₉, flagsTokens, List.flatMap_cons, List.flatMap_nil,
    List.append_nil, List.append_assoc]

theorem parts_of_tcpHeader (hg : tcpHeader.Gives ts w u rest) :
    ∃ h : TcpHeader, ts = h.tokens ++ rest := by
  obtain ⟨spt, _, t₁, hg⟩ := (gives_bind_silent (gives_entry_token gives_integer)).mp hg
  obtain ⟨dpt, _, t₂, hg⟩ := (gives_bind_silent (gives_entry_token gives_integer)).mp hg
  obtain ⟨_, _, _, _, h₁, hg, -⟩ := gives_bind.mp hg
  obtain ⟨numbers, t₃⟩ := parts_of_sequenceNumbers h₁
  obtain ⟨window, _, t₄, hg⟩ := (gives_bind_silent (gives_entry_token gives_integer)).mp hg
  obtain ⟨res, _, t₅, hg⟩ := (gives_bind_silent (gives_entry_token gives_hexbyte)).mp hg
  obtain ⟨_, _, _, _, h₂, hg, -⟩ := gives_bind.mp hg
  obtain ⟨cwr, ece, urg, ack, psh, rst, syn, fin, t₆⟩ := parts_of_tcpFlags h₂
  obtain ⟨urgp, _, t₇, hg⟩ := (gives_bind_silent (gives_entry_token gives_integer)).mp hg
  obtain ⟨_, hg⟩ := rest_of_performs hg
  obtain ⟨_, hg⟩ := rest_of_performs hg
  obtain ⟨_, hg⟩ := rest_of_performs hg
  obtain ⟨_, hg⟩ := rest_of_performs hg
  obtain ⟨_, hg⟩ := rest_of_performs hg
  obtain ⟨-, t₈⟩ := gives_perform.mp hg
  refine ⟨{ spt, dpt, numbers, window, res, cwr, ece, urg, ack, psh, rst, syn, fin, urgp }, ?_⟩
  simp only [t₁, t₂, t₃, t₄, t₅, t₆, t₇, t₈, TcpHeader.tokens, TcpHeader.flagTokens,
    List.append_assoc]

theorem parts_of_udpHeader (hg : udpHeader.Gives ts w u rest) :
    ∃ h : UdpHeader, ts = h.tokens ++ rest := by
  obtain ⟨spt, _, t₁, hg⟩ := (gives_bind_silent (gives_entry_token gives_integer)).mp hg
  obtain ⟨dpt, _, t₂, hg⟩ := (gives_bind_silent (gives_entry_token gives_integer)).mp hg
  obtain ⟨len, _, t₃, hg⟩ := (gives_bind_silent (gives_entry_token gives_integer)).mp hg
  obtain ⟨_, hg⟩ := rest_of_performs hg
  obtain ⟨_, hg⟩ := rest_of_performs hg
  obtain ⟨-, t₄⟩ := gives_perform.mp hg
  refine ⟨{ spt, dpt, len }, ?_⟩
  simp only [t₁, t₂, t₃, t₄, UdpHeader.tokens, List.append_assoc]

theorem parts_of_mtu (hg : mtu.Gives ts w u rest) :
    ∃ o, ts = optTokens .nfMtu .integer o ++ rest := by
  obtain ⟨-, hg⟩ | ⟨-, -, rfl⟩ := gives_option.mp hg
  · obtain ⟨l, _, t₁, hg⟩ := (gives_bind_silent (gives_entry_token gives_integer)).mp hg
    obtain ⟨-, -, rfl⟩ := gives_pure.mp hg
    exact ⟨some l, t₁⟩
  · exact ⟨none, rfl⟩

/-- What is behind the code of an ICMP message: its own part, or a line that it quotes. -/
theorem parts_of_icmpSpecific
    (hin : ∀ {ts w rest}, inner.Gives ts w () rest → ∃ line : NfLine, ts = line.tokens ++ rest)
    (hg : (icmpSpecific inner).Gives ts w u rest) :
    (∃ s : PlainIcmp, ts = s.tokens ++ rest) ∨ ∃ (line : NfLine) (o : Option Lexeme),
      ts = .char 91 :: (line.tokens ++ .char 93 :: (optTokens .nfMtu .integer o ++ rest)) := by
  obtain ⟨-, hg⟩ | ⟨-, hg⟩ := gives_ifNext.mp hg
  · obtain ⟨id, _, t₁, hg⟩ := (gives_bind_silent (gives_entry_token gives_integer)).mp hg
    obtain ⟨seq, _, t₂, hg⟩ := (gives_bind_silent (gives_entry_token gives_integer)).mp hg
    obtain ⟨_, hg⟩ := rest_of_performs hg
    obtain ⟨-, rfl⟩ := gives_perform.mp hg
    refine .inl ⟨.echo id seq, ?_⟩
    simp only [t₁, t₂, PlainIcmp.tokens, List.append_assoc]
  obtain ⟨-, hg⟩ | ⟨-, hg⟩ := gives_ifNext.mp hg
  · obtain ⟨l, _, t₁, hg⟩ := (gives_bind_silent (gives_entry_token gives_integer)).mp hg
    obtain ⟨-, -, rfl⟩ := gives_pure.mp hg
    exact .inl ⟨.parameter l, t₁⟩
  obtain ⟨-, hg⟩ | ⟨-, hg⟩ := gives_ifNext.mp hg
  · obtain ⟨l, _, t₁, hg⟩ := (gives_bind_silent (gives_entry_token gives_inetaddr)).mp hg
    obtain ⟨-, -, rfl⟩ := gives_pure.mp hg
    exact .inl ⟨.redirect l, t₁⟩
  · obtain ⟨_, _, t₁, hg⟩ := (gives_bind_token gives_char).mp hg
    obtain ⟨_, _, _, _, h, hg, -⟩ := gives_bind.mp hg
    obtain ⟨line, t₂⟩ := hin h
    obtain ⟨_, _, t₃, hg⟩ := (gives_bind_token gives_char).mp hg
    obtain ⟨o, t₄⟩ := parts_of_mtu hg
    exact .inr ⟨line, o, by rw [t₁, t₂, t₃, t₄]⟩

theorem parts_of_protocol {α : Type} (tokens : α → List Tok) {first : Keyword} {header : Yacc Unit}
    (hg : (protocol k first header).Gives ts w u rest) :
    (∃ b : Behind α, ts = .keyword k :: .char 32 :: (b.tokens tokens ++ rest)) ∨
      ∃ mid w, ts = .keyword k :: .char 32 :: mid ∧ header.Gives mid w () rest := by
  obtain ⟨_, _, t₁, hg⟩ := (gives_bind_token gives_keyword).mp hg
  obtain ⟨_, mid, t₂, hg⟩ := (gives_bind_token gives_char).mp hg
  obtain ⟨-, hi⟩ | ⟨-, ho⟩ := gives_ifNext.mp hg
  · simp only [incomplete, gives_bind_token gives_keyword, gives_bind_token gives_char,
      gives_bind_token gives_integer, gives_char] at hi
    obtain ⟨_, _, rfl, _, _, rfl, _, _, rfl, l, _, rfl, _, _, rfl, _, _, rfl, -, rfl⟩ := hi
    exact .inl ⟨.incomplete l, by rw [t₁, t₂]; rfl⟩
  · obtain ⟨-, hh⟩ | ⟨-, -, rfl⟩ := gives_option.mp ho
    · exact .inr ⟨mid, _, by rw [t₁, t₂], hh⟩
    · exact .inl ⟨.nothing, by rw [t₁, t₂]; rfl⟩

theorem parts_of_icmpHeader
    (hin : ∀ {ts w rest}, inner.Gives ts w () rest → ∃ line : NfLine, ts = line.tokens ++ rest)
    (hg : (icmpHeader inner).Gives ts w u rest) :
    (∃ h : IcmpHeader, ts = h.tokens ++ rest) ∨ ∃ (type code : Lexeme) (line : NfLine)
      (o : Option Lexeme), ts = entryTokens .nfType [.integer type] ++
        (entryTokens .nfCode [.integer code] ++ .char 91 :: (line.tokens ++
          .char 93 :: (optTokens .nfMtu .integer o ++ rest))) := by
  obtain ⟨type, _, t₁, hg⟩ := (gives_bind_silent (gives_entry_token gives_integer)).mp hg
  obtain ⟨code, _, t₂, hg⟩ := (gives_bind_silent (gives_entry_token gives_integer)).mp hg
  obtain ⟨_, _, _, _, h, hg, -⟩ := gives_bind.mp hg
  obtain ⟨_, hg⟩ := rest_of_performs hg
  obtain ⟨-, rfl⟩ := gives_perform.mp hg
  obtain ⟨s, t₃⟩ | ⟨line, o, t₃⟩ := parts_of_icmpSpecific hin h
  · refine .inl ⟨⟨type, code, s⟩, ?_⟩
    simp only [t₁, t₂, t₃, IcmpHeader.tokens, List.append_assoc]
  · exact .inr ⟨type, code, line, o, by rw [t₁, t₂, t₃]⟩

theorem parts_of_protoSpecifics
    (hin : ∀ {ts w rest}, inner.Gives ts w () rest → ∃ line : NfLine, ts = line.tokens ++ rest)
    (hg : (protoSpecifics inner).Gives ts w u rest) :
    (∃ proto : PlainProto, ts = proto.tokens ++ rest) ∨ ∃ (type code : Lexeme) (line : NfLine)
      (o : Option Lexeme), ts = protoTokens .nfIcmp (entryTokens .nfType [.integer type] ++
        (entryTokens .nfCode [.integer code] ++ .char 91 :: (line.tokens ++
          .char 93 :: (optTokens .nfMtu .integer o ++ rest)))) := by
  obtain ⟨_, _, _, _, h₁, hr, -⟩ := gives_bind.mp hg
  obtain ⟨_, _, mid, _, h₂, hp, -⟩ := gives_bind.mp hr
  obtain ⟨-, rfl⟩ := gives_keyword.mp h₁
  obtain ⟨-, rfl⟩ := gives_char.mp h₂
  obtain ⟨-, hp⟩ | ⟨-, hp⟩ := gives_ifNext.mp hp
  · obtain ⟨b, rfl⟩ | ⟨_, _, rfl, hh⟩ := parts_of_protocol TcpHeader.tokens hp
    · exact .inl ⟨.tcp b, rfl⟩
    · obtain ⟨h, rfl⟩ := parts_of_tcpHeader hh
      exact .inl ⟨.tcp (.header h), rfl⟩
  obtain ⟨-, hp⟩ | ⟨-, hp⟩ := gives_ifNext.mp hp
  · obtain ⟨b, rfl⟩ | ⟨_, _, rfl, hh⟩ := parts_of_protocol UdpHeader.tokens hp
    · exact .inl ⟨.udp b, rfl⟩
    · obtain ⟨h, rfl⟩ := parts_of_udpHeader hh
      exact .inl ⟨.udp (.header h), rfl⟩
  obtain ⟨-, hp⟩ | ⟨-, hp⟩ := gives_ifNext.mp hp
  · obtain ⟨b, rfl⟩ | ⟨_, _, rfl, hh⟩ := parts_of_protocol IcmpHeader.tokens hp
    · exact .inl ⟨.icmp b, rfl⟩
    · obtain ⟨h, rfl⟩ | ⟨type, code, line, o, rfl⟩ := parts_of_icmpHeader hin hh
      · exact .inl ⟨.icmp (.header h), rfl⟩
      · exact .inr ⟨type, code, line, o, rfl⟩
  · obtain ⟨_, l, _, _, h₃, hc, -⟩ := gives_bind.mp hp
    obtain ⟨-, rfl⟩ := gives_integer.mp h₃
    obtain ⟨-, rfl⟩ := gives_char.mp hc
    exact .inl ⟨.other l, rfl⟩

theorem rest_of_reduce {h : Head} (hg : (reduce inetAddr h).Gives ts w u rest) : rest = ts := by
  have hr : (reduce inetAddr h).Gives ts (h.writes inetAddr) u ts := gives_reduce h
  exact congrArg Prod.snd (Option.some.inj (Prod.mk.inj (Eq.trans (Eq.symm hg) hr)).2)

/-- What was read is a line. -/
theorem line_of_nfline {n : Nat} (hg : (nfline inetAddr n).Gives ts w () rest) :
    ∃ line : NfLine, ts = line.tokens ++ rest := by
  induction n generalizing ts w rest with
  | zero => cases hg
  | succ n ih =>
    rw [nfline, production_eq] at hg
    obtain ⟨_, h, _, _, h₁, hr, -⟩ := gives_bind.mp hg
    obtain ⟨_, _, mid, _, h₂, hp, -⟩ := gives_bind.mp hr
    obtain ⟨ip, rfl, -, -⟩ := parts_of_ipPart h₁
    obtain rfl := rest_of_reduce hp
    obtain ⟨proto, rfl⟩ | ⟨type, code, line, o, rfl⟩ := parts_of_protoSpecifics ih h₂
    · exact ⟨.plain ip proto, (List.append_assoc _ _ _).symm⟩
    · refine ⟨.quoting ip type code line o, ?_⟩
      simp only [NfLine.tokens, quotationTokens, protoTokens, List.append_assoc, List.cons_append,
        List.nil_append]

/-- The parser accepts the lines of the grammar and nothing else, with the values of their actions. -/
theorem netfilterparse_iff (inetAddr : CStr → BitVec 32) (ts : List Tok) (w : List Action) :
    netfilterparse inetAddr ts = (w, true) ↔
      ∃ line : NfLine, line.tokens = ts ∧ line.writes inetAddr = w := by
  constructor
  · intro h
    have hsome := congrArg Prod.snd h
    obtain ⟨r, hr⟩ := Option.isSome_iff_exists.mp hsome
    obtain ⟨_, _, rest, _, hline, heof, -⟩ := gives_bind.mp
      (show Gives _ ts _ r.1 r.2 from Prod.ext rfl hr)
    obtain ⟨line, rfl⟩ := line_of_nfline hline
    obtain ⟨-, rfl, -⟩ := gives_eof.mp heof
    refine ⟨line, (List.append_nil _).symm, ?_⟩
    rw [List.append_nil, netfilterparse_line] at h
    exact congrArg Prod.fst h
  · rintro ⟨line, rfl, rfl⟩
    exact netfilterparse_line line

end Netfilter

end Orchids
