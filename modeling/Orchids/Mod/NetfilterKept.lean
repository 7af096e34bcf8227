import Orchids.Mod.NetfilterLines
import Mathlib.Data.List.Induction

/-!
# Which values are kept (`netfilter.y`, `mod_netfilter.c`)

A value that is stored where another one is loses the address of that one. A quoted line stores its
values in the same table, and the lines with a lost value are those in which it gets to a field of
the line around it.

* `kept_iff_nodup`: each value is in the table when no field is stored twice.
* `Overwrites`: the tokens of a quoted line that stores a field again, whether or not they are
  accepted.
* `nodup_iff`: a field is stored twice on these tokens and on no others.
-/

namespace Orchids

namespace Netfilter

open Predictive

/-! ## The table -/

variable {ws : List Action} {f : Field} {i : Nat}

/-- The fields of some actions. -/
def keys (ws : List Action) : List Field := ws.map Prod.fst

theorem values_foldl (ws : List Action) : (ws.foldl Attrs.store .empty).values = ws.map Prod.snd := by
  induction ws using List.reverseRecOn with
  | nil => rfl
  | append_singleton ws x ih => simp [Attrs.store, ih]

/-- An address in the table is that of the last value that was stored for the field. -/
theorem table_foldl (ws : List Action) (f : Field) (i : Nat) :
    (ws.foldl Attrs.store .empty).table f = some i ↔
      (keys ws)[i]? = some f ∧ f ∉ (keys ws).drop (i + 1) := by
  induction ws using List.reverseRecOn with
  | nil => simp [Attrs.empty, keys]
  | append_singleton ws x ih =>
    have hlen : (ws.foldl Attrs.store .empty).values.length = (keys ws).length := by
      simp [values_foldl, keys]
    have hkeys : keys (ws ++ [x]) = keys ws ++ [x.1] := List.map_append
    simp only [List.foldl_append, List.foldl_cons, List.foldl_nil, Attrs.store, Function.update_apply,
      hlen, hkeys]
    rcases Nat.lt_trichotomy i (keys ws).length with hi | rfl | hi
    · rw [List.getElem?_append_left hi, List.drop_append_of_le_length hi, List.mem_append,
        List.mem_singleton, not_or, ← and_assoc, ← ih]
      split
      · rename_i h
        simp [h, Nat.ne_of_gt hi]
      · rename_i h
        simp [h]
    · rw [List.getElem?_concat_length, List.drop_of_length_le (by simp)]
      split
      · rename_i h
        simp [h]
      · rename_i h
        simp [ih, Ne.symm h]
    · rw [List.getElem?_eq_none (by rw [List.length_append]; exact hi)]
      split
      · simp [Nat.ne_of_lt hi]
      · simp [ih, List.getElem?_eq_none (Nat.le_of_lt hi)]

/-- Each value is in the table when no field is stored twice. -/
theorem kept_iff_nodup (ws : List Action) :
    (∀ i < ws.length, ∃ f, (ws.foldl Attrs.store .empty).table f = some i) ↔ (keys ws).Nodup := by
  simp only [table_foldl]
  have hlen : ws.length = (keys ws).length := (List.length_map _).symm
  rw [hlen]
  generalize keys ws = ks
  induction ks with
  | nil => simp
  | cons k ks ih =>
    rw [List.nodup_cons, ← propext ih]
    constructor
    · intro h
      obtain ⟨f, hf, hnot⟩ := h 0 (Nat.succ_pos _)
      cases hf
      exact ⟨hnot, fun i hi => h (i + 1) (Nat.succ_lt_succ hi)⟩
    · rintro ⟨hk, h⟩ i hi
      cases i with
      | zero => exact ⟨k, rfl, hk⟩
      | succ i => exact h i (Nat.lt_of_succ_lt_succ hi)

/-! ## Quoted lines -/

/-- The tokens begin with those of an ICMP message that quotes a line, and this line gets to a field
of the one around it: to `physin`, to `physout` or to the flags, which each line has. -/
def Overwrites (ts : List Tok) : Prop :=
  ∃ ip type code rest, ts = quotationTokens ip type code ++ rest ∧
    ((ip.physin.isSome ∧ ∃ inn l rest', rest = entryTokens .nfIn (interfaceTokens inn) ++
        (optTokens .nfPhysin .string (some l) ++ rest')) ∨
      (ip.physout.isSome ∧ ∃ inn physin out l rest', rest =
        entryTokens .nfIn (interfaceTokens inn) ++ (optTokens .nfPhysin .string physin ++
          (entryTokens .nfOut (interfaceTokens out) ++
            (optTokens .nfPhysout .string (some l) ++ rest')))) ∨
      ∃ (p : HeadPart) (ce df mf : Bool) (rest' : List Tok),
        rest = p.tokens ++ (ipFlagTokens ce df mf ++ rest') ∧ FlagsRead ce df mf rest')

variable {inetAddr : CStr → BitVec 32} {inner : Yacc Unit} {ts rest : List Tok} {k : Keyword}
  {l l₁ l₂ : List Field}

/-! ### The fields that are stored on any input -/

theorem logs_entry {α : Type} {value : Yacc α} (hv : ∀ {ts}, Logs Prod.fst value ts []) :
    Logs Prod.fst (entry k value) ts l :=
  (logs_shift.bind_nil fun _ _ _ _ => logs_shift.bind_nil fun _ _ _ _ =>
    hv.bind_nil fun _ _ _ _ => logs_shift.bind_nil fun _ _ _ _ => logs_pure).nil

theorem logs_interface : Logs Prod.fst interface ts l :=
  .ifNext (fun _ => logs_shift.bind_nil fun _ _ _ _ => logs_pure) fun _ => logs_pure

theorem logs_option {p : Yacc Unit} (h : Logs Prod.fst p ts l) :
    Logs Prod.fst (option k p) ts l :=
  .ifNext (fun _ => h) fun _ => logs_pure

theorem logs_macinfo : Logs Prod.fst macinfo ts l :=
  logs_option <| (logs_entry (.ifNext (fun _ => logs_shift.bind_nil fun _ _ _ _ => logs_pure) fun _ =>
    logs_pure)).bind_nil fun _ _ _ _ => logs_pure

theorem logs_phys (k : Keyword) (f : Field) : Logs Prod.fst (phys k f) ts [f] :=
  logs_option <| (logs_entry logs_shift).bind_nil fun _ _ _ _ => logs_perform

theorem logs_head (hin : ∀ inn mid, ts = entryTokens .nfIn (interfaceTokens inn) ++ mid →
      Logs Prod.fst physin mid l₁)
    (hout : ∀ inn o out mid, ts = entryTokens .nfIn (interfaceTokens inn) ++
      (optTokens .nfPhysin .string o ++ (entryTokens .nfOut (interfaceTokens out) ++ mid)) →
      Logs Prod.fst physout mid l₂) :
    Logs Prod.fst head ts (l₁ ++ l₂) := by
  refine (logs_entry logs_interface).bind_nil fun _ inn mid hinn => ?_
  obtain ⟨-, rfl⟩ := gives_entry_interface.mp hinn
  refine (hin inn mid rfl).bind fun _ _ mid hphysin => ?_
  obtain ⟨o, rfl, -⟩ := gives_physin.mp hphysin
  refine (logs_entry logs_interface).bind_nil fun _ out mid hgout => ?_
  obtain ⟨-, rfl⟩ := gives_entry_interface.mp hgout
  rw [← List.append_nil l₂]
  refine (hout inn o out mid rfl).bind fun _ _ _ _ => logs_macinfo.bind_nil fun _ _ _ _ => ?_
  refine (logs_entry logs_shift).bind_nil fun _ _ _ _ =>
    (logs_entry logs_shift).bind_nil fun _ _ _ _ => (logs_entry logs_shift).bind_nil fun _ _ _ _ =>
    (logs_entry logs_shift).bind_nil fun _ _ _ _ => (logs_entry logs_shift).bind_nil fun _ _ _ _ =>
    (logs_entry logs_shift).bind_nil fun _ _ _ _ => (logs_entry logs_shift).bind_nil fun _ _ _ _ =>
    logs_pure

theorem logs_flag {bit : BitVec 32} : Logs Prod.fst (flag k bit) ts l :=
  .ifNext (fun _ => logs_shift.bind_nil fun _ _ _ _ => logs_shift.bind_nil fun _ _ _ _ => logs_pure)
    fun _ => logs_pure

theorem logs_ipFlags : Logs Prod.fst ipFlags ts [.fIpflags] :=
  logs_flag.bind_nil fun _ _ _ _ => logs_flag.bind_nil fun _ _ _ _ =>
    logs_flag.bind_nil fun _ _ _ _ => logs_perform

theorem logs_ipOptions : Logs Prod.fst ipOptions ts l :=
  logs_option <| logs_shift.bind_nil fun _ _ _ _ => logs_shift.bind_nil fun _ _ _ _ =>
    logs_shift.bind_nil fun _ _ _ _ => logs_shift.bind_nil fun _ _ _ _ =>
    logs_shift.bind_nil fun _ _ _ _ => logs_shift

theorem logs_ipPart : Logs Prod.fst ipPart ts [.fPhysin, .fPhysout, .fIpflags, .fFrag] := by
  refine Logs.bind (l := [Field.fPhysin, .fPhysout]) ?_ fun _ _ _ _ => ?_
  · exact logs_head (fun _ _ _ => logs_phys _ _) fun _ _ _ _ _ => logs_phys _ _
  refine logs_ipFlags.bind fun _ _ _ _ => ?_
  refine Logs.bind (l := [Field.fFrag]) ?_ fun _ _ _ _ => ?_
  · exact logs_option <| (logs_entry logs_shift).bind_nil fun _ _ _ _ => logs_perform
  · exact logs_ipOptions.bind_nil fun _ _ _ _ => logs_pure

theorem logs_incomplete : Logs Prod.fst incomplete ts l :=
  logs_shift.bind_nil fun _ _ _ _ => logs_shift.bind_nil fun _ _ _ _ =>
    logs_shift.bind_nil fun _ _ _ _ => logs_shift.bind_nil fun _ _ _ _ =>
    logs_shift.bind_nil fun _ _ _ _ => logs_shift.bind_nil fun _ _ _ _ => logs_shift

theorem logs_tcpHeader : Logs Prod.fst tcpHeader ts
    [.fSeq, .fAck, .fTcpflags, .fProto, .fSpt, .fDpt, .fWindow, .fRes, .fUrgp] := by
  refine (logs_entry logs_shift).bind_nil fun _ _ _ _ => (logs_entry logs_shift).bind_nil
    fun _ _ _ _ => ?_
  refine Logs.bind (l := [Field.fSeq, .fAck]) ?_ fun _ _ _ _ => ?_
  · exact logs_option <| (logs_entry logs_shift).bind_nil fun _ _ _ _ =>
      (logs_entry logs_shift).bind_nil fun _ _ _ _ =>
      logs_perform.bind fun _ _ _ _ => logs_perform
  refine (logs_entry logs_shift).bind_nil fun _ _ _ _ => (logs_entry logs_shift).bind_nil
    fun _ _ _ _ => ?_
  refine Logs.bind (l := [Field.fTcpflags]) ?_ fun _ _ _ _ => ?_
  · exact logs_flag.bind_nil fun _ _ _ _ => logs_flag.bind_nil fun _ _ _ _ =>
      logs_flag.bind_nil fun _ _ _ _ => logs_flag.bind_nil fun _ _ _ _ =>
      logs_flag.bind_nil fun _ _ _ _ => logs_flag.bind_nil fun _ _ _ _ =>
      logs_flag.bind_nil fun _ _ _ _ => logs_flag.bind_nil fun _ _ _ _ => logs_perform
  exact (logs_entry logs_shift).bind_nil fun _ _ _ _ => logs_perform.bind fun _ _ _ _ =>
    logs_perform.bind fun _ _ _ _ => logs_perform.bind fun _ _ _ _ => logs_perform.bind
    fun _ _ _ _ => logs_perform.bind fun _ _ _ _ => logs_perform

theorem logs_udpHeader : Logs Prod.fst udpHeader ts [.fSpt, .fDpt, .fUdplen] :=
  (logs_entry logs_shift).bind_nil fun _ _ _ _ => (logs_entry logs_shift).bind_nil fun _ _ _ _ =>
    (logs_entry logs_shift).bind_nil fun _ _ _ _ => logs_perform.bind fun _ _ _ _ =>
    logs_perform.bind fun _ _ _ _ => logs_perform

theorem logs_icmpSpecific (h : ∀ rest, ts = .char 91 :: rest → Logs Prod.fst inner rest l) :
    Logs Prod.fst (icmpSpecific inner) ts (l ++ [.fIcmpid, .fIcmpseq]) := by
  refine .ifNext (fun _ => ?_) fun _ => .ifNext (fun _ => ?_) fun _ => .ifNext (fun _ => ?_) fun _ => ?_
  · refine Logs.mono ?_ (List.sublist_append_right l _)
    exact (logs_entry logs_shift).bind_nil fun _ _ _ _ => (logs_entry logs_shift).bind_nil
      fun _ _ _ _ => logs_perform.bind fun _ _ _ _ => logs_perform
  · exact (logs_entry logs_shift).bind_nil fun _ _ _ _ => logs_pure
  · exact (logs_entry logs_shift).bind_nil fun _ _ _ _ => logs_pure
  · refine logs_shift.bind_nil fun _ _ rest hc => ?_
    refine (h rest (gives_char.mp hc).2).bind fun _ _ _ _ => logs_shift.bind_nil fun _ _ _ _ => ?_
    exact logs_option <| (logs_entry logs_shift).bind_nil fun _ _ _ _ => logs_pure

theorem logs_icmpHeader (h : ∀ type code rest, ts = entryTokens .nfType [.integer type] ++
      (entryTokens .nfCode [.integer code] ++ .char 91 :: rest) → Logs Prod.fst inner rest l) :
    Logs Prod.fst (icmpHeader inner) ts
      (l ++ [.fIcmpid, .fIcmpseq] ++ [.fIcmptype, .fIcmpcode]) := by
  refine (logs_entry logs_shift).bind_nil fun _ type _ htype =>
    (logs_entry logs_shift).bind_nil fun _ code _ hcode => ?_
  obtain ⟨-, rfl⟩ := (gives_entry_token gives_integer).mp htype
  obtain ⟨-, rfl⟩ := (gives_entry_token gives_integer).mp hcode
  refine (logs_icmpSpecific fun rest hrest => h type code rest (by rw [hrest])).bind
    fun _ _ _ _ => ?_
  exact logs_perform.bind fun _ _ _ _ => logs_perform

theorem logs_protocol {first : Keyword} {header : Yacc Unit}
    (h : ∀ rest, ts = .keyword k :: .char 32 :: rest → Logs Prod.fst header rest l) :
    Logs Prod.fst (protocol k first header) ts l := by
  refine logs_shift.bind_nil fun _ _ _ hk => logs_shift.bind_nil fun _ _ rest hc => ?_
  obtain ⟨-, rfl⟩ := gives_keyword.mp hk
  obtain ⟨-, rfl⟩ := gives_char.mp hc
  exact .ifNext (fun _ => logs_incomplete) fun _ => logs_option (h rest rfl)

/-- The fields of the headers of the protocols. -/
def protoFields : List Field :=
  [.fSeq, .fAck, .fTcpflags, .fProto, .fSpt, .fDpt, .fWindow, .fRes, .fUrgp, .fUdplen, .fIcmpid,
    .fIcmpseq, .fIcmptype, .fIcmpcode]

theorem logs_protoSpecifics (h : ∀ type code rest, ts = protoTokens .nfIcmp
      (entryTokens .nfType [.integer type] ++ (entryTokens .nfCode [.integer code] ++
        .char 91 :: rest)) → Logs Prod.fst inner rest l) :
    Logs Prod.fst (protoSpecifics inner) ts (l ++ protoFields) := by
  refine logs_shift.bind_nil fun _ _ _ hk => logs_shift.bind_nil fun _ _ _ hc => ?_
  obtain ⟨-, rfl⟩ := gives_keyword.mp hk
  obtain ⟨-, rfl⟩ := gives_char.mp hc
  refine .ifNext (fun _ => ?_) fun _ => .ifNext (fun _ => ?_) fun _ => .ifNext (fun _ => ?_) fun _ => ?_
  · refine Logs.mono ?_ (List.sublist_append_right l _)
    exact (logs_protocol fun _ _ => logs_tcpHeader).mono (by decide)
  · refine Logs.mono ?_ (List.sublist_append_right l _)
    exact (logs_protocol fun _ _ => logs_udpHeader).mono (by decide)
  · refine Logs.mono (logs_protocol fun rest hrest => logs_icmpHeader fun type code rest' ht =>
      h type code rest' ?_) ?_
    · rw [hrest, ht]
      rfl
    · rw [List.append_assoc]
      exact (List.Sublist.refl l).append (by decide)
  · exact logs_shift.bind_nil fun _ _ _ _ => logs_shift

/-- The fields of the action of `nfline`. -/
def lineFields : List Field :=
  [.fIn, .fOut, .fSrc, .fDst, .fIplen, .fTos, .fPrec, .fTtl, .fIpid]

theorem logs_emitInterface (f : Field) (o : Option Lexeme) :
    Logs Prod.fst (emitInterface f o) ts [f] := by
  cases o with
  | none => exact logs_pure
  | some l =>
    simp only [emitInterface]
    split
    · exact logs_perform
    · exact logs_pure

theorem logs_reduce (h : Head) : Logs Prod.fst (reduce inetAddr h) ts lineFields :=
  (logs_emitInterface _ _).bind fun _ _ _ _ => (logs_emitInterface _ _).bind fun _ _ _ _ =>
    logs_perform.bind fun _ _ _ _ => logs_perform.bind fun _ _ _ _ => logs_perform.bind
    fun _ _ _ _ => logs_perform.bind fun _ _ _ _ => logs_perform.bind fun _ _ _ _ =>
    logs_perform.bind fun _ _ _ _ => logs_perform

/-! ### A quoted line -/

theorem logs_phys_nil {f : Field} (h : ∀ l rest, ts ≠ optTokens k .string (some l) ++ rest) :
    Logs Prod.fst (phys k f) ts [] :=
  logs_option <| (logs_entry logs_shift).bind_nil fun _ l mid hg =>
    absurd ((gives_entry_token gives_string).mp hg).2 (h l mid)

theorem logs_ipFlags_nil
    (h : ∀ ce df mf rest, ts = ipFlagTokens ce df mf ++ rest → ¬ FlagsRead ce df mf rest) :
    Logs Prod.fst ipFlags ts [] := by
  refine logs_flag.bind_nil fun _ _ _ hce => logs_flag.bind_nil fun _ _ _ hdf =>
    logs_flag.bind_nil fun _ _ rest hmf => ?_
  obtain ⟨ce, df, mf, hts, -, hr⟩ := gives_ipFlags (u := ()).mp
    (hce.bind (hdf.bind (hmf.bind (gives_perform.mpr ⟨rfl, rfl⟩))))
  exact absurd hr (h ce df mf rest hts)

/-- The fields up to the flags that a line does not have. -/
def missing (p : HeadPart) : List Field :=
  (if p.physin.isSome then [] else [.fPhysin]) ++ if p.physout.isSome then [] else [.fPhysout]

/-- The quoted line stores no field of the line around it. -/
theorem logs_quoted {ip : IpPart} {type code : Lexeme} (hts : ts = quotationTokens ip type code ++ rest)
    (hno : ¬ Overwrites ts) :
    Logs Prod.fst (production inetAddr inner) rest (missing ip.toHeadPart) := by
  have hno' : ¬ _ := fun h => hno ⟨ip, type, code, rest, hts, h⟩
  simp only [not_or, not_and, not_exists] at hno'
  obtain ⟨hin, hout, hflags⟩ := hno'
  rw [← List.append_nil (missing _)]
  refine (logs_head (fun inn mid hmid => ?_) fun inn o out mid hmid => ?_).bind fun _ _ mid hg => ?_
  · split
    · rename_i h
      exact logs_phys_nil fun l rest' h' => hin h inn l rest' (by rw [hmid, h'])
    · exact logs_phys _ _
  · split
    · rename_i h
      exact logs_phys_nil fun l rest' h' => hout h inn o out l rest' (by rw [hmid, h'])
    · exact logs_phys _ _
  · obtain ⟨p, rfl, -⟩ := parts_of_head hg
    refine Logs.bind_nil (logs_ipFlags_nil fun ce df mf rest' h => ?_) fun _ _ rest' hgf => ?_
    · exact hflags p ce df mf rest' (by rw [h])
    · obtain ⟨ce, df, mf, h, -, hr⟩ := gives_ipFlags.mp hgf
      exact absurd hr (hflags p ce df mf rest' (by rw [h]))

/-- All fields that a line stores, and those that a line which it quotes may store. -/
def fieldsOf (ip : IpPart) : List Field :=
  keys ip.writes ++ (missing ip.toHeadPart ++ protoFields ++ lineFields)

theorem fieldsOf_nodup (ip : IpPart) : (fieldsOf ip).Nodup ∧ fieldsOf ip ⊆ netfilterFields := by
  cases hin : ip.physin <;> cases hout : ip.physout <;> cases hfrag : ip.frag <;>
    simp only [fieldsOf, keys, IpPart.writes, HeadPart.writes, missing, hin, hout, hfrag, ipFlagsWrite,
      Option.elim_none, Option.elim_some, Option.isSome_none, Option.isSome_some, List.map_append,
      List.map_cons, List.map_nil] <;>
    decide

theorem nodup_quotation {ip : IpPart} {type code : Lexeme}
    (h : (keys (production inetAddr inner (quotationTokens ip type code ++ rest)).1).Nodup) :
    (keys ip.writes ++ keys (inner rest).1).Nodup := by
  simp only [quotationTokens, protoTokens, List.append_assoc, List.cons_append, List.nil_append] at h
  rw [production_eq, (gives_ipPart ip).actions_bind, actions_bind] at h
  have hp := @protoSpecifics_quotation inner type code rest
  simp only [protoTokens] at hp
  rw [hp, quoted, actions_bind, List.append_assoc] at h
  rw [keys, keys, ← List.map_append]
  exact h.sublist (((List.Sublist.refl _).append (List.sublist_append_left _ _)).map _)

theorem mem_keys_writes {ip : IpPart} (h : f ∈ keys ip.toHeadPart.writes ∨ f = .fIpflags) :
    f ∈ keys ip.writes := by
  rw [keys, IpPart.writes, List.map_append, List.mem_append, List.map_cons, List.mem_cons]
  exact h.imp id .inl

/-- Without such a quoted line the fields are stored once, and the module has them all. -/
theorem logs_of_not_overwrites (hno : ¬ Overwrites ts) : ∃ l : List Field,
    (l.Nodup ∧ l ⊆ netfilterFields) ∧
      Logs Prod.fst (production inetAddr (production inetAddr inner)) ts l := by
  cases hr : (ipPart ts).2 with
  | none =>
    refine ⟨[.fPhysin, .fPhysout, .fIpflags, .fFrag], by decide, ?_⟩
    have hw : Logs Prod.fst ipPart ts [.fPhysin, .fPhysout, .fIpflags, .fFrag] := logs_ipPart
    rw [Logs, production_eq, actions_bind, hr, Option.elim_none, List.append_nil]
    exact hw
  | some r =>
    have hg : ipPart.Gives ts (ipPart ts).1 r.1 r.2 := Prod.ext rfl hr
    obtain ⟨ip, hts, hw, -⟩ := parts_of_ipPart hg
    refine ⟨fieldsOf ip, fieldsOf_nodup ip, ?_⟩
    rw [Logs, production_eq, hg.actions_bind, hw, List.map_append]
    refine (List.Sublist.refl _).append ?_
    refine Logs.bind (logs_protoSpecifics fun type code rest h => ?_) fun _ _ _ _ => logs_reduce _
    have hquotation : ts = quotationTokens ip type code ++ rest := by
      rw [hts, h]
      simp only [quotationTokens, protoTokens, List.append_assoc, List.cons_append, List.nil_append]
    exact logs_quoted hquotation hno

/-- A quoted line that gets to a field of the line around it stores it again. -/
theorem not_nodup_of_overwrites (h : Overwrites ts) :
    ¬ (keys (production inetAddr (production inetAddr inner) ts).1).Nodup := by
  obtain ⟨ip, type, code, rest, rfl, h⟩ := h
  intro hnodup
  have hdisjoint := List.disjoint_of_nodup_append (nodup_quotation hnodup)
  have hmem : ∀ x : Action, x ∈ (production inetAddr inner rest).1 → x.1 ∉ keys ip.writes :=
    fun x hx hf => hdisjoint hf (List.mem_map_of_mem hx)
  obtain ⟨hin, inn, l, rest', rfl⟩ | ⟨hout, inn, o, out, l, rest', rfl⟩ |
    ⟨p, ce, df, mf, rest', rfl, hr⟩ := h
  · have hphysin : physin.Gives (optTokens .nfPhysin .string (some l) ++ rest') [(.fPhysin, vstr l)]
        () rest' :=
      gives_physin.mpr ⟨some l, rfl, rfl, fun h => by cases h⟩
    refine hmem _ (mem_bind_left ((gives_entry_interface.mpr ⟨rfl, rfl⟩).mem_bind
      (mem_bind_left (hphysin.mem (List.mem_singleton_self _))))) (mem_keys_writes (.inl ?_))
    obtain ⟨l', hl'⟩ := Option.isSome_iff_exists.mp hin
    simp [keys, HeadPart.writes, hl']
  · have hphysin : physin.Gives (optTokens .nfPhysin .string o ++ (entryTokens .nfOut
        (interfaceTokens out) ++ (optTokens .nfPhysout .string (some l) ++ rest'))) _ () _ :=
      gives_physin.mpr ⟨o, rfl, rfl, fun _ => by simp⟩
    have hphysout : physout.Gives (optTokens .nfPhysout .string (some l) ++ rest')
        [(.fPhysout, vstr l)] () rest' :=
      gives_physout.mpr ⟨some l, rfl, rfl, fun h => by cases h⟩
    refine hmem _ (mem_bind_left ((gives_entry_interface.mpr ⟨rfl, rfl⟩).mem_bind
      (hphysin.mem_bind ((gives_entry_interface.mpr ⟨rfl, rfl⟩).mem_bind
      (mem_bind_left (hphysout.mem (List.mem_singleton_self _))))))) (mem_keys_writes (.inl ?_))
    obtain ⟨l', hl'⟩ := Option.isSome_iff_exists.mp hout
    simp [keys, HeadPart.writes, hl']
  · have hflags := gives_ipFlags (u := ()).mpr ⟨ce, df, mf, rfl, rfl, hr⟩
    exact hmem _ ((gives_head p).mem_bind (mem_bind_left (hflags.mem (List.mem_singleton_self _))))
      (mem_keys_writes (.inr rfl))

/-! ### The dissector -/

theorem not_overwrites_nil : ¬ Overwrites [] := by
  rintro ⟨ip, type, code, rest, h, -⟩
  cases h

/-- The parser is that of a line which quotes a line, and has the fuel for it. -/
theorem netfilterparse_eq (inetAddr : CStr → BitVec 32) (ts : List Tok) (hts : ts ≠ []) : ∃ inner : Yacc Unit,
    (netfilterparse inetAddr ts).1 = (production inetAddr (production inetAddr inner) ts).1 := by
  obtain ⟨n, hn⟩ := Nat.exists_eq_succ_of_ne_zero (List.length_pos_iff.mpr hts).ne'
  refine ⟨nfline inetAddr n, ?_⟩
  rw [netfilterparse, hn]
  exact actions_bind_nil fun _ rest => by cases rest <;> rfl

theorem nil_actions (inetAddr : CStr → BitVec 32) : (netfilterparse inetAddr []).1 = [] := rfl

/-- The values that are added to the event or freed are those that the table has at the end. -/
theorem kept_iff_table (text : CStr) :
    (∀ i < (netfilterDissect inetAddr text).values.length,
      (∃ f, (netfilterDissect inetAddr text).event f = some i) ∨
        i ∈ (netfilterDissect inetAddr text).freed) ↔
    ∀ i < (netfilterparse inetAddr (tokens text)).1.length, ∃ f ∈ netfilterFields,
      ((netfilterparse inetAddr (tokens text)).1.foldl Attrs.store .empty).table f = some i := by
  unfold netfilterDissect
  generalize netfilterparse inetAddr (tokens text) = r
  cases r with
  | mk actions accepted => cases accepted <;> simp [values_foldl]

/-- The table has all values of a parse when no quoted line stores a field of the line around it. -/
theorem table_iff_not_overwrites (ts : List Tok) :
    (∀ i < (netfilterparse inetAddr ts).1.length, ∃ f ∈ netfilterFields,
      ((netfilterparse inetAddr ts).1.foldl Attrs.store .empty).table f = some i) ↔
    ¬ Overwrites ts := by
  by_cases hts : ts = []
  · subst hts
    simp [nil_actions, not_overwrites_nil]
  obtain ⟨inner, hinner⟩ := netfilterparse_eq inetAddr ts hts
  rw [hinner]
  constructor
  · intro h ho
    refine @not_nodup_of_overwrites inetAddr inner _ ho ?_
    rw [← kept_iff_nodup]
    intro i hi
    obtain ⟨f, -, hf⟩ := h i hi
    exact ⟨f, hf⟩
  · intro hno i hi
    obtain ⟨l, ⟨hl, hsub⟩, hlogs⟩ := @logs_of_not_overwrites inetAddr inner _ hno
    obtain ⟨f, hf⟩ := (kept_iff_nodup _).mpr (hl.sublist hlogs) i hi
    exact ⟨f, hsub (hlogs.subset (List.mem_of_getElem? ((table_foldl ..).mp hf).1)), hf⟩

/-- Each value is added to the event or freed when no quoted line stores a field of the line around
it. -/
theorem kept_iff (text : CStr) :
    (∀ i < (netfilterDissect inetAddr text).values.length,
      (∃ f, (netfilterDissect inetAddr text).event f = some i) ∨
        i ∈ (netfilterDissect inetAddr text).freed) ↔ ¬ Overwrites (tokens text) :=
  (kept_iff_table text).trans (table_iff_not_overwrites _)

end Netfilter

end Orchids
