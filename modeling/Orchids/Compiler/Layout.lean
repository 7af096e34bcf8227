import Mathlib.Order.Nat
import Orchids.Compiler.Codegen
import Orchids.Lib.Except

/-!
# The layout of the generated code

What the code generator and `compile_set_labels` write, without labels: `exprWords e pos` is the
code of `e`, where `pos` has the distances from the end of that code to the two targets of a jump
position. Every jump goes forward, so the distances are natural numbers.

* `Emits b b' ws`: from `b` to `b'` the generator wrote the words `ws`, of which `Sym.ref l` are
  places for the offset of label `l`; `resolve` fills them in.
* `compileSetLabels_eq`: `compile_set_labels` resolves the whole buffer.
* `compileBytecode_laid`: the code of an expression, resolved, is `exprWords`.
-/

namespace Orchids

open Opcode

/-! ## Words and label places -/

/-- A word of the buffer: final, or the place of a jump to a label. -/
inductive Sym where
  | word (w : Nat)
  | ref (label : Nat)

/-- What the buffer holds before the labels are resolved. -/
def Sym.raw : Sym → Nat
  | .word w => w
  | .ref l => l

/-- The positions of the label places of `ws`, the first word of which is at `base`. -/
def refPositions : Nat → List Sym → List Nat
  | _, [] => []
  | base, .word _ :: ws => refPositions (base + 1) ws
  | base, .ref _ :: ws => base :: refPositions (base + 1) ws

/-- The words of `ws` with the label `l` at position `L l`. -/
def resolve (L : Nat → Nat) : Nat → List Sym → List Nat
  | _, [] => []
  | base, .word w :: ws => w :: resolve L (base + 1) ws
  | base, .ref l :: ws => jumpOffset (L l) base :: resolve L (base + 1) ws

@[simp] theorem refPositions_nil (base : Nat) : refPositions base [] = [] := rfl

@[simp] theorem refPositions_word (base w : Nat) (ws : List Sym) :
    refPositions base (.word w :: ws) = refPositions (base + 1) ws := rfl

@[simp] theorem refPositions_ref (base l : Nat) (ws : List Sym) :
    refPositions base (.ref l :: ws) = base :: refPositions (base + 1) ws := rfl

@[simp] theorem resolve_nil (L : Nat → Nat) (base : Nat) : resolve L base [] = [] := rfl

@[simp] theorem resolve_word (L : Nat → Nat) (base w : Nat) (ws : List Sym) :
    resolve L base (.word w :: ws) = w :: resolve L (base + 1) ws := rfl

@[simp] theorem resolve_ref (L : Nat → Nat) (base l : Nat) (ws : List Sym) :
    resolve L base (.ref l :: ws) = jumpOffset (L l) base :: resolve L (base + 1) ws := rfl

@[simp] theorem length_resolve (L : Nat → Nat) (base : Nat) (ws : List Sym) :
    (resolve L base ws).length = ws.length := by
  induction ws generalizing base with
  | nil => rfl
  | cons w ws ih => cases w <;> simp [ih]

theorem resolve_append (L : Nat → Nat) (base : Nat) (ws ws' : List Sym) :
    resolve L base (ws ++ ws') = resolve L base ws ++ resolve L (base + ws.length) ws' := by
  induction ws generalizing base with
  | nil => rfl
  | cons w ws ih => cases w <;> simp [ih, Nat.add_assoc, Nat.add_comm 1]

theorem refPositions_append (base : Nat) (ws ws' : List Sym) :
    refPositions base (ws ++ ws') =
      refPositions base ws ++ refPositions (base + ws.length) ws' := by
  induction ws generalizing base with
  | nil => rfl
  | cons w ws ih => cases w <;> simp [ih, Nat.add_assoc, Nat.add_comm 1]

@[simp] theorem resolve_map_word (L : Nat → Nat) (base : Nat) (ws : List Nat) :
    resolve L base (ws.map .word) = ws := by
  induction ws generalizing base with
  | nil => rfl
  | cons w ws ih => simp [ih]

@[simp] theorem refPositions_map_word (base : Nat) (ws : List Nat) :
    refPositions base (ws.map .word) = [] := by
  induction ws generalizing base with
  | nil => rfl
  | cons w ws ih => simp [ih]

/-- Resolving in place, one label place after the other. -/
theorem foldl_set_eq_resolve (L : Nat → Nat) (pre : List Nat) (ws : List Sym) :
    (refPositions pre.length ws).foldl
        (fun code p => code.set p (jumpOffset (L (code.getD p 0)) p)) (pre ++ ws.map Sym.raw) =
      pre ++ resolve L pre.length ws := by
  induction ws generalizing pre with
  | nil => simp
  | cons w ws ih =>
    cases w with
    | word w =>
      have := ih (pre ++ [w])
      simpa [Sym.raw] using this
    | ref l =>
      have := ih (pre ++ [jumpOffset (L l) pre.length])
      simpa [Sym.raw, List.getD_eq_getElem?_getD] using this

/-! ## What the pieces of the generator write -/

/-- From `b` to `b'` the words `ws` were written, inside the buffer. -/
structure Emits (b b' : Buffer) (ws : List Sym) : Prop where
  bytecode : b'.bytecode = b.bytecode ++ ws.map Sym.raw
  toset : b'.toset = b.toset ++ refPositions b.pos ws
  bound : b.pos ≤ bytecodeBufSz → b'.pos ≤ bytecodeBufSz

namespace Emits

variable {b b' b'' : Buffer} {ws ws' : List Sym}

theorem refl (b : Buffer) : Emits b b [] := ⟨by simp, by simp, id⟩

theorem pos_eq (h : Emits b b' ws) : b'.pos = b.pos + ws.length := by
  simp [Buffer.pos, h.bytecode]

theorem trans (h : Emits b b' ws) (h' : Emits b' b'' ws') : Emits b b'' (ws ++ ws') := by
  refine ⟨by simp [h'.bytecode, h.bytecode], ?_, fun hb => h'.bound (h.bound hb)⟩
  rw [h'.toset, h.toset, refPositions_append, h.pos_eq, List.append_assoc]

end Emits

/-- `compile_set_labels` resolves the words written since `INIT_LABELS`. -/
theorem compileSetLabels_eq {b : Buffer} {ws : List Sym} (h : Emits Buffer.init b ws) :
    compileSetLabels b = resolve b.labels 0 ws := by
  have := foldl_set_eq_resolve b.labels [] ws
  simpa [compileSetLabels, h.bytecode, h.toset, Buffer.init, Buffer.pos] using this

/-- Nothing but the words and the jump table changed. -/
structure SameLabels (b b' : Buffer) : Prop where
  labelsNb : b'.labelsNb = b.labelsNb
  labels : b'.labels = b.labels

theorem SameLabels.trans {b b' b'' : Buffer} (h : SameLabels b b') (h' : SameLabels b' b'') :
    SameLabels b b'' :=
  ⟨h'.labelsNb.trans h.labelsNb, h'.labels.trans h.labels⟩

theorem emit_ok {w : Nat} {b b' : Buffer} (h : emit w b = .ok b') :
    Emits b b' [.word w] ∧ SameLabels b b' := by
  unfold emit at h
  split at h
  · rename_i hlt
    cases h
    refine ⟨⟨rfl, by simp, fun _ => ?_⟩, rfl, rfl⟩
    simpa [Buffer.pos] using Nat.succ_le_of_lt hlt
  · cases h

theorem putLabel_ok {l : Nat} {b b' : Buffer} (h : putLabel l b = .ok b') :
    Emits b b' [.ref l] ∧ SameLabels b b' := by
  unfold putLabel emit at h
  split at h
  · rename_i hlt
    cases h
    refine ⟨⟨rfl, rfl, fun _ => ?_⟩, rfl, rfl⟩
    simpa [Buffer.pos] using Nat.succ_le_of_lt hlt
  · cases h

theorem setLabel_ok {l : Nat} {b b' : Buffer} (h : setLabel l b = .ok b') :
    Emits b b' [] ∧ b'.labelsNb = b.labelsNb ∧ b'.labels = Function.update b.labels l b.pos := by
  simp only [setLabel] at h
  by_cases hl : l < if b.labelsSz ≤ b.labelsNb then b.labelsSz + labelGrow else b.labelsSz
  · rw [if_pos hl] at h
    cases h
    exact ⟨⟨by simp, by simp, id⟩, rfl, rfl⟩
  · rw [if_neg hl] at h
    cases h

theorem emits_ok {ws : List Nat} {b b' : Buffer} (h : emits ws b = .ok b') :
    Emits b b' (ws.map .word) ∧ SameLabels b b' := by
  induction ws generalizing b with
  | nil => cases h; exact ⟨Emits.refl _, rfl, rfl⟩
  | cons w ws ih =>
    obtain ⟨b₁, h₁, h₂⟩ := bind_ok h
    obtain ⟨he, hs⟩ := emit_ok h₁
    obtain ⟨he', hs'⟩ := ih h₂
    exact ⟨he.trans he', hs.trans hs'⟩

theorem exitIfBytecodeBuffFull_ok {n : Nat} {b b' : Buffer}
    (h : exitIfBytecodeBuffFull n b = .ok b') : b' = b := by
  unfold exitIfBytecodeBuffFull at h
  split at h <;> cases h
  rfl

theorem exitIfActionsFull_ok {b b' : Buffer} (h : exitIfActionsFull b = .ok b') : b' = b := by
  unfold exitIfActionsFull at h
  split at h <;> cases h
  rfl

theorem useField_ok {f : Nat} {b b' : Buffer} (h : useField f b = .ok b') :
    Emits b b' [] ∧ SameLabels b b' := by
  unfold useField at h
  split at h
  · cases h
    exact ⟨⟨by simp, by simp, id⟩, rfl, rfl⟩
  · cases h

theorem emitJumps_ok {th el : Nat} {b b' : Buffer} (h : emitJumps th el b = .ok b') :
    Emits b b' [.word popcjmp.code, .ref th, .word jmp.code, .ref el] ∧ SameLabels b b' := by
  obtain ⟨b₁, h₁, h⟩ := bind_ok h
  obtain ⟨b₂, h₂, h⟩ := bind_ok h
  obtain ⟨b₃, h₃, h₄⟩ := bind_ok h
  obtain ⟨e₁, s₁⟩ := emit_ok h₁
  obtain ⟨e₂, s₂⟩ := putLabel_ok h₂
  obtain ⟨e₃, s₃⟩ := emit_ok h₃
  obtain ⟨e₄, s₄⟩ := putLabel_ok h₄
  exact ⟨((e₁.trans e₂).trans e₃).trans e₄, ((s₁.trans s₂).trans s₃).trans s₄⟩

/-- The two constants of a `NODE_COND`, with the positions of its three labels. -/
theorem emitBool_ok {th el en : Nat} {b b' : Buffer} (h : emitBool th el en b = .ok b') :
    Emits b b' [.word pushstatic.code, .word staticIds.one, .word jmp.code, .ref en,
        .word pushstatic.code, .word staticIds.zero] ∧
      b'.labelsNb = b.labelsNb ∧
      b'.labels = Function.update (Function.update (Function.update b.labels th b.pos) el
        (b.pos + 4)) en (b.pos + 6) := by
  obtain ⟨b₁, h₁, h⟩ := bind_ok h
  obtain ⟨b₂, h₂, h⟩ := bind_ok h
  obtain ⟨b₃, h₃, h⟩ := bind_ok h
  obtain ⟨b₄, h₄, h⟩ := bind_ok h
  obtain ⟨b₅, h₅, h₆⟩ := bind_ok h
  obtain ⟨e₁, n₁, l₁⟩ := setLabel_ok h₁
  obtain ⟨e₂, s₂⟩ := emits_ok h₂
  obtain ⟨e₃, s₃⟩ := putLabel_ok h₃
  obtain ⟨e₄, n₄, l₄⟩ := setLabel_ok h₄
  obtain ⟨e₅, s₅⟩ := emits_ok h₅
  obtain ⟨e₆, n₆, l₆⟩ := setLabel_ok h₆
  have p₃ : b₃.pos = b.pos + 4 := by rw [e₃.pos_eq, e₂.pos_eq, e₁.pos_eq]; rfl
  have p₅ : b₅.pos = b.pos + 6 := by rw [e₅.pos_eq, e₄.pos_eq, p₃]; rfl
  refine ⟨((((e₁.trans e₂).trans e₃).trans e₄).trans e₅).trans e₆, ?_, ?_⟩
  · rw [n₆, s₅.labelsNb, n₄, s₃.labelsNb, s₂.labelsNb, n₁]
  · rw [l₆, s₅.labels, l₄, s₃.labels, s₂.labels, l₁, p₃, p₅]

/-! ## The resolved code -/

/-- The two jumps at the end of a jump position. -/
def jumpWords (dThen dElse : Nat) : List Nat := [popcjmp.code, dThen + 2, jmp.code, dElse]

/-- The two constants of a `NODE_COND`. -/
def boolWords : List Nat :=
  [pushstatic.code, staticIds.one, jmp.code, 2, pushstatic.code, staticIds.zero]

/-- The end of the code in jump position. -/
def endWords : Option (Nat × Nat) → List Nat
  | none => []
  | some (dThen, dElse) => jumpWords dThen dElse

mutual

/-- The resolved code of an expression; `pos` has the distances from its end to the targets. -/
def exprWords : Expr → Option (Nat × Nat) → List Nat
  | .assoc x e, pos => exprWords e none ++ [pop.code, x, push.code, x] ++ endWords pos
  | .binop op l r, pos =>
    exprWords l none ++ exprWords r none ++ [(arith op).code] ++ endWords pos
  | .cond (.cmp op) l r, some (dThen, dElse) =>
    exprWords l none ++ exprWords r none ++ [(cmp op).code] ++ jumpWords dThen dElse
  | .cond (.cmp op) l r, none =>
    exprWords l none ++ exprWords r none ++ [(cmp op).code] ++ jumpWords 0 4 ++ boolWords
  | .cond .andand l r, pos =>
    let cr := exprWords r (some (0, 4))
    exprWords l (some (0, cr.length + 4)) ++ cr ++ boolWords ++ endWords pos
  | .cond .oror l r, pos =>
    let cr := exprWords r (some (0, 4))
    exprWords l (some (cr.length, 0)) ++ cr ++ boolWords ++ endWords pos
  | .field f, pos => [pushfield.code, f] ++ endWords pos
  | .var x, pos => [push.code, x] ++ endWords pos
  | .const c, pos => [pushstatic.code, c] ++ endWords pos
  | .call f ps, pos => paramsWords ps ++ [call.code, f] ++ endWords pos

/-- The resolved code of the parameters of a call. -/
def paramsWords : List Expr → List Nat
  | [] => []
  | p :: ps => paramsWords ps ++ exprWords p none

end

/-! ## Pieces with their labels -/

/-- From `b` to `b'` the generator set the labels of `T` and wrote words that resolve to a list
related by `R` to the places of the labels, wherever the labels outside `T` are. -/
structure Laid (b b' : Buffer) (T : Nat → Prop) (R : (Nat → Nat) → List Nat → Prop) : Prop where
  labelsNb : b.labelsNb ≤ b'.labelsNb
  labels : ∀ l, ¬ T l → b'.labels l = b.labels l
  bound : b.pos ≤ bytecodeBufSz → b'.pos ≤ bytecodeBufSz
  code : ∃ ws, Emits b b' ws ∧ ∀ L, (∀ l, T l → L l = b'.labels l) → R L (resolve L b.pos ws)

/-- Words without labels. -/
def Exactly (ws : List Nat) (_L : Nat → Nat) (ws' : List Nat) : Prop := ws' = ws

/-- The first words are related by `R`, the others by `R'`; `p`, `p'` and `p''` are the positions
before, between and after them. -/
def Then (p p' p'' : Nat) (R R' : (Nat → Nat) → List Nat → Prop) (L : Nat → Nat)
    (ws : List Nat) : Prop :=
  ∃ ws₁ ws₂, ws = ws₁ ++ ws₂ ∧ R L ws₁ ∧ R' L ws₂ ∧ p' = p + ws₁.length ∧ p'' = p' + ws₂.length

namespace Laid

variable {b b' b'' : Buffer} {T T' : Nat → Prop} {R R' : (Nat → Nat) → List Nat → Prop}

theorem ofEmits {l : List Nat} (h : Emits b b' (l.map .word)) (hs : SameLabels b b') :
    Laid b b' (fun _ => False) (Exactly l) := by
  refine ⟨hs.labelsNb.ge, fun l _ => by rw [hs.labels], h.bound, _, h, fun L _ => ?_⟩
  exact resolve_map_word L b.pos l

theorem ofNewLabels (b : Buffer) (n : Nat) :
    Laid b (newLabels n b) (fun _ => False) (Exactly []) :=
  ⟨Nat.le_add_right _ _, fun _ _ => rfl, id, [], ⟨by simp [newLabels], by simp [newLabels,
    refPositions], id⟩, fun _ _ => rfl⟩

theorem ofSetLabel {l : Nat} (h : setLabel l b = .ok b') :
    Laid b b' (· = l) (fun L ws => ws = [] ∧ L l = b.pos) := by
  obtain ⟨he, hn, hl⟩ := setLabel_ok h
  refine ⟨hn.ge, fun k hk => ?_, he.bound, [], he, fun L hL => ⟨rfl, ?_⟩⟩
  · rw [hl, Function.update_of_ne hk]
  · rw [hL l rfl, hl, Function.update_self]

theorem trans (h : Laid b b' T R) (h' : Laid b' b'' T' R') (hd : ∀ l, T l → ¬ T' l) :
    Laid b b'' (fun l => T l ∨ T' l) (Then b.pos b'.pos b''.pos R R') := by
  obtain ⟨ws, he, hr⟩ := h.code
  obtain ⟨ws', he', hr'⟩ := h'.code
  refine ⟨h.labelsNb.trans h'.labelsNb, fun l hl => ?_, fun hb => h'.bound (h.bound hb),
    ws ++ ws', he.trans he', fun L hL => ?_⟩
  · rw [h'.labels l fun ht => hl (.inr ht), h.labels l fun ht => hl (.inl ht)]
  · refine ⟨_, _, resolve_append L b.pos ws ws', hr L fun l hl => ?_, ?_, ?_, ?_⟩
    · rw [hL l (.inl hl), h'.labels l (hd l hl)]
    · rw [← he.pos_eq]
      exact hr' L fun l hl => hL l (.inr hl)
    · rw [length_resolve, he.pos_eq]
    · rw [length_resolve, he'.pos_eq]

theorem weaken (h : Laid b b' T R) (hT : ∀ l, T l → T' l)
    (hR : ∀ L ws, (∀ l, T l → L l = b'.labels l) → R L ws → R' L ws) : Laid b b' T' R' := by
  obtain ⟨ws, he, hr⟩ := h.code
  refine ⟨h.labelsNb, fun l hl => h.labels l fun ht => hl (hT l ht), h.bound, ws, he,
    fun L hL => ?_⟩
  have hL' : ∀ l, T l → L l = b'.labels l := fun l hl => hL l (hT l hl)
  exact hR L _ hL' (hr L hL')

end Laid

/-- The labels that a piece of the generator makes. -/
def Made (b b' : Buffer) (l : Nat) : Prop := b.labelsNb ≤ l ∧ l < b'.labelsNb

/-- The targets of a jump position come after its code, which ends at `p`. -/
def Targets (L : Nat → Nat) (p : Nat) : Option (Nat × Nat) → Prop
  | none => True
  | some (th, el) => p ≤ L th ∧ p ≤ L el ∧ L th ≤ bytecodeBufSz ∧ L el ≤ bytecodeBufSz

/-- Their distances from the end of the code. -/
def distances (L : Nat → Nat) (p : Nat) : Option (Nat × Nat) → Option (Nat × Nat)
  | none => none
  | some (th, el) => some (L th - p, L el - p)

/-- The words are `words` at the distances of the targets, when these come after the code. -/
def At (words : Option (Nat × Nat) → List Nat) (pos : Option (Nat × Nat)) (p : Nat)
    (L : Nat → Nat) (ws : List Nat) : Prop :=
  Targets L p pos → ws = words (distances L p pos)

theorem jumpOffset_target {l p n : Nat} (h : p + n + 1 ≤ l) (hl : l ≤ bytecodeBufSz) :
    jumpOffset l p = l - (p + n + 1) + n := by
  have hw : l < wordSize := lt_of_le_of_lt hl (by decide)
  rw [jumpOffset_of_lt (by omega) hw]
  omega

theorem emitJumps_laid {th el : Nat} {b b' : Buffer} (h : emitJumps th el b = .ok b') :
    Laid b b' (fun _ => False) (At endWords (some (th, el)) b'.pos) := by
  obtain ⟨he, hs⟩ := emitJumps_ok h
  refine ⟨hs.labelsNb.ge, fun l _ => by rw [hs.labels], he.bound, _, he, fun L _ ht => ?_⟩
  have hp : b'.pos = b.pos + 4 := he.pos_eq
  obtain ⟨hth, hel, hth', hel'⟩ := ht
  have h₁ : jumpOffset (L th) (b.pos + 1) = L th - b'.pos + 2 := by
    rw [jumpOffset_target (n := 2) (by omega) hth']
    omega
  have h₃ : jumpOffset (L el) (b.pos + 1 + 1 + 1) = L el - b'.pos := by
    rw [jumpOffset_target (n := 0) (by omega) hel']
    omega
  simp only [resolve_nil, resolve_word, resolve_ref, distances, endWords, jumpWords, h₁, h₃]

theorem endPosition_laid {pos : Option (Nat × Nat)} {b b' : Buffer}
    (h : endPosition pos b = .ok b') :
    Laid b b' (fun _ => False) (At endWords pos b'.pos) := by
  cases pos with
  | none =>
    cases h
    exact (Laid.ofEmits (Emits.refl _) ⟨rfl, rfl⟩).weaken (fun _ => id) fun _ _ _ hw _ => hw
  | some p => exact emitJumps_laid h

/-! ## Expressions -/

namespace Laid

variable {b b' b'' : Buffer} {ws ws' : List Nat}

/-- In value position there are no targets. -/
theorem value {words : Option (Nat × Nat) → List Nat} {T : Nat → Prop} {p : Nat}
    (h : Laid b b' T (At words none p)) : Laid b b' T (Exactly (words none)) :=
  h.weaken (fun _ => id) fun _ _ _ hw => hw trivial

theorem ofValue {words : Option (Nat × Nat) → List Nat} {T : Nat → Prop} {p : Nat}
    (h : Laid b b' T (Exactly (words none))) : Laid b b' T (At words none p) :=
  h.weaken (fun _ => id) fun _ _ _ hw _ => hw

theorem seq (h : Laid b b' (Made b b') (Exactly ws)) (h' : Laid b' b'' (Made b' b'') (Exactly ws')) :
    Laid b b'' (Made b b'') (Exactly (ws ++ ws')) := by
  have hn := h.labelsNb
  have hn' := h'.labelsNb
  refine (h.trans h' fun l hl hl' => ?_).weaken (fun l hl => ?_) ?_
  · exact absurd hl.2 (Nat.not_lt.mpr hl'.1)
  · rcases hl with hl | hl
    · exact ⟨hl.1, lt_of_lt_of_le hl.2 hn'⟩
    · exact ⟨hn.trans hl.1, hl.2⟩
  · rintro L _ _ ⟨ws₁, ws₂, rfl, h₁, h₂, -⟩
    rw [h₁, h₂, Exactly]

/-- Words without labels make no label. -/
theorem made {R : (Nat → Nat) → List Nat → Prop} (h : Laid b b' (fun _ => False) R) :
    Laid b b' (Made b b') R :=
  h.weaken (fun _ => False.elim) fun _ _ _ => id

theorem words (h : Laid b b' (Made b b') (Exactly ws)) (h' : emits ws' b' = .ok b'') :
    Laid b b'' (Made b b'') (Exactly (ws ++ ws')) :=
  h.seq (ofEmits (emits_ok h').1 (emits_ok h').2).made

theorem word {w : Nat} (h : Laid b b' (Made b b') (Exactly ws)) (h' : emit w b' = .ok b'') :
    Laid b b'' (Made b b'') (Exactly (ws ++ [w])) :=
  h.seq (ofEmits (l := [w]) (emit_ok h').1 (emit_ok h').2).made

/-- The value, then the two jumps of a jump position. -/
theorem atEnd {t : Option (Nat × Nat)} (h : Laid b b' (Made b b') (Exactly ws))
    (h' : endPosition t b' = .ok b'') :
    Laid b b'' (Made b b'') (At (fun d => ws ++ endWords d) t b''.pos) := by
  have p := endPosition_laid h'
  have hn := p.labelsNb
  refine (h.trans p fun _ _ => id).weaken (fun l hl => ?_) ?_
  · exact ⟨(hl.resolve_right id).1, lt_of_lt_of_le (hl.resolve_right id).2 hn⟩
  · rintro L _ _ ⟨ws₁, ws₂, rfl, h₁, h₂, -⟩ ht
    rw [h₁, h₂ ht]

end Laid

theorem emitBool_laid {n : Nat} {b b' : Buffer} (h : emitBool (n + 1) (n + 2) (n + 3) b = .ok b')
    (hb : b.pos ≤ bytecodeBufSz) :
    Laid b b' (fun l => l = n + 1 ∨ l = n + 2 ∨ l = n + 3)
      (fun L ws => ws = boolWords ∧ L (n + 1) = b.pos ∧ L (n + 2) = b.pos + 4) := by
  obtain ⟨he, hn, hl⟩ := emitBool_ok h
  have hp : b'.pos = b.pos + 6 := he.pos_eq
  have hb' := he.bound hb
  refine ⟨hn.ge, fun l hl' => ?_, he.bound, _, he, fun L hL => ?_⟩
  · obtain ⟨h₁, h₂, h₃⟩ : l ≠ n + 1 ∧ l ≠ n + 2 ∧ l ≠ n + 3 := by
      simpa [not_or] using hl'
    rw [hl, Function.update_of_ne h₃, Function.update_of_ne h₂, Function.update_of_ne h₁]
  · have h₁ : L (n + 1) = b.pos := by
      rw [hL _ (.inl rfl), hl, Function.update_of_ne (by omega), Function.update_of_ne (by omega),
        Function.update_self]
    have h₂ : L (n + 2) = b.pos + 4 := by
      rw [hL _ (.inr (.inl rfl)), hl, Function.update_of_ne (by omega), Function.update_self]
    have h₃ : L (n + 3) = b.pos + 6 := by
      rw [hL _ (.inr (.inr rfl)), hl, Function.update_self]
    have hj : jumpOffset (L (n + 3)) (b.pos + 1 + 1 + 1) = 2 := by
      rw [jumpOffset_target (n := 2) (by omega) (by omega)]
      omega
    exact ⟨by simp only [resolve_nil, resolve_word, resolve_ref, boolWords, hj], h₁, h₂⟩

/-- Code in jump position to the two constants, which come next. -/
theorem bool_laid {n : Nat} {w : Option (Nat × Nat) → List Nat} {b b' b'' : Buffer}
    (hb : b.pos ≤ bytecodeBufSz) (hn : n + 3 < b.labelsNb)
    (h : Laid b b' (Made b b') (At w (some (n + 1, n + 2)) b'.pos))
    (he : emitBool (n + 1) (n + 2) (n + 3) b' = .ok b'') :
    Laid b b'' (fun l => Made b b' l ∨ l = n + 1 ∨ l = n + 2 ∨ l = n + 3)
      (fun L ws => ws = w (some (0, 4)) ++ boolWords ∧
        L (n + 1) = b.pos + (w (some (0, 4))).length ∧
        L (n + 2) = b.pos + (w (some (0, 4))).length + 4) := by
  have hb' := h.bound hb
  have p := emitBool_laid he hb'
  have hb'' := p.bound hb'
  refine (h.trans p fun l hl hl' => ?_).weaken (fun _ => id) ?_
  · have := hl.1
    omega
  · rintro L _ - ⟨ws, _, rfl, hw, ⟨rfl, h₁, h₂⟩, e', e''⟩
    simp only [boolWords, List.length_cons, List.length_nil] at e''
    have hw' : ws = w (some (0, 4)) := by
      have := hw ⟨by omega, by omega, by omega, by omega⟩
      simpa [distances, h₁, h₂] using this
    subst hw'
    exact ⟨rfl, by omega, by omega⟩

/-- A comparison in value position. -/
theorem comparison_laid {n : Nat} {w : Option (Nat × Nat) → List Nat} {b b₁ b₂ : Buffer}
    (hn : n = b.labelsNb) (hb : b.pos ≤ bytecodeBufSz)
    (h : Laid (newLabels 4 b) b₁ (Made (newLabels 4 b) b₁) (At w (some (n + 1, n + 2)) b₁.pos))
    (he : emitBool (n + 1) (n + 2) (n + 3) b₁ = .ok b₂) :
    Laid b b₂ (Made b b₂) (Exactly (w (some (0, 4)) ++ boolWords)) := by
  have n₀ : (newLabels 4 b).labelsNb = b.labelsNb + 4 := rfl
  have p := bool_laid (b := newLabels 4 b) hb (by omega) h he
  have n₁ : b.labelsNb + 4 ≤ b₂.labelsNb := p.labelsNb
  have n₂ : b₁.labelsNb ≤ b₂.labelsNb := (emitBool_laid he (h.bound hb)).labelsNb
  refine ((Laid.ofNewLabels b 4).trans p fun _ h => h.elim).weaken ?_ ?_
  · rintro l (hl | hl | hl)
    · exact hl.elim
    · exact ⟨by have := hl.1; omega, lt_of_lt_of_le hl.2 n₂⟩
    · exact ⟨by omega, by omega⟩
  · rintro L _ - ⟨_, _, rfl, rfl, ⟨rfl, -⟩, -⟩
    rfl

/-- The code of `&&` and `||`: the left operand in jump position, the label `n`, the right operand
in jump position, the two constants. The left operand jumps to the label, or to one of the
constants. -/
theorem connective_laid {n th el dth del : Nat} {wl wr : Option (Nat × Nat) → List Nat}
    {b b₁ b₂ b₃ b₄ : Buffer} (hn : n = b.labelsNb) (hb : b.pos ≤ bytecodeBufSz)
    (hl : Laid (newLabels 4 b) b₁ (Made (newLabels 4 b) b₁) (At wl (some (th, el)) b₁.pos))
    (hs : setLabel n b₁ = .ok b₂)
    (hr : Laid b₂ b₃ (Made b₂ b₃) (At wr (some (n + 1, n + 2)) b₃.pos))
    (he : emitBool (n + 1) (n + 2) (n + 3) b₃ = .ok b₄)
    (hth : th = n ∧ dth = 0 ∨ th = n + 1 ∧ dth = (wr (some (0, 4))).length ∨
      th = n + 2 ∧ dth = (wr (some (0, 4))).length + 4)
    (hel : el = n ∧ del = 0 ∨ el = n + 1 ∧ del = (wr (some (0, 4))).length ∨
      el = n + 2 ∧ del = (wr (some (0, 4))).length + 4) :
    Laid b b₄ (Made b b₄) (Exactly (wl (some (dth, del)) ++ wr (some (0, 4)) ++ boolWords)) := by
  have p₀ := Laid.ofNewLabels b 4
  have p₂ := Laid.ofSetLabel hs
  have hb₂ : b₂.pos ≤ bytecodeBufSz := p₂.bound (hl.bound hb)
  have n₁ : b.labelsNb + 4 ≤ b₁.labelsNb := hl.labelsNb
  have n₂ := p₂.labelsNb
  have p₃ := bool_laid hb₂ (by omega) hr he
  have hb₄ := p₃.bound hb₂
  have n₃ := hr.labelsNb
  have n₄ := (emitBool_laid he (hr.bound hb₂)).labelsNb
  refine (((p₀.trans hl ?_).trans p₂ ?_).trans p₃ ?_).weaken ?_ ?_
  · exact fun _ h => h.elim
  · rintro l (h | h)
    · exact h.elim
    · have : b.labelsNb + 4 ≤ l := h.1
      omega
  · rintro l ((h | h) | h) h'
    · exact h
    · have h₁ : b.labelsNb + 4 ≤ l ∧ l < b₁.labelsNb := h
      rcases h' with h' | h'
      · exact absurd h₁.2 (Nat.not_lt.mpr (n₂.trans h'.1))
      · omega
    · rcases h' with h' | h'
      · have := h'.1
        omega
      · omega
  · rintro l (((h | h) | h) | h | h)
    · exact h.elim
    · have : b.labelsNb + 4 ≤ l ∧ l < b₁.labelsNb := h
      exact ⟨by omega, by omega⟩
    · exact ⟨by omega, by omega⟩
    · exact ⟨by have := h.1; omega, by have := h.2; omega⟩
    · exact ⟨by omega, by omega⟩
  · rintro L _ - ⟨_, _, rfl, ⟨_, _, rfl, ⟨_, w₁, rfl, h₀, h₁, -⟩, ⟨rfl, hLn⟩, -, e₂⟩,
      ⟨rfl, hL₁, hL₂⟩, -, e₄⟩
    rw [Exactly] at h₀
    subst h₀
    -- the positions of the labels, counted from the end of the left operand
    simp only [List.length_nil, Nat.add_zero, boolWords, List.length_append, List.length_cons]
      at e₂ e₄
    have hLth : L th = b₁.pos + dth := by
      rcases hth with ⟨rfl, rfl⟩ | ⟨rfl, rfl⟩ | ⟨rfl, rfl⟩ <;> omega
    have hLel : L el = b₁.pos + del := by
      rcases hel with ⟨rfl, rfl⟩ | ⟨rfl, rfl⟩ | ⟨rfl, rfl⟩ <;> omega
    have h₁' := h₁ ⟨by omega, by omega, by omega, by omega⟩
    simp [Exactly, h₁', distances, hLth, hLel]

/-- A node that is two words: an instruction and its operand. -/
theorem leaf_laid {w w' : Nat} {b b₁ b₂ : Buffer} (h₁ : exitIfBytecodeBuffFull 2 b = .ok b₁)
    (h₂ : emits [w, w'] b₁ = .ok b₂) : Laid b b₂ (Made b b₂) (Exactly [w, w']) := by
  cases exitIfBytecodeBuffFull_ok h₁
  exact (Laid.ofEmits (emits_ok h₂).1 (emits_ok h₂).2).made

mutual

/-- The code of an expression, resolved, is `exprWords`. -/
theorem compileBytecode_laid : ∀ (e : Expr) (pos : Option (Nat × Nat)) {b b' : Buffer},
    compileBytecode e pos b = .ok b' → b.pos ≤ bytecodeBufSz →
      Laid b b' (Made b b') (At (exprWords e) pos b'.pos)
  | .assoc x e, pos, b, b', h, hb => by
    obtain ⟨b₁, h₁, h⟩ := bind_ok h
    obtain ⟨b₂, h₂, h₃⟩ := bind_ok h
    exact ((compileBytecode_laid e none h₁ hb).value.words h₂).atEnd h₃
  | .binop op l r, pos, b, b', h, hb => by
    obtain ⟨b₁, h₁, h⟩ := bind_ok h
    obtain ⟨b₂, h₂, h⟩ := bind_ok h
    obtain ⟨b₃, h₃, h₄⟩ := bind_ok h
    have pl := compileBytecode_laid l none h₁ hb
    have pr := compileBytecode_laid r none h₂ (pl.bound hb)
    exact ((pl.value.seq pr.value).word h₃).atEnd h₄
  | .cond (.cmp op) l r, some (th, el), b, b', h, hb => by
    obtain ⟨b₁, h₁, h⟩ := bind_ok h
    obtain ⟨b₂, h₂, h⟩ := bind_ok h
    obtain ⟨b₃, h₃, h₄⟩ := bind_ok h
    have pl := compileBytecode_laid l none h₁ hb
    have pr := compileBytecode_laid r none h₂ (pl.bound hb)
    exact ((pl.value.seq pr.value).word h₃).atEnd (t := some (th, el)) h₄
  | .cond (.cmp op) l r, none, b, b', h, hb => by
    obtain ⟨b₁, h₁, h⟩ := bind_ok h
    obtain ⟨b₂, h₂, h⟩ := bind_ok h
    obtain ⟨b₃, h₃, h⟩ := bind_ok h
    obtain ⟨b₄, h₄, h₅⟩ := bind_ok h
    have pl := compileBytecode_laid l none h₁ hb
    have pr := compileBytecode_laid r none h₂ (pl.bound hb)
    have p₄ := ((pl.value.seq pr.value).word h₃).atEnd
      (t := some (b.labelsNb + 1, b.labelsNb + 2)) h₄
    exact (comparison_laid rfl hb p₄ h₅).ofValue
  | .cond .andand l r, pos, b, b', h, hb => by
    obtain ⟨b₁, h₁, h⟩ := bind_ok h
    obtain ⟨b₂, h₂, h⟩ := bind_ok h
    obtain ⟨b₃, h₃, h⟩ := bind_ok h
    obtain ⟨b₄, h₄, h₅⟩ := bind_ok h
    have pl := compileBytecode_laid l _ h₁ hb
    have pr := compileBytecode_laid r _ h₃ ((Laid.ofSetLabel h₂).bound (pl.bound hb))
    exact (connective_laid rfl hb pl h₂ pr h₄ (.inl ⟨rfl, rfl⟩) (.inr (.inr ⟨rfl, rfl⟩))).atEnd h₅
  | .cond .oror l r, pos, b, b', h, hb => by
    obtain ⟨b₁, h₁, h⟩ := bind_ok h
    obtain ⟨b₂, h₂, h⟩ := bind_ok h
    obtain ⟨b₃, h₃, h⟩ := bind_ok h
    obtain ⟨b₄, h₄, h₅⟩ := bind_ok h
    have pl := compileBytecode_laid l _ h₁ hb
    have pr := compileBytecode_laid r _ h₃ ((Laid.ofSetLabel h₂).bound (pl.bound hb))
    exact (connective_laid rfl hb pl h₂ pr h₄ (.inr (.inl ⟨rfl, rfl⟩)) (.inl ⟨rfl, rfl⟩)).atEnd h₅
  | .field f, pos, b, b', h, hb => by
    obtain ⟨b₁, h₁, h⟩ := bind_ok h
    obtain ⟨b₂, h₂, h⟩ := bind_ok h
    obtain ⟨b₃, h₃, h₄⟩ := bind_ok h
    have p₃ := Laid.ofEmits (l := []) (useField_ok h₃).1 (useField_ok h₃).2
    exact ((leaf_laid h₁ h₂).seq p₃.made).atEnd h₄
  | .var x, pos, b, b', h, hb => by
    obtain ⟨b₁, h₁, h⟩ := bind_ok h
    obtain ⟨b₂, h₂, h₃⟩ := bind_ok h
    exact (leaf_laid h₁ h₂).atEnd h₃
  | .const c, pos, b, b', h, hb => by
    obtain ⟨b₁, h₁, h⟩ := bind_ok h
    obtain ⟨b₂, h₂, h₃⟩ := bind_ok h
    exact (leaf_laid h₁ h₂).atEnd h₃
  | .call f ps, pos, b, b', h, hb => by
    obtain ⟨b₁, h₁, h⟩ := bind_ok h
    obtain ⟨b₂, h₂, h⟩ := bind_ok h
    obtain ⟨b₃, h₃, h₄⟩ := bind_ok h
    exact ((compileParams_laid ps h₁ hb).seq (leaf_laid h₂ h₃)).atEnd h₄

/-- The code of the parameters of a call. -/
theorem compileParams_laid : ∀ (ps : List Expr) {b b' : Buffer},
    compileParams ps b = .ok b' → b.pos ≤ bytecodeBufSz →
      Laid b b' (Made b b') (Exactly (paramsWords ps))
  | [], b, _, rfl, _ => (Laid.ofEmits (l := []) (Emits.refl b) ⟨rfl, rfl⟩).made
  | p :: ps, b, b', h, hb => by
    obtain ⟨b₁, h₁, h₂⟩ := bind_ok h
    have ps' := compileParams_laid ps h₁ hb
    exact ps'.seq (compileBytecode_laid p none h₂ (ps'.bound hb)).value

end

/-- The code of an expression in the code of a whole rule state. -/
theorem compileSetLabels_compileBytecodeExpr {e : Expr} {b : Buffer}
    (h : compileBytecodeExpr e Buffer.init = .ok b) : compileSetLabels b = exprWords e none := by
  obtain ⟨ws, he, hr⟩ := (compileBytecode_laid e none h (by decide)).value.code
  rw [compileSetLabels_eq he]
  exact hr b.labels fun _ _ => rfl

theorem length_compileSetLabels {e : Expr} {b : Buffer}
    (h : compileBytecodeExpr e Buffer.init = .ok b) : (compileSetLabels b).length = b.pos := by
  obtain ⟨ws, he, -⟩ := (compileBytecode_laid e none h (by decide)).value.code
  rw [compileSetLabels_eq he, length_resolve, he.pos_eq]
  simp [Buffer.init, Buffer.pos]

end Orchids
