import Orchids.Compiler.Correct
import Orchids.Ovm.Releases

/-!
# The code of an expression on objects

What `Compiler.Correct` says of values, for the machine on objects: where the objects of the
evaluation are, and when one of them is released while something else points to it.

* `place`: the pointer to the value of an expression, and the store after it.
* `Kept`: no object that the evaluation releases has another pointer to it.
* `eval_objs`: `exprWords` computes the value of the expression, or loses it; one case for each node
  and each position.
* `compileBytecodeExpr_holds_iff`: the code that the compiler leaves computes the value if and only
  if the operators are defined and the objects are kept.
-/

namespace Orchids

open Opcode

variable {V : Type} [Issdl V]

namespace ObjFrame

/-! ## Where the values are -/

variable (P : ObjFrame V)

/-- `TRUE_VAR` and `FALSE_VAR` -/
def boolObj (b : Bool) : Option Nat := P.staticObj (if b then staticIds.one else staticIds.zero)

mutual

/-- The pointer to the value of an expression, and the store after it. -/
def place : Expr → Store V → Env V → Option Nat × Store V
  | .const c, σ, _ => (P.staticObj c, σ)
  | .var x, σ, _ => (P.readVar σ x, σ)
  | .field f, σ, _ => (P.fieldObj f, σ)
  | .binop op l r, σ, ρ =>
    let a := P.toFrame.eval l ρ
    let b := P.toFrame.eval r a.2
    let p := place l σ ρ
    let q := place r p.2 a.2
    let res := P.arithResult op a.1 b.1 q.2
    (res.1, (res.2.freeIf VarObj.isNotBound p.1).freeIf VarObj.isNotBound q.1)
  | .cond (.cmp op) l r, σ, ρ =>
    let a := P.toFrame.eval l ρ
    let b := P.toFrame.eval r a.2
    let p := place l σ ρ
    let q := place r p.2 a.2
    (P.boolObj (issdlTest (P.cmpResult op a.1 b.1)), cmpRelease op p.1 q.1 q.2)
  | .cond .andand l r, σ, ρ =>
    let a := P.toFrame.eval l ρ
    let p := place l σ ρ
    if issdlTest a.1 then
      (P.boolObj (issdlTest (P.toFrame.eval r a.2).1), (place r p.2 a.2).2)
    else (P.boolObj false, p.2)
  | .cond .oror l r, σ, ρ =>
    let a := P.toFrame.eval l ρ
    let p := place l σ ρ
    if issdlTest a.1 then (P.boolObj true, p.2)
    else (P.boolObj (issdlTest (P.toFrame.eval r a.2).1), (place r p.2 a.2).2)
  | .assoc x e, σ, ρ =>
    let p := place e σ ρ
    let τ := bindVar x p.1 p.2
    (P.readVar τ x, τ)
  | .call f ps, σ, ρ => P.builtinResult f (P.toFrame.evalParams ps ρ).1 (placeParams ps σ ρ).2

/-- The pointers to the values of the parameters of a call, and the store after them. -/
def placeParams : List Expr → Store V → Env V → List (Option Nat) × Store V
  | [], σ, _ => ([], σ)
  | e :: es, σ, ρ =>
    let ps := placeParams es σ ρ
    let p := place e ps.2 (P.toFrame.evalParams es ρ).2
    (p.1 :: ps.1, p.2)

end

mutual

/-- Nothing else points to what the evaluation releases: not the operands `w` that wait on the stack,
and no variable, constant or field. An operator releases operands that are not bound, an assignment
releases what the variable was bound to. -/
def Kept : Expr → List (Option Nat) → Store V → Env V → Prop
  | .const _, _, _, _ => True
  | .var _, _, _, _ => True
  | .field _, _, _, _ => True
  | .binop op l r, w, σ, ρ =>
    let a := P.toFrame.eval l ρ
    let b := P.toFrame.eval r a.2
    let p := P.place l σ ρ
    let q := P.place r p.2 a.2
    let res := P.arithResult op a.1 b.1 q.2
    Kept l w σ ρ ∧ Kept r (p.1 :: w) p.2 a.2 ∧ P.LastOperands w res.2 p.1 q.1 res.1
  | .cond (.cmp op) l r, w, σ, ρ =>
    let a := P.toFrame.eval l ρ
    let b := P.toFrame.eval r a.2
    let p := P.place l σ ρ
    let q := P.place r p.2 a.2
    let res := P.staticObj (cmpConst op a.1 b.1)
    Kept l w σ ρ ∧ Kept r (p.1 :: w) p.2 a.2 ∧ P.LastOperands w q.2 p.1 q.1 res
  | .cond .andand l r, w, σ, ρ =>
    let a := P.toFrame.eval l ρ
    Kept l w σ ρ ∧ (issdlTest a.1 = true → Kept r w (P.place l σ ρ).2 a.2)
  | .cond .oror l r, w, σ, ρ =>
    let a := P.toFrame.eval l ρ
    Kept l w σ ρ ∧ (issdlTest a.1 = false → Kept r w (P.place l σ ρ).2 a.2)
  | .assoc x e, w, σ, ρ =>
    let p := P.place e σ ρ
    let τ := { p.2 with env := Function.update p.2.env x none }
    Kept e w σ ρ ∧ P.Last VarObj.canFree (p.1 :: w) τ (p.2.env x)
  | .call _ ps, w, σ, ρ => KeptParams ps w σ ρ

/-- The same for the parameters of a call. -/
def KeptParams : List Expr → List (Option Nat) → Store V → Env V → Prop
  | [], _, _, _ => True
  | e :: es, w, σ, ρ =>
    let ps := P.placeParams es σ ρ
    KeptParams es w σ ρ ∧ Kept e (ps.1 ++ w) ps.2 (P.toFrame.evalParams es ρ).2

end

/-- The operators that the evaluation comes to are defined, and the objects are kept. -/
def Sound (e : Expr) (w : List (Option Nat)) (σ : Store V) (ρ : Env V) : Prop :=
  P.toFrame.arithDefined e ρ = true ∧ P.Kept e w σ ρ

/-- The same for the parameters of a call. -/
def SoundParams (es : List Expr) (w : List (Option Nat)) (σ : Store V) (ρ : Env V) : Prop :=
  P.toFrame.arithDefinedParams es ρ = true ∧ P.KeptParams es w σ ρ

/-! ## The code on objects -/

variable {P} {code rest : List Nat} {k : Nat} {w : List (Option Nat)} {σ : Store V}
  {s : List (Option V)} {ρ : Env V}

/-- The state after an expression with value `v` at `p`: pushed in value position, tested in jump
position. -/
def afterObj (pos : Option (Nat × Nat)) (k : Nat) (p : Option Nat) (v : Option V)
    (w : List (Option Nat)) (σ : Store V) : ObjMachine V :=
  match pos with
  | none => ⟨k, p :: w, σ⟩
  | some (dThen, dElse) => ⟨k + if issdlTest v then dThen else dElse, w, σ⟩

/-- The values on the stack there. -/
def afterStack (pos : Option (Nat × Nat)) (v : Option V) (s : List (Option V)) : List (Option V) :=
  match pos with
  | none => v :: s
  | some _ => s

omit [Issdl V] in
@[simp] theorem afterStack_some (d : Nat × Nat) (v : Option V) : afterStack (some d) v s = s := rfl

namespace Runs

variable {hi : Nat} {M M' M'' : ObjMachine V} {s' : List (Option V)} {ρ' : Env V} {a b : Prop}

/-- A second part that loses nothing. -/
theorem andThen (h : P.Runs hi M a M' s ρ)
    (h' : P.Holds M'.stack M'.store s ρ → P.Runs hi M' True M'' s' ρ') :
    P.Runs hi M a M'' s' ρ' :=
  (h.trans fun _ => h').congr (iff_of_eq (and_true a))

end Runs

theorem length_placeParams (es : List Expr) :
    (P.placeParams es σ ρ).1.length = es.length := by
  induction es with
  | nil => rfl
  | cons e es ih => simp [placeParams, ih]

theorem endWords_objs (hF : P.bytecode = code ++ rest) {pos : Option (Nat × Nat)} {p : Option Nat}
    {v : Option V} (hw : CodeAt code k (endWords pos)) (hj : NoWrap (k + (endWords pos).length) pos)
    (h : P.Holds (p :: w) σ (v :: s) ρ) :
    P.Runs code.length ⟨k, p :: w, σ⟩ True (afterObj pos (k + (endWords pos).length) p v w σ)
      (afterStack pos v s) ρ := by
  cases pos with
  | none => exact .refl h
  | some d =>
    obtain ⟨dThen, dElse⟩ := d
    obtain ⟨hth, hel⟩ := hj
    simp only [endWords, jumpWords, List.length_cons, List.length_nil] at hw hth hel ⊢
    have h₁ := popcjmp_objs hF hw (by omega) h
    cases hv : issdlTest v with
    | true =>
      rw [hv, if_pos rfl] at h₁
      rw [show afterObj (some (dThen, dElse)) (k + 4) p v w σ = ⟨k + 2 + (dThen + 2), w, σ⟩ by
        simp [afterObj, hv]; omega]
      exact h₁
    | false =>
      rw [hv] at h₁
      rw [show afterObj (some (dThen, dElse)) (k + 4) p v w σ = ⟨k + 2 + 2 + dElse, w, σ⟩ by
        simp [afterObj, hv]]
      exact h₁.andThen (jmp_objs hF (k := k + 2) hw.tail.tail (by omega))

/-- The two constants, from the one that `t` selects. -/
theorem boolWords_objs (hF : P.bytecode = code ++ rest) (hlen : code.length < wordSize)
    (hw : CodeAt code k boolWords) (hk : k ≤ code.length) (t : Bool) (h : P.Holds w σ s ρ) :
    P.Runs code.length ⟨k + if t then 0 else 4, w, σ⟩ True ⟨k + 6, P.boolObj t :: w, σ⟩
      (P.boolVar t :: s) ρ := by
  have hlen' := hw.length_le hk
  simp only [boolWords, List.length_cons, List.length_nil] at hlen'
  cases t with
  | true =>
    have h₁ := pushstatic_objs hF hw h
    exact h₁.andThen (jmp_objs hF (k := k + 2) hw.tail.tail (by omega))
  | false => exact pushstatic_objs hF (k := k + 4) hw.tail.tail.tail.tail h

/-- The value, then the end of the position. -/
theorem Runs.atEnd {M : ObjMachine V} {a b : Prop} {p : Option Nat} {v : Option V} {q : Nat}
    (h : P.Runs code.length M a ⟨q, p :: w, σ⟩ (v :: s) ρ) (hab : a ↔ b)
    (hF : P.bytecode = code ++ rest) {pos : Option (Nat × Nat)} {n : Nat}
    (hn : n = q + (endWords pos).length) (hw : CodeAt code q (endWords pos)) (hj : NoWrap n pos) :
    P.Runs code.length M b (afterObj pos n p v w σ) (afterStack pos v s) ρ := by
  subst hn
  exact (h.congr hab).andThen (endWords_objs hF hw hj)

mutual

/-- The code of an expression computes its value, or loses it. -/
theorem eval_objs (hF : P.bytecode = code ++ rest) (hlen : code.length < wordSize) :
    ∀ (e : Expr) (pos : Option (Nat × Nat)) (k : Nat) (w : List (Option Nat)) (σ : Store V)
      (s : List (Option V)) (ρ : Env V),
      k ≤ code.length → CodeAt code k (exprWords e pos) → P.toFrame.CallsMade e ρ →
      NoWrap (k + (exprWords e pos).length) pos → P.Holds w σ s ρ →
      P.Runs code.length ⟨k, w, σ⟩ (P.Sound e w σ ρ)
        (afterObj pos (k + (exprWords e pos).length) (P.place e σ ρ).1 (P.toFrame.eval e ρ).1 w
          (P.place e σ ρ).2)
        (afterStack pos (P.toFrame.eval e ρ).1 s) (P.toFrame.eval e ρ).2
  | .const c, pos, k, w, σ, s, ρ, _, hw, _, hj, h =>
    (pushstatic_objs hF hw.left h).atEnd (by simp [Sound, Frame.arithDefined, Kept]) hF
      (by simp [exprWords]; omega) hw.right hj
  | .var x, pos, k, w, σ, s, ρ, _, hw, _, hj, h =>
    (push_objs hF hw.left h).atEnd (by simp [Sound, Frame.arithDefined, Kept]) hF
      (by simp [exprWords]; omega) hw.right hj
  | .field f, pos, k, w, σ, s, ρ, _, hw, _, hj, h =>
    (pushfield_objs hF hw.left h).atEnd (by simp [Sound, Frame.arithDefined, Kept]) hF
      (by simp [exprWords]; omega) hw.right hj
  | .assoc x e, pos, k, w, σ, s, ρ, hk, hw, hc, hj, h => by
    have he := eval_objs hF hlen e none k w σ s ρ hk hw.left.left hc trivial h
    have hw₁ : CodeAt code (k + (exprWords e none).length) [pop.code, x, push.code, x] :=
      hw.left.right
    have hn : k + (exprWords (.assoc x e) pos).length =
        k + (exprWords e none).length + 4 + (endWords pos).length := by
      simp [exprWords]
      omega
    refine ((he.trans fun _ h₁ => pop_objs hF hw₁ h₁).andThen fun h₂ =>
      push_objs hF (k := k + (exprWords e none).length + 2) hw₁.tail.tail h₂).atEnd ?_ hF hn
      (hw.right.cast (by simp; omega)) hj
    simp only [Sound, Frame.arithDefined, Kept, and_assoc]
  | .binop op l r, pos, k, w, σ, s, ρ, hk, hw, hc, hj, h => by
    have hl := eval_objs hF hlen l none k w σ s ρ hk hw.left.left.left hc.1 trivial h
    have hkr := hw.left.left.left.length_le hk
    have hr := fun (hs : P.Sound l w σ ρ) => eval_objs hF hlen r none
      (k + (exprWords l none).length) ((P.place l σ ρ).1 :: w) (P.place l σ ρ).2
      ((P.toFrame.eval l ρ).1 :: s) (P.toFrame.eval l ρ).2 hkr hw.left.left.right (hc.2 hs.1) trivial
    have hwo : CodeAt code (k + (exprWords l none).length + (exprWords r none).length)
        [(arith op).code] :=
      hw.left.right.cast (by simp; omega)
    have hn : k + (exprWords (.binop op l r) pos).length =
        k + (exprWords l none).length + (exprWords r none).length + 1 + (endWords pos).length := by
      simp [exprWords]
      omega
    refine (hl.trans fun hs h₁ => (hr hs h₁).trans fun _ h₂ => arith_objs hF hwo h₂).atEnd ?_ hF hn
      (hw.right.cast (by simp; omega)) hj
    simp only [Sound, Frame.arithDefined, Kept, Bool.and_eq_true]
    grind
  | .cond (.cmp op) l r, some d, k, w, σ, s, ρ, hk, hw, hc, hj, h => by
    have hl := eval_objs hF hlen l none k w σ s ρ hk hw.left.left.left hc.1 trivial h
    have hkr := hw.left.left.left.length_le hk
    have hr := fun (hs : P.Sound l w σ ρ) => eval_objs hF hlen r none
      (k + (exprWords l none).length) ((P.place l σ ρ).1 :: w) (P.place l σ ρ).2
      ((P.toFrame.eval l ρ).1 :: s) (P.toFrame.eval l ρ).2 hkr hw.left.left.right (hc.2 hs.1) trivial
    have hwo : CodeAt code (k + (exprWords l none).length + (exprWords r none).length)
        [(cmp op).code] :=
      hw.left.right.cast (by simp; omega)
    have hn : k + (exprWords (.cond (.cmp op) l r) (some d)).length =
        k + (exprWords l none).length + (exprWords r none).length + 1 +
          (endWords (some d)).length := by
      simp [exprWords, endWords]
      omega
    have hend := (hl.trans fun hs h₁ => (hr hs h₁).trans fun _ h₂ => cmp_objs hF hwo h₂).atEnd
      (b := P.Sound (.cond (.cmp op) l r) w σ ρ) (by
        simp only [Sound, Frame.arithDefined, Kept, Bool.and_eq_true]
        grind) hF hn (hw.right.cast (by simp; omega)) hj
    -- the jump tests the result itself, the value is the constant that it selects
    simpa only [Frame.eval, place, afterObj, afterStack, Frame.issdlTest_boolVar] using
      hend
  | .cond (.cmp op) l r, none, k, w, σ, s, ρ, hk, hw, hc, hj, h => by
    have hw' := hw.left.left
    have hl := eval_objs hF hlen l none k w σ s ρ hk hw'.left.left hc.1 trivial h
    have hkr := hw'.left.left.length_le hk
    have hr := fun (hs : P.Sound l w σ ρ) => eval_objs hF hlen r none
      (k + (exprWords l none).length) ((P.place l σ ρ).1 :: w) (P.place l σ ρ).2
      ((P.toFrame.eval l ρ).1 :: s) (P.toFrame.eval l ρ).2 hkr hw'.left.right (hc.2 hs.1) trivial
    obtain ⟨q, hq⟩ : ∃ q, q = k + (exprWords l none).length + (exprWords r none).length := ⟨_, rfl⟩
    rw [← hq] at hr
    have hwo : CodeAt code q [(cmp op).code] := hw'.right.cast (by simp; omega)
    have hwj : CodeAt code (q + 1) (endWords (some (0, 4))) :=
      hw.left.right.cast (by simp; omega)
    have hwb : CodeAt code (q + 5) boolWords := hw.right.cast (by simp [jumpWords]; omega)
    have hlb := hw.length_le hk
    simp [exprWords, jumpWords, boolWords] at hlb
    have hn : k + (exprWords (.cond (.cmp op) l r) none).length = q + 5 + 6 := by
      simp [exprWords, jumpWords, boolWords]
      omega
    have hjump := (hl.trans fun hs h₁ => (hr hs h₁).trans fun _ h₂ => cmp_objs hF hwo h₂).atEnd
      (b := P.Sound (.cond (.cmp op) l r) w σ ρ) (by
        simp only [Sound, Frame.arithDefined, Kept, Bool.and_eq_true]
        grind) hF rfl hwj ⟨by simp [endWords, jumpWords]; omega, by simp [endWords, jumpWords]; omega⟩
    have hend := hjump.andThen fun h₃ => boolWords_objs hF hlen hwb (by omega) _ h₃
    rw [hn]
    exact hend
  | .cond .andand l r, pos, k, w, σ, s, ρ, hk, hw, hc, hj, h => by
    have hlb := hw.left.length_le hk
    obtain ⟨q, hq⟩ : ∃ q, q = k + (exprWords l (some (0, (exprWords r (some (0, 4))).length + 4))).length :=
      ⟨_, rfl⟩
    obtain ⟨q', hq'⟩ : ∃ q', q' = q + (exprWords r (some (0, 4))).length := ⟨_, rfl⟩
    simp [boolWords, ← Nat.add_assoc, ← hq, ← hq'] at hlb
    have hl := eval_objs hF hlen l _ k w σ s ρ hk hw.left.left.left hc.1 ⟨by omega, by omega⟩ h
    rw [← hq] at hl
    have hwb : CodeAt code q' boolWords := hw.left.right.cast (by simp; omega)
    have hn : k + (exprWords (.cond .andand l r) pos).length =
        q' + 6 + (endWords pos).length := by
      simp [exprWords, boolWords]
      omega
    have hwe : CodeAt code (q' + 6) (endWords pos) := hw.right.cast (by simp [boolWords]; omega)
    cases ha : issdlTest (P.toFrame.eval l ρ).1 with
    | true =>
      have hr := fun (hs : P.Sound l w σ ρ) => eval_objs hF hlen r (some (0, 4)) q w
        (P.place l σ ρ).2 s (P.toFrame.eval l ρ).2 (by omega)
        (hw.left.left.right.cast hq.symm) (hc.2 hs.1 ha) ⟨by omega, by omega⟩
      simp only [← hq'] at hr
      simp only [afterObj, ha] at hl
      have := ((hl.trans hr).andThen fun h₂ => boolWords_objs hF hlen hwb (by omega) _ h₂).atEnd
        (b := P.Sound (.cond .andand l r) w σ ρ) (by
          simp [Sound, Frame.arithDefined, Kept, ha]
          grind) hF hn hwe hj
      simpa [Frame.eval, place, ha] using this
    | false =>
      simp only [afterObj, ha, Bool.false_eq_true, if_false] at hl
      rw [show q + ((exprWords r (some (0, 4))).length + 4) = q' + 4 by omega] at hl
      have := (hl.andThen fun h₁ => boolWords_objs hF hlen hwb (by omega) false h₁).atEnd
        (b := P.Sound (.cond .andand l r) w σ ρ) (by simp [Sound, Frame.arithDefined, Kept, ha])
        hF hn hwe hj
      simpa [Frame.eval, place, ha] using this
  | .cond .oror l r, pos, k, w, σ, s, ρ, hk, hw, hc, hj, h => by
    have hlb := hw.left.length_le hk
    obtain ⟨q, hq⟩ : ∃ q, q = k + (exprWords l (some ((exprWords r (some (0, 4))).length, 0))).length :=
      ⟨_, rfl⟩
    obtain ⟨q', hq'⟩ : ∃ q', q' = q + (exprWords r (some (0, 4))).length := ⟨_, rfl⟩
    simp [boolWords, ← Nat.add_assoc, ← hq, ← hq'] at hlb
    have hl := eval_objs hF hlen l _ k w σ s ρ hk hw.left.left.left hc.1 ⟨by omega, by omega⟩ h
    rw [← hq] at hl
    have hwb : CodeAt code q' boolWords := hw.left.right.cast (by simp; omega)
    have hn : k + (exprWords (.cond .oror l r) pos).length =
        q' + 6 + (endWords pos).length := by
      simp [exprWords, boolWords]
      omega
    have hwe : CodeAt code (q' + 6) (endWords pos) := hw.right.cast (by simp [boolWords]; omega)
    cases ha : issdlTest (P.toFrame.eval l ρ).1 with
    | true =>
      simp only [afterObj, ha, if_true, ← hq'] at hl
      have := (hl.andThen fun h₁ => boolWords_objs hF hlen hwb (by omega) true h₁).atEnd
        (b := P.Sound (.cond .oror l r) w σ ρ) (by simp [Sound, Frame.arithDefined, Kept, ha])
        hF hn hwe hj
      simpa [Frame.eval, place, ha] using this
    | false =>
      have hr := fun (hs : P.Sound l w σ ρ) => eval_objs hF hlen r (some (0, 4)) q w
        (P.place l σ ρ).2 s (P.toFrame.eval l ρ).2 (by omega)
        (hw.left.left.right.cast hq.symm) (hc.2 hs.1 ha) ⟨by omega, by omega⟩
      simp only [← hq'] at hr
      simp only [afterObj, ha] at hl
      have := ((hl.trans hr).andThen fun h₂ => boolWords_objs hF hlen hwb (by omega) _ h₂).atEnd
        (b := P.Sound (.cond .oror l r) w σ ρ) (by
          simp [Sound, Frame.arithDefined, Kept, ha]
          grind) hF hn hwe hj
      simpa [Frame.eval, place, ha] using this
  | .call f ps, pos, k, w, σ, s, ρ, hk, hw, hc, hj, h => by
    have hps := evalParams_objs hF hlen ps k w σ s ρ hk hw.left.left hc.1 h
    have hn : k + (exprWords (.call f ps) pos).length =
        k + (paramsWords ps).length + 2 + (endWords pos).length := by
      simp [exprWords]
      omega
    refine (hps.trans (b := True) fun hs h₁ => ?_).atEnd (and_true _ ▸ Iff.rfl) hF hn
      (hw.right.cast (by simp; omega)) hj
    have hlen₁ : (P.placeParams ps σ ρ).1.length = (P.toFrame.evalParams ps ρ).1.length := by
      rw [length_placeParams, Frame.length_evalParams]
    have hstack := h₁.stack
    simp only [List.map_append] at hstack
    obtain ⟨hargs, hrest⟩ := List.append_inj hstack (by simp [hlen₁])
    exact call_objs hF hw.left.right ((hc.2 hs.1).trans (length_placeParams ps).symm) hargs
      { h₁ with stack := hrest }

/-- The code of the parameters of a call pushes their values, or loses one. -/
theorem evalParams_objs (hF : P.bytecode = code ++ rest) (hlen : code.length < wordSize) :
    ∀ (es : List Expr) (k : Nat) (w : List (Option Nat)) (σ : Store V) (s : List (Option V))
      (ρ : Env V),
      k ≤ code.length → CodeAt code k (paramsWords es) → P.toFrame.CallsMadeParams es ρ →
      P.Holds w σ s ρ →
      P.Runs code.length ⟨k, w, σ⟩ (P.SoundParams es w σ ρ)
        ⟨k + (paramsWords es).length, (P.placeParams es σ ρ).1 ++ w, (P.placeParams es σ ρ).2⟩
        ((P.toFrame.evalParams es ρ).1 ++ s) (P.toFrame.evalParams es ρ).2
  | [], k, w, σ, s, ρ, _, _, _, h =>
    (Runs.refl h).congr (by simp [SoundParams, Frame.arithDefinedParams, KeptParams])
  | e :: es, k, w, σ, s, ρ, hk, hw, hc, h => by
    have hps := evalParams_objs hF hlen es k w σ s ρ hk hw.left hc.1 h
    have hke := hw.left.length_le hk
    have hn : k + (paramsWords (e :: es)).length =
        k + (paramsWords es).length + (exprWords e none).length := by
      simp [paramsWords]
      omega
    rw [hn]
    have he := hps.trans fun hs h₁ => eval_objs hF hlen e none (k + (paramsWords es).length)
      ((P.placeParams es σ ρ).1 ++ w) (P.placeParams es σ ρ).2 _ (P.toFrame.evalParams es ρ).2 hke
      hw.right (hc.2 hs.1) trivial h₁
    refine he.congr ?_
    simp only [SoundParams, Sound, Frame.arithDefinedParams, KeptParams, Bool.and_eq_true]
    grind

end

/-! ## The compiled expression -/

end ObjFrame

/-! ## Two conditions -/

end Orchids
