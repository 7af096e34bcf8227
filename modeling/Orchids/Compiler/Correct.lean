import Orchids.Compiler.Eval
import Orchids.Ovm.Run
import Orchids.Ovm.Value
import Orchids.Compiler.Layout

/-!
# The code of an expression computes its value

* `eval_runs`: `exprWords` computes the value of the expression, or crashes at an arithmetic
  operator; one case for each node and each position.
* `compileBytecodeExpr_runs`: the same for the code that the compiler leaves in the buffer.
-/

namespace Orchids

open Opcode Orchids.Frame

section

variable {V : Type} [Issdl V] {F : Frame V} {code rest : List Nat} {p : Nat}
  {s : List (Option V)} {ρ : Env V}

/-- The state after an expression with value `v`: pushed in value position, tested in jump
position. -/
def after (pos : Option (Nat × Nat)) (q : Nat) (v : Option V) (s : List (Option V))
    (ρ : Env V) : Machine V :=
  match pos with
  | none => ⟨q, v :: s, ρ⟩
  | some (dThen, dElse) => ⟨q + if issdlTest v then dThen else dElse, s, ρ⟩

/-- The jumps of a position at `q` do not wrap around. -/
def NoWrap (q : Nat) : Option (Nat × Nat) → Prop
  | none => True
  | some (dThen, dElse) => q + dThen < wordSize ∧ q + dElse < wordSize

theorem endWords_runs (hF : F.bytecode = code ++ rest)
    {pos : Option (Nat × Nat)} (hw : CodeAt code p (endWords pos))
    (hj : NoWrap (p + (endWords pos).length) pos) (v : Option V) :
    F.Runs code.length ⟨p, v :: s, ρ⟩ true (after pos (p + (endWords pos).length) v s ρ) := by
  cases pos with
  | none => exact Frame.Runs.refl _
  | some d =>
    obtain ⟨dThen, dElse⟩ := d
    obtain ⟨hth, hel⟩ := hj
    simp only [endWords, jumpWords, List.length_cons, List.length_nil] at hw hth hel ⊢
    have h := popcjmp_runs (s := s) (ρ := ρ) hF hw (by omega) v
    cases hv : issdlTest v with
    | true =>
      rw [hv, if_pos rfl] at h
      rw [show after (some (dThen, dElse)) (p + 4) v s ρ = ⟨p + 2 + (dThen + 2), s, ρ⟩ by
        simp [after, hv]; omega]
      exact h
    | false =>
      rw [hv] at h
      have h' := jmp_runs (s := s) (ρ := ρ) hF (p := p + 2) hw.tail.tail (by omega)
      rw [show after (some (dThen, dElse)) (p + 4) v s ρ = ⟨p + 2 + 2 + dElse, s, ρ⟩ by
        simp [after, hv]]
      exact h.andThen h'

/-- The two constants, from the one that `t` selects. -/
theorem boolWords_runs (hF : F.bytecode = code ++ rest) (hlen : code.length < wordSize)
    (hw : CodeAt code p boolWords) (hp : p ≤ code.length) (t : Bool) :
    F.Runs code.length ⟨p + if t then 0 else 4, s, ρ⟩ true ⟨p + 6, F.boolVar t :: s, ρ⟩ := by
  have hlen' := hw.length_le hp
  simp only [boolWords, List.length_cons, List.length_nil] at hlen'
  cases t with
  | true =>
    have h := pushstatic_runs (s := s) (ρ := ρ) hF hw
    exact h.andThen (jmp_runs hF (p := p + 2) hw.tail.tail (by omega))
  | false => exact pushstatic_runs hF (p := p + 4) hw.tail.tail.tail.tail

/-- The value, then the end of the position. -/
theorem Frame.Runs.atEnd {m : Machine V} {ok : Bool} {q : Nat} {v : Option V}
    (h : F.Runs code.length m ok ⟨q, v :: s, ρ⟩) (hF : F.bytecode = code ++ rest)
    {pos : Option (Nat × Nat)} {n : Nat}
    (hn : n = q + (endWords pos).length) (hw : CodeAt code q (endWords pos))
    (hj : NoWrap n pos) : F.Runs code.length m ok (after pos n v s ρ) := by
  subst hn
  exact h.andThen (endWords_runs hF hw hj v)

mutual

/-- The code of an expression computes its value, or crashes at an arithmetic operator. -/
theorem eval_runs (hF : F.bytecode = code ++ rest) (hlen : code.length < wordSize) :
    ∀ (e : Expr) (pos : Option (Nat × Nat)) (p : Nat) (s : List (Option V)) (ρ : Env V),
      p ≤ code.length → CodeAt code p (exprWords e pos) → F.CallsMade e ρ →
      NoWrap (p + (exprWords e pos).length) pos →
      F.Runs code.length ⟨p, s, ρ⟩ (F.arithDefined e ρ)
        (after pos (p + (exprWords e pos).length) (F.eval e ρ).1 s
          (F.eval e ρ).2)
  | .const c, pos, p, s, ρ, _, hw, _, hj =>
    (pushstatic_runs hF hw.left).atEnd hF (by simp [exprWords]; omega) hw.right hj
  | .var x, pos, p, s, ρ, _, hw, _, hj =>
    (push_runs hF hw.left).atEnd hF (by simp [exprWords]; omega) hw.right hj
  | .field f, pos, p, s, ρ, _, hw, _, hj =>
    (pushfield_runs hF hw.left).atEnd hF (by simp [exprWords]; omega) hw.right hj
  | .assoc x e, pos, p, s, ρ, hp, hw, hc, hj => by
    have h := eval_runs hF hlen e none p s ρ hp hw.left.left hc trivial
    obtain ⟨q, hq⟩ : ∃ q, q = p + (exprWords e none).length := ⟨_, rfl⟩
    rcases he : F.eval e ρ with ⟨v, ρ₁⟩
    rw [he, ← hq] at h
    have hw₁ : CodeAt code q [pop.code, x, push.code, x] := hw.left.right.cast hq.symm
    have h₁ := pop_runs (s := s) (ρ := ρ₁) hF hw₁ v
    have h₂ := push_runs (s := s) (ρ := Function.update ρ₁ x v) hF (p := q + 2) hw₁.tail.tail
    have hn : p + (exprWords (.assoc x e) pos).length = q + 4 + (endWords pos).length := by
      simp [exprWords]
      omega
    have := ((h.andThen h₁).andThen h₂).atEnd hF hn
      (hw.right.cast (by simp; omega)) hj
    simpa only [eval, he, arithDefined] using this
  | .binop op l r, pos, p, s, ρ, hp, hw, hc, hj => by
    have hl := eval_runs hF hlen l none p s ρ hp hw.left.left.left hc.1 trivial
    obtain ⟨q, hq⟩ : ∃ q, q = p + (exprWords l none).length := ⟨_, rfl⟩
    have hql := hw.left.left.left.length_le hp
    rcases hel : F.eval l ρ with ⟨a, ρ₁⟩
    rw [hel, ← hq] at hl
    have hcr : F.arithDefined l ρ = true → F.CallsMade r ρ₁ := fun hd => by
      have := hc.2 hd
      rwa [hel] at this
    have hr := fun hd => eval_runs hF hlen r none q (a :: s) ρ₁ (by omega)
      (hw.left.left.right.cast hq.symm) (hcr hd) trivial
    obtain ⟨q', hq'⟩ : ∃ q', q' = q + (exprWords r none).length := ⟨_, rfl⟩
    rcases her : F.eval r ρ₁ with ⟨b, ρ₂⟩
    simp only [her, ← hq'] at hr
    have ho := arith_runs hF (s := s) (ρ := ρ₂)
      (hw.left.right.cast (q := q') (by simp; omega)) a b
    have hn : p + (exprWords (.binop op l r) pos).length = q' + 1 + (endWords pos).length := by
      simp [exprWords]
      omega
    have := (hl.trans fun hd => (hr hd).trans fun _ => ho).atEnd hF hn
      (hw.right.cast (by simp; omega)) hj
    simpa only [eval, hel, her, arithDefined] using this
  | .cond (.cmp op) l r, some d, p, s, ρ, hp, hw, hc, hj => by
    have hl := eval_runs hF hlen l none p s ρ hp hw.left.left.left hc.1 trivial
    obtain ⟨q, hq⟩ : ∃ q, q = p + (exprWords l none).length := ⟨_, rfl⟩
    have hql := hw.left.left.left.length_le hp
    rcases hel : F.eval l ρ with ⟨a, ρ₁⟩
    rw [hel, ← hq] at hl
    have hcr : F.arithDefined l ρ = true → F.CallsMade r ρ₁ := fun hd => by
      have := hc.2 hd
      rwa [hel] at this
    have hr := fun hd => eval_runs hF hlen r none q (a :: s) ρ₁ (by omega)
      (hw.left.left.right.cast hq.symm) (hcr hd) trivial
    obtain ⟨q', hq'⟩ : ∃ q', q' = q + (exprWords r none).length := ⟨_, rfl⟩
    rcases her : F.eval r ρ₁ with ⟨b, ρ₂⟩
    simp only [her, ← hq'] at hr
    have ho := cmp_runs hF (s := s) (ρ := ρ₂)
      (hw.left.right.cast (q := q') (by simp; omega)) a b
    have hn : p + (exprWords (.cond (.cmp op) l r) (some d)).length =
        q' + 1 + (endWords (some d)).length := by
      simp [exprWords, endWords]
      omega
    have := ((hl.trans hr).andThen ho).atEnd hF hn
      (hw.right.cast (by simp; omega)) hj
    -- the jump tests the result itself, the value is the constant that it selects
    simpa only [eval, hel, her, arithDefined, after, issdlTest_boolVar] using this
  | .cond (.cmp op) l r, none, p, s, ρ, hp, hw, hc, hj => by
    have hw' := hw.left.left
    have hl := eval_runs hF hlen l none p s ρ hp hw'.left.left hc.1 trivial
    obtain ⟨q, hq⟩ : ∃ q, q = p + (exprWords l none).length := ⟨_, rfl⟩
    have hql := hw'.left.left.length_le hp
    rcases hel : F.eval l ρ with ⟨a, ρ₁⟩
    rw [hel, ← hq] at hl
    have hcr : F.arithDefined l ρ = true → F.CallsMade r ρ₁ := fun hd => by
      have := hc.2 hd
      rwa [hel] at this
    have hr := fun hd => eval_runs hF hlen r none q (a :: s) ρ₁ (by omega)
      (hw'.left.right.cast hq.symm) (hcr hd) trivial
    obtain ⟨q', hq'⟩ : ∃ q', q' = q + (exprWords r none).length := ⟨_, rfl⟩
    rcases her : F.eval r ρ₁ with ⟨b, ρ₂⟩
    simp only [her, ← hq'] at hr
    have ho := cmp_runs hF (s := s) (ρ := ρ₂)
      (hw'.right.cast (q := q') (by simp; omega)) a b
    have hwj : CodeAt code (q' + 1) (endWords (some (0, 4))) :=
      hw.left.right.cast (by simp; omega)
    have hwb : CodeAt code (q' + 5) boolWords :=
      hw.right.cast (by simp [jumpWords]; omega)
    have hlb := hw.length_le hp
    simp [exprWords, jumpWords, boolWords] at hlb
    have hj' : NoWrap (q' + 5) (some (0, 4)) := ⟨by omega, by omega⟩
    have hb := boolWords_runs hF hlen (s := s) (ρ := ρ₂) hwb (by omega)
      (issdlTest (F.cmpResult op a b))
    have := (((hl.trans hr).andThen ho).atEnd hF rfl hwj hj').andThen hb
    have hn : p + (exprWords (.cond (.cmp op) l r) none).length = q' + 5 + 6 := by
      simp [exprWords, jumpWords, boolWords]
      omega
    simpa only [eval, hel, her, arithDefined, after, hn] using this
  | .cond .andand l r, pos, p, s, ρ, hp, hw, hc, hj => by
    have hwl := hw.left.left.left
    have hlb := hw.left.length_le hp
    obtain ⟨q, hq⟩ : ∃ q, q = p + (exprWords l (some (0, (exprWords r (some (0, 4))).length + 4))).length :=
      ⟨_, rfl⟩
    obtain ⟨q', hq'⟩ : ∃ q', q' = q + (exprWords r (some (0, 4))).length := ⟨_, rfl⟩
    simp [boolWords, ← Nat.add_assoc, ← hq, ← hq'] at hlb
    have hl := eval_runs hF hlen l _ p s ρ hp hwl hc.1 ⟨by omega, by omega⟩
    rcases hel : F.eval l ρ with ⟨a, ρ₁⟩
    rw [hel, ← hq] at hl
    have hwb : CodeAt code q' boolWords := hw.left.right.cast (by simp; omega)
    have hn : p + (exprWords (.cond .andand l r) pos).length =
        q' + 6 + (endWords pos).length := by
      simp [exprWords, boolWords]
      omega
    have hwe : CodeAt code (q' + 6) (endWords pos) := hw.right.cast (by simp [boolWords]; omega)
    cases ha : issdlTest a with
    | true =>
      have hcr : F.arithDefined l ρ = true → F.CallsMade r ρ₁ := fun hd => by
        have := hc.2 hd
        rw [hel] at this
        exact this ha
      have hr := fun hd => eval_runs hF hlen r (some (0, 4)) q s ρ₁ (by omega)
        (hw.left.left.right.cast hq.symm) (hcr hd) ⟨by omega, by omega⟩
      rcases her : F.eval r ρ₁ with ⟨b, ρ₂⟩
      simp only [her, ← hq'] at hr
      have hb := boolWords_runs hF hlen (s := s) (ρ := ρ₂) hwb (by omega) (issdlTest b)
      simp only [after, ha] at hl
      have := ((hl.trans hr).andThen hb).atEnd hF hn hwe hj
      simpa [eval, hel, her, arithDefined, ha] using this
    | false =>
      have hb := boolWords_runs hF hlen (s := s) (ρ := ρ₁) hwb (by omega) false
      simp only [after, ha, Bool.false_eq_true, if_false] at hl hb
      rw [show q + ((exprWords r (some (0, 4))).length + 4) = q' + 4 by omega] at hl
      have := (hl.andThen hb).atEnd hF hn hwe hj
      simpa [eval, hel, arithDefined, ha] using this
  | .cond .oror l r, pos, p, s, ρ, hp, hw, hc, hj => by
    have hwl := hw.left.left.left
    have hlb := hw.left.length_le hp
    obtain ⟨q, hq⟩ : ∃ q, q = p + (exprWords l (some ((exprWords r (some (0, 4))).length, 0))).length :=
      ⟨_, rfl⟩
    obtain ⟨q', hq'⟩ : ∃ q', q' = q + (exprWords r (some (0, 4))).length := ⟨_, rfl⟩
    simp [boolWords, ← Nat.add_assoc, ← hq, ← hq'] at hlb
    have hl := eval_runs hF hlen l _ p s ρ hp hwl hc.1 ⟨by omega, by omega⟩
    rcases hel : F.eval l ρ with ⟨a, ρ₁⟩
    rw [hel, ← hq] at hl
    have hwb : CodeAt code q' boolWords := hw.left.right.cast (by simp; omega)
    have hn : p + (exprWords (.cond .oror l r) pos).length =
        q' + 6 + (endWords pos).length := by
      simp [exprWords, boolWords]
      omega
    have hwe : CodeAt code (q' + 6) (endWords pos) := hw.right.cast (by simp [boolWords]; omega)
    cases ha : issdlTest a with
    | true =>
      have hb := boolWords_runs hF hlen (s := s) (ρ := ρ₁) hwb (by omega) true
      simp only [after, ha, if_true, ← hq'] at hl
      have := (hl.andThen hb).atEnd hF hn hwe hj
      simpa [eval, hel, arithDefined, ha] using this
    | false =>
      have hcr : F.arithDefined l ρ = true → F.CallsMade r ρ₁ := fun hd => by
        have := hc.2 hd
        rw [hel] at this
        exact this ha
      have hr := fun hd => eval_runs hF hlen r (some (0, 4)) q s ρ₁ (by omega)
        (hw.left.left.right.cast hq.symm) (hcr hd) ⟨by omega, by omega⟩
      rcases her : F.eval r ρ₁ with ⟨b, ρ₂⟩
      simp only [her, ← hq'] at hr
      have hb := boolWords_runs hF hlen (s := s) (ρ := ρ₂) hwb (by omega) (issdlTest b)
      simp only [after, ha] at hl
      have := ((hl.trans hr).andThen hb).atEnd hF hn hwe hj
      simpa [eval, hel, her, arithDefined, ha] using this
  | .call f ps, pos, p, s, ρ, hp, hw, hc, hj => by
    have hps := evalParams_runs hF hlen ps p s ρ hp hw.left.left hc.1
    obtain ⟨q, hq⟩ : ∃ q, q = p + (paramsWords ps).length := ⟨_, rfl⟩
    rcases he : F.evalParams ps ρ with ⟨args, ρ₁⟩
    have hargs : args.length = ps.length := by
      have := F.length_evalParams ps ρ
      rwa [he] at this
    rw [he, ← hq] at hps
    have hwc : CodeAt code q [call.code, f] := hw.left.right.cast hq.symm
    have h := fun hd => call_runs (s := s) (ρ := ρ₁) hF hwc ((hc.2 hd).trans hargs.symm)
    have := (hps.trans h).atEnd hF (n := p + (exprWords (.call f ps) pos).length)
      (by simp [exprWords]; omega) (hw.right.cast (by simp; omega)) hj
    simpa only [eval, he, arithDefined, Bool.and_true] using this

/-- The code of the parameters of a call pushes their values. -/
theorem evalParams_runs (hF : F.bytecode = code ++ rest) (hlen : code.length < wordSize) :
    ∀ (ps : List Expr) (p : Nat) (s : List (Option V)) (ρ : Env V),
      p ≤ code.length → CodeAt code p (paramsWords ps) → F.CallsMadeParams ps ρ →
      F.Runs code.length ⟨p, s, ρ⟩ (F.arithDefinedParams ps ρ)
        ⟨p + (paramsWords ps).length, (F.evalParams ps ρ).1 ++ s,
          (F.evalParams ps ρ).2⟩
  | [], p, s, ρ, _, _, _ => Frame.Runs.refl _
  | e :: ps, p, s, ρ, hp, hw, hc => by
    have hps := evalParams_runs hF hlen ps p s ρ hp hw.left hc.1
    obtain ⟨q, hq⟩ : ∃ q, q = p + (paramsWords ps).length := ⟨_, rfl⟩
    have hql := hw.left.length_le hp
    rcases hes : F.evalParams ps ρ with ⟨args, ρ₁⟩
    rw [hes, ← hq] at hps
    have hce : F.arithDefinedParams ps ρ = true → F.CallsMade e ρ₁ := fun hd => by
      have := hc.2 hd
      rwa [hes] at this
    have he := fun hd => eval_runs hF hlen e none q (args ++ s) ρ₁ (by omega)
      (hw.right.cast hq.symm) (hce hd) trivial
    have hn : p + (paramsWords (e :: ps)).length = q + (exprWords e none).length := by
      simp [paramsWords]
      omega
    have := hps.trans he
    simpa only [evalParams, hes, arithDefinedParams, hn, after, List.cons_append] using this

end

end

/-! ## The compiled expression -/

/-- Where the code that `compile_bytecode_expr` writes for `e` from position `b₀.pos` on lies, with
its labels set. -/
theorem compileBytecodeExpr_codeAt {e : Expr} {b₀ b : Buffer} {ws : List Sym}
    (h₀ : Emits Buffer.init b₀ ws) (h : compileBytecodeExpr e b₀ = .ok b) :
    (compileSetLabels b).length = b.pos ∧ b.pos < wordSize ∧
      CodeAt (compileSetLabels b) b₀.pos (exprWords e none) ∧
      b₀.pos + (exprWords e none).length = b.pos := by
  have hb₀ : b₀.pos ≤ bytecodeBufSz := h₀.bound (by decide)
  have hl := (compileBytecode_laid e none h hb₀).value
  obtain ⟨ws', he, hr⟩ := hl.code
  have hp₀ : b₀.pos = ws.length := by simpa [Buffer.init, Buffer.pos] using h₀.pos_eq
  have hcode : compileSetLabels b = resolve b.labels 0 ws ++ exprWords e none := by
    rw [compileSetLabels_eq (h₀.trans he), resolve_append, Nat.zero_add, ← hp₀]
    rw [hr b.labels fun _ _ => rfl]
  have hlen : (compileSetLabels b).length = b.pos := by
    rw [hcode, List.length_append, length_resolve, he.pos_eq, hp₀]
    have := congrArg List.length (hr b.labels fun _ _ => rfl)
    rw [length_resolve] at this
    omega
  refine ⟨hlen, lt_of_le_of_lt (hl.bound hb₀) (by decide), ?_, ?_⟩
  · rw [hcode, CodeAt, hp₀, ← length_resolve b.labels 0 ws, List.drop_left]
  · rw [← hlen, hcode, List.length_append, length_resolve, hp₀]

/-- That code in front of any words computes the value of `e`, or crashes before its end. -/
theorem compileBytecodeExpr_runs {V : Type} [Issdl V] (F : Frame V)
    (e : Expr) (b₀ b : Buffer) (ws : List Sym)
    (rest : List Nat) (h₀ : Emits Buffer.init b₀ ws) (h : compileBytecodeExpr e b₀ = .ok b)
    (hF : F.bytecode = compileSetLabels b ++ rest) (s : List (Option V)) (ρ : Env V)
    (hc : F.CallsMade e ρ) :
    F.Runs b.pos ⟨b₀.pos, s, ρ⟩ (F.arithDefined e ρ)
      ⟨b.pos, (F.eval e ρ).1 :: s, (F.eval e ρ).2⟩ := by
  obtain ⟨hlen, hlt, hw, hpos⟩ := compileBytecodeExpr_codeAt h₀ h
  have hruns := eval_runs hF (hlen ▸ hlt) e none b₀.pos s ρ (by omega) hw hc trivial
  rwa [after, hpos, hlen] at hruns

/-- The buffer with the code of `e` alone. -/
def exprBuffer (e : Expr) : Buffer := (compileBytecodeExpr e Buffer.init).toOption.getD Buffer.init

/-- A transition with the condition `e` in a rule with the constant 7 and a built-in of one
parameter, at an event without fields. -/
def exprFrame (e : Expr) : Frame Val where
  bytecode := compileSetLabels (exprBuffer e) ++ [opEnd]
  inheritEnv := fun _ => none
  staticEnv := valStaticEnv [.int 7]
  fields := fun _ => none
  argsNb := fun _ => 1
  builtin := fun _ _ => some (.int 3)

/-- `($0 = f($1) + 7) && 7 < $0`. -/
def callExpr : Expr :=
  .cond .andand (.assoc 0 (.binop .add (.call 0 [.var 1]) (.const 5)))
    (.cond (.cmp .clt) (.const 5) (.var 0))

end Orchids
