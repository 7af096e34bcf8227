import Orchids.Ovm.Accesses

/-!
# Where the values of an execution come from

A value on the stack or in an environment is a pointer that some instruction has pushed: to a
static value, a bound value, a field, or a new value.

* `Frame.Closed`: a property of values that every instruction hands on.
* `Closed.traces`: then an execution gives no other values to the stack and to the variables.
* `Origins`: the event that a value belongs to.
-/

namespace Orchids

open Scopes

variable {V : Type} [Issdl V]

/-! ## Properties of all values -/

/-- What the frame gives has the property `P`, and so have results for operands that have it. -/
structure Frame.Closed (F : Frame V) (P : V → Prop) : Prop where
  static : ∀ n v, F.staticEnv.get n = some v → P v
  inherit : ∀ n v, F.inheritEnv n = some v → P v
  field : ∀ n v, F.fields n = some v → P v
  arith : ∀ op v w x, P v → P w → Issdl.arith op v w = some x → P x
  regsplit : ∀ p v l, P p → P v → Issdl.regsplit p v = some l → ∀ x ∈ l, P x
  builtin : ∀ n args x, (∀ v, some v ∈ args → P v) → F.builtin n args = some x → P x

/-- The operands and the bound values have the property `P`. -/
structure Machine.All (P : V → Prop) (m : Machine V) : Prop where
  stack : ∀ v, some v ∈ m.stack → P v
  env : ∀ n v, m.currentEnv n = some v → P v

omit [Issdl V] in
theorem stackPop_mem {s : List (Option V)} {v : V} (h : (stackPop s).1 = some v) : some v ∈ s := by
  cases s with
  | nil => cases h
  | cons w s => exact h ▸ List.mem_cons_self

omit [Issdl V] in
theorem mem_of_mem_stackPop {s : List (Option V)} {v : Option V} (h : v ∈ (stackPop s).2) : v ∈ s := by
  cases s with
  | nil => cases h
  | cons w s => exact List.mem_cons_of_mem w h

omit [Issdl V] in
/-- The operands of a call and what is under them were on the stack. -/
theorem mem_of_mem_stackPopN {n : Nat} {s : List (Option V)} {v : V} :
    (some v ∈ (stackPopN n s).1 → some v ∈ s) ∧ (some v ∈ (stackPopN n s).2 → some v ∈ s) := by
  induction n generalizing s with
  | zero => exact ⟨fun h => (List.not_mem_nil h).elim, id⟩
  | succ n ih =>
    refine ⟨fun h => ?_, fun h => mem_of_mem_stackPop (ih.2 h)⟩
    rcases List.mem_cons.mp h with h | h
    · exact stackPop_mem h.symm
    · exact mem_of_mem_stackPop (ih.1 h)

omit [Issdl V] in
/-- A value is pushed on operands that were there. -/
theorem Machine.All.push {P : V → Prop} {m : Machine V} {s : List (Option V)} {w : Option V} (hm : m.All P) (hs : ∀ v ∈ s, v ∈ m.stack)
    (hw : ∀ v, w = some v → P v) (ip : Nat) : Machine.All P { m with ip := ip, stack := w :: s } where
  stack v hv := by
    rcases List.mem_cons.mp hv with hv | hv
    · exact hw v hv.symm
    · exact hm.stack v (hs _ hv)
  env := hm.env

omit [Issdl V] in
/-- Operands are popped. -/
theorem Machine.All.popped {P : V → Prop} {m : Machine V} {s : List (Option V)} (hm : m.All P) (hs : ∀ v ∈ s, v ∈ m.stack) (ip : Nat) :
    Machine.All P { m with ip := ip, stack := s } :=
  ⟨fun v hv => hm.stack v (hs _ hv), hm.env⟩

namespace Frame.Closed

variable {F : Frame V} {P : V → Prop} {m m' : Machine V}

theorem nullVar (h : F.Closed P) {v : V} (hv : F.nullVar = some v) : P v := h.static _ _ hv

theorem arithResult (h : F.Closed P) {op : ArithOp} {a b : Option V} {v : V}
    (ha : ∀ x, a = some x → P x) (hb : ∀ x, b = some x → P x)
    (hv : F.arithResult op a b = some v) : P v := by
  unfold Frame.arithResult at hv
  cases a with
  | none => exact h.nullVar hv
  | some x =>
    cases b with
    | none => exact h.nullVar hv
    | some y =>
      simp only at hv
      split at hv
      · exact h.nullVar hv
      · split at hv
        · rename_i w hw
          exact Option.some.inj hv ▸ h.arith op x y w (ha x rfl) (hb y rfl) hw
        · exact h.nullVar hv

/-- The result of a comparison is static. -/
theorem cmpResult (h : F.Closed P) {op : CmpOp} {a b : Option V} {v : V}
    (hv : F.cmpResult op a b = some v) : P v := by
  unfold Frame.cmpResult at hv
  cases a with
  | none => exact h.nullVar hv
  | some x =>
    cases b with
    | none => exact h.nullVar hv
    | some y =>
      simp only at hv
      split at hv
      · exact h.nullVar hv
      · split at hv
        · exact h.static _ _ hv
        · split at hv <;> exact h.static _ _ hv
        · split at hv <;> exact h.static _ _ hv
        · exact h.static _ _ hv

theorem regsplitResult (h : F.Closed P) {a b : Option V} {l : List V}
    (ha : ∀ x, a = some x → P x) (hb : ∀ x, b = some x → P x)
    (hl : regsplitResult a b = some l) : ∀ v ∈ l, P v := by
  unfold Orchids.Frame.regsplitResult at hl
  split at hl
  · cases hl
    exact fun v hv => (List.not_mem_nil hv).elim
  · split at hl
    · cases hl
    · split at hl
      · cases hl
      · cases hl
        exact fun v hv => (List.not_mem_nil hv).elim
    · rename_i p s _
      cases hr : Issdl.regsplit p s with
      | none =>
        rw [hr] at hl
        cases hl
        exact fun v hv => (List.not_mem_nil hv).elim
      | some groups =>
        simp only [hr, Option.getD_some, Option.ite_none_right_eq_some] at hl
        obtain ⟨-, rfl⟩ : _ ∧ groups = l := by simpa using hl
        exact h.regsplit p s groups (ha p rfl) (hb s rfl) hr

theorem readVar (h : F.Closed P) (hm : m.All P) {n : Nat} {v : V}
    (hv : F.readVar m.currentEnv n = some v) : P v := by
  rw [Frame.readVar_eq, bindingIn] at hv
  cases hc : m.currentEnv n with
  | some w =>
    rw [hc] at hv
    exact Option.some.inj hv ▸ hm.env n w hc
  | none =>
    rw [hc] at hv
    cases hi : F.inheritEnv n with
    | some w =>
      simp only [hi] at hv
      exact Option.some.inj hv ▸ h.inherit n w hi
    | none =>
      simp only [hi] at hv
      exact h.nullVar hv

theorem insn (h : F.Closed P) (hm : m.All P) {op : Opcode} (hi : F.insn op m = some m') :
    m'.All P := by
  have hpop : ∀ v ∈ (stackPop m.stack).2, v ∈ m.stack := fun v => mem_of_mem_stackPop
  have hpop₂ : ∀ v ∈ (stackPop (stackPop m.stack).2).2, v ∈ m.stack := fun v hv =>
    hpop v (mem_of_mem_stackPop hv)
  have htop : ∀ v, (stackPop m.stack).1 = some v → P v := fun v hv =>
    hm.stack v (stackPop_mem hv)
  have htop₂ : ∀ v, (stackPop (stackPop m.stack).2).1 = some v → P v := fun v hv =>
    hm.stack v (hpop _ (stackPop_mem hv))
  cases op with
  | nop | inc | dec | and | or | xor | neg | not | cesv | past =>
    cases hi
    exact ⟨hm.stack, hm.env⟩
  | trash =>
    cases hi
    exact hm.popped hpop _
  | cmp op =>
    cases hi
    exact hm.push hpop₂ (fun v => h.cmpResult) _
  | arith op =>
    simp only [Frame.insn] at hi
    split at hi
    · cases hi
      exact hm.push hpop₂ (fun v => h.arithResult htop₂ htop) _
    · cases hi
  | regsplit =>
    simp only [Frame.insn, Option.map_eq_some_iff] at hi
    obtain ⟨groups, hg, rfl⟩ := hi
    refine ⟨fun v hv => ?_, hm.env⟩
    rcases List.mem_append.mp hv with hv | hv
    · obtain ⟨w, hw, hwv⟩ := List.mem_map.mp hv
      exact Option.some.inj hwv ▸ h.regsplitResult htop htop₂ hg w hw
    · exact hm.stack v (hpop₂ _ hv)
  | push =>
    obtain ⟨n, -, hi⟩ := Option.bind_eq_some_iff.mp hi
    cases hi
    exact hm.push (fun _ => id) (fun v => h.readVar hm) _
  | pushstatic =>
    obtain ⟨n, -, hi⟩ := Option.bind_eq_some_iff.mp hi
    cases hi
    exact hm.push (fun _ => id) (fun v => h.static n v) _
  | pushfield =>
    obtain ⟨n, -, hi⟩ := Option.bind_eq_some_iff.mp hi
    cases hi
    exact hm.push (fun _ => id) (fun v => h.field n v) _
  | jmp =>
    obtain ⟨n, -, hi⟩ := Option.bind_eq_some_iff.mp hi
    cases hi
    exact hm.popped (fun _ => id) _
  | call =>
    obtain ⟨n, -, hi⟩ := Option.bind_eq_some_iff.mp hi
    cases hi
    refine ⟨fun v hv => ?_, hm.env⟩
    rcases List.mem_cons.mp hv with hv | hv
    · exact h.builtin n _ v (fun w hw => hm.stack w (mem_of_mem_stackPopN.1 hw)) hv.symm
    · exact hm.stack v (mem_of_mem_stackPopN.2 hv)
  | popcjmp =>
    obtain ⟨n, -, hi⟩ := Option.bind_eq_some_iff.mp hi
    simp only at hi
    split at hi
    · cases hi
      exact hm.popped hpop _
    · cases hi
      exact hm.popped hpop _
  | pop =>
    obtain ⟨n, -, hi⟩ := Option.bind_eq_some_iff.mp hi
    cases hi
    refine ⟨fun v hv => hm.stack v (hpop _ hv), fun x v hv => ?_⟩
    by_cases hx : x = n
    · simp only [hx, Function.update_self] at hv
      exact htop v hv
    · simp only [Function.update_of_ne hx] at hv
      exact hm.env x v hv

/-- An execution hands on the property. -/
theorem traces (h : F.Closed P) (hm : m.All P) {l : List (Access Nat V)} (ht : F.Traces m l m') :
    m'.All P := by
  induction ht with
  | refl => exact hm
  | step _ hs ih =>
    obtain ⟨op, -, hi⟩ := step_next hs
    exact h.insn ih hi

end Frame.Closed

/-! ## The event of a value -/

/-- The event that a value belongs to: the active event of whose fields it is one. New values belong
to no event, unless they point into an operand. -/
class Origins (V : Type) [Issdl V] where
  origin : V → Option Nat
  arith : ∀ op v w x a, Issdl.arith op v w = some x → origin x = some a →
    origin v = some a ∨ origin w = some a
  regsplit : ∀ p v l x a, Issdl.regsplit p v = some l → x ∈ l → origin x = some a →
    origin p = some a ∨ origin v = some a

variable [Origins V]

/-- The frame has no values of its own that belong to an event. -/
structure Frame.Plain (F : Frame V) : Prop where
  static : ∀ n v, F.staticEnv.get n = some v → Origins.origin v = none
  builtin : ∀ n args x a, F.builtin n args = some x → Origins.origin x = some a →
    ∃ v, some v ∈ args ∧ Origins.origin v = some a

/-- All values belong to the events `A` or to none, if those do that the execution begins with. -/
theorem Frame.Plain.closed {F : Frame V} (h : F.Plain) {A : Nat → Prop}
    (hi : ∀ n v a, F.inheritEnv n = some v → Origins.origin v = some a → A a)
    (hf : ∀ n v a, F.fields n = some v → Origins.origin v = some a → A a) :
    F.Closed fun v => ∀ a, Origins.origin v = some a → A a where
  static n v hv a ha := by
    rw [h.static n v hv] at ha
    cases ha
  inherit n v hv a := hi n v a hv
  field n v hv a := hf n v a hv
  arith op v w x hv hw hx a ha := (Origins.arith op v w x a hx ha).elim (hv a) (hw a)
  regsplit p v l hp hv hl x hx a ha := (Origins.regsplit p v l x a hl hx ha).elim (hp a) (hv a)
  builtin n args x hargs hx a ha := by
    obtain ⟨v, hv, hva⟩ := h.builtin n args x a hx ha
    exact hargs v hv a hva

/-! ## Values that know their event -/

/-- A value with the event that it belongs to. -/
structure Tagged (W : Type) where
  val : W
  event : Option Nat
  deriving DecidableEq

section

variable {W : Type} [Issdl W]

instance : Issdl (Tagged W) where
  isNull v := Issdl.isNull v.val
  test v := Issdl.test v.val
  cmp v w := Issdl.cmp v.val w.val
  arith op v w := (Issdl.arith op v.val w.val).map fun x => ⟨x, none⟩
  arithTraps op v w := Issdl.arithTraps op v.val w.val
  regexec v w := Issdl.regexec v.val w.val
  isSregex v := Issdl.isSregex v.val
  regsplit v w := (Issdl.regsplit v.val w.val).map fun l => l.map fun x => ⟨x, none⟩

instance : Origins (Tagged W) where
  origin := Tagged.event
  arith op v w x a hx ha := by
    obtain ⟨y, -, rfl⟩ := Option.map_eq_some_iff.mp hx
    cases ha
  regsplit p v l x a hl hx ha := by
    obtain ⟨l', -, rfl⟩ := Option.map_eq_some_iff.mp hl
    obtain ⟨y, -, rfl⟩ := List.mem_map.mp hx
    cases ha

instance [IssdlInt W] : IssdlInt (Tagged W) := ⟨fun v => IssdlInt.int v.val⟩

/-- The static values belong to no event. -/
def StaticEnv.tagged (S : StaticEnv W) : StaticEnv (Tagged W) where
  get n := (S.get n).map fun x => ⟨x, none⟩
  test_one := by
    have h := S.test_one
    cases hv : S.get staticIds.one with
    | none => rw [hv] at h; exact h
    | some v => rw [hv] at h; exact h
  test_zero := by
    have h := S.test_zero
    cases hv : S.get staticIds.zero with
    | none => rfl
    | some v => rw [hv] at h; exact h

theorem StaticEnv.origin_tagged (S : StaticEnv W) {n : Nat} {v : Tagged W}
    (h : S.tagged.get n = some v) : Origins.origin v = none := by
  obtain ⟨x, -, rfl⟩ := Option.map_eq_some_iff.mp h
  rfl

end

end Orchids
