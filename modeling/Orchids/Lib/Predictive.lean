import Mathlib.Data.List.Basic
import Mathlib.Data.List.Nodup

/-!
# Parsers with one token of lookahead

The parsers that `yacc` makes from grammars in which the next token chooses the production. The
actions do not choose: a parser gives the list of what its actions do, on an error as well.

* `Gives`: the parser reads a part of the input, with these actions.
* `gives_bind`, `gives_shift`, `gives_ifNext`: what the combinators give.
* `Logs`: the keys of the actions are among these and in this order, on any input.
-/

/-- The actions that a parser executes and, unless it stops with an error, a value and what it
leaves of the input. -/
def Predictive (τ ω α : Type) := List τ → List ω × Option (α × List τ)

namespace Predictive

variable {τ ω κ α β : Type}

instance : Monad (Predictive τ ω) where
  pure a := fun ts => ([], some (a, ts))
  bind p f := fun ts =>
    match p ts with
    | (w, none) => (w, none)
    | (w, some (a, rest)) => (w ++ (f a rest).1, (f a rest).2)

/-- The next token is taken, if it has a value here. -/
def shift (f : τ → Option α) : Predictive τ ω α
  | [] => ([], none)
  | t :: ts => ([], (f t).map fun a => (a, ts))

/-- An action. -/
def perform (w : ω) : Predictive τ ω Unit := fun ts => ([w], some ((), ts))

/-- The next token chooses. -/
def ifNext (c : τ → Bool) (p q : Predictive τ ω α) : Predictive τ ω α := fun ts =>
  if ts.head?.any c then p ts else q ts

/-- The end of the input. -/
def eof : Predictive τ ω Unit
  | [] => ([], some ((), []))
  | _ :: _ => ([], none)

/-! ## What is given -/

/-- The input `ts` is read up to `rest`. -/
def Gives (p : Predictive τ ω α) (ts : List τ) (w : List ω) (a : α) (rest : List τ) : Prop :=
  p ts = (w, some (a, rest))

variable {p q : Predictive τ ω α} {f : α → Predictive τ ω β} {ts rest : List τ} {w : List ω} {a : α}
  {b : β}

@[simp] theorem gives_pure {a' : α} :
    (pure a : Predictive τ ω α).Gives ts w a' rest ↔ w = [] ∧ a' = a ∧ rest = ts := by
  simp only [Gives, pure, Prod.mk.injEq, Option.some.injEq, eq_comm]

theorem gives_bind : (p >>= f).Gives ts w b rest ↔
    ∃ w₁ a mid w₂, p.Gives ts w₁ a mid ∧ (f a).Gives mid w₂ b rest ∧ w = w₁ ++ w₂ := by
  simp only [Gives, bind]
  constructor
  · intro h
    split at h
    · cases h
    · rename_i w₁ a mid hp
      exact ⟨w₁, a, mid, _, hp, Prod.ext rfl (Prod.mk.inj h).2, (Prod.mk.inj h).1.symm⟩
  · rintro ⟨w₁, a, mid, w₂, hp, hf, rfl⟩
    rw [hp]
    simp only [hf]

theorem Gives.bind {w₂ : List ω} {mid : List τ} (hp : p.Gives ts w a mid)
    (hf : (f a).Gives mid w₂ b rest) : (p >>= f).Gives ts (w ++ w₂) b rest :=
  gives_bind.mpr ⟨w, a, mid, w₂, hp, hf, rfl⟩

/-- A part without actions, whose tokens are known from its value. -/
theorem gives_bind_silent {t : α → List τ}
    (hp : ∀ {ts w a rest}, p.Gives ts w a rest ↔ w = [] ∧ ts = t a ++ rest) :
    (p >>= f).Gives ts w b rest ↔ ∃ a mid, ts = t a ++ mid ∧ (f a).Gives mid w b rest := by
  rw [gives_bind]
  constructor
  · rintro ⟨_, a, mid, w₂, h, hf, rfl⟩
    obtain ⟨rfl, rfl⟩ := hp.mp h
    exact ⟨a, mid, rfl, hf⟩
  · rintro ⟨a, mid, rfl, hf⟩
    exact ⟨[], a, mid, w, hp.mpr ⟨rfl, rfl⟩, hf, rfl⟩

/-- A part without actions that reads one token. -/
theorem gives_bind_token {g : α → τ}
    (hp : ∀ {ts w a rest}, p.Gives ts w a rest ↔ w = [] ∧ ts = g a :: rest) :
    (p >>= f).Gives ts w b rest ↔ ∃ a mid, ts = g a :: mid ∧ (f a).Gives mid w b rest :=
  gives_bind_silent (t := fun a => [g a]) hp

instance : LawfulMonad (Predictive τ ω) := LawfulMonad.mk' _
  (fun p => by
    funext ts
    simp only [Functor.map]
    cases h : p ts with
    | mk w o =>
      cases o with
      | none => rfl
      | some r => exact Prod.ext (List.append_nil w) rfl)
  (fun _ _ => rfl)
  (fun p f g => by
    funext ts
    simp only [bind]
    cases h : p ts with
    | mk w o =>
      cases o with
      | none => rfl
      | some r =>
        cases h' : f r.1 r.2 with
        | mk w' o' => cases o' <;> simp [h'])

@[simp] theorem gives_map {g : α → β} :
    (g <$> p).Gives ts w b rest ↔ ∃ a, p.Gives ts w a rest ∧ b = g a := by
  rw [← bind_pure_comp, gives_bind]
  constructor
  · rintro ⟨w₁, a, mid, _, hp, h, rfl⟩
    obtain ⟨rfl, rfl, rfl⟩ := gives_pure.mp h
    exact ⟨a, (List.append_nil w₁).symm ▸ hp, rfl⟩
  · rintro ⟨a, hp, rfl⟩
    exact ⟨w, a, rest, [], hp, gives_pure.mpr ⟨rfl, rfl, rfl⟩, (List.append_nil w).symm⟩

@[simp] theorem gives_perform {v : ω} {u : Unit} :
    (perform v : Predictive τ ω Unit).Gives ts w u rest ↔ w = [v] ∧ rest = ts := by
  simp only [Gives, perform, Prod.mk.injEq, Option.some.injEq, true_and, eq_comm]

@[simp] theorem gives_shift {f : τ → Option α} :
    (shift f : Predictive τ ω α).Gives ts w a rest ↔ w = [] ∧ ∃ t, f t = some a ∧ ts = t :: rest := by
  cases ts with
  | nil => simp [Gives, shift]
  | cons t ts =>
    simp only [Gives, shift, Prod.mk.injEq, Option.map_eq_some_iff, List.cons.injEq]
    constructor
    · rintro ⟨rfl, a', ha, rfl, rfl⟩
      exact ⟨rfl, t, ha, rfl, rfl⟩
    · rintro ⟨rfl, t', ha, rfl, rfl⟩
      exact ⟨rfl, a, ha, rfl, rfl⟩

/-- The tokens `g a` are those with a value. -/
theorem gives_shift_iff {f : τ → Option α} {g : α → τ} (hf : ∀ t a, f t = some a ↔ t = g a) :
    (shift f : Predictive τ ω α).Gives ts w a rest ↔ w = [] ∧ ts = g a :: rest := by
  simp only [gives_shift, hf, exists_eq_left]

@[simp] theorem gives_eof {u : Unit} :
    (eof : Predictive τ ω Unit).Gives ts w u rest ↔ w = [] ∧ ts = [] ∧ rest = [] := by
  cases ts <;> simp [Gives, eof, eq_comm]

theorem gives_ifNext {c : τ → Bool} : (ifNext c p q).Gives ts w a rest ↔
    (ts.head?.any c = true ∧ p.Gives ts w a rest) ∨
      (ts.head?.any c = false ∧ q.Gives ts w a rest) := by
  simp only [Gives, ifNext]
  split
  · rename_i h
    simp only [h, true_and, Bool.true_eq_false, false_and, or_false]
  · rename_i h
    simp only [h, Bool.false_eq_true, false_and, false_or, true_and]

theorem Gives.ifNext_pos {c : τ → Bool} (hc : ts.head?.any c = true) (h : p.Gives ts w a rest) :
    (ifNext c p q).Gives ts w a rest :=
  gives_ifNext.mpr (.inl ⟨hc, h⟩)

theorem Gives.ifNext_neg {c : τ → Bool} (hc : ts.head?.any c = false) (h : q.Gives ts w a rest) :
    (ifNext c p q).Gives ts w a rest :=
  gives_ifNext.mpr (.inr ⟨hc, h⟩)

/-! ## Actions on any input -/

theorem actions_bind : ((p >>= f) ts).1 =
    (p ts).1 ++ (p ts).2.elim [] fun (a, rest) => (f a rest).1 := by
  simp only [bind]
  split
  · rename_i hp
    simp only [hp, Option.elim_none, List.append_nil]
  · rename_i hp
    simp only [hp, Option.elim_some]

theorem Gives.actions_bind (h : p.Gives ts w a rest) : ((p >>= f) ts).1 = w ++ (f a rest).1 := by
  rw [Predictive.actions_bind, show p ts = _ from h, Option.elim_some]

/-- A last part without actions. -/
theorem actions_bind_nil (h : ∀ a rest, (f a rest).1 = []) : ((p >>= f) ts).1 = (p ts).1 := by
  rw [Predictive.actions_bind]
  cases (p ts).2 with
  | none => exact List.append_nil _
  | some r => exact (congrArg _ (h r.1 r.2)).trans (List.append_nil _)

/-- A part without actions. -/
theorem Gives.bind_eq (h : p.Gives ts [] a rest) : (p >>= f) ts = f a rest := by
  simp only [Bind.bind, show p ts = _ from h, List.nil_append]

theorem Gives.mem {v : ω} (hp : p.Gives ts w a rest) (h : v ∈ w) : v ∈ (p ts).1 := by
  rwa [show p ts = _ from hp]

theorem mem_bind_left {v : ω} (h : v ∈ (p ts).1) : v ∈ ((p >>= f) ts).1 := by
  rw [Predictive.actions_bind]
  exact List.mem_append_left _ h

theorem Gives.mem_bind {v : ω} (hp : p.Gives ts w a rest) (h : v ∈ (f a rest).1) :
    v ∈ ((p >>= f) ts).1 := by
  rw [hp.actions_bind]
  exact List.mem_append_right _ h

theorem bind_congr {ts' : List τ} (h : p ts = q ts') : (p >>= f) ts = (q >>= f) ts' := by
  simp only [Bind.bind, h]

theorem ifNext_pos {c : τ → Bool} (h : ts.head?.any c = true) : ifNext c p q ts = p ts := if_pos h

theorem ifNext_neg {c : τ → Bool} (h : ts.head?.any c = false) : ifNext c p q ts = q ts :=
  if_neg (by simp [h])

/-- The keys of the actions on the input `ts` are among `l`, in this order. -/
def Logs (key : ω → κ) (p : Predictive τ ω α) (ts : List τ) (l : List κ) : Prop :=
  ((p ts).1.map key).Sublist l

variable {key : ω → κ} {l l' : List κ}

theorem Logs.mono (h : Logs key p ts l) (hl : l.Sublist l') : Logs key p ts l' := h.trans hl

theorem Logs.nodup (h : Logs key p ts l) (hl : l.Nodup) : ((p ts).1.map key).Nodup := hl.sublist h

theorem Logs.nil (h : Logs key p ts []) : Logs key p ts l := h.mono (List.nil_sublist l)

theorem logs_pure : Logs key (pure a : Predictive τ ω α) ts l := List.nil_sublist l

theorem logs_shift {f : τ → Option α} : Logs key (shift f : Predictive τ ω α) ts l := by
  cases ts <;> exact List.nil_sublist l

theorem logs_perform {v : ω} : Logs key (perform v : Predictive τ ω Unit) ts [key v] :=
  List.Sublist.refl _

/-- The second part, where the first one has read something. -/
theorem Logs.bind (hp : Logs key p ts l)
    (hf : ∀ w a rest, p.Gives ts w a rest → Logs key (f a) rest l') :
    Logs key (p >>= f) ts (l ++ l') := by
  unfold Logs
  rw [Predictive.actions_bind, List.map_append]
  refine hp.append ?_
  cases hr : (p ts).2 with
  | none => exact List.nil_sublist _
  | some r => exact hf (p ts).1 r.1 r.2 (Prod.ext rfl hr)

/-- A first part without actions. -/
theorem Logs.bind_nil (hp : Logs key p ts [])
    (hf : ∀ w a rest, p.Gives ts w a rest → Logs key (f a) rest l) : Logs key (p >>= f) ts l :=
  hp.bind hf

theorem Logs.ifNext {c : τ → Bool} (hp : ts.head?.any c = true → Logs key p ts l)
    (hq : ts.head?.any c = false → Logs key q ts l) : Logs key (ifNext c p q) ts l := by
  unfold Logs Predictive.ifNext
  split
  · rename_i h
    exact hp h
  · rename_i h
    exact hq (Bool.not_eq_true _ ▸ h)

end Predictive
