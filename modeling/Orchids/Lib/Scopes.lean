import Mathlib.Logic.Function.Basic
import Mathlib.Order.Nat

/-!
# Variables in a tree of scopes

A scope is created empty, or below another one, from which it gets a copy of the bindings that are
visible there. A history has what happened, the last first.

* `lastAssigned`: the last assignment to a variable on the path to a scope, where an assignment in
  a scope above counts if it was made before the path left that scope.
* `pathValues`: the last assignment in each scope of the path, the nearest first.
* `Scopes`: scopes with a table of their own bindings and a table of copied ones, where an own
  entry that is `none` does not hide the copied one; `Scopes.Represents` says that both tables are
  what the history makes them, and that each read in the history found that binding.
* `firstValue_eq_iff`: such a table gives the last assignment if and only if this is not `none`, or no
  value is on the path.
-/

/-- A read of a variable with the binding that it finds, or an assignment to it. -/
inductive Access (X V : Type) where
  | read (x : X) (v : Option V)
  | assign (x : X) (v : Option V)
  deriving DecidableEq

/-- A new scope, with the one above it, or an access in a scope. -/
inductive ScopeEvent (X V : Type) where
  | create (s : Nat) (parent : Option Nat)
  | access (s : Nat) (a : Access X V)
  deriving DecidableEq

namespace ScopeEvent

variable {X V : Type} [DecidableEq X]

/-- The value of the last assignment to `x` on the path to the scope `s`. -/
def lastAssigned (x : X) : List (ScopeEvent X V) → Nat → Option (Option V)
  | [], _ => none
  | .create s' parent :: h, s =>
    if s' = s then
      match parent with
      | some p => lastAssigned x h p
      | none => none
    else lastAssigned x h s
  | .access s' (.assign y v) :: h, s => if s' = s ∧ y = x then some v else lastAssigned x h s
  | .access _ (.read _ _) :: h, s => lastAssigned x h s

mutual

/-- The last values assigned to `x` in the scopes on the path to `s`, the nearest first. -/
def pathValues (x : X) : List (ScopeEvent X V) → Nat → List (Option V)
  | [], _ => []
  | .create s' parent :: h, s =>
    if s' = s then
      match parent with
      | some p => pathValues x h p
      | none => []
    else pathValues x h s
  | .access s' (.assign y v) :: h, s =>
    if s' = s ∧ y = x then v :: valuesAbove x h s else pathValues x h s
  | .access _ (.read _ _) :: h, s => pathValues x h s

/-- The same without the scope `s` itself. -/
def valuesAbove (x : X) : List (ScopeEvent X V) → Nat → List (Option V)
  | [], _ => []
  | .create s' parent :: h, s =>
    if s' = s then
      match parent with
      | some p => pathValues x h p
      | none => []
    else valuesAbove x h s
  | .access _ _ :: h, s => valuesAbove x h s

end

theorem head?_pathValues (x : X) (h : List (ScopeEvent X V)) (s : Nat) :
    (pathValues x h s).head? = lastAssigned x h s := by
  induction h generalizing s with
  | nil => rfl
  | cons ev h ih =>
    cases ev with
    | create s' parent =>
      cases parent with
      | none =>
        rw [pathValues, lastAssigned]
        split
        · rfl
        · exact ih s
      | some p =>
        rw [pathValues, lastAssigned]
        split
        · exact ih p
        · exact ih s
    | access s' a =>
      cases a with
      | read y v => exact ih s
      | assign y v =>
        rw [pathValues, lastAssigned]
        split
        · rfl
        · exact ih s

end ScopeEvent

/-! ## Tables of bindings -/

/-- Scopes with their own bindings and the copied ones. -/
structure Scopes (X V : Type) where
  size : Nat
  own : Nat → X → Option V
  copied : Nat → X → Option V

namespace Scopes

variable {X V : Type}

/-- The binding of a variable: the own one, else the copied one. -/
def bindingIn (own copied : X → Option V) (x : X) : Option V :=
  match own x with
  | some v => some v
  | none => copied x

/-- The binding of `x` in the scope `s`. -/
def binding (S : Scopes X V) (s : Nat) (x : X) : Option V := bindingIn (S.own s) (S.copied s) x

/-- A new scope below `p`. -/
def push (S : Scopes X V) (p : Nat) : Scopes X V where
  size := S.size + 1
  own := Function.update S.own S.size fun _ => none
  copied := Function.update S.copied S.size (S.binding p)

/-- A new scope below no other. -/
def pushRoot (S : Scopes X V) : Scopes X V where
  size := S.size + 1
  own := Function.update S.own S.size fun _ => none
  copied := Function.update S.copied S.size fun _ => none

/-- The own bindings of the scope `s` are now `own`. -/
def setOwn (S : Scopes X V) (s : Nat) (own : X → Option V) : Scopes X V :=
  { S with own := Function.update S.own s own }

variable [DecidableEq X]

/-- Accesses in a scope in a row: what the reads find, and what the assignments leave. -/
def Replays (copied : X → Option V) : (X → Option V) → List (Access X V) → (X → Option V) → Prop
  | own, [], own' => own' = own
  | own, .read x v :: l, own' => v = bindingIn own copied x ∧ Replays copied own l own'
  | own, .assign x v :: l, own' => Replays copied (Function.update own x v) l own'

theorem Replays.append {copied own own' own'' : X → Option V} {l l' : List (Access X V)}
    (h : Replays copied own l own') (h' : Replays copied own' l' own'') :
    Replays copied own (l ++ l') own'' := by
  induction l generalizing own with
  | nil =>
    obtain rfl : own' = own := h
    exact h'
  | cons a l ih =>
    cases a with
    | read x v => exact ⟨h.1, ih h.2⟩
    | assign x v =>
      have hrest : Replays copied (Function.update own x v) l own' := h
      exact ih hrest

end Scopes

open ScopeEvent

/-- The first value of a list that is not `none`. -/
def firstValue {V : Type} (l : List (Option V)) : Option V := l.findSome? id

/-- Each read in the history found the first value on the path. -/
def ReadsFirst {X V : Type} [DecidableEq X] (h : List (ScopeEvent X V)) : Prop :=
  ∀ h₁ s x v h₂, h = h₁ ++ .access s (.read x v) :: h₂ → v = firstValue (pathValues x h₂ s)

/-- A history with one event more, which is no read of another value. -/
theorem ReadsFirst.cons {X V : Type} [DecidableEq X] {h : List (ScopeEvent X V)}
    (hr : ReadsFirst h) {ev : ScopeEvent X V}
    (hev : ∀ s x v, ev = .access s (.read x v) → v = firstValue (pathValues x h s)) :
    ReadsFirst (ev :: h) := by
  intro h₁ s x v h₂ heq
  cases h₁ with
  | nil =>
    obtain ⟨rfl, rfl⟩ := List.cons_eq_cons.mp heq
    exact hev s x v rfl
  | cons ev' h₁ =>
    obtain ⟨-, rfl⟩ := List.cons_eq_cons.mp heq
    exact hr h₁ s x v h₂ rfl

namespace Scopes

variable {X V : Type} [DecidableEq X] {S : Scopes X V} {h : List (ScopeEvent X V)} {s p : Nat}

/-- The tables are what the history makes them, and what its reads have found. -/
structure Represents (S : Scopes X V) (h : List (ScopeEvent X V)) : Prop where
  copied : ∀ s, s < S.size → ∀ x, S.copied s x = firstValue (valuesAbove x h s)
  binding : ∀ s, s < S.size → ∀ x, S.binding s x = firstValue (pathValues x h s)
  reads : ReadsFirst h

namespace Represents

theorem push (hS : S.Represents h) (hp : p < S.size) :
    (S.push p).Represents (.create S.size (some p) :: h) := by
  have hbelow : ∀ s, s < S.size + 1 → s ≠ S.size → s < S.size := fun s hs hne => by omega
  refine ⟨fun s hs x => ?_, fun s hs x => ?_, hS.reads.cons fun _ _ _ hev => nomatch hev⟩
  · rw [valuesAbove]
    by_cases hss : s = S.size
    · subst hss
      rw [if_pos rfl]
      exact (congrFun (Function.update_self ..) x).trans (hS.binding p hp x)
    · rw [if_neg (Ne.symm hss)]
      exact (congrFun (Function.update_of_ne hss ..) x).trans (hS.copied s (hbelow s hs hss) x)
  · rw [pathValues]
    unfold Scopes.binding Scopes.push
    by_cases hss : s = S.size
    · subst hss
      rw [if_pos rfl]
      simp only [Function.update_self, bindingIn]
      exact hS.binding p hp x
    · rw [if_neg (Ne.symm hss)]
      simp only [Function.update_of_ne hss]
      exact hS.binding s (hbelow s hs hss) x

theorem pushRoot (hS : S.Represents h) : S.pushRoot.Represents (.create S.size none :: h) := by
  have hbelow : ∀ s, s < S.size + 1 → s ≠ S.size → s < S.size := fun s hs hne => by omega
  refine ⟨fun s hs x => ?_, fun s hs x => ?_, hS.reads.cons fun _ _ _ hev => nomatch hev⟩
  · rw [valuesAbove]
    by_cases hss : s = S.size
    · subst hss
      rw [if_pos rfl]
      have hnew : S.pushRoot.copied S.size = fun _ => none := Function.update_self ..
      rw [hnew]
      rfl
    · rw [if_neg (Ne.symm hss)]
      exact (congrFun (Function.update_of_ne hss ..) x).trans (hS.copied s (hbelow s hs hss) x)
  · rw [pathValues]
    unfold Scopes.binding Scopes.pushRoot
    by_cases hss : s = S.size
    · subst hss
      rw [if_pos rfl]
      simp only [Function.update_self, bindingIn]
      rfl
    · rw [if_neg (Ne.symm hss)]
      simp only [Function.update_of_ne hss]
      exact hS.binding s (hbelow s hs hss) x

theorem read (hS : S.Represents h) (hs : s < S.size) (x : X) :
    S.Represents (.access s (.read x (S.binding s x)) :: h) := by
  refine ⟨hS.copied, hS.binding, hS.reads.cons ?_⟩
  rintro s' y v hev
  cases hev
  exact hS.binding s hs x

theorem assign (hS : S.Represents h) (hs : s < S.size) (x : X) (v : Option V) :
    (S.setOwn s (Function.update (S.own s) x v)).Represents (.access s (.assign x v) :: h) := by
  refine ⟨fun s' hs' y => ?_, fun s' hs' y => ?_, hS.reads.cons fun _ _ _ hev => nomatch hev⟩
  · rw [valuesAbove]
    exact hS.copied s' hs' y
  · rw [pathValues]
    by_cases hsame : s = s' ∧ x = y
    · obtain ⟨rfl, rfl⟩ := hsame
      rw [if_pos ⟨rfl, rfl⟩]
      unfold Scopes.binding Scopes.setOwn
      simp only [Function.update_self, bindingIn]
      cases v with
      | none => exact hS.copied s hs x
      | some v => rfl
    · rw [if_neg hsame, ← hS.binding s' hs' y]
      unfold Scopes.binding Scopes.setOwn
      by_cases hss : s' = s
      · subst hss
        have hxy : y ≠ x := fun hxy => hsame ⟨rfl, hxy.symm⟩
        simp only [Function.update_self, bindingIn, Function.update_of_ne hxy]
      · simp only [Function.update_of_ne hss]

/-- Accesses in a row. -/
theorem accesses (hS : S.Represents h) (hs : s < S.size) {l : List (Access X V)}
    {own : X → Option V} (hl : Replays (S.copied s) (S.own s) l own) :
    (S.setOwn s own).Represents ((l.map (.access s)).reverse ++ h) := by
  induction l generalizing S h with
  | nil =>
    obtain rfl : own = S.own s := hl
    have hsame : S.setOwn s (S.own s) = S := by
      unfold Scopes.setOwn
      rw [Function.update_eq_self]
    rw [hsame]
    exact hS
  | cons a l ih =>
    rw [List.map_cons, List.reverse_cons, List.append_assoc]
    cases a with
    | read x v =>
      obtain ⟨rfl, hl⟩ := hl
      exact ih (hS.read hs x) hs hl
    | assign x v =>
      have hset : (S.setOwn s (Function.update (S.own s) x v)).setOwn s own = S.setOwn s own := by
        unfold Scopes.setOwn
        simp only [Function.update_idem]
      rw [← hset]
      refine ih (hS.assign hs x v) hs ?_
      show Replays (S.copied s) (Function.update S.own s _ s) l own
      rw [Function.update_self]
      exact hl

end Represents

end Scopes

/-! ## The last assignment -/

/-- A table with copied bindings gives the last assignment if and only if this is not `none`, or no
value is on the path. -/
theorem firstValue_eq_iff {X V : Type} [DecidableEq X] (x : X) (h : List (ScopeEvent X V)) (s : Nat) :
    firstValue (pathValues x h s) = (lastAssigned x h s).join ↔
      (lastAssigned x h s = some none → ∀ v ∈ pathValues x h s, v = none) := by
  rw [← head?_pathValues]
  cases pathValues x h s with
  | nil => simp [firstValue]
  | cons v l =>
    cases v with
    | some v => simp [firstValue]
    | none => simp [firstValue, List.findSome?_eq_none_iff]
