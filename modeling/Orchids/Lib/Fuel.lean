import Mathlib.Order.Filter.AtTopBot.Basic

/-!
# Computations with a number of steps

A computation that may not end is a function of the steps that it is given.

* `Settles`: with enough steps it has this result.
* `Settles.unique`, `Settles.of_succ`: there is one result, and a call may take one step more.
* `Settles.of_ne`, `Settles.eq_of_ne`: if more steps do not change a result, each one that is there
  is the one.
-/

namespace Orchids

open Filter

/-- The computation has the result with any number of steps that is large enough. -/
def Settles {α : Type} (f : Nat → α) (r : α) : Prop := ∀ᶠ n in atTop, f n = r

namespace Settles

variable {α β : Type} {f : Nat → α} {r r' : α}

theorem of_forall (h : ∀ n, f n = r) : Settles f r := Eventually.of_forall h

/-- The first steps do not count. -/
theorem of_succ (h : Settles (fun n => f (n + 1)) r) : Settles f r := by
  obtain ⟨n, hn⟩ := eventually_atTop.mp h
  refine eventually_atTop.mpr ⟨n + 1, ?_⟩
  intro m hm
  obtain ⟨m, rfl⟩ := Nat.exists_eq_add_of_le' (Nat.le_of_add_left_le hm)
  exact hn m (Nat.le_of_add_le_add_right hm)

theorem unique (h : Settles f r) (h' : Settles f r') : r = r' := by
  obtain ⟨n, hn, hn'⟩ := (h.and h').exists
  exact hn.symm.trans hn'

variable {bot : α} (stable : ∀ n, f n ≠ bot → f (n + 1) = f n)

include stable

theorem eq_of_le {n m : Nat} (hn : f n ≠ bot) (hm : n ≤ m) : f m = f n := by
  induction m, hm using Nat.le_induction with
  | base => rfl
  | succ m _ ih => rw [stable m (ih ▸ hn), ih]

theorem of_ne {n : Nat} (hn : f n ≠ bot) : Settles f (f n) :=
  eventually_atTop.mpr ⟨n, fun _ hm => eq_of_le stable hn hm⟩

theorem eq_of_ne (h : Settles f r) {n : Nat} (hn : f n ≠ bot) : f n = r :=
  (of_ne stable hn).unique h

end Settles

end Orchids
