import Mathlib.Data.List.Perm.Basic
import Mathlib.Order.Lattice

/-!
# A sorted queue with its next element outside

A loop that takes the next element off a sorted queue and holds it until it is due. As long as the
held element leads the queue, it is the least of all that wait, and nothing waits while none is held.

* `Leads`: the held element leads the queue.
* `Leads.of_sorted`: after the next element is taken from a sorted queue, it leads the rest.
* `Leads.add`: a queue that grows by later elements is still led.
-/

namespace Orchids

section Agenda

variable {α τ : Type} [LinearOrder τ]

/-- Nothing that comes later in the list is earlier by its key. -/
def SortedBy (key : α → τ) (l : List α) : Prop := l.Pairwise fun a b => key a ≤ key b

/-- What waits: the held element and the queue. -/
def waiting (held : Option α) (queue : List α) : List α := held.toList ++ queue

/-- The held element is the least of all that wait. -/
structure Leads (key : α → τ) (held : Option α) (queue : List α) : Prop where
  sorted : SortedBy key queue
  least : ∀ a, held = some a → ∀ b ∈ queue, key a ≤ key b
  empty : held = none → queue = []

theorem waiting_head_tail (l : List α) : waiting l.head? l.tail = l := by
  cases l with
  | nil => rfl
  | cons a l => rfl

namespace Leads

variable {key : α → τ} {held : Option α} {queue queue' : List α}

theorem of_sorted {l : List α} (h : SortedBy key l) : Leads key l.head? l.tail := by
  cases l with
  | nil => exact ⟨.nil, nofun, fun _ => rfl⟩
  | cons a l =>
    obtain ⟨hle, hs⟩ := List.pairwise_cons.mp h
    refine ⟨hs, ?_, nofun⟩
    intro b hb
    obtain rfl := Option.some.inj hb
    exact hle

/-- Nothing that waits is earlier than the held element. -/
theorem le_of_mem (h : Leads key held queue) {a b : α} (ha : held = some a)
    (hb : b ∈ waiting held queue) : key a ≤ key b := by
  subst ha
  rcases List.mem_cons.mp hb with rfl | hb
  · exact le_refl _
  · exact h.least a rfl b hb

theorem waiting_eq_nil (h : Leads key held queue) (hn : held = none) :
    waiting held queue = [] := by
  rw [h.empty hn, hn]
  rfl

/-- The queue grows by elements that are not before the held one. -/
theorem add (h : Leads key held queue) (hs : SortedBy key queue') {new : List α}
    (hp : queue'.Perm (new ++ queue))
    (hnew : ∀ b ∈ new, ∃ a, held = some a ∧ key a ≤ key b) : Leads key held queue' where
  sorted := hs
  least := by
    intro a ha b hb
    rcases List.mem_append.mp (hp.mem_iff.mp hb) with hb | hb
    · obtain ⟨a', ha', hle⟩ := hnew b hb
      obtain rfl := Option.some.inj (ha.symm.trans ha')
      exact hle
    · exact h.least a ha b hb
  empty := by
    intro hn
    have hnil : new = [] := by
      rw [List.eq_nil_iff_forall_not_mem]
      intro b hb
      obtain ⟨a, ha, -⟩ := hnew b hb
      rw [hn] at ha
      cases ha
    rw [hnil, h.empty hn] at hp
    exact hp.eq_nil

end Leads

end Agenda

end Orchids
