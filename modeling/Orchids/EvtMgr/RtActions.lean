import Orchids.EvtMgr.Timed
import Orchids.Util.Dlist

/-!
# The list of actions in memory (`register_rtaction`, `get_next_rtaction`)

* `RtQueue.stop`: where the loop of `register_rtaction` stops.
* `registerRtaction_refines`: the list after it is that of the main loop's model.
* `registerRtaction_links`: a sorted list stays one, with the new action, linked in both directions.
-/

namespace Orchids

/-- The list of actions, and the date of each action by its address. -/
structure RtQueue where
  rtactionlist : Dlist
  date : Nat → Date

namespace RtQueue

/-- The action at an address. -/
def action (q : RtQueue) (a : Nat) : RtAction := { id := a, date := q.date a }

/-- `DLIST_FOREACH`, up to the `break`: the value of `event`, in at most `fuel` turns. -/
def stop (q : RtQueue) (e : Nat) : Nat → Option Nat → Option Nat
  | 0, _ => none
  | _ + 1, none => none
  | fuel + 1, some event =>
    if (q.date e).lt (q.date event) || q.rtactionlist.next event = none then some event
    else q.stop e fuel (q.rtactionlist.next event)

/-- `register_rtaction`: nothing comes back where no event is left after the loop. -/
def registerRtaction (q : RtQueue) (fuel e : Nat) : Option RtQueue :=
  if q.rtactionlist.first = none then
    some { q with rtactionlist := q.rtactionlist.insertHead e }
  else
    (q.stop e fuel q.rtactionlist.first).map fun event =>
      if q.rtactionlist.next event = none && (q.date e).gt (q.date event) then
        { q with rtactionlist := q.rtactionlist.insertAfter event e }
      else { q with rtactionlist := q.rtactionlist.insertBefore event e }

/-- `get_next_rtaction` -/
def getNextRtaction (q : RtQueue) : Option Nat × RtQueue :=
  match q.rtactionlist.first with
  | none => (none, q)
  | some e => (some e, { q with rtactionlist := q.rtactionlist.remove e })

variable {q : RtQueue} {l : List Nat} {e fuel : Nat}

/-- The loop stops at an element of the list, and there the new action goes. -/
theorem stop_eq {s : Dlist.Slot} {a : Nat} (h : q.rtactionlist.Links s (a :: l))
    (hf : (a :: l).length ≤ fuel) : ∃ l₁ event l₂, a :: l = l₁ ++ event :: l₂ ∧
    q.stop e fuel (some a) = some event ∧
    Orchids.registerRtaction (q.action e) ((a :: l).map q.action) =
      (l₁ ++ if q.rtactionlist.next event = none && (q.date e).gt (q.date event) then
        event :: e :: l₂ else e :: event :: l₂).map q.action := by
  induction l generalizing s a fuel with
  | nil =>
    obtain ⟨fuel, rfl⟩ : ∃ n, fuel = n + 1 := Nat.exists_eq_add_one.mpr hf
    have hnext : q.rtactionlist.next a = none := h.2.2
    refine ⟨[], a, [], rfl, ?_, ?_⟩
    · rw [stop, hnext, decide_eq_true rfl, Bool.or_true, if_pos rfl]
    · simp only [Orchids.registerRtaction, List.map_cons, List.map_nil, List.isEmpty_nil,
        Bool.or_true, if_true, Bool.true_and, hnext, decide_true, List.nil_append, action]
      cases (q.date e).gt (q.date a) <;> rfl
  | cons b l ih =>
    obtain ⟨fuel, rfl⟩ : ∃ n, fuel = n + 1 := Nat.exists_eq_add_one.mpr (Nat.zero_lt_of_lt hf)
    have hnext : q.rtactionlist.next a = some b := h.2.2.1
    have hlast : decide (q.rtactionlist.next a = none) = false := by rw [hnext]; rfl
    by_cases hlt : (q.date e).lt (q.date a) = true
    · refine ⟨[], a, b :: l, rfl, ?_, ?_⟩
      · rw [stop, hlt, Bool.true_or, if_pos rfl]
      · simp only [Orchids.registerRtaction, List.map_cons, action, hlt, Bool.true_or, if_true,
          List.isEmpty_cons, Bool.false_and, Bool.false_eq_true, if_false, hlast, List.nil_append]
    · rw [Bool.not_eq_true] at hlt
      obtain ⟨l₁, event, l₂, hl, hstop, hreg⟩ := ih h.2.2 (Nat.le_of_succ_le_succ hf)
      refine ⟨a :: l₁, event, l₂, by rw [hl, List.cons_append], ?_, ?_⟩
      · rw [stop, hlt, hlast, Bool.or_self, if_neg Bool.false_ne_true, hnext, hstop]
      · rw [List.map_cons, Orchids.registerRtaction]
        simp only [action, hlt, List.map_cons, List.isEmpty_cons, Bool.or_self,
          Bool.false_eq_true, if_false]
        rw [List.cons_append, List.map_cons, ← hreg]
        rfl

/-- The list in memory follows that of the main loop. -/
theorem registerRtaction_refines (h : q.rtactionlist.Links .first l) (he : e ∉ l)
    (hf : l.length ≤ fuel) : ∃ d l', q.registerRtaction fuel e = some { q with rtactionlist := d } ∧
    d.Links .first l' ∧
    l'.map q.action = Orchids.registerRtaction (q.action e) (l.map q.action) := by
  cases l with
  | nil =>
    have hfirst : q.rtactionlist.first = none := h
    refine ⟨_, [e], ?_, Dlist.links_insertHead h he, rfl⟩
    rw [registerRtaction, if_pos hfirst]
  | cons a l =>
    have hfirst : q.rtactionlist.first = some a := h.1
    obtain ⟨l₁, event, l₂, hl, hstop, hreg⟩ := @stop_eq q l e fuel _ _ h hf
    rw [hl] at h he
    rw [hreg, registerRtaction, hfirst, if_neg (nofun : ¬ some a = none), hstop, Option.map_some]
    split
    · exact ⟨_, _, rfl, Dlist.links_insertAfter h he, rfl⟩
    · exact ⟨_, _, rfl, Dlist.links_insertBefore h he, rfl⟩

/-- After `register_rtaction` the list is sorted, has the old actions and the new one, and is linked
in both directions. -/
theorem registerRtaction_links (h : q.rtactionlist.Links .first l)
    (hs : SortedBy (fun a => (q.date a).micros) l) (he : e ∉ l) (hf : l.length ≤ fuel) :
    ∃ d l', q.registerRtaction fuel e = some { q with rtactionlist := d } ∧
      d.Links .first l' ∧ l'.Perm (e :: l) ∧ SortedBy (fun a => (q.date a).micros) l' := by
  obtain ⟨d, l', hreg, hlinks, hmap⟩ := registerRtaction_refines h he hf
  refine ⟨d, l', hreg, hlinks, ?_, ?_⟩
  · have hperm := perm_registerRtaction (q.action e) (l.map q.action)
    rw [← hmap, ← List.map_cons] at hperm
    have hid := hperm.map RtAction.id
    rwa [List.map_map, List.map_map, show RtAction.id ∘ q.action = id from rfl, List.map_id,
      List.map_id] at hid
  · have hsorted := sorted_registerRtaction (q.action e) (l := l.map q.action)
      (List.pairwise_map.mpr hs)
    rw [← hmap] at hsorted
    exact (List.pairwise_map.mp hsorted :)

/-- Two actions at 0 and 1, and all dates are the same. -/
def equalDates : RtQueue where
  rtactionlist :=
    { first := some 0
      next := fun a => if a = 0 then some 1 else none
      prev := fun a => if a = 1 then .next 0 else .first }
  date := fun _ => { sec := 5, usec := 0, usec_nonneg := by decide, usec_lt := by decide }

/-- A third one with that date. -/
theorem registerRtaction_links_equalDates : ∃ d l',
    equalDates.registerRtaction 2 2 = some { equalDates with rtactionlist := d } ∧
      d.Links .first l' ∧ l'.Perm (2 :: [0, 1]) ∧
      SortedBy (fun a => (equalDates.date a).micros) l' :=
  registerRtaction_links ⟨rfl, rfl, rfl, rfl, rfl⟩
    (List.pairwise_cons.mpr ⟨fun _ _ => le_refl _, List.pairwise_singleton _ _⟩) (by decide)
    (Nat.le_refl 2)

/-- `get_next_rtaction` takes the first action, and the others stay linked. -/
theorem getNextRtaction_eq (h : q.rtactionlist.Links .first l) :
    ∃ d, q.getNextRtaction = (l.head?, { q with rtactionlist := d }) ∧ d.Links .first l.tail := by
  cases l with
  | nil =>
    have hfirst : q.rtactionlist.first = none := h
    exact ⟨q.rtactionlist, by rw [getNextRtaction, hfirst]; rfl, h⟩
  | cons a l =>
    have hfirst : q.rtactionlist.first = some a := h.1
    have hlinks : q.rtactionlist.Links .first ([] ++ a :: l) := h
    exact ⟨_, by rw [getNextRtaction, hfirst]; rfl, Dlist.links_remove hlinks⟩

end RtQueue

end Orchids
