import Mathlib.Algebra.Group.Int.Defs
import Mathlib.Algebra.Group.Nat.Defs
import Orchids.Lib.Except
import Orchids.Lib.Linked

/-!
# Queues of elements (`queue.c`)

* `queueAdd`, `queueGet`, `queueMove`, `queueAppend`, `queueMerge`: the operations, where the
  elements are in one memory and the queues have pointers to their first and last ones.
* `listStep`: the same operations on lists.
* `Holds`, `Inv`: the elements of one queue, and of all of them.
* `run_represents`: a run of the operations is that of the lists.
-/

namespace Orchids

namespace LinkedQueue

/-- `queue_element_t` -/
structure Element (α : Type) where
  next : Option Nat
  data : α

/-- `queue_t` -/
structure Queue where
  elements : Int
  head : Option Nat
  tail : Option Nat

/-- What goes wrong: an access to what is no element, or a count that is no `int`. -/
inductive Fault where
  | access
  | overflow

/-- The elements that are allocated, by address, and the queues. -/
structure State (α : Type) where
  element : Nat → Option (Element α)
  queue : Nat → Queue

variable {α : Type}

/-- `queue_new` -/
def queueNew : Queue := { elements := 0, head := none, tail := none }

/-- No element, and every queue is new. -/
def initial : State α := { element := fun _ => none, queue := fun _ => queueNew }

/-- The element that a pointer points at, and its address. -/
def deref (s : State α) : Option Nat → Except Fault (Nat × Element α)
  | none => .error .access
  | some a =>
    match s.element a with
    | none => .error .access
    | some e => .ok (a, e)

/-- `p->next = next` -/
def setNext (s : State α) (p next : Option Nat) : Except Fault (State α) := do
  let (a, e) ← deref s p
  return { s with element := Function.update s.element a (some { e with next := next }) }

/-- A sum in an `int`. -/
def intSum (n m : Int) : Except Fault Int :=
  if -2 ^ 31 ≤ n + m ∧ n + m < 2 ^ 31 then .ok (n + m) else .error .overflow

/-- A store into a queue. -/
def State.setQueue (s : State α) (q : Nat) (r : Queue) : State α :=
  { s with queue := Function.update s.queue q r }

/-- `queue_add`, where `Xzmalloc` returns `e`. -/
def queueAdd (s : State α) (q : Nat) (data : α) (e : Nat) : Except Fault (State α) := do
  let s := { s with element := Function.update s.element e (some { next := none, data := data }) }
  let s ←
    if (s.queue q).elements = 0 then
      pure (s.setQueue q { s.queue q with head := some e, tail := some e })
    else do
      let s ← setNext s (s.queue q).tail (some e)
      pure (s.setQueue q { s.queue q with tail := some e })
  let elements ← intSum (s.queue q).elements 1
  return s.setQueue q { s.queue q with elements := elements }

/-- `queue_get` -/
def queueGet (s : State α) (q : Nat) : Except Fault (Option α × State α) := do
  if (s.queue q).elements = 0 then
    return (none, s)
  let (a, e) ← deref s (s.queue q).head
  let elements ← intSum (s.queue q).elements (-1)
  let s := { s with element := Function.update s.element a none }
  return (some e.data, s.setQueue q { s.queue q with elements := elements, head := e.next })

/-- The queue at `dst` is that at `src`, which is then empty. -/
def moved (s : State α) (dst src : Nat) : State α :=
  (s.setQueue dst (s.queue src)).setQueue src { s.queue src with elements := 0 }

/-- `queue_move` -/
def queueMove (s : State α) (dst src : Nat) : State α :=
  if (s.queue dst).elements > 0 then s else moved s dst src

/-- `queue_append` -/
def queueAppend (s : State α) (dst src : Nat) : Except Fault (State α) := do
  if (s.queue dst).elements > 0 ∧ (s.queue src).elements > 0 then
    let s ← setNext s (s.queue dst).tail (s.queue src).head
    let elements ← intSum (s.queue dst).elements (s.queue src).elements
    let s := s.setQueue dst { s.queue dst with tail := (s.queue src).tail, elements := elements }
    return s.setQueue src { s.queue src with elements := 0 }
  else if (s.queue dst).elements = 0 then
    return moved s dst src
  else
    return s

/-- `queue_merge` -/
def queueMerge (s : State α) (dst q₁ q₂ : Nat) : Except Fault (State α) := do
  if (s.queue dst).elements > 0 then
    return s
  let elements ← intSum (s.queue q₁).elements (s.queue q₂).elements
  let s := s.setQueue dst { s.queue dst with elements := elements }
  if (s.queue q₁).elements > 0 ∧ (s.queue q₂).elements > 0 then
    let s ← setNext s (s.queue q₁).tail (s.queue q₂).head
    let r := { s.queue dst with head := (s.queue q₁).head, tail := (s.queue q₂).tail }
    let s := (s.setQueue dst r).setQueue q₁ { s.queue q₁ with elements := 0 }
    return s.setQueue q₂ { s.queue q₂ with elements := 0 }
  else if (s.queue q₂).elements = 0 then
    let r := { s.queue dst with head := (s.queue q₁).head, tail := (s.queue q₁).tail }
    return (s.setQueue dst r).setQueue q₁ { s.queue q₁ with elements := 0 }
  else
    let r := { s.queue dst with head := (s.queue q₂).head, tail := (s.queue q₂).tail }
    return (s.setQueue dst r).setQueue q₂ { s.queue q₂ with elements := 0 }

/-- The calls; a call of `queue_add` has the address of the new element. -/
inductive Op (α : Type) where
  | add (q : Nat) (data : α) (e : Nat)
  | get (q : Nat)
  | move (dst src : Nat)
  | append (dst src : Nat)
  | merge (dst q₁ q₂ : Nat)

/-- A call, and what `queue_get` returns. -/
def step (s : State α) : Op α → Except Fault (List (Option α) × State α)
  | .add q data e => return ([], ← queueAdd s q data e)
  | .get q => do
    let (data, s) ← queueGet s q
    return ([data], s)
  | .move dst src => return ([], queueMove s dst src)
  | .append dst src => return ([], ← queueAppend s dst src)
  | .merge dst q₁ q₂ => return ([], ← queueMerge s dst q₁ q₂)

def run (s : State α) : List (Op α) → Except Fault (List (Option α) × State α)
  | [] => return ([], s)
  | op :: ops => do
    let (out, s) ← step s op
    let (outs, s) ← run s ops
    return (out ++ outs, s)

/-! ## Lists -/

section

variable {β : Type}

/-- The list at `src` behind that at `dst`. -/
def splice (c : Nat → List β) (dst src : Nat) : Nat → List β :=
  Function.update (Function.update c dst (c dst ++ c src)) src []

theorem splice_apply (c : Nat → List β) (dst src x : Nat) : splice c dst src x =
    if x = src then [] else if x = dst then c dst ++ c src else c x := by
  rw [splice, Function.update_apply, Function.update_apply]

end

/-- The operations on lists: `queue_move` and `queue_merge` refuse a destination that is not
empty. -/
def listStep (c : Nat → List α) : Op α → List (Option α) × (Nat → List α)
  | .add q data _ => ([], Function.update c q (c q ++ [data]))
  | .get q => ([(c q).head?], Function.update c q (c q).tail)
  | .move dst src => ([], if c dst = [] then splice c dst src else c)
  | .append dst src => ([], splice c dst src)
  | .merge dst q₁ q₂ => ([], if c dst = [] then splice (splice c dst q₁) dst q₂ else c)

def listRun (c : Nat → List α) : List (Op α) → List (Option α) × (Nat → List α)
  | [] => ([], c)
  | op :: ops => ((listStep c op).1 ++ (listRun (listStep c op).2 ops).1,
      (listRun (listStep c op).2 ops).2)

/-! ## The elements of a queue -/

/-- The `next` of the elements. -/
def links (m : Nat → Option (Element α)) (a : Nat) : Option Nat := (m a).bind Element.next

/-- The `data` of an element. -/
def dataAt (m : Nat → Option (Element α)) (a : Nat) : Option α := (m a).map Element.data

/-- The queue `q` has the elements at `l`, with the data `c`. -/
structure Holds (m : Nat → Option (Element α)) (q : Queue) (l : List Nat) (c : List α) :
    Prop where
  elements : q.elements = l.length
  data : l.map (dataAt m) = c.map some
  queue : l ≠ [] → IsQueue (links m) q.head q.tail l

variable {m m' : Nat → Option (Element α)} {q q' : Queue} {l l' : List Nat} {c c' : List α}
  {a t : Nat} {e : Element α}

theorem links_update (x : Option (Element α)) :
    links (Function.update m a x) = Function.update (links m) a (x.bind Element.next) := by
  funext b
  exact Function.apply_update (fun _ (x : Option (Element α)) => x.bind Element.next) m a x b

theorem dataAt_update (x : Option (Element α)) :
    dataAt (Function.update m a x) = Function.update (dataAt m) a (x.map Element.data) := by
  funext b
  exact Function.apply_update (fun _ (x : Option (Element α)) => x.map Element.data) m a x b

theorem dataAt_setNext (ht : m t = some e) (p : Option Nat) :
    dataAt (Function.update m t (some { e with next := p })) = dataAt m := by
  rw [dataAt_update, Function.update_eq_self_iff, dataAt, ht]
  rfl

namespace Holds

theorem congr (h : Holds m q l c) (hm : ∀ a ∈ l, m' a = m a) : Holds m' q l c := by
  refine ⟨h.elements, ?_, fun hne => (h.queue hne).congr fun a ha => ?_⟩
  · rw [← h.data]
    exact List.map_congr_left fun a ha => by rw [dataAt, dataAt, hm a ha]
  · rw [links, links, hm a ha]

theorem empty (hq : q.elements = 0) : Holds m q [] ([] : List α) :=
  ⟨hq, rfl, fun h => absurd rfl h⟩

theorem length_eq (h : Holds m q l c) : c.length = l.length := by
  rw [← List.length_map (f := some), ← h.data, List.length_map]

theorem elements_eq_zero (h : Holds m q l c) : q.elements = 0 ↔ l = [] := by
  rw [h.elements, Int.natCast_eq_zero, List.length_eq_zero_iff]

theorem elements_pos (h : Holds m q l c) : q.elements > 0 ↔ l ≠ [] := by
  rw [h.elements, gt_iff_lt, Int.natCast_pos, List.length_pos_iff]

theorem eq_nil (h : Holds m q l c) : c = [] ↔ l = [] := by
  rw [← List.length_eq_zero_iff, h.length_eq, List.length_eq_zero_iff]

theorem live (h : Holds m q l c) (ha : a ∈ l) : ∃ e, m a = some e := by
  have hmem : dataAt m a ∈ c.map some := h.data ▸ List.mem_map_of_mem ha
  obtain ⟨x, -, hx⟩ := List.mem_map.mp hmem
  obtain ⟨e, he, -⟩ := Option.map_eq_some_iff.mp hx.symm
  exact ⟨e, he⟩

theorem not_mem (h : Holds m q l c) (ha : m a = none) : a ∉ l := by
  intro hmem
  obtain ⟨e, he⟩ := h.live hmem
  cases ha.symm.trans he

/-- The pointer to the last element. -/
theorem tail_eq (h : Holds m q l c) (hne : l ≠ []) :
    ∃ t e, q.tail = some t ∧ t ∈ l ∧ m t = some e := by
  have hlast := (h.queue hne).last.trans (List.getLast?_eq_some_getLast hne)
  obtain ⟨e, he⟩ := h.live (List.getLast_mem hne)
  exact ⟨_, e, hlast, List.getLast_mem hne, he⟩

/-- One queue behind another. -/
theorem append (h : Holds m q l c) (h' : Holds m q' l' c') (hne : l ≠ []) (hne' : l' ≠ [])
    (hd : l.Disjoint l') (htail : q.tail = some t) (ht : m t = some e) {n : Int}
    (hn : n = q.elements + q'.elements) :
    Holds (Function.update m t (some { e with next := q'.head }))
      { elements := n, head := q.head, tail := q'.tail } (l ++ l') (c ++ c') := by
  refine ⟨?_, ?_, fun _ => ?_⟩
  · rw [hn, h.elements, h'.elements, List.length_append, Int.natCast_add]
  · rw [dataAt_setNext ht, List.map_append, List.map_append, h.data, h'.data]
  · have happ := (h.queue hne).append (h'.queue hne') hd
    rw [htail] at happ
    rw [links_update]
    obtain ⟨b, l, rfl⟩ := List.exists_cons_of_ne_nil hne
    obtain ⟨b', hb'⟩ : ∃ b', q'.tail = some b' := (h'.tail_eq hne').imp fun t ⟨_, ht, _⟩ => ht
    have hhead : q.head = some b := (h.queue hne).head
    rw [hhead, hb'] at happ
    rwa [hhead, hb']

theorem singleton (x : α) : Holds (Function.update m a (some { next := none, data := x }))
    { elements := 1, head := some a, tail := some a } [a] [x] := by
  refine ⟨rfl, ?_, fun _ => ⟨⟨?_, trivial⟩, rfl, rfl⟩⟩
  · rw [dataAt_update, List.map_singleton, Function.update_self]
    rfl
  · rw [links_update, Function.update_self]
    rfl

/-- The first element is freed. -/
theorem pop (h : Holds m q (a :: l) c) (ha : m a = some e) : ∃ c', c = e.data :: c' ∧
    Holds (Function.update m a none)
      { elements := q.elements - 1, head := e.next, tail := q.tail } l c' := by
  have hq := h.queue (List.cons_ne_nil a l)
  have hnot : a ∉ l := (List.nodup_cons.mp hq.nodup).1
  have hdata := h.data
  rw [List.map_cons, dataAt, ha] at hdata
  cases c with
  | nil => cases hdata
  | cons x c =>
    obtain ⟨hx, hdata'⟩ := List.cons.inj hdata
    obtain rfl : e.data = x := Option.some.inj hx
    have hnext : e.next = l.head? := by
      rw [← hq.linked.1, links, ha]
      rfl
    have hrest : Holds m { elements := q.elements - 1, head := e.next, tail := q.tail } l c := by
      refine ⟨?_, hdata', fun hne => ⟨hq.linked.2, hnext, ?_⟩⟩
      · rw [h.elements, List.length_cons, Int.natCast_add]
        exact Int.add_sub_cancel _ _
      · rw [hq.last, List.getLast?_cons_of_ne_nil hne]
    refine ⟨c, rfl, hrest.congr fun b hb => Function.update_of_ne ?_ _ _⟩
    rintro rfl
    exact hnot hb

end Holds

/-! ## Results of the operations -/

section

variable {s : State α} {i dst src q₁ q₂ : Nat} {p : Option Nat} {x : α}

theorem intSum_eq {n k : Int} (h : -2 ^ 31 ≤ n + k) (h' : n + k < 2 ^ 31) :
    intSum n k = .ok (n + k) := if_pos ⟨h, h'⟩

theorem deref_eq (hp : p = some t) (ht : s.element t = some e) : deref s p = .ok (t, e) := by
  rw [hp, deref, ht]

theorem setNext_eq (hp : p = some t) (ht : s.element t = some e) (next : Option Nat) :
    setNext s p next =
      .ok { s with element := Function.update s.element t (some { e with next := next }) } := by
  rw [setNext, deref_eq hp ht]
  rfl

theorem queueAdd_of_empty (hn : (s.queue i).elements = 0) : queueAdd s i x a = .ok
    { element := Function.update s.element a (some { next := none, data := x }),
      queue := Function.update s.queue i { elements := 1, head := some a, tail := some a } } := by
  rw [queueAdd]
  simp [hn, State.setQueue, intSum]

theorem queueAdd_of_ne (hn : (s.queue i).elements ≠ 0) (hp : (s.queue i).tail = some t)
    (ht : s.element t = some e) (hta : t ≠ a) (hlow : 0 ≤ (s.queue i).elements)
    (hlt : (s.queue i).elements + 1 < 2 ^ 31) : queueAdd s i x a = .ok
    { element := Function.update (Function.update s.element a (some { next := none, data := x })) t
        (some { e with next := some a }),
      queue := Function.update s.queue i
        { elements := (s.queue i).elements + 1, head := (s.queue i).head, tail := some a } } := by
  have ht' : Function.update s.element a (some { next := none, data := x }) t = some e := by
    rw [Function.update_of_ne hta, ht]
  have hset := setNext_eq (s := { s with element := Function.update s.element a _ }) hp ht' (some a)
  simp [queueAdd, hn, hset, ok_bind_eq, State.setQueue, intSum_eq (by omega) hlt]

theorem queueGet_of_empty (hn : (s.queue i).elements = 0) : queueGet s i = .ok (none, s) := by
  rw [queueGet, if_pos hn]
  rfl

theorem queueGet_of_pos (hn : 0 < (s.queue i).elements) (hlt : (s.queue i).elements < 2 ^ 31)
    (hp : (s.queue i).head = some a) (ha : s.element a = some e) : queueGet s i = .ok (some e.data,
      { element := Function.update s.element a none,
        queue := Function.update s.queue i
          { elements := (s.queue i).elements - 1, head := e.next, tail := (s.queue i).tail } }) := by
  have hsum : intSum (s.queue i).elements (-1) = .ok ((s.queue i).elements - 1) :=
    intSum_eq (by omega) (by omega)
  rw [queueGet, if_neg (by omega), deref_eq hp ha]
  simp only [ok_bind_eq, hsum]
  rfl

/-- The elements of both queues, and how many, at `dst`. -/
theorem queueAppend_of_pos (hn : 0 < (s.queue dst).elements) (hn' : 0 < (s.queue src).elements)
    (hne : dst ≠ src) (hp : (s.queue dst).tail = some t) (ht : s.element t = some e)
    (hlt : (s.queue dst).elements + (s.queue src).elements < 2 ^ 31) : queueAppend s dst src = .ok
    { element := Function.update s.element t (some { e with next := (s.queue src).head }),
      queue := Function.update (Function.update s.queue dst
        { elements := (s.queue dst).elements + (s.queue src).elements,
          head := (s.queue dst).head, tail := (s.queue src).tail })
        src { s.queue src with elements := 0 } } := by
  rw [queueAppend, if_pos ⟨hn, hn'⟩, setNext_eq hp ht, ok_bind_eq, intSum_eq (by omega) hlt,
    ok_bind_eq]
  simp [State.setQueue, hne.symm, pure_eq_ok]

theorem queueMerge_of_pos (hd : (s.queue dst).elements = 0) (hn : 0 < (s.queue q₁).elements)
    (hn' : 0 < (s.queue q₂).elements) (hne₁ : dst ≠ q₁) (hne₂ : dst ≠ q₂) (hne : q₁ ≠ q₂)
    (hp : (s.queue q₁).tail = some t) (ht : s.element t = some e)
    (hlt : (s.queue q₁).elements + (s.queue q₂).elements < 2 ^ 31) : queueMerge s dst q₁ q₂ = .ok
    { element := Function.update s.element t (some { e with next := (s.queue q₂).head }),
      queue := Function.update (Function.update (Function.update s.queue dst
        { elements := (s.queue q₁).elements + (s.queue q₂).elements,
          head := (s.queue q₁).head, tail := (s.queue q₂).tail })
        q₁ { s.queue q₁ with elements := 0 }) q₂ { s.queue q₂ with elements := 0 } } := by
  rw [queueMerge, if_neg (by omega), intSum_eq (by omega) hlt, ok_bind_eq]
  have hset : ∀ r, setNext { s with queue := Function.update s.queue dst r } (s.queue q₁).tail
      (s.queue q₂).head = _ :=
    fun r => setNext_eq (s := { s with queue := Function.update s.queue dst r }) hp ht _
  simp [State.setQueue, hn, hn', hne₁.symm, hne₂.symm, hne.symm, pure_eq_ok, ok_bind_eq, hset]

theorem queueMerge_of_empty_right (hd : (s.queue dst).elements = 0)
    (hn : 0 ≤ (s.queue q₁).elements) (hlt : (s.queue q₁).elements < 2 ^ 31)
    (hn' : (s.queue q₂).elements = 0) (hne₁ : dst ≠ q₁) (hne₂ : dst ≠ q₂) :
    queueMerge s dst q₁ q₂ = .ok (moved s dst q₁) := by
  have hsum : intSum (s.queue q₁).elements (s.queue q₂).elements = .ok (s.queue q₁).elements := by
    rw [hn', intSum_eq (by omega) (by omega), Int.add_zero]
  rw [queueMerge, if_neg (by omega), hsum, ok_bind_eq]
  simp [moved, State.setQueue, hn', hne₁.symm, hne₂.symm, pure_eq_ok]

theorem queueMerge_of_empty_left (hd : (s.queue dst).elements = 0)
    (hn : (s.queue q₁).elements = 0) (hn' : 0 < (s.queue q₂).elements)
    (hlt : (s.queue q₂).elements < 2 ^ 31) (hne₁ : dst ≠ q₁) (hne₂ : dst ≠ q₂) :
    queueMerge s dst q₁ q₂ = .ok (moved s dst q₂) := by
  have hsum : intSum (s.queue q₁).elements (s.queue q₂).elements = .ok (s.queue q₂).elements := by
    rw [hn, intSum_eq (by omega) (by omega), Int.zero_add]
  rw [queueMerge, if_neg (by omega), hsum, ok_bind_eq]
  simp [moved, State.setQueue, hn, Int.ne_of_gt hn', hne₁.symm, hne₂.symm, pure_eq_ok]

end

/-! ## All queues -/

/-- The queues have the elements at `l`, with the data `c`, and no element is in two of them. -/
structure Inv (s : State α) (l : Nat → List Nat) (c : Nat → List α) : Prop where
  holds : ∀ q, Holds s.element (s.queue q) (l q) (c q)
  disjoint : ∀ q q', q ≠ q' → (l q).Disjoint (l q')

theorem inv_initial : Inv (initial (α := α)) (fun _ => []) (fun _ => []) :=
  ⟨fun _ => Holds.empty rfl, fun _ _ _ => List.disjoint_nil_left _⟩

theorem disjoint_splice {l : Nat → List Nat} (h : ∀ q q', q ≠ q' → (l q).Disjoint (l q'))
    {dst src : Nat} (hne : dst ≠ src) (q q' : Nat) (hqq : q ≠ q') :
    (splice l dst src q).Disjoint (splice l dst src q') := by
  -- what is in a list after it was in one that went into it
  have hfrom : ∀ q a, a ∈ splice l dst src q →
      ∃ p, a ∈ l p ∧ ((q = p ∧ p ≠ src) ∨ (q = dst ∧ p = src)) := by
    intro q a ha
    rw [splice_apply] at ha
    split at ha
    · cases ha
    · split at ha
      · rename_i hsrc hdst
        rcases List.mem_append.mp ha with ha | ha
        · exact ⟨dst, ha, .inl ⟨hdst, hne⟩⟩
        · exact ⟨src, ha, .inr ⟨hdst, rfl⟩⟩
      · rename_i hsrc _
        exact ⟨q, ha, .inl ⟨rfl, hsrc⟩⟩
  intro a ha ha'
  obtain ⟨p, hp, hcase⟩ := hfrom q a ha
  obtain ⟨p', hp', hcase'⟩ := hfrom q' a ha'
  have hpp : p = p' := by
    by_contra hpp
    exact h p p' hpp hp hp'
  rcases hcase with ⟨rfl, hsrc⟩ | ⟨rfl, rfl⟩
  · rcases hcase' with ⟨rfl, -⟩ | ⟨-, rfl⟩
    · exact hqq hpp
    · exact hsrc hpp
  · rcases hcase' with ⟨rfl, hsrc⟩ | ⟨rfl, -⟩
    · exact hsrc hpp.symm
    · exact hqq rfl

theorem disjoint_push {l : Nat → List Nat} (h : ∀ q q', q ≠ q' → (l q).Disjoint (l q')) {a : Nat}
    (ha : ∀ j, a ∉ l j) (i q q' : Nat) (hqq : q ≠ q') :
    (Function.update l i (l i ++ [a]) q).Disjoint (Function.update l i (l i ++ [a]) q') := by
  have hfrom : ∀ q b, b ∈ Function.update l i (l i ++ [a]) q → b ∈ l q ∨ (q = i ∧ b = a) := by
    intro q b hb
    rw [Function.update_apply] at hb
    split at hb
    · rename_i hq
      rcases List.mem_append.mp hb with hb | hb
      · exact .inl (hq ▸ hb)
      · exact .inr ⟨hq, List.mem_singleton.mp hb⟩
    · exact .inl hb
  intro b hb hb'
  rcases hfrom q b hb with hq | ⟨rfl, rfl⟩
  · rcases hfrom q' b hb' with hq' | ⟨rfl, rfl⟩
    · exact h q q' hqq hq hq'
    · exact ha q hq
  · rcases hfrom q' b hb' with hq' | ⟨rfl, -⟩
    · exact ha q' hq'
    · exact hqq rfl

theorem splice_of_empty {β : Type} {c : Nat → List β} {dst src : Nat} (hc : c src = []) :
    splice c dst src = c := by
  rw [splice, hc, List.append_nil, Function.update_eq_self, ← hc, Function.update_eq_self]

namespace Inv

variable {s : State α} {l : Nat → List Nat} {c : Nat → List α} {i dst src q₁ q₂ : Nat} {x : α}

theorem lt_of_length (h : Inv s l c) (hlt : (c i).length < 2 ^ 31) :
    0 ≤ (s.queue i).elements ∧ (s.queue i).elements < 2 ^ 31 := by
  rw [(h.holds i).elements, ← (h.holds i).length_eq]
  omega

/-- The elements of a queue are changed, and no others. -/
theorem holds_of_mem (h : Inv s l c) {t : Nat} (ht : t ∈ l i) {y : Option (Element α)} {j : Nat}
    (hj : j ≠ i) : Holds (Function.update s.element t y) (s.queue j) (l j) (c j) := by
  refine (h.holds j).congr fun a ha => Function.update_of_ne ?_ _ _
  rintro rfl
  exact h.disjoint j i hj ha ht

theorem add (h : Inv s l c) (ha : s.element a = none) (hlt : (c i).length + 1 < 2 ^ 31) :
    ∃ s', queueAdd s i x a = .ok s' ∧
      Inv s' (Function.update l i (l i ++ [a])) (Function.update c i (c i ++ [x])) := by
  have hnot : ∀ j, a ∉ l j := fun j => (h.holds j).not_mem ha
  have hdisj := disjoint_push h.disjoint hnot i
  have hother : Inv { s with element := Function.update s.element a (some ⟨none, x⟩) } l c := by
    refine ⟨fun j => (h.holds j).congr fun b hb => Function.update_of_ne ?_ _ _, h.disjoint⟩
    rintro rfl
    exact hnot j hb
  obtain ⟨hlow, -⟩ := h.lt_of_length (i := i) (by omega)
  by_cases hempty : l i = []
  · have hzero := (h.holds i).elements_eq_zero.mpr hempty
    have hc := (h.holds i).eq_nil.mpr hempty
    refine ⟨_, queueAdd_of_empty hzero, fun j => ?_, hdisj⟩
    by_cases hj : j = i
    · subst hj
      simpa [hempty, hc] using Holds.singleton x
    · simpa [hj] using hother.holds j
  · obtain ⟨t, e, htail, ht, he⟩ := (h.holds i).tail_eq hempty
    have hta : t ≠ a := by
      rintro rfl
      exact hnot i ht
    have hzero := mt (h.holds i).elements_eq_zero.mp hempty
    have hlt' : (s.queue i).elements + 1 < 2 ^ 31 := by
      rw [(h.holds i).elements, ← (h.holds i).length_eq]
      omega
    refine ⟨_, queueAdd_of_ne hzero htail he hta hlow hlt', fun j => ?_, hdisj⟩
    by_cases hj : j = i
    · subst hj
      have happ := (hother.holds j).append (Holds.singleton x) hempty (List.cons_ne_nil a [])
        (List.disjoint_singleton.mpr (hnot j)) htail ((Function.update_of_ne hta _ _).trans he) rfl
      simpa using happ
    · simpa [hj] using hother.holds_of_mem ht hj

theorem get (h : Inv s l c) (hlt : (c i).length < 2 ^ 31) : ∃ s',
    queueGet s i = .ok ((c i).head?, s') ∧
      Inv s' (Function.update l i (l i).tail) (Function.update c i (c i).tail) := by
  have hdisj : ∀ q q', q ≠ q' → (Function.update l i (l i).tail q).Disjoint
      (Function.update l i (l i).tail q') := by
    have hsub : ∀ q b, b ∈ Function.update l i (l i).tail q → b ∈ l q := by
      intro q b hb
      rw [Function.update_apply] at hb
      split at hb
      · rename_i hq
        exact hq ▸ List.mem_of_mem_tail hb
      · exact hb
    exact fun q q' hqq b hb hb' => h.disjoint q q' hqq (hsub q b hb) (hsub q' b hb')
  cases hl : l i with
  | nil =>
    have hc := (h.holds i).eq_nil.mpr hl
    refine ⟨s, ?_, ?_⟩
    · rw [queueGet_of_empty ((h.holds i).elements_eq_zero.mpr hl), hc]
      rfl
    · rw [hc, List.tail_nil, List.tail_nil, ← hc, Function.update_eq_self, ← hl,
        Function.update_eq_self]
      exact h
  | cons a r =>
    obtain ⟨-, hlt'⟩ := h.lt_of_length hlt
    have hi := h.holds i
    rw [hl] at hi hdisj
    obtain ⟨e, he⟩ := hi.live List.mem_cons_self
    obtain ⟨c', hc, hpop⟩ := hi.pop he
    have hpos := hi.elements_pos.mpr (List.cons_ne_nil a r)
    have hhead : (c i).head? = some e.data := by rw [hc, List.head?_cons]
    have hget := queueGet_of_pos hpos hlt' (hi.queue (List.cons_ne_nil a r)).head he
    refine ⟨_, hhead ▸ hget, fun j => ?_, hdisj⟩
    by_cases hj : j = i
    · subst hj
      simpa [hc] using hpop
    · simpa [hj] using h.holds_of_mem (hl ▸ List.mem_cons_self) hj

theorem moved (h : Inv s l c) (hne : dst ≠ src) (hd : l dst = []) :
    Inv (moved s dst src) (splice l dst src) (splice c dst src) := by
  have hc := (h.holds dst).eq_nil.mpr hd
  refine ⟨fun j => ?_, disjoint_splice h.disjoint hne⟩
  rw [splice_apply, splice_apply, hd, hc, List.nil_append, List.nil_append]
  by_cases hsrc : j = src
  · subst hsrc
    simpa [LinkedQueue.moved, State.setQueue] using Holds.empty rfl
  · by_cases hdst : j = dst
    · subst hdst
      simpa [LinkedQueue.moved, State.setQueue, hne] using h.holds src
    · simpa [LinkedQueue.moved, State.setQueue, hsrc, hdst] using h.holds j

/-- Two queues with elements: the last of the first one gets a link. -/
theorem append_holds (h : Inv s l c) (hne : q₁ ≠ q₂) (hl₁ : l q₁ ≠ []) (hl₂ : l q₂ ≠ [])
    {t : Nat} {e : Element α} (htail : (s.queue q₁).tail = some t) (he : s.element t = some e) :
    Holds (Function.update s.element t (some { e with next := (s.queue q₂).head }))
      { elements := (s.queue q₁).elements + (s.queue q₂).elements, head := (s.queue q₁).head,
        tail := (s.queue q₂).tail } (l q₁ ++ l q₂) (c q₁ ++ c q₂) :=
  (h.holds q₁).append (h.holds q₂) hl₁ hl₂ (h.disjoint q₁ q₂ hne) htail he rfl

theorem append (h : Inv s l c) (hne : dst ≠ src)
    (hlt : (c dst).length + (c src).length < 2 ^ 31) : ∃ s', queueAppend s dst src = .ok s' ∧
      Inv s' (splice l dst src) (splice c dst src) := by
  have hdst := h.holds dst
  have hsrc := h.holds src
  by_cases hl : l dst = []
  · have hzero := hdst.elements_eq_zero.mpr hl
    refine ⟨LinkedQueue.moved s dst src, ?_, h.moved hne hl⟩
    rw [queueAppend, if_neg (by omega), if_pos hzero]
    rfl
  by_cases hl' : l src = []
  · have hzero := hsrc.elements_eq_zero.mpr hl'
    have hpos := hdst.elements_pos.mpr hl
    refine ⟨s, ?_, ?_⟩
    · rw [queueAppend, if_neg (by omega), if_neg (by omega)]
      rfl
    · rw [splice_of_empty hl', splice_of_empty (hsrc.eq_nil.mpr hl')]
      exact h
  · obtain ⟨t, e, htail, ht, he⟩ := hdst.tail_eq hl
    have hlt' : (s.queue dst).elements + (s.queue src).elements < 2 ^ 31 := by
      rw [hdst.elements, hsrc.elements, ← hdst.length_eq, ← hsrc.length_eq]
      omega
    refine ⟨_, queueAppend_of_pos (hdst.elements_pos.mpr hl) (hsrc.elements_pos.mpr hl') hne htail
      he hlt', fun j => ?_, disjoint_splice h.disjoint hne⟩
    rw [splice_apply, splice_apply]
    by_cases hj : j = src
    · subst hj
      simpa using Holds.empty rfl
    · by_cases hj' : j = dst
      · subst hj'
        simpa [hne] using h.append_holds hne hl hl' htail he
      · simpa [hj, hj'] using h.holds_of_mem ht hj'

theorem merge (h : Inv s l c) (hne₁ : dst ≠ q₁) (hne₂ : dst ≠ q₂) (hne : q₁ ≠ q₂)
    (hd : l dst = []) (hlt : (c q₁).length + (c q₂).length < 2 ^ 31) : ∃ s',
    queueMerge s dst q₁ q₂ = .ok s' ∧
      Inv s' (splice (splice l dst q₁) dst q₂) (splice (splice c dst q₁) dst q₂) := by
  have hdst := h.holds dst
  have h₁ := h.holds q₁
  have h₂ := h.holds q₂
  have hzero := hdst.elements_eq_zero.mpr hd
  have hlt₁ := h.lt_of_length (i := q₁) (by omega)
  have hlt₂ := h.lt_of_length (i := q₂) (by omega)
  by_cases hl₂ : l q₂ = []
  · refine ⟨_, queueMerge_of_empty_right hzero hlt₁.1 hlt₁.2 (h₂.elements_eq_zero.mpr hl₂) hne₁
      hne₂, ?_⟩
    have hl : splice l dst q₁ q₂ = [] := by
      rw [splice_apply, if_neg hne.symm, if_neg hne₂.symm, hl₂]
    have hc : splice c dst q₁ q₂ = [] := by
      rw [splice_apply, if_neg hne.symm, if_neg hne₂.symm, h₂.eq_nil.mpr hl₂]
    rw [splice_of_empty hl, splice_of_empty hc]
    exact h.moved hne₁ hd
  by_cases hl₁ : l q₁ = []
  · refine ⟨_, queueMerge_of_empty_left hzero (h₁.elements_eq_zero.mpr hl₁)
      (h₂.elements_pos.mpr hl₂) hlt₂.2 hne₁ hne₂, ?_⟩
    rw [splice_of_empty hl₁, splice_of_empty (h₁.eq_nil.mpr hl₁)]
    exact h.moved hne₂ hd
  · obtain ⟨t, e, htail, ht, he⟩ := h₁.tail_eq hl₁
    have hsum : (s.queue q₁).elements + (s.queue q₂).elements < 2 ^ 31 := by
      rw [h₁.elements, h₂.elements, ← h₁.length_eq, ← h₂.length_eq]
      omega
    refine ⟨_, queueMerge_of_pos hzero (h₁.elements_pos.mpr hl₁) (h₂.elements_pos.mpr hl₂) hne₁
      hne₂ hne htail he hsum, fun j => ?_, disjoint_splice (disjoint_splice h.disjoint hne₁) hne₂⟩
    have hc := hdst.eq_nil.mpr hd
    simp only [splice_apply, hd, hc, List.nil_append, if_neg hne.symm, if_neg hne₂.symm]
    by_cases hj : j = q₂
    · subst hj
      simpa using Holds.empty rfl
    by_cases hj' : j = q₁
    · subst hj'
      simpa [hne, hne₁.symm] using Holds.empty rfl
    · by_cases hj'' : j = dst
      · subst hj''
        simpa [hne₁, hne₂] using h.append_holds hne hl₁ hl₂ htail he
      · simpa [hj, hj', hj''] using h.holds_of_mem ht hj'

end Inv

/-! ## Runs -/

/-- The queues of a call are not the same. -/
def Op.Distinct : Op α → Prop
  | .move dst src | .append dst src => dst ≠ src
  | .merge dst q₁ q₂ => dst ≠ q₁ ∧ dst ≠ q₂ ∧ q₁ ≠ q₂
  | _ => True

/-- `Xzmalloc` returns an address at which nothing is. -/
def Op.Fresh (s : State α) : Op α → Prop
  | .add _ _ e => s.element e = none
  | _ => True

/-- So it does in every call. -/
def Allocs (s : State α) : List (Op α) → Prop
  | [] => True
  | op :: ops => op.Fresh s ∧ ∀ out s', step s op = .ok (out, s') → Allocs s' ops

/-- The lists stay shorter than `2 ^ 31`. -/
def Short (c : Nat → List α) : List (Op α) → Prop
  | [] => True
  | op :: ops => (∀ q, ((listStep c op).2 q).length < 2 ^ 31) ∧ Short (listStep c op).2 ops

variable {s s' : State α} {l : Nat → List Nat} {c : Nat → List α}

theorem Inv.step (h : Inv s l c) {op : Op α} (hd : op.Distinct) (ha : op.Fresh s)
    (hc : ∀ q, (c q).length < 2 ^ 31) (hc' : ∀ q, ((listStep c op).2 q).length < 2 ^ 31) :
    ∃ s' l', step s op = .ok ((listStep c op).1, s') ∧ Inv s' l' (listStep c op).2 := by
  cases op with
  | add q data e =>
    have hlt : (Function.update c q (c q ++ [data]) q).length < 2 ^ 31 := hc' q
    rw [Function.update_self, List.length_append] at hlt
    obtain ⟨s', hs, h'⟩ := h.add ha hlt
    exact ⟨s', _, bind_of_ok hs _, h'⟩
  | get q =>
    obtain ⟨s', hs, h'⟩ := h.get (hc q)
    exact ⟨s', _, bind_of_ok hs _, h'⟩
  | move dst src =>
    have hdst := h.holds dst
    by_cases hempty : c dst = []
    · have hl := hdst.eq_nil.mp hempty
      have hzero := hdst.elements_eq_zero.mpr hl
      refine ⟨LinkedQueue.moved s dst src, splice l dst src, ?_, ?_⟩
      · rw [LinkedQueue.step, queueMove, if_neg (by omega)]
        rfl
      · rw [listStep, if_pos hempty]
        exact h.moved hd hl
    · have hpos := hdst.elements_pos.mpr (mt hdst.eq_nil.mpr hempty)
      refine ⟨s, l, ?_, ?_⟩
      · rw [LinkedQueue.step, queueMove, if_pos hpos]
        rfl
      · rw [listStep, if_neg hempty]
        exact h
  | append dst src =>
    have hlt : (splice c dst src dst).length < 2 ^ 31 := hc' dst
    rw [splice_apply, if_neg hd, if_pos rfl, List.length_append] at hlt
    obtain ⟨s', hs, h'⟩ := h.append hd hlt
    exact ⟨s', _, bind_of_ok hs _, h'⟩
  | merge dst q₁ q₂ =>
    obtain ⟨hne₁, hne₂, hne⟩ := hd
    have hdst := h.holds dst
    by_cases hempty : c dst = []
    · rw [listStep, if_pos hempty] at hc' ⊢
      have hlt : (splice (splice c dst q₁) dst q₂ dst).length < 2 ^ 31 := hc' dst
      rw [splice_apply, if_neg hne₂, if_pos rfl, splice_apply, splice_apply, if_neg hne₁,
        if_pos rfl, if_neg hne.symm, if_neg hne₂.symm, hempty, List.nil_append,
        List.length_append] at hlt
      obtain ⟨s', hs, h'⟩ := h.merge hne₁ hne₂ hne (hdst.eq_nil.mp hempty) hlt
      exact ⟨s', _, bind_of_ok hs _, h'⟩
    · have hpos := hdst.elements_pos.mpr (mt hdst.eq_nil.mpr hempty)
      refine ⟨s, l, ?_, ?_⟩
      · rw [LinkedQueue.step, queueMerge, if_pos hpos]
        rfl
      · rw [listStep, if_neg hempty]
        exact h

/-- The run of the calls is that of the lists. -/
theorem Inv.run (h : Inv s l c) {ops : List (Op α)} (hd : ∀ op ∈ ops, op.Distinct)
    (ha : Allocs s ops) (hc : ∀ q, (c q).length < 2 ^ 31) (hs : Short c ops) :
    ∃ s' l', run s ops = .ok ((listRun c ops).1, s') ∧ Inv s' l' (listRun c ops).2 := by
  induction ops generalizing s l c with
  | nil => exact ⟨s, l, rfl, h⟩
  | cons op ops ih =>
    obtain ⟨hfresh, ha⟩ := ha
    obtain ⟨hc', hs⟩ := hs
    obtain ⟨s₁, l₁, hstep, h₁⟩ := h.step (hd op List.mem_cons_self) hfresh hc hc'
    obtain ⟨s', l', hrun, h'⟩ := ih h₁ (fun op hop => hd op (List.mem_cons_of_mem _ hop))
      (ha _ _ hstep) hc' hs
    refine ⟨s', l', ?_, h'⟩
    rw [LinkedQueue.run, bind_of_ok hstep]
    exact bind_of_ok hrun _

/-! ## What is in the queues -/

/-- The addresses of the elements, from the head on. -/
def State.addresses (s : State α) (q : Nat) : List Nat :=
  walk (links s.element) (s.queue q).elements.toNat (s.queue q).head

/-- The data, from the head on. -/
def State.contents (s : State α) (q : Nat) : List α := (s.addresses q).filterMap (dataAt s.element)

/-- The queues have the data `c`, up to their tails, and no element is in two of them. -/
structure Represents (s : State α) (c : Nat → List α) : Prop where
  contents : ∀ q, s.contents q = c q
  elements : ∀ q, (s.queue q).elements = (c q).length
  tail : ∀ q, (s.queue q).elements = 0 ∨ (s.queue q).tail = (s.addresses q).getLast?
  disjoint : ∀ q q', q ≠ q' → (s.addresses q).Disjoint (s.addresses q')

theorem Inv.addresses_eq (h : Inv s l c) (q : Nat) : s.addresses q = l q := by
  have hq := h.holds q
  rw [State.addresses, hq.elements, Int.toNat_natCast]
  by_cases hl : l q = []
  · rw [hl]
    rfl
  · rw [(hq.queue hl).head]
    exact walk_eq (hq.queue hl).linked (Nat.le_refl _)

theorem Inv.represents (h : Inv s l c) : Represents s c := by
  refine ⟨fun q => ?_, fun q => ?_, fun q => ?_, fun q q' hqq => ?_⟩
  · have hmap : (l q).filterMap (dataAt s.element) = ((l q).map (dataAt s.element)).filterMap id := by
      rw [List.filterMap_map]
      rfl
    rw [State.contents, h.addresses_eq, hmap, (h.holds q).data, List.filterMap_map]
    exact List.filterMap_some
  · rw [(h.holds q).elements, (h.holds q).length_eq]
  · rw [h.addresses_eq]
    by_cases hl : l q = []
    · exact .inl ((h.holds q).elements_eq_zero.mpr hl)
    · exact .inr ((h.holds q).queue hl).last
  · rw [h.addresses_eq, h.addresses_eq]
    exact h.disjoint q q' hqq

/-- From new queues, in calls on distinct queues, none of which comes to `2 ^ 31` elements, the
results and the contents are those of the lists. -/
theorem run_represents (ops : List (Op α)) (hd : ∀ op ∈ ops, op.Distinct) (ha : Allocs initial ops)
    (hs : Short (fun _ => []) ops) : ∃ s, run initial ops = .ok ((listRun (fun _ => []) ops).1, s) ∧
      Represents s (listRun (fun _ => []) ops).2 := by
  obtain ⟨s, l, hrun, h⟩ := inv_initial.run hd ha (fun _ => Nat.two_pow_pos 31) hs
  exact ⟨s, hrun, h.represents⟩

theorem allocs_cons {op : Op α} {ops : List (Op α)} {out : List (Option α)} (hop : op.Fresh s)
    (hstep : step s op = .ok (out, s')) (h : Allocs s' ops) : Allocs s (op :: ops) := by
  refine ⟨hop, fun out' s'' h' => ?_⟩
  obtain ⟨-, rfl⟩ := Prod.mk.inj (Except.ok.inj (hstep.symm.trans h'))
  exact h

/-- Queues of two elements and of one, behind each other in a third one. -/
theorem run_represents_merge : ∃ s,
    run initial [.add 0 10 0, .add 0 20 1, .add 1 30 2, .merge 2 0 1, .get 2] =
      .ok ([some 10], s) ∧ Represents s (listRun (fun _ => [])
        [.add 0 10 0, .add 0 20 1, .add 1 30 2, .merge 2 0 1, .get 2]).2 := by
  refine run_represents [.add 0 10 0, .add 0 20 1, .add 1 30 2, .merge 2 0 1, .get 2] ?_ ?_ ?_
  · simp [Op.Distinct]
  · exact allocs_cons rfl rfl (allocs_cons rfl rfl (allocs_cons rfl rfl (allocs_cons trivial rfl
      (allocs_cons trivial rfl trivial))))
  · refine ⟨fun q => ?_, fun q => ?_, fun q => ?_, fun q => ?_, fun q => ?_, trivial⟩ <;>
      simp [listStep, splice_apply, Function.update_apply] <;> split_ifs <;> simp

theorem intSum_ok {n k r : Int} (h : intSum n k = .ok r) : r = n + k ∧ n + k < 2 ^ 31 := by
  rw [intSum] at h
  split at h
  · rename_i hlt
    exact ⟨(Except.ok.inj h).symm, hlt.2⟩
  · cases h

theorem deref_ok {p : Option Nat} {t : Nat} {e : Element α} (h : deref s p = .ok (t, e)) :
    s.element t = some e := by
  cases p with
  | none => cases h
  | some b =>
    rw [deref] at h
    split at h
    · cases h
    · rename_i heq
      cases h
      exact heq

theorem queueAdd_ok {i a : Nat} {x : α} (h : queueAdd s i x a = .ok s') :
    (s.queue i).elements + 1 < 2 ^ 31 ∧ (s'.queue i).elements = (s.queue i).elements + 1 ∧
      ∀ b, b ≠ a → s.element b = none → s'.element b = none := by
  rw [queueAdd] at h
  split at h
  · obtain ⟨s₁, h₁, h⟩ := bind_ok h
    cases h₁
    obtain ⟨n, hn, h⟩ := bind_ok h
    cases h
    obtain ⟨rfl, hlt⟩ := intSum_ok hn
    simp only [State.setQueue, Function.update_self] at hlt ⊢
    exact ⟨hlt, trivial, fun b hb hnone => (Function.update_of_ne hb _ _).trans hnone⟩
  · obtain ⟨s₂, h₂, h⟩ := bind_ok h
    obtain ⟨s₁, h₁, h⟩ := bind_ok h
    cases h₁
    obtain ⟨n, hn, h⟩ := bind_ok h
    cases h
    obtain ⟨rfl, hlt⟩ := intSum_ok hn
    obtain ⟨⟨t, e⟩, ht, h₂⟩ := bind_ok h₂
    cases h₂
    simp only [State.setQueue, Function.update_self] at hlt ⊢
    refine ⟨hlt, trivial, fun b hb hnone => ?_⟩
    have hb' := (Function.update_of_ne hb (some { next := none, data := x }) _).trans hnone
    refine (Function.update_of_ne ?_ _ _).trans hb'
    rintro rfl
    cases hb'.symm.trans (deref_ok ht)

/-- `n` elements for one queue. -/
def adds : Nat → Nat → List (Op Unit)
  | 0, _ => []
  | n + 1, k => .add 0 () k :: adds n (k + 1)

theorem distinct_adds (n k : Nat) : ∀ op ∈ adds n k, op.Distinct := by
  induction n generalizing k with
  | zero => exact fun _ h => (List.not_mem_nil h).elim
  | succ n ih =>
    intro op hop
    rcases List.mem_cons.mp hop with rfl | hop
    · trivial
    · exact ih (k + 1) op hop

theorem allocs_adds {s : State Unit} (n : Nat) {k : Nat} (hs : ∀ a, k ≤ a → s.element a = none) :
    Allocs s (adds n k) := by
  induction n generalizing s k with
  | zero => trivial
  | succ n ih =>
    refine ⟨hs k (Nat.le_refl k), fun out s' h => ih fun a ha => ?_⟩
    obtain ⟨s₁, hadd, h⟩ := bind_ok h
    cases h
    exact (queueAdd_ok hadd).2.2 a (by omega) (hs a (by omega))

theorem elements_adds {s s' : State Unit} {n k : Nat} {out : List (Option Unit)}
    (h : run s (adds (n + 1) k) = .ok (out, s')) : (s.queue 0).elements + n + 1 < 2 ^ 31 := by
  induction n generalizing s k out with
  | zero =>
    obtain ⟨⟨out₁, s₁⟩, h₁, -⟩ := bind_ok h
    obtain ⟨s₂, hadd, -⟩ := bind_ok h₁
    have := (queueAdd_ok hadd).1
    omega
  | succ n ih =>
    obtain ⟨⟨out₁, s₁⟩, h₁, h⟩ := bind_ok h
    obtain ⟨s₂, hadd, h₁⟩ := bind_ok h₁
    cases h₁
    obtain ⟨⟨out₂, s₃⟩, h₂, h⟩ := bind_ok h
    cases h
    have := ih h₂
    rw [(queueAdd_ok hadd).2.1] at this
    omega

/-- The count of a queue is an `int`, and `queue_move` leaves a queue with elements as it is. -/
theorem not_run_represents :
    (¬ ∀ ops : List (Op Unit), (∀ op ∈ ops, op.Distinct) → Allocs initial ops →
      ∃ s, run initial ops = .ok ((listRun (fun _ => []) ops).1, s) ∧
        Represents s (listRun (fun _ => []) ops).2) ∧
    ∃ s, run initial [.add 0 10 0, .add 1 20 1, .move 0 1] = .ok ([], s) ∧ s.contents 1 = [20] := by
  refine ⟨fun h => ?_, ⟨_, rfl, rfl⟩⟩
  obtain ⟨s, hrun, -⟩ := h (adds (2 ^ 31 - 1 + 1) 0) (distinct_adds _ _)
    (allocs_adds _ fun _ _ => rfl)
  have := elements_adds hrun
  simp [initial, queueNew] at this

end LinkedQueue

end Orchids
