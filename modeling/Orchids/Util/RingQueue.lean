import Orchids.Lib.Except
import Orchids.Lib.Ring
import Orchids.Util.StringUtil

/-!
# Ring queues (`ringqueue.c`)

* `ringqueueNew`, `ringqueueAdd`, `ringqueueGet`: the operations, with the cells of the buffer.
* `fifoStep`: the same operations on a list.
* `Good`: what a queue must be like for an operation to do what it does on the list.
* `run_fifo`: a run in which it is, is the run of the list.
-/

namespace Orchids

namespace RingBuffer

/-- What goes wrong: an access outside a buffer or to a cell with no value, a division by zero, or
an index that is no `int`. -/
inductive Fault where
  | access
  | divide
  | overflow

/-- Which of the two stores of `x = ++x % n` or `x = x++ % n` is the last one: their order is not
specified. -/
inductive LastStore where
  | assignment
  | increment
  deriving DecidableEq

/-- The order of the stores in `ringqueue_add` and in `ringqueue_get`. -/
structure Stores where
  enqueue : LastStore
  dequeue : LastStore

/-- `ringqueue_t`, where a cell is `none` before the first store into it. -/
structure RingQueue (α : Type) where
  enqueue : Int
  dequeue : Int
  size : Nat
  grow : Nat
  data : List (Option (Option α))

variable {α : Type}

/-- How many pointers there are in `n * sizeof (void *)` bytes. -/
def pointers (n : Int) : Nat := (n * 8 % 2 ^ 64).toNat / 8

/-- `q->size += q->grow` -/
def grownSize (q : RingQueue α) : Nat := (q.size + q.grow) % 2 ^ 64

/-- `ringqueue_new` -/
def ringqueueNew (size grow : Nat) : RingQueue α :=
  { enqueue := -1, dequeue := -1, size := size, grow := grow,
    data := List.replicate (pointers size) none }

/-- The `n` cells from `i` on, which `memcpy` copies. -/
def copied (data : List (Option (Option α))) (i : Int) (n : Nat) :
    Except Fault (List (Option (Option α))) :=
  if 0 ≤ i ∧ i.toNat + n ≤ data.length then .ok ((data.drop i.toNat).take n) else .error .access

/-- The branch of `ringqueue_add` that takes a greater buffer. -/
def grown (q : RingQueue α) : Except Fault (RingQueue α) := do
  let front ← copied q.data q.dequeue (pointers (q.size - q.dequeue))
  let back ← copied q.data 0 (pointers (q.enqueue + 1))
  -- the second copy goes to `new_data[old_size - dequeue]`
  if front.length = q.size - q.dequeue ∧ front.length + back.length ≤ pointers (grownSize q) then
    let fresh := List.replicate (pointers (grownSize q) - (front.length + back.length)) none
    return { q with size := grownSize q, data := front ++ back ++ fresh, enqueue := toInt q.size,
                    dequeue := 0 }
  else .error .access

/-- `q->enqueue = ++q->enqueue % q->size` -/
def advanced (o : Stores) (q : RingQueue α) : Except Fault (RingQueue α) :=
  if q.enqueue + 1 < 2 ^ 31 then
    match o.enqueue with
    | .assignment => .ok { q with enqueue := toInt (toSize (q.enqueue + 1) % q.size) }
    | .increment => .ok { q with enqueue := q.enqueue + 1 }
  else .error .overflow

/-- `q->data[q->enqueue] = data` -/
def stored (q : RingQueue α) (data : Option α) : Except Fault (RingQueue α) :=
  if 0 ≤ q.enqueue ∧ q.enqueue.toNat < q.data.length then
    .ok { q with data := q.data.set q.enqueue.toNat (some data) }
  else .error .access

/-- The test for a full buffer: `%` binds more than `+`. -/
def collides (q : RingQueue α) : Prop :=
  (toSize q.enqueue + 1 % q.size) % 2 ^ 64 = toSize q.dequeue

instance (q : RingQueue α) : Decidable (collides q) := inferInstanceAs (Decidable (_ = _))

/-- `if (q->dequeue == -1) q->dequeue = q->enqueue` -/
def started (q : RingQueue α) : RingQueue α :=
  if q.dequeue = -1 then { q with dequeue := q.enqueue } else q

/-- `ringqueue_add` -/
def ringqueueAdd (o : Stores) (q : RingQueue α) (data : Option α) : Except Fault (RingQueue α) :=
  -- `1 % q->size`
  if q.size = 0 then .error .divide
  else do
    let q ← if collides q then grown q else advanced o q
    stored (started q) data

/-- `q->data[i]` -/
def loaded (data : List (Option (Option α))) (i : Int) : Except Fault (Option α) :=
  if 0 ≤ i then
    match data[i.toNat]? with
    | some (some x) => .ok x
    | _ => .error .access
  else .error .access

/-- `q->dequeue = q->dequeue++ % q->size` -/
def dequeued (o : Stores) (q : RingQueue α) : Except Fault (RingQueue α) :=
  if q.dequeue + 1 < 2 ^ 31 then
    match o.dequeue with
    | .assignment => .ok { q with dequeue := toInt (toSize q.dequeue % q.size) }
    | .increment => .ok { q with dequeue := q.dequeue + 1 }
  else .error .overflow

/-- `ringqueue_get` -/
def ringqueueGet (o : Stores) (q : RingQueue α) : Except Fault (Option α × RingQueue α) :=
  if q.dequeue = -1 then .ok (none, q)
  else do
    let data ← loaded q.data q.dequeue
    let q ← if q.dequeue = q.enqueue then .ok { q with dequeue := -1 } else dequeued o q
    return (data, q)

inductive Op (α : Type) where
  | add (data : Option α)
  | get

/-- A call, and what `ringqueue_get` returns. -/
def step (o : Stores) (q : RingQueue α) : Op α → Except Fault (List (Option α) × RingQueue α)
  | .add data => return ([], ← ringqueueAdd o q data)
  | .get => do
    let (data, q) ← ringqueueGet o q
    return ([data], q)

def run (o : Stores) (q : RingQueue α) :
    List (Op α) → Except Fault (List (Option α) × RingQueue α)
  | [] => return ([], q)
  | op :: ops => do
    let (out, q) ← step o q op
    let (outs, q) ← run o q ops
    return (out ++ outs, q)

/-- The cells from `dequeue` to `enqueue`. -/
def contents (q : RingQueue α) : List (Option (Option α)) :=
  if q.dequeue = -1 then []
  else if q.dequeue.toNat ≤ q.enqueue.toNat then
    (q.data.take (q.enqueue.toNat + 1)).drop q.dequeue.toNat
  else (q.data.take q.size).drop q.dequeue.toNat ++ q.data.take (q.enqueue.toNat + 1)

/-! ## Lists -/

/-- The operations on the values that were not yet returned, in order; `none` is `NULL`. -/
def fifoStep (l : List (Option α)) : Op α → List (Option α) × List (Option α)
  | .add data => ([], l ++ [data])
  | .get => ([l.head?.join], l.tail)

def fifo (l : List (Option α)) : List (Op α) → List (Option α) × List (Option α)
  | [] => ([], l)
  | op :: ops =>
    ((fifoStep l op).1 ++ (fifo (fifoStep l op).2 ops).1, (fifo (fifoStep l op).2 ops).2)

/-- What a queue must be like for a call. -/
def Good (o : Stores) (q : RingQueue α) : Op α → Prop
  | .add _ => 2 ≤ q.size ∧
      if q.enqueue + 1 = q.dequeue then
        q.size < 2 ^ 31 ∧ q.size < pointers (grownSize q)
      else
        ¬ (q.dequeue = 0 ∧ q.enqueue + 1 = q.size) ∧ q.enqueue + 1 < 2 ^ 31 ∧
          (q.enqueue + 1 < q.data.length ∨ o.enqueue = .assignment ∧ q.enqueue + 1 = q.size)
  | .get => q.dequeue = -1 ∨ q.dequeue = q.enqueue ∨
      o.dequeue = .increment ∧ q.dequeue + 1 < q.size

instance (o : Stores) (q : RingQueue α) : ∀ op, Decidable (Good o q op)
  | .add _ => inferInstanceAs (Decidable (_ ∧ _))
  | .get => inferInstanceAs (Decidable (_ ∨ _))

/-- It is so before every call of a run. -/
def Meets (o : Stores) (q : RingQueue α) : List (Op α) → Prop
  | [] => True
  | op :: ops => Good o q op ∧ ∀ out q', step o q op = .ok (out, q') → Meets o q' ops

/-! ## Queues with values -/

/-- The queue `q` has the values `l`. -/
structure Inv (q : RingQueue α) (l : List (Option α)) : Prop where
  len : q.data.length ≤ q.size
  low : -1 ≤ q.enqueue
  high : q.enqueue < 2 ^ 31
  room : q.enqueue < q.data.length
  empty : l = [] → q.dequeue = -1
  ring : l ≠ [] → ∃ d : Nat, q.dequeue = d ∧ q.enqueue = Ring.index q.size d (l.length - 1) ∧
    IsRing q.data q.size d l ∧ ∀ i < l.length, Ring.index q.size d i < 2 ^ 31

theorem pointers_le (n : Nat) : pointers n ≤ n := by
  unfold pointers
  omega

theorem pointers_eq {n : Int} (h : 0 ≤ n) (hlt : n < 2 ^ 31) : pointers n = n.toNat := by
  unfold pointers
  omega

variable {o : Stores} {q q' : RingQueue α} {l : List (Option α)} {x : Option α}

theorem inv_ringqueueNew (size grow : Nat) : Inv (ringqueueNew (α := α) size grow) [] := by
  have hneg : (-1 : Int) < 0 := by decide
  refine ⟨?_, Int.le_refl _, Int.lt_trans hneg (by decide), ?_, fun _ => rfl, ?_⟩
  · rw [ringqueueNew, List.length_replicate]
    exact pointers_le size
  · rw [ringqueueNew, List.length_replicate]
    exact Int.lt_of_lt_of_le hneg (Int.natCast_nonneg _)
  · exact fun h => absurd rfl h

namespace Inv

theorem dequeue_bounds (h : Inv q l) : -1 ≤ q.dequeue ∧ q.dequeue < 2 ^ 31 := by
  by_cases hl : l = []
  · rw [h.empty hl]
    decide
  · obtain ⟨d, hd, -, hring, hsmall⟩ := h.ring hl
    have hlt := hsmall 0 (List.length_pos_iff.mpr hl)
    rw [Ring.index_of_lt hring.lt, Nat.add_zero] at hlt
    omega

theorem dequeue_eq (h : Inv q l) : q.dequeue = -1 ↔ l = [] := by
  refine ⟨fun hq => ?_, h.empty⟩
  by_contra hl
  obtain ⟨d, hd, -⟩ := h.ring hl
  omega

theorem collides_iff (h : Inv q l) (hsize : 2 ≤ q.size) :
    collides q ↔ q.enqueue + 1 = q.dequeue := by
  obtain ⟨hlow, hhigh⟩ := h.dequeue_bounds
  have hone : 1 % q.size = 1 := Nat.mod_eq_of_lt hsize
  have hsizeOf : ∀ n : Int, -1 ≤ n → n < 2 ^ 31 → (toSize n : Int) = n % 2 ^ 64 := by
    intro n hn hlt
    rw [toSize, BitVec.toNat_ofInt]
    omega
  have he := hsizeOf _ h.low h.high
  have hd := hsizeOf _ hlow hhigh
  have hlow' := h.low
  have hhigh' := h.high
  rw [collides, hone]
  omega

/-- The cells from `dequeue` to `enqueue` have the values. -/
theorem contents_eq (h : Inv q l) : contents q = l.map some := by
  unfold contents
  by_cases hl : l = []
  · rw [if_pos (h.empty hl), hl]
    rfl
  · obtain ⟨d, hd, he, hring, -⟩ := h.ring hl
    rw [if_neg (mt h.dequeue_eq.mp hl), hd, he, Int.toNat_natCast, Int.toNat_natCast]
    exact hring.cells_eq hl rfl

/-- Where the next value goes. -/
theorem advanced_eq (h : Inv q l) (hsize : 2 ≤ q.size) (hlt : q.enqueue + 1 < 2 ^ 31)
    (hroom : q.enqueue + 1 < q.data.length ∨ o.enqueue = .assignment ∧ q.enqueue + 1 = q.size) :
    ∃ k : Nat, advanced o q = .ok { q with enqueue := k } ∧ k < q.data.length ∧ k < 2 ^ 31 ∧
      k = (q.enqueue + 1).toNat % q.size := by
  have hlow := h.low
  have hlen := h.len
  have hroom' := h.room
  have hmod : (q.enqueue + 1).toNat % q.size < 2 ^ 31 :=
    Nat.lt_of_le_of_lt (Nat.mod_le _ _) (by omega)
  have hassign :
      toInt (toSize (q.enqueue + 1) % q.size) = ((q.enqueue + 1).toNat % q.size : Nat) := by
    rw [toSize_of_nonneg (by omega) hlt, toInt_natCast hmod]
  refine ⟨(q.enqueue + 1).toNat % q.size, ?_, ?_, hmod, rfl⟩
  · rw [advanced, if_pos hlt]
    cases horder : o.enqueue with
    | assignment =>
      simp only []
      rw [hassign]
    | increment =>
      rcases hroom with hroom | ⟨hcase, -⟩
      · have hk : ((q.enqueue + 1).toNat % q.size : Nat) = q.enqueue + 1 := by
          rw [Nat.mod_eq_of_lt (by omega)]
          omega
        simp only []
        rw [hk]
      · cases horder.symm.trans hcase
  · rcases hroom with hroom | ⟨-, hwrap⟩
    · rw [Nat.mod_eq_of_lt (by omega)]
      omega
    · have hk : (q.enqueue + 1).toNat = q.size := by omega
      rw [hk, Nat.mod_self]
      omega

/-- A queue with values. -/
theorem of_ring (hlen : q.data.length ≤ q.size) (hl : l ≠ []) {d : Nat} (hd : q.dequeue = d)
    (he : q.enqueue = Ring.index q.size d (l.length - 1)) (hring : IsRing q.data q.size d l)
    (hsmall : ∀ i < l.length, Ring.index q.size d i < 2 ^ 31) : Inv q l := by
  have hlast : l.length - 1 < l.length := Nat.sub_lt (List.length_pos_iff.mpr hl) Nat.one_pos
  have hlt := hsmall _ hlast
  have hroom := hring.index_lt_length hlast
  exact ⟨hlen, by omega, by omega, by omega, fun h => absurd h hl,
    fun _ => ⟨d, hd, he, hring, hsmall⟩⟩

/-- A store behind the last value. -/
theorem push {d : Nat} (hlen : q.data.length ≤ q.size) (hd : q.dequeue = d)
    (hring : IsRing q.data q.size d l) (hfull : l.length < q.size)
    (he : q.enqueue = Ring.index q.size d l.length)
    (hroom : Ring.index q.size d l.length < q.data.length)
    (hsmall : ∀ i < l.length + 1, Ring.index q.size d i < 2 ^ 31) :
    ∃ q', stored q x = .ok q' ∧ Inv q' (l ++ [x]) := by
  refine ⟨_, if_pos ⟨by omega, by omega⟩, ?_⟩
  have hlength : (l ++ [x]).length = l.length + 1 := by
    rw [List.length_append, List.length_singleton]
  refine of_ring (d := d) ?_ (by simp) hd ?_ ?_ (by rwa [hlength])
  · rwa [List.length_set]
  · rw [hlength, Nat.add_sub_cancel]
    exact he
  · rw [he, Int.toNat_natCast]
    exact hring.push hfull hroom

/-- A value in a buffer that is not full. -/
theorem add_advanced (h : Inv q l) {k : Nat} (hfull : l.length < q.size) (hk : k < q.data.length)
    (hsmall : k < 2 ^ 31) (hnext : k = (q.enqueue + 1).toNat % q.size) : ∃ q',
    stored (started { q with enqueue := k }) x = .ok q' ∧ Inv q' (l ++ [x]) := by
  have hlen := h.len
  by_cases hl : l = []
  · subst hl
    have hstart : started { q with enqueue := (k : Int) } = { q with enqueue := k, dequeue := k } :=
      if_pos (h.empty rfl)
    have hindex : Ring.index q.size k 0 = k := Ring.index_of_lt (Nat.lt_of_lt_of_le hk hlen)
    have hnil : IsRing q.data q.size k ([] : List (Option α)) :=
      ⟨Nat.lt_of_lt_of_le hk hlen, Nat.zero_le _, fun i hi => absurd hi (Nat.not_lt_zero i)⟩
    rw [hstart]
    refine push (d := k) hlen rfl hnil hfull ?_ ?_ fun i hi => ?_
    · exact congrArg Nat.cast hindex.symm
    · exact hindex.trans_lt hk
    · obtain rfl : i = 0 := Nat.lt_one_iff.mp hi
      exact hindex.trans_lt hsmall
  · obtain ⟨d, hd, he, hring, hsmall'⟩ := h.ring hl
    have hstart : started { q with enqueue := (k : Int) } = { q with enqueue := k } :=
      if_neg (mt h.dequeue_eq.mp hl)
    have hpos := List.length_pos_iff.mpr hl
    have hindex : Ring.index q.size d l.length = k := by
      have hsucc := Ring.index_succ (i := l.length - 1) hring.lt (by omega)
      rw [Nat.sub_add_cancel hpos] at hsucc
      rw [hsucc, hnext, he]
      rfl
    rw [hstart]
    refine push (d := d) hlen hd hring hfull ?_ ?_ fun i hi => ?_
    · exact congrArg Nat.cast hindex.symm
    · exact hindex.trans_lt hk
    · rcases Nat.lt_succ_iff_lt_or_eq.mp hi with hi | rfl
      · exact hsmall' i hi
      · exact hindex.trans_lt hsmall

/-- A full buffer is copied into a greater one. -/
theorem add_grown (h : Inv q l) (hfull : q.enqueue + 1 = q.dequeue) (hsize : q.size < 2 ^ 31)
    (hroom : q.size < pointers (grownSize q)) : ∃ q₁ q', grown q = .ok q₁ ∧
      stored (started q₁) x = .ok q' ∧ Inv q' (l ++ [x]) := by
  have hlow := h.low
  have hlen := h.len
  have hl : l ≠ [] := fun hl => by
    have := h.empty hl
    omega
  obtain ⟨d, hd, he, hring, hsmall⟩ := h.ring hl
  have hpos := List.length_pos_iff.mpr hl
  have hlt := hring.lt
  have hle := hring.le
  -- the last value is at `d - 1`
  have hlast : q.size ≤ d + (l.length - 1) := by
    by_contra hnot
    rw [Ring.index_of_lt (by omega)] at he
    omega
  rw [Ring.index_of_le hlast] at he
  have hcount : l.length = q.size := by omega
  have hcells : q.data.length = q.size := by
    have := hring.index_lt_length (i := q.size - 1 - d) (by omega)
    rw [Ring.index_of_lt (by omega)] at this
    omega
  -- both copies
  have hfront : copied q.data q.dequeue (pointers (q.size - q.dequeue)) =
      .ok ((q.data.take q.size).drop d) := by
    rw [hd, pointers_eq (by omega) (by omega), copied, if_pos (by omega), Int.toNat_natCast,
      List.drop_take]
    congr 2
    omega
  have hback : copied q.data 0 (pointers (q.enqueue + 1)) = .ok (q.data.take d) := by
    rw [hfull, hd, pointers_eq (by omega) (by omega), copied, if_pos (by omega)]
    rfl
  have hpieces : (q.data.take q.size).drop d ++ q.data.take d = l.map some := by
    have hcells := hring.cells_eq hl rfl
    rwa [Ring.index_of_le hlast, if_neg (by omega),
      (by omega : d + (l.length - 1) - q.size + 1 = d)] at hcells
  have hlength : ((q.data.take q.size).drop d).length + (q.data.take d).length = q.size := by
    rw [← List.length_append, hpieces, List.length_map, hcount]
  have hfront' : (((q.data.take q.size).drop d).length : Int) = q.size - q.dequeue := by
    rw [List.length_drop, List.length_take, hcells, Nat.min_self, hd]
    omega
  let fresh : List (Option (Option α)) := List.replicate (pointers (grownSize q) - q.size) none
  let q₁ : RingQueue α :=
    { enqueue := q.size, dequeue := 0, size := grownSize q, grow := q.grow,
      data := l.map some ++ fresh }
  have hgrown : grown q = .ok q₁ := by
    rw [grown, hfront, ok_bind_eq, hback, ok_bind_eq, if_pos ⟨hfront', by omega⟩, hlength, hpieces,
      toInt_natCast hsize]
    rfl
  have hdata : q₁.data.length = pointers (grownSize q) := by
    rw [List.length_append, List.length_map, List.length_replicate]
    omega
  have hlen₁ : q₁.data.length ≤ q₁.size := hdata ▸ pointers_le (grownSize q)
  have hroom₁ : l.length < q₁.data.length := by
    rw [hdata, hcount]
    exact hroom
  have hfull₁ : l.length < q₁.size := Nat.lt_of_lt_of_le hroom₁ hlen₁
  have hindex : ∀ i, i ≤ l.length → Ring.index q₁.size 0 i = i := fun i hi => by
    rw [Ring.index_of_lt (by omega), Nat.zero_add]
  have hmap : IsRing q₁.data q₁.size 0 l := IsRing.map (Nat.zero_lt_of_lt hfull₁) hfull₁.le fresh
  have hlast₁ : q₁.enqueue = Ring.index q₁.size 0 l.length := by
    rw [hindex _ (Nat.le_refl _), hcount]
  obtain ⟨q', hq', h'⟩ := push (q := q₁) (x := x) hlen₁ rfl hmap hfull₁ hlast₁
    ((hindex _ (Nat.le_refl _)).trans_lt hroom₁) (fun i hi => by rw [hindex i (by omega)]; omega)
  exact ⟨q₁, q', hgrown, hq', h'⟩

/-- `ringqueue_add` -/
theorem add (h : Inv q l) (hg : Good o q (.add x)) :
    ∃ q', ringqueueAdd o q x = .ok q' ∧ Inv q' (l ++ [x]) := by
  obtain ⟨hsize, hg⟩ := hg
  have hne : q.size ≠ 0 := by omega
  by_cases hfull : q.enqueue + 1 = q.dequeue
  · rw [if_pos hfull] at hg
    obtain ⟨q₁, q', hgrown, hq', h'⟩ := h.add_grown (x := x) hfull hg.1 hg.2
    refine ⟨q', ?_, h'⟩
    rw [ringqueueAdd, if_neg hne, if_pos ((h.collides_iff hsize).mpr hfull), hgrown]
    exact hq'
  · rw [if_neg hfull] at hg
    obtain ⟨hfree, hlt, hroom⟩ := hg
    obtain ⟨k, hk, hroom', hsmall, hnext⟩ := h.advanced_eq hsize hlt hroom
    have hcount : l.length < q.size := by
      by_cases hl : l = []
      · rw [hl, List.length_nil]
        omega
      · obtain ⟨d, hd, he, hring, -⟩ := h.ring hl
        have hle := hring.le
        have hlt := hring.lt
        by_contra hnot
        -- the buffer is full, and the test finds it so unless the oldest value is at 0
        unfold Ring.index at he
        split at he <;> omega
    obtain ⟨q', hq', h'⟩ := h.add_advanced (x := x) hcount hroom' hsmall hnext
    refine ⟨q', ?_, h'⟩
    rw [ringqueueAdd, if_neg hne, if_neg (mt (h.collides_iff hsize).mp hfull), hk]
    exact hq'

/-- `ringqueue_get` -/
theorem get (h : Inv q l) (hg : Good o q .get) :
    ∃ q', ringqueueGet o q = .ok (l.head?.join, q') ∧ Inv q' l.tail := by
  cases l with
  | nil =>
    refine ⟨q, ?_, h⟩
    rw [ringqueueGet, if_pos (h.empty rfl)]
    rfl
  | cons x l =>
    obtain ⟨d, hd, he, hring, hsmall⟩ := h.ring (List.cons_ne_nil x l)
    rw [List.length_cons, Nat.add_sub_cancel] at he
    have hload : loaded q.data q.dequeue = .ok x := by
      rw [hd, loaded, if_pos (Int.natCast_nonneg d), Int.toNat_natCast, hring.head]
    have hne : q.dequeue ≠ -1 := by omega
    rw [ringqueueGet, if_neg hne, hload]
    cases l with
    | nil =>
      have hlast : q.dequeue = q.enqueue := by
        rw [hd, he, List.length_nil, Ring.index_of_lt hring.lt]
        rfl
      refine ⟨{ q with dequeue := -1 }, ?_, ?_⟩
      · rw [ok_bind_eq, if_pos hlast]
        rfl
      · exact ⟨h.len, h.low, h.high, h.room, fun _ => rfl, fun hl => absurd rfl hl⟩
    | cons y l =>
      have hle := hring.le
      have hlt := hring.lt
      simp only [List.length_cons] at he hle hsmall
      have hlast : q.dequeue ≠ q.enqueue := by
        have : Ring.index q.size d 0 ≠ Ring.index q.size d (l.length + 1) :=
          Ring.index_ne (Nat.succ_pos _) (by omega)
        rw [Ring.index_of_lt hlt, Nat.add_zero] at this
        omega
      rcases hg with hg | hg | ⟨horder, hg⟩
      · exact absurd hg hne
      · exact absurd hg hlast
      have hone : Ring.index q.size d 1 = d + 1 := Ring.index_of_lt (by omega)
      have hbound := hsmall 1 (by omega)
      rw [hone] at hbound
      have hnext : dequeued o q = .ok { q with dequeue := q.dequeue + 1 } := by
        rw [dequeued, if_pos (by omega), horder]
      have hindex : ∀ i, i < l.length + 1 →
          Ring.index q.size (d + 1) i = Ring.index q.size d (i + 1) := by
        intro i hi
        rw [← hone, Ring.index_index hlt (by omega), Nat.add_comm 1 i]
      have hpop := hring.pop
      rw [hone] at hpop
      have hget : Inv { q with dequeue := q.dequeue + 1 } (y :: l) := by
        refine of_ring h.len (List.cons_ne_nil y l) (congrArg (· + 1) hd) ?_ hpop fun i hi => ?_
        · rw [List.length_cons, Nat.add_sub_cancel, hindex _ (Nat.lt_succ_self _)]
          exact he
        · rw [List.length_cons] at hi
          exact (hindex i hi).trans_lt (hsmall _ (Nat.succ_lt_succ hi))
      refine ⟨{ q with dequeue := q.dequeue + 1 }, ?_, hget⟩
      rw [ok_bind_eq, if_neg hlast, hnext]
      rfl

/-- What one call does. -/
theorem step (h : Inv q l) {op : Op α} (hg : Good o q op) :
    ∃ q', step o q op = .ok ((fifoStep l op).1, q') ∧ Inv q' (fifoStep l op).2 := by
  cases op with
  | add data =>
    obtain ⟨q', hq', h'⟩ := h.add hg
    exact ⟨q', bind_of_ok hq' _, h'⟩
  | get =>
    obtain ⟨q', hq', h'⟩ := h.get hg
    exact ⟨q', bind_of_ok hq' _, h'⟩

/-- What the calls of a run do. -/
theorem run (h : Inv q l) {ops : List (Op α)} (hm : Meets o q ops) :
    ∃ q', run o q ops = .ok ((fifo l ops).1, q') ∧ Inv q' (fifo l ops).2 := by
  induction ops generalizing q l with
  | nil => exact ⟨q, rfl, h⟩
  | cons op ops ih =>
    obtain ⟨hg, hm⟩ := hm
    obtain ⟨q₁, hstep, h₁⟩ := h.step hg
    obtain ⟨q', hrun, h'⟩ := ih h₁ (hm _ _ hstep)
    refine ⟨q', ?_, h'⟩
    rw [RingBuffer.run, bind_of_ok hstep]
    exact bind_of_ok hrun _

end Inv

/-- In a run that meets the condition in every call, each `ringqueue_get` returns the oldest value
that was not yet returned, or `NULL`, and the cells have the values that were not. -/
theorem run_fifo (o : Stores) (size grow : Nat) (ops : List (Op α))
    (hm : Meets o (ringqueueNew size grow) ops) :
    ∃ q, run o (ringqueueNew size grow) ops = .ok ((fifo [] ops).1, q) ∧
      contents q = (fifo [] ops).2.map some := by
  obtain ⟨q, hrun, h⟩ := (inv_ringqueueNew size grow).run hm
  exact ⟨q, hrun, h.contents_eq⟩

theorem meets_cons {op : Op α} {ops : List (Op α)} {out : List (Option α)} (hg : Good o q op)
    (hstep : step o q op = .ok (out, q')) (h : Meets o q' ops) : Meets o q (op :: ops) := by
  refine ⟨hg, fun out' q'' h' => ?_⟩
  obtain ⟨-, rfl⟩ := Prod.mk.inj (Except.ok.inj (hstep.symm.trans h'))
  exact h

/-- A buffer of two cells, in which the values wrap and which then grows by two. -/
theorem run_fifo_grown : ∃ q, run ⟨.assignment, .increment⟩ (ringqueueNew 2 2)
    [.add (some 10), .add (some 20), .get, .add (some 30), .add (some 40), .get] =
      .ok ([some 10, some 20], q) ∧ contents q = [some (some 30), some (some 40)] := by
  refine run_fifo ⟨.assignment, .increment⟩ 2 2
    [.add (some 10), .add (some 20), .get, .add (some 30), .add (some 40), .get] ?_
  exact meets_cons (by decide) rfl (meets_cons (by decide) rfl (meets_cons (by decide) rfl
    (meets_cons (by decide) rfl (meets_cons (by decide) rfl (meets_cons (by decide) rfl trivial)))))

/-- In a buffer of two cells the third value takes the place of the first one, or is out of it. -/
theorem not_run_fifo : ¬ ∃ o : Stores, ∀ (size grow : Nat) (ops : List (Op Nat)),
    ∃ q, run o (ringqueueNew size grow) ops = .ok ((fifo [] ops).1, q) ∧
      contents q = (fifo [] ops).2.map some := by
  rintro ⟨⟨enqueue, dequeue⟩, h⟩
  obtain ⟨q, hq, -⟩ := h 2 1 [.add (some 1), .add (some 2), .add (some 3), .get]
  have hout : (run ⟨enqueue, dequeue⟩ (ringqueueNew 2 1)
      [.add (some 1), .add (some 2), .add (some 3), .get]).toOption.map Prod.fst = some [some 1] :=
    congrArg (fun r => r.toOption.map Prod.fst) hq
  cases enqueue <;> cases dequeue <;> revert hout <;> decide

end RingBuffer

end Orchids
