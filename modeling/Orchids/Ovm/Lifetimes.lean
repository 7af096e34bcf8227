import Orchids.Lib.Scopes
import Orchids.Ovm.Releases

/-!
# The objects behind a history

A history of accesses to variables that are pointers, and the heap at each moment of it.

* `Heaps`: the heap behind each event of the history.
* `Heaps.look`: the value behind a pointer at a moment; `Heaps.values`: the history of the values.
* `ObjFrame.Traces`: some turns of the loop of `ovm_exec` with their accesses.
* `Heaps.Aged`: values do not change in time, and what is bound is not released;
  `Traces.aged`: the machine keeps this.
* `look_eq_iff`: a pointer that was found on the path leads to the value of the last assignment if
  and only if the object is not released, and `NULL` was not assigned below a value.
-/

namespace Orchids

open Scopes ScopeEvent

/-- A history of variables that are pointers. -/
abbrev PtrHistory := List (ScopeEvent Nat Nat)

/-- The heap behind the last event of each history; between two events the engine makes and releases
objects. `intact h` says that nothing released is used until the history goes on behind `h`: what
comes after such a use is undefined. -/
structure Heaps (V : Type) where
  heapAt : PtrHistory → Heap (VarObj V)
  intact : PtrHistory → Prop
  wf : ∀ h, (heapAt h).WF
  create : ∀ s p h, Heap.Ages VarObj.val (heapAt h) (heapAt (.create s p :: h))
  intact_of_cons : ∀ ev h, intact (ev :: h) → intact h

namespace Heaps

variable {V : Type} (H : Heaps V)

/-- The value behind a pointer: `some none` if the object is released. -/
def look (h : PtrHistory) (p : Option Nat) : Option (Option V) :=
  p.map fun a => if (H.heapAt h).live a then some ((H.heapAt h).cell a).val else none

/-- The history with the values behind the pointers. -/
def values : PtrHistory → List (ScopeEvent Nat (Option V))
  | [] => []
  | .create s p :: h => .create s p :: values h
  | .access s (.read x p) :: h =>
    .access s (.read x (H.look (.access s (.read x p) :: h) p)) :: values h
  | .access s (.assign x p) :: h =>
    .access s (.assign x (H.look (.access s (.assign x p) :: h) p)) :: values h

/-- Each heap is a later state of the one before it, and an assigned object is not released. -/
def Aged : PtrHistory → Prop
  | [] => True
  | ev :: h => Heap.Ages VarObj.val (H.heapAt h) (H.heapAt (ev :: h)) ∧
    (∀ s x a, ev = .access s (.assign x (some a)) → (H.heapAt (ev :: h)).live a = true) ∧ Aged h

variable {H} {x : Nat} {h : PtrHistory} {s a : Nat} {p : Option Nat}

theorem Aged.create (ha : H.Aged h) (s : Nat) (p : Option Nat) : H.Aged (.create s p :: h) :=
  ⟨H.create s p h, fun _ _ _ heq => (by cases heq), ha⟩

theorem Aged.suffix {h' : PtrHistory} (ha : H.Aged (h' ++ h)) : H.Aged h := by
  induction h' with
  | nil => exact ha
  | cons ev h' ih => exact ih ha.2.2

theorem intact_suffix {h' : PtrHistory} (hi : H.intact (h' ++ h)) : H.intact h := by
  induction h' with
  | nil => exact hi
  | cons ev h' ih => exact ih (H.intact_of_cons ev _ hi)

/-- An assigned object has an address that was given out. -/
theorem Aged.lt (ha : H.Aged h) (hl : lastAssigned x h s = some (some a)) :
    a < (H.heapAt h).size := by
  induction h generalizing s with
  | nil => cases hl
  | cons ev h ih =>
    obtain ⟨hage, hlive, hrest⟩ := ha
    have hle := hage.size_le
    cases ev with
    | create s' parent =>
      cases parent with
      | none =>
        rw [lastAssigned] at hl
        split at hl
        · cases hl
        · exact lt_of_lt_of_le (ih hrest hl) hle
      | some q =>
        rw [lastAssigned] at hl
        split at hl <;> exact lt_of_lt_of_le (ih hrest hl) hle
    | access s' acc =>
      cases acc with
      | read y q => exact lt_of_lt_of_le (ih hrest hl) hle
      | assign y q =>
        rw [lastAssigned] at hl
        split at hl
        · cases hl
          exact H.wf _ a (hlive s' y a rfl)
        · exact lt_of_lt_of_le (ih hrest hl) hle

/-- The value of the last assignment is that of the object now. -/
theorem Aged.lastAssigned_values (ha : H.Aged h) (x s : Nat) :
    lastAssigned x (H.values h) s =
      (lastAssigned x h s).map fun p => p.map fun a => some ((H.heapAt h).cell a).val := by
  induction h generalizing s with
  | nil => rfl
  | cons ev h ih =>
    obtain ⟨hage, hlive, hrest⟩ := ha
    -- the objects of older assignments have kept their values
    have hold : ∀ s, lastAssigned x (H.values h) s =
        (lastAssigned x h s).map fun p => p.map fun a => some ((H.heapAt (ev :: h)).cell a).val := by
      intro s
      rw [ih hrest s]
      cases hl : lastAssigned x h s with
      | none => rfl
      | some q =>
        cases q with
        | none => rfl
        | some a =>
          have hcell := hage.cell a (hrest.lt hl)
          simp only [Option.map_some, hcell]
    cases ev with
    | create s' parent =>
      cases parent with
      | none =>
        rw [values, lastAssigned, lastAssigned]
        split
        · rfl
        · exact hold s
      | some q =>
        rw [values, lastAssigned, lastAssigned]
        split
        · exact hold q
        · exact hold s
    | access s' acc =>
      cases acc with
      | read y q => exact hold s
      | assign y q =>
        rw [values, lastAssigned, lastAssigned]
        split
        · cases q with
          | none => rfl
          | some a => simp only [look, Option.map_some, hlive s' y a rfl, if_true]
        · exact hold s

/-- A pointer that was found on the path leads to the value of the last assignment exactly when
`NULL` was not assigned below a value, and the object that was assigned is not released. -/
theorem look_eq_iff {ev : ScopeEvent Nat Nat} (ha : H.Aged (ev :: h))
    (hp : p = firstValue (pathValues x h s)) :
    H.look (ev :: h) p = (lastAssigned x (H.values h) s).join ↔
      (lastAssigned x h s = some none → ∀ q ∈ pathValues x h s, q = none) ∧
        ∀ a, lastAssigned x h s = some (some a) → (H.heapAt (ev :: h)).live a = true := by
  obtain ⟨hage, -, hrest⟩ := ha
  have hiff := firstValue_eq_iff x h s
  rw [← hp] at hiff
  rw [hrest.lastAssigned_values x s, ← hiff]
  have hfound : lastAssigned x h s ≠ some none → p = (lastAssigned x h s).join :=
    fun hne => hiff.mpr fun heq => (hne heq).elim
  cases hl : lastAssigned x h s with
  | none =>
    rw [hl] at hfound
    simp [hfound, look]
  | some q =>
    cases q with
    | none => simp [look]
    | some a =>
      rw [hl] at hfound
      have hcell := hage.cell a (hrest.lt hl)
      cases hlive : (H.heapAt (ev :: h)).live a with
      | true => simp [look, hfound, hlive, hcell]
      | false => simp [look, hfound, hlive]

/-- What is known of the events of a history up to the first use of something released: the heaps are
later states of each other, and a read finds the first value on the path. -/
def Kept (H : Heaps V) (h : PtrHistory) : Prop :=
  ∀ h₁ ev h₂, h = h₁ ++ ev :: h₂ → H.intact h₂ →
    H.Aged (ev :: h₂) ∧ ∀ s x p, ev = .access s (.read x p) → p = firstValue (pathValues x h₂ s)

theorem Kept.of_aged (ha : H.Aged h) (hr : ReadsFirst h) : H.Kept h := by
  rintro h₁ ev h₂ rfl -
  refine ⟨ha.suffix, ?_⟩
  rintro s x p rfl
  exact hr h₁ s x p h₂ rfl

/-- Behind the first use, anything may happen. -/
theorem Kept.append (hk : H.Kept h) (hn : ¬ H.intact h) (h' : PtrHistory) : H.Kept (h' ++ h) := by
  intro h₁ ev h₂ heq hi
  rcases List.append_eq_append_iff.mp heq with ⟨l, rfl, hl⟩ | ⟨l, rfl, hl⟩
  · exact hk l ev h₂ hl hi
  · cases l with
    | nil => exact hk [] ev h₂ hl.symm hi
    | cons ev' l =>
      obtain ⟨rfl, rfl⟩ := List.cons_eq_cons.mp hl
      exact (hn (intact_suffix hi)).elim

end Heaps

/-! ## The accesses of an execution -/

/-- The history with the accesses `l` in the state instance `s` behind it. -/
def accessed (s : Nat) (l : List (Access Nat Nat)) (h : PtrHistory) : PtrHistory :=
  (l.map (.access s)).reverse ++ h

theorem accessed_concat {s : Nat} {l : List (Access Nat Nat)} {a : Access Nat Nat}
    {h : PtrHistory} : accessed s (l ++ [a]) h = .access s a :: accessed s l h := by
  simp [accessed]

theorem accessed_append (s : Nat) (l l' : List (Access Nat Nat)) (h : PtrHistory) :
    accessed s (l ++ l') h = (l'.map (.access s)).reverse ++ accessed s l h := by
  simp [accessed]

namespace ObjFrame

variable {V : Type} [Issdl V]

/-- The access of the instruction at which the machine is. -/
def accessOf (P : ObjFrame V) (M : ObjMachine V) : Option (Access Nat Nat) :=
  match P.bytecode[M.ip]?.bind Opcode.ofWord, P.bytecode[M.ip + 1]? with
  | some .push, some n => some (.read n (bindingIn M.store.env P.inheritObj n))
  | some .pop, some n => some (.assign n (stackPop M.stack).1)
  | _, _ => none

/-- Some turns of the loop in the state instance `s` behind the history `h`, with their accesses. -/
inductive Traces (P : ObjFrame V) (H : Heaps V) (s : Nat) (h : PtrHistory) (M : ObjMachine V) :
    List (Access Nat Nat) → ObjMachine V → Prop
  | refl : Traces P H s h M [] M
  | quiet {l : List (Access Nat Nat)} {M' M'' : ObjMachine V} : Traces P H s h M l M' →
      P.accessOf M' = none → P.step M' = some M'' → Traces P H s h M l M''
  | access {l : List (Access Nat Nat)} {M' M'' : ObjMachine V} (a : Access Nat Nat) :
      Traces P H s h M l M' → P.accessOf M' = some a → P.step M' = some M'' →
      M''.store.objs = H.heapAt (.access s a :: accessed s l h) → Traces P H s h M (l ++ [a]) M''
  /-- A built-in takes what it wants from the stack, and makes and releases objects. -/
  | builtin {l : List (Access Nat Nat)} {M' : ObjMachine V} (w : List (Option Nat)) (σ : Store V) :
      Traces P H s h M l M' → P.bytecode[M'.ip]?.bind Opcode.ofWord = some .call →
      M'.store.Stale σ → Traces P H s h M l ⟨M'.ip + 2, w, σ⟩

variable {P : ObjFrame V} {H : Heaps V} {s : Nat} {h : PtrHistory} {M M' : ObjMachine V}
  {a : Access Nat Nat} {l : List (Access Nat Nat)}

/-- The turn of the loop is a handler of `ops_g`. -/
theorem step_some (h : P.step M = some M') :
    ∃ op, P.bytecode[M.ip]?.bind Opcode.ofWord = some op ∧ P.insn op M = some M' := by
  unfold step at h
  cases hw : P.bytecode[M.ip]? with
  | none =>
    rw [hw] at h
    cases h
  | some w =>
    rw [hw] at h
    simp only at h
    split at h
    · cases h
    · cases hop : Opcode.ofWord w with
      | none =>
        rw [hop] at h
        cases h
      | some op =>
        rw [hop] at h
        exact ⟨op, hop, h⟩

/-- A turn without an access to a variable. -/
theorem quiet_stale (ha : P.accessOf M = none) (hs : P.step M = some M') :
    M.store.Stale M'.store := by
  obtain ⟨op, hw, hi⟩ := step_some hs
  refine insn_stale ?_ hi
  rintro rfl
  obtain ⟨n, σ, hn, -⟩ := insn_pop hi
  simp [accessOf, hw, hn] at ha

theorem accessOf_some {op : Opcode} (hw : P.bytecode[M.ip]?.bind Opcode.ofWord = some op)
    (ha : P.accessOf M = some a) :
    ∃ n, P.bytecode[M.ip + 1]? = some n ∧
      ((op = .push ∧ a = .read n (bindingIn M.store.env P.inheritObj n)) ∨
        (op = .pop ∧ a = .assign n (stackPop M.stack).1)) := by
  unfold accessOf at ha
  rw [hw] at ha
  split at ha
  · rename_i n hop hn
    exact ⟨n, hn, .inl ⟨Option.some.inj hop, (Option.some.inj ha).symm⟩⟩
  · rename_i n hop hn
    exact ⟨n, hn, .inr ⟨Option.some.inj hop, (Option.some.inj ha).symm⟩⟩
  · cases ha

/-- A turn with an access to a variable: what it finds and what it leaves. -/
theorem access_step (ha : P.accessOf M = some a) (hs : P.step M = some M') :
    Replays P.inheritObj M.store.env [a] M'.store.env ∧
      Heap.Ages VarObj.val M.store.objs M'.store.objs ∧
        ∀ x b, a = .assign x (some b) → M'.store.objs.live b = true := by
  obtain ⟨op, hw, hi⟩ := step_some hs
  obtain ⟨n, hn, ⟨rfl, rfl⟩ | ⟨rfl, rfl⟩⟩ := accessOf_some hw ha
  · refine ⟨⟨rfl, (insn_stale (by simp) hi).env⟩, insn_ages hi, fun x b heq => ?_⟩
    cases heq
  · refine ⟨?_, insn_ages hi, fun x b heq => ?_⟩
    · obtain ⟨m, σ, hm, hst, -, -, rfl⟩ := insn_pop hi
      cases hm.symm.trans hn
      show Function.update σ.env _ _ = Function.update M.store.env _ _
      rw [hst.env]
    · obtain ⟨m, σ, -, -, -, ⟨v, hv⟩, rfl⟩ := insn_pop hi
      obtain ⟨-, hb⟩ := Access.assign.inj heq
      rw [hb] at hv
      exact (Store.deref_some.mp hv).1

/-- The reads find the binding of the moment, and the variables are what the assignments make them. -/
theorem Traces.replays (ht : P.Traces H s h M l M') :
    Replays P.inheritObj M.store.env l M'.store.env := by
  induction ht with
  | refl => rfl
  | quiet _ ha hs ih =>
    rw [(quiet_stale ha hs).env]
    exact ih
  | access a _ ha hs _ ih => exact ih.append (access_step ha hs).1
  | builtin w σ _ _ hst ih =>
    rw [hst.env]
    exact ih

/-- The heaps at the accesses are later states of each other. -/
theorem Traces.aged (ht : P.Traces H s h M l M') (ha : H.Aged h)
    (hM : Heap.Ages VarObj.val (H.heapAt h) M.store.objs) :
    H.Aged (accessed s l h) ∧
      Heap.Ages VarObj.val (H.heapAt (accessed s l h)) M'.store.objs := by
  induction ht with
  | refl => exact ⟨ha, hM⟩
  | quiet _ hacc hs ih => exact ⟨ih.1, ih.2.trans (quiet_stale hacc hs).ages⟩
  | access a _ hacc hs hheap ih =>
    obtain ⟨-, hages, hlive⟩ := access_step hacc hs
    rw [accessed_concat]
    refine ⟨⟨hheap ▸ ih.2.trans hages, ?_, ih.1⟩, hheap ▸ .refl _⟩
    rintro s' x b heq
    cases heq
    exact hheap ▸ hlive x b rfl
  | builtin w σ _ _ hst ih => exact ⟨ih.1, ih.2.trans hst.ages⟩

end ObjFrame

end Orchids
