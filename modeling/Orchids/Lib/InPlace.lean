import Orchids.Lib.Except

/-!
# Texts that are edited where they are read

A program reads a text from its start, and writes over the part that it has read.

* `get`, `put`, `back`: a read behind the text is an error, and so is a write where nothing was read yet
  or a step back from the start.
* `Ahead s pos`: from `pos` on the text is `s`, and the part before was read.
* `Total P m Q`: from `P` the program `m` ends, without an error, in `Q`.
* `Total.next_bind`, `Total.peek_bind`, `Total.put_bind`: a read that goes on, one that does not, and
  a write, which is behind the place that the program is at.
-/

namespace Orchids

namespace InPlace

/-- A text, and how much of it was read. -/
structure Tape (β : Type) where
  contents : List β
  seen : Nat

/-- `steps` is no error of the program: the steps that it is given are not enough. -/
inductive Breach where
  | overread | overwrite | underread | steps
  deriving DecidableEq

abbrev Prog (β α : Type) := StateT (Tape β) (Except Breach) α

variable {β α γ : Type}

def get (i : Nat) : Prog β β := fun b =>
  match b.contents[i]? with
  | some c => .ok (c, { b with seen := max b.seen (i + 1) })
  | none => .error .overread

def put (i : Nat) (c : β) : Prog β Unit := fun b =>
  if i < b.seen then .ok ((), { b with contents := b.contents.set i c }) else .error .overwrite

/-- A pointer goes one item back. -/
def back (i : Nat) : Prog β Nat := fun b => if 0 < i then .ok (i - 1, b) else .error .underread

/-- What a function of a library is given. -/
def rest (i : Nat) : Prog β (List β) := fun b => .ok (b.contents.drop i, b)

def outOfSteps : Prog β α := fun _ => .error .steps

/-- From the place on it is `s`, and the part before it was read. -/
structure Ahead (s : List β) (pos : Nat) (b : Tape β) : Prop where
  drop : b.contents.drop pos = s
  seen : pos ≤ b.seen
  le : pos ≤ b.contents.length

/-- Whatever is read before it: from `P` the program ends in `Q`. -/
def Total (P : Tape β → Prop) (m : Prog β α) (Q : α → Tape β → Prop) : Prop :=
  ∀ b, P b → ∃ a b', m b = .ok (a, b') ∧ Q a b'

variable {P : Tape β → Prop} {Q : α → Tape β → Prop} {s : List β} {pos : Nat} {c : β}

theorem run_bind {m : Prog β α} {f : α → Prog β γ} {b b' : Tape β} {a : α} (h : m b = .ok (a, b')) :
    (m >>= f) b = f a b' := bind_of_ok h _

theorem run_bind_error {m : Prog β α} {f : α → Prog β γ} {b : Tape β} {e : Breach} (h : m b = .error e) :
    (m >>= f) b = .error e := by
  change (m b >>= fun r => f r.1 r.2) = .error e
  rw [h]
  rfl

theorem Ahead.getElem? {b : Tape β} (h : Ahead s pos b) (k : Nat) :
    b.contents[pos + k]? = s[k]? := by
  rw [← h.drop, List.getElem?_drop]

/-- Behind items that were read. -/
theorem Ahead.advance {b : Tape β} (h : Ahead s pos b) {k : Nat} (hk : k ≤ s.length)
    (hseen : pos + k ≤ b.seen) : Ahead (s.drop k) (pos + k) b := by
  have hlen : s.length = b.contents.length - pos := by rw [← h.drop, List.length_drop]
  refine ⟨by rw [← h.drop, List.drop_drop], hseen, ?_⟩
  have hle := h.le
  omega

theorem Ahead.get {b : Tape β} (h : Ahead s pos b) {k : Nat} (hc : s[k]? = some c) :
    ∃ b', InPlace.get (pos + k) b = .ok (c, b') ∧ Ahead s pos b' ∧ pos + k + 1 ≤ b'.seen := by
  refine ⟨{ b with seen := max b.seen (pos + k + 1) }, ?_, ⟨h.drop, ?_, h.le⟩, Nat.le_max_right _ _⟩
  · rw [InPlace.get, h.getElem? k, hc]
  · exact Nat.le_trans h.seen (Nat.le_max_left _ _)

/-- Nothing is read at the end. -/
theorem Ahead.get_error {b : Tape β} (h : Ahead [] pos b) : InPlace.get pos b = .error .overread := by
  have hnone : b.contents[pos]? = none := h.getElem? 0
  rw [InPlace.get, hnone]

namespace Total

theorem pure (a : α) (h : ∀ b, P b → Q a b) : Total P (Pure.pure a) Q :=
  fun b hb => ⟨a, b, rfl, h b hb⟩

theorem pre {P' : Tape β → Prop} {m : Prog β α} (h : Total P' m Q) (hP : ∀ b, P b → P' b) :
    Total P m Q := fun b hb => h b (hP b hb)

/-- A fact of the precondition that is not about the text. -/
theorem lift {φ : Prop} {m : Prog β α} (h : φ → Total P m Q) : Total (fun b => φ ∧ P b) m Q :=
  fun b hb => h hb.1 b hb.2

theorem bind {m : Prog β α} {f : α → Prog β γ} {R : γ → Tape β → Prop} (hm : Total P m Q)
    (hf : ∀ a, Total (Q a) (f a) R) : Total P (m >>= f) R := by
  intro b hb
  obtain ⟨a, b', hrun, hb'⟩ := hm b hb
  rw [run_bind hrun]
  exact hf a b' hb'

/-- A read at some place ahead. -/
theorem get_bind {k : Nat} {f : β → Prog β α} (hc : s[k]? = some c)
    (hf : Total (fun b => Ahead s pos b ∧ pos + k + 1 ≤ b.seen) (f c) Q) :
    Total (Ahead s pos) (get (pos + k) >>= f) Q := by
  intro b hb
  obtain ⟨b', hget, hb'⟩ := hb.get hc
  rw [run_bind hget]
  exact hf b' hb'

/-- A read after which the program is behind the item. -/
theorem next_bind {f : β → Prog β α} (hf : Total (Ahead s (pos + 1)) (f c) Q) :
    Total (Ahead (c :: s) pos) (get pos >>= f) Q := by
  refine @get_bind _ _ _ (c :: s) pos c 0 f rfl (hf.pre ?_)
  rintro b ⟨hb, hseen⟩
  exact hb.advance (k := 1) (Nat.succ_le_succ (Nat.zero_le _)) hseen

/-- A read after which the program is where it was. -/
theorem peek_bind {f : β → Prog β α} (hf : Total (Ahead (c :: s) pos) (f c) Q) :
    Total (Ahead (c :: s) pos) (get pos >>= f) Q :=
  @get_bind _ _ _ (c :: s) pos c 0 f rfl (hf.pre fun _ h => h.1)

/-- A write behind the place that the program is at. -/
theorem put_bind {i : Nat} {d : β} {f : Unit → Prog β α} (hi : i < pos)
    (hf : Total (Ahead s pos) (f ()) Q) : Total (Ahead s pos) (put i d >>= f) Q := by
  intro b hb
  have hput : put i d b = .ok ((), { b with contents := b.contents.set i d }) :=
    if_pos (Nat.lt_of_lt_of_le hi hb.seen)
  rw [run_bind hput]
  refine hf _ ⟨?_, hb.seen, ?_⟩
  · rw [List.drop_set_of_lt hi, hb.drop]
  · rw [List.length_set]
    exact hb.le

theorem rest_bind {f : List β → Prog β α} (hP : ∀ b, P b → b.contents.drop pos = s)
    (hf : Total P (f s) Q) : Total P (rest pos >>= f) Q := by
  intro b hb
  have hrest : rest pos b = .ok (s, b) := by rw [rest, hP b hb]
  rw [run_bind hrest]
  exact hf b hb

theorem back_bind {f : Nat → Prog β α} {i : Nat} (hf : Total P (f i) Q) :
    Total P (back (i + 1) >>= f) Q := fun b hb => hf b hb

end Total

end InPlace

end Orchids
