import Mathlib.Data.List.Basic
import Mathlib.Tactic.Common

/-!
# Frames of a stream

A stream is cut after each separator; what comes after the last one is not finished yet.

* `frames`: the frames of a stream, and its unfinished end.
* `frames_append`: how a stream goes on depends on its unfinished end only.
* `flatten_frames`, `frames_sep`, `not_mem_frames_snd`: the frames are the stream, each has one
  separator, at its end, and the unfinished end has none.
-/

namespace Orchids

variable {α : Type} [DecidableEq α] {sep : α}

/-- The frames and the unfinished end, after an unfinished start. -/
def framesFrom (sep : α) (cur : List α) : List α → List (List α) × List α
  | [] => ([], cur)
  | c :: l =>
    if c = sep then
      let (frames, tail) := framesFrom sep [] l
      ((cur ++ [c]) :: frames, tail)
    else framesFrom sep (cur ++ [c]) l

/-- The frames of a stream, and its unfinished end. -/
def frames (sep : α) (l : List α) : List (List α) × List α := framesFrom sep [] l

theorem framesFrom_sep (cur l : List α) : framesFrom sep cur (sep :: l) =
    ((cur ++ [sep]) :: (framesFrom sep [] l).1, (framesFrom sep [] l).2) := if_pos rfl

theorem framesFrom_of_ne {c : α} (hc : c ≠ sep) (cur l : List α) :
    framesFrom sep cur (c :: l) = framesFrom sep (cur ++ [c]) l := if_neg hc

theorem framesFrom_append (cur l m : List α) : framesFrom sep cur (l ++ m) =
    ((framesFrom sep cur l).1 ++ (framesFrom sep (framesFrom sep cur l).2 m).1,
      (framesFrom sep (framesFrom sep cur l).2 m).2) := by
  induction l generalizing cur with
  | nil => rfl
  | cons c l ih =>
    by_cases hc : c = sep
    · subst hc
      rw [List.cons_append, framesFrom_sep, framesFrom_sep, ih]
      rfl
    · rw [List.cons_append, framesFrom_of_ne hc, framesFrom_of_ne hc, ih]

/-- A stream goes on from its unfinished end. -/
theorem frames_append (l m : List α) : frames sep (l ++ m) =
    ((frames sep l).1 ++ (framesFrom sep (frames sep l).2 m).1,
      (framesFrom sep (frames sep l).2 m).2) :=
  framesFrom_append [] l m

theorem flatten_framesFrom (cur l : List α) :
    (framesFrom sep cur l).1.flatten ++ (framesFrom sep cur l).2 = cur ++ l := by
  induction l generalizing cur with
  | nil => simp [framesFrom]
  | cons c l ih =>
    by_cases hc : c = sep
    · subst hc
      rw [framesFrom_sep, List.flatten_cons, List.append_assoc, ih]
      simp
    · rw [framesFrom_of_ne hc, ih]
      simp

/-- The frames and the unfinished end are the stream. -/
theorem flatten_frames (l : List α) : (frames sep l).1.flatten ++ (frames sep l).2 = l :=
  flatten_framesFrom [] l

theorem framesFrom_of_not_mem {l : List α} (hl : sep ∉ l) (cur : List α) :
    framesFrom sep cur l = ([], cur ++ l) := by
  induction l generalizing cur with
  | nil => rw [List.append_nil]; rfl
  | cons c l ih =>
    obtain ⟨hc, hl⟩ := List.ne_and_not_mem_of_not_mem_cons hl
    rw [framesFrom_of_ne hc.symm, ih hl, List.append_assoc]
    rfl

/-- Without a separator nothing is finished. -/
theorem frames_of_not_mem {l : List α} (hl : sep ∉ l) : frames sep l = ([], l) :=
  framesFrom_of_not_mem hl []

/-- One frame. -/
theorem frames_frame {body : List α} (hb : sep ∉ body) :
    frames sep (body ++ [sep]) = ([body ++ [sep]], []) := by
  rw [frames_append, frames_of_not_mem hb, framesFrom_sep]
  rfl

theorem framesFrom_spec {cur : List α} (hcur : sep ∉ cur) (l : List α) :
    (∀ f ∈ (framesFrom sep cur l).1, ∃ body, f = body ++ [sep] ∧ sep ∉ body) ∧
      sep ∉ (framesFrom sep cur l).2 := by
  induction l generalizing cur with
  | nil => exact ⟨List.forall_mem_nil _, hcur⟩
  | cons c l ih =>
    by_cases hc : c = sep
    · subst hc
      obtain ⟨hframes, htail⟩ := ih List.not_mem_nil
      rw [framesFrom_sep]
      exact ⟨List.forall_mem_cons.mpr ⟨⟨cur, rfl, hcur⟩, hframes⟩, htail⟩
    · rw [framesFrom_of_ne hc]
      refine ih ?_
      rw [List.mem_append, List.mem_singleton]
      rintro (hmem | heq)
      · exact hcur hmem
      · exact hc heq.symm

/-- A frame has one separator, at its end. -/
theorem frames_sep (l : List α) : ∀ f ∈ (frames sep l).1, ∃ body, f = body ++ [sep] ∧ sep ∉ body :=
  (framesFrom_spec List.not_mem_nil l).1

theorem not_mem_frames_snd (l : List α) : sep ∉ (frames sep l).2 :=
  (framesFrom_spec List.not_mem_nil l).2

end Orchids
