import Mathlib.Data.List.DropRight
import Orchids.Cfg.Tree

/-!
# Directives and their arguments (`orchids_cfg.c`)

What `split_line` is for: the first word of a line, and the rest without blanks at its ends and
without its comment. An escape takes its meaning from the next byte, and a quote from a `#`.

* `stripLoop_run`: what the loop of `strip_trailing_garbage` has kept at each byte.
* `splitLine_iff`: for which lines this is what `split_line` returns.
-/

namespace Orchids

namespace Cfg

/-! ## What a line says -/

/-- Whether the next byte is escaped, and the quote that is open. -/
structure Quoting where
  escaping : Bool
  inQuote : Option UInt8

namespace Quoting

def start : Quoting := ⟨false, none⟩

/-- After a byte. -/
def next (q : Quoting) (c : UInt8) : Quoting :=
  if q.escaping then { q with escaping := false }
  else if c = 92 then { q with escaping := true }
  else if c = 39 ∨ c = 34 then
    { q with inQuote :=
        if q.inQuote = some c then none else if q.inQuote = none then some c else q.inQuote }
  else q

/-- An unquoted `#`. -/
def comments (q : Quoting) (c : UInt8) : Bool :=
  c == 35 && !q.escaping && q.inQuote == none

end Quoting

/-- The bytes before the comment, each with whether it is escaped. -/
def content : Quoting → CStr → List (UInt8 × Bool)
  | _, [] => []
  | q, c :: text => if q.comments c then [] else (c, q.escaping) :: content (q.next c) text

/-- A blank that is not escaped. -/
def loose (byte : UInt8 × Bool) : Bool := isGap byte.1 && !byte.2

/-- The text without blanks at its end and without its comment. -/
def trimmed (text : CStr) : CStr := ((content .start text).rdropWhile loose).map Prod.fst

/-- The text behind the first word. -/
def argumentText (line : CStr) : CStr :=
  ((line.dropWhile isGap).dropWhile (!isGap ·)).dropWhile isGap

/-- The directive of a line and its argument. -/
def lineParts (line : CStr) : Option (CStr × Option CStr) :=
  if ignored (line.dropWhile isGap) then none
  else
    some ((line.dropWhile isGap).takeWhile (!isGap ·),
      if ignored (argumentText line) then none else some (trimmed (argumentText line)))

/-- The text has a comment. -/
def commented : Quoting → CStr → Bool
  | _, [] => false
  | q, c :: text => q.comments c || commented (q.next c) text

/-- A text with a comment, or that ends where it is seen to end: before a newline that is not
escaped, or with a byte that is not a blank. -/
def Closed (newline : Bool) (text : CStr) : Prop :=
  commented .start text = true ∨
    if newline then (text.foldl Quoting.next .start).escaping = false
    else ∀ byte, (content .start text).getLast? = some byte → loose byte = false

/-! ## The loop -/

/-- What the loop has after the bytes `done`. -/
structure Split (done : List (UInt8 × Bool)) (kept blanks : CStr) : Prop where
  kept : kept.reverse = (done.rdropWhile loose).map Prod.fst
  blanks : blanks.reverse = (done.rtakeWhile loose).map Prod.fst

namespace Split

variable {done : List (UInt8 × Bool)} {kept blanks s t : CStr} {c : UInt8} {q : Quoting}

theorem all (h : Split done kept blanks) : (blanks ++ kept).reverse = done.map Prod.fst := by
  rw [List.reverse_append, h.kept, h.blanks, ← List.map_append, List.rdropWhile_append_rtakeWhile]

/-- A byte that is kept, with the blanks before it. -/
theorem effective (h : Split done kept blanks) {escaped : Bool} (hc : loose (c, escaped) = false) :
    Split (done ++ [(c, escaped)]) (c :: blanks ++ kept) [] where
  kept := by
    rw [List.rdropWhile_concat_neg _ _ _ (by simp [hc]), List.cons_append, List.reverse_cons, h.all,
      List.map_append, List.map_singleton]
  blanks := by
    rw [List.rtakeWhile_concat_neg _ _ _ (by simp [hc])]
    rfl

theorem blank (h : Split done kept blanks) (hc : isGap c = true) :
    Split (done ++ [(c, false)]) kept (c :: blanks) where
  kept := by rw [List.rdropWhile_concat_pos _ _ _ (by simp [loose, hc]), h.kept]
  blanks := by
    rw [List.rtakeWhile_concat_pos _ _ _ (by simp [loose, hc]), List.reverse_cons, h.blanks,
      List.map_append, List.map_singleton]

/-- One byte that is no comment. -/
theorem step (h : Split done kept blanks) (hc : c ≠ 10) (hq : q.comments c = false) :
    ∃ kept' blanks', Split (done ++ [(c, q.escaping)]) kept' blanks' ∧
      stripLoop (c :: s) q.escaping q.inQuote kept blanks =
        stripLoop s (q.next c).escaping (q.next c).inQuote kept' blanks' := by
  obtain ⟨escaping, inQuote⟩ := q
  cases escaping with
  | true => exact ⟨_, _, h.effective (by simp [loose]), rfl⟩
  | false =>
    have hcomment : ¬ (c = 35 ∧ inQuote = none) := by
      rintro ⟨rfl, rfl⟩
      exact nomatch hq
    simp only [stripLoop, hcomment, if_false, hc]
    by_cases hblank : c = 9 ∨ c = 32
    · have hnext : Quoting.next ⟨false, inQuote⟩ c = ⟨false, inQuote⟩ := by
        rcases hblank with rfl | rfl <;> rfl
      rw [if_pos hblank, hnext]
      exact ⟨_, _, h.blank (by rcases hblank with rfl | rfl <;> rfl), rfl⟩
    · have hloose : loose (c, false) = false := by
        simp only [loose, isGap]
        grind
      rw [if_neg hblank]
      refine ⟨_, _, h.effective hloose, ?_⟩
      simp only [Quoting.next]
      split
      · rfl
      · split <;> rfl

theorem nil : Split [] [] [] := ⟨rfl, rfl⟩

end Split

variable {done : List (UInt8 × Bool)} {kept blanks s t : CStr} {q : Quoting}

/-- Up to the comment or up to the bytes `t`. -/
theorem stripLoop_run (h : Split done kept blanks) (hs : 10 ∉ s) :
    if commented q s then
      stripLoop (s ++ t) q.escaping q.inQuote kept blanks =
        ((done ++ content q s).rdropWhile loose).map Prod.fst
    else
      ∃ kept' blanks', Split (done ++ content q s) kept' blanks' ∧
        stripLoop (s ++ t) q.escaping q.inQuote kept blanks =
          stripLoop t (s.foldl Quoting.next q).escaping (s.foldl Quoting.next q).inQuote
            kept' blanks' := by
  induction s generalizing done kept blanks q with
  | nil => exact ⟨kept, blanks, by rwa [content, List.append_nil], rfl⟩
  | cons c s ih =>
    rw [List.mem_cons, not_or] at hs
    cases hq : q.comments c with
    | true =>
      obtain ⟨escaping, inQuote⟩ := q
      obtain ⟨⟨rfl, rfl⟩, rfl⟩ : (c = 35 ∧ escaping = false) ∧ inQuote = none := by
        simpa [Quoting.comments] using hq
      simp only [commented, content, hq, Bool.true_or, if_true, List.append_nil]
      rw [← h.kept]
      simp [stripLoop]
    | false =>
      obtain ⟨kept', blanks', hsplit, hstep⟩ := h.step (s := s ++ t) (Ne.symm hs.1) hq
      have ih := ih (q := q.next c) hsplit hs.2
      simp only [commented, content, hq, Bool.false_or, List.foldl_cons, List.cons_append, hstep,
        Bool.false_eq_true, if_false]
      simpa only [List.append_assoc, List.singleton_append] using ih

/-- The bytes behind a line. -/
def ending (newline : Bool) : CStr := if newline then [10] else []

theorem strip_iff {newline : Bool} {text : CStr} (h : 10 ∉ text) :
    stripTrailingGarbage (text ++ ending newline) = trimmed text ↔ Closed newline text := by
  have hrun := stripLoop_run (q := .start) (t := ending newline) Split.nil h
  rw [List.nil_append] at hrun
  cases hc : commented .start text with
  | true =>
    rw [hc, if_pos rfl] at hrun
    exact iff_of_true hrun (.inl hc)
  | false =>
    rw [hc, if_neg Bool.false_ne_true] at hrun
    obtain ⟨kept, blanks, hsplit, hrun⟩ := hrun
    have hlast : blanks = [] ↔
        ∀ byte, (content .start text).getLast? = some byte → loose byte = false := by
      rw [← List.reverse_eq_nil_iff, hsplit.blanks, List.map_eq_nil_iff,
        List.rtakeWhile_eq_nil_iff]
      cases content .start text using List.reverseRecOn with
      | nil => simp
      | append_singleton l byte => simp
    rw [Closed, hc, or_iff_right Bool.false_ne_true, trimmed, ← hsplit.kept]
    show stripLoop (text ++ ending newline) false none [] [] = _ ↔ _
    rw [show stripLoop _ false none [] [] = _ from hrun]
    cases newline with
    | false =>
      rw [if_neg Bool.false_ne_true, ← hlast]
      show (blanks ++ kept).reverse = kept.reverse ↔ _
      rw [List.reverse_inj]
      simp
    | true =>
      rw [if_pos rfl]
      cases (text.foldl Quoting.next .start).escaping with
      | false => exact iff_of_true rfl rfl
      | true =>
        refine iff_of_false (fun h => ?_) (by decide)
        have hlen : (10 :: blanks ++ kept).length = kept.length := by
          simpa [ending, stripLoop] using congrArg List.length h
        simp only [List.cons_append, List.length_cons, List.length_append] at hlen
        omega

/-! ## The line -/

variable {line text : CStr} {newline : Bool}

theorem ignored_ending : ignored (text ++ ending newline) = ignored text := by
  cases text with
  | nil => cases newline <;> rfl
  | cons c text => rfl

theorem takeWhile_ending :
    (text ++ ending newline).takeWhile (!isGap ·) = text.takeWhile (!isGap ·) := by
  have hnil : (ending newline).takeWhile (!isGap ·) = [] := by cases newline <;> rfl
  rw [List.takeWhile_append]
  split
  · rename_i h
    rw [hnil, List.append_nil]
    exact ((List.takeWhile_prefix _).eq_of_length h).symm
  · rfl

theorem dropWhile_ending :
    (text ++ ending newline).dropWhile (!isGap ·) =
      text.dropWhile (!isGap ·) ++ ending newline := by
  have hself : (ending newline).dropWhile (!isGap ·) = ending newline := by cases newline <;> rfl
  rw [List.dropWhile_append]
  split
  · rename_i h
    rw [hself, List.isEmpty_iff.mp h, List.nil_append]
  · rfl

theorem dropGaps_ending :
    (text ++ ending newline).dropWhile isGap =
      if text.dropWhile isGap = [] then [] else text.dropWhile isGap ++ ending newline := by
  have hnil : (ending newline).dropWhile isGap = [] := by cases newline <;> rfl
  rw [List.dropWhile_append, hnil]
  simp only [List.isEmpty_iff]

/-- A text without a word has nothing to be trimmed. -/
theorem closed_of_ignored (h : 10 ∉ text) (hi : ignored text = true) : Closed newline text := by
  cases text with
  | nil => cases newline <;> simp [Closed, content, Quoting.start]
  | cons c text =>
    have hc : c = 35 := by
      have hne : c ≠ 10 := fun hc => h (hc ▸ List.mem_cons_self)
      simpa [ignored, hne] using hi
    exact .inl (by simp [commented, Quoting.comments, Quoting.start, hc])

/-- What the words and the blanks between them are does not depend on the newline. -/
theorem splitLine_ending : splitLine (line ++ ending newline) =
    if ignored (line.dropWhile isGap) then none
    else
      some ((line.dropWhile isGap).takeWhile (!isGap ·),
        if ignored (argumentText line) then none
        else some (stripTrailingGarbage (argumentText line ++ ending newline))) := by
  rw [splitLine, dropGaps_ending]
  by_cases hline : line.dropWhile isGap = []
  · rw [if_pos hline, hline]
    rfl
  · rw [if_neg hline]
    dsimp only
    rw [ignored_ending, takeWhile_ending, dropWhile_ending, dropGaps_ending]
    have harg : ((line.dropWhile isGap).dropWhile (!isGap ·)).dropWhile isGap =
        argumentText line := rfl
    rw [harg]
    by_cases harg : argumentText line = []
    · rw [if_pos harg, harg]
      rfl
    · rw [if_neg harg, ignored_ending]

/-- A line is read as it says exactly when its argument is closed. -/
theorem splitLine_iff (h : 10 ∉ line) :
    splitLine (line ++ ending newline) = lineParts line ↔
      ignored (line.dropWhile isGap) = true ∨ Closed newline (argumentText line) := by
  have hmem : 10 ∉ argumentText line := fun hm =>
    h (((List.dropWhile_sublist _).trans
      ((List.dropWhile_sublist _).trans (List.dropWhile_sublist _))).mem hm)
  rw [splitLine_ending, lineParts]
  cases ignored (line.dropWhile isGap) with
  | true => simp
  | false =>
    cases hi : ignored (argumentText line) with
    | true => simp [closed_of_ignored hmem hi]
    | false => simpa using strip_iff hmem

/-- `a b `, with a newline. -/
theorem splitLine_newline :
    splitLine ([97, 32, 98, 32] ++ ending true) = lineParts [97, 32, 98, 32] :=
  (splitLine_iff (by decide)).mpr (.inr (.inr rfl))

/-- `a b `, the last line of a file. -/
theorem not_splitLine : ¬ ∀ (line : CStr) (newline : Bool), 10 ∉ line →
    splitLine (line ++ ending newline) = lineParts line := by
  intro h
  exact absurd (h [97, 32, 98, 32] false (by decide)) (by decide)

end Cfg

end Orchids
