import Orchids.Util.StringUtil

/-!
# Patterns (`fnmatch_test` of `string_util.c`)

* `fnmatchTest`: whether a string is a pattern, where a read past the `NUL` is a fault.
* `IsPattern`: a wildcard, or brackets; `unescaped`: the characters that no backslash takes.
* `fnmatchTest_iff`: the strings for which the function reads no more than the string, and answers
  right.
-/

namespace Orchids

namespace Fnmatch

/-- What goes wrong: a read past the `NUL`, or `++nesting` past the greatest `int`. -/
inductive Fault where
  | overread
  | overflow
  deriving DecidableEq

/-- The loop, on the characters before the `NUL`. -/
def fnmatchLoop : CStr → Nat → Except Fault Bool
  | [], _ => .ok false
  | c :: pattern, nesting =>
    if c = 63 ∨ c = 42 then .ok true
    else if c = 92 then
      -- `*pattern++` is the backslash, so the test for the `NUL` fails; the next one is skipped
      match pattern with
      | [] => .error .overread
      | _ :: pattern => fnmatchLoop pattern nesting
    else if c = 91 then
      if nesting + 1 < 2 ^ 31 then fnmatchLoop pattern (nesting + 1) else .error .overflow
    else if c = 93 then
      if nesting ≠ 0 then .ok true else fnmatchLoop pattern nesting
    else fnmatchLoop pattern nesting

/-- `fnmatch_test` -/
def fnmatchTest (pattern : CStr) : Except Fault Bool := fnmatchLoop pattern 0

section

variable (s : CStr) (n : Nat)

theorem fnmatchLoop_open : fnmatchLoop (91 :: s) n =
    if n + 1 < 2 ^ 31 then fnmatchLoop s (n + 1) else .error .overflow := by
  conv_lhs => rw [fnmatchLoop.eq_def]
  rfl

theorem fnmatchLoop_close :
    fnmatchLoop (93 :: s) n = if n ≠ 0 then .ok true else fnmatchLoop s n := by
  conv_lhs => rw [fnmatchLoop.eq_def]
  rfl

end

/-! ## Patterns -/

/-- The characters that no backslash takes, without the backslashes that take one. -/
def unescaped : CStr → CStr
  | [] => []
  | c :: s =>
    if c = 92 then
      match s with
      | [] => []
      | _ :: s => unescaped s
    else c :: unescaped s

/-- The last character is a backslash that takes nothing. -/
def Dangling : CStr → Prop
  | [] => False
  | c :: s =>
    if c = 92 then
      match s with
      | [] => True
      | _ :: s => Dangling s
    else Dangling s

/-- There is a `?`, a `*`, or a `[` with a `]` later. -/
def IsPattern (s : CStr) : Prop := 63 ∈ s ∨ 42 ∈ s ∨ ∃ l₁ l₂, s = l₁ ++ 91 :: l₂ ∧ 93 ∈ l₂

variable {s p : CStr} {c : UInt8}

theorem IsPattern.append (h : IsPattern p) (s : CStr) : IsPattern (p ++ s) := by
  rcases h with h | h | ⟨l₁, l₂, rfl, h⟩
  · exact .inl (List.mem_append_left s h)
  · exact .inr (.inl (List.mem_append_left s h))
  · refine .inr (.inr ⟨l₁, l₂ ++ s, ?_, List.mem_append_left s h⟩)
    rw [List.append_assoc, List.cons_append]

/-- One character more. -/
theorem isPattern_concat :
    IsPattern (p ++ [c]) ↔ IsPattern p ∨ c = 63 ∨ c = 42 ∨ (c = 93 ∧ 91 ∈ p) := by
  constructor
  · rintro (h | h | ⟨l₁, l₂, heq, h⟩)
    · rcases List.mem_append.mp h with h | h
      · exact .inl (.inl h)
      · exact .inr (.inl (List.mem_singleton.mp h).symm)
    · rcases List.mem_append.mp h with h | h
      · exact .inl (.inr (.inl h))
      · exact .inr (.inr (.inl (List.mem_singleton.mp h).symm))
    · rcases List.eq_nil_or_concat' l₂ with rfl | ⟨l₃, d, rfl⟩
      · cases h
      rw [← List.cons_append, ← List.append_assoc] at heq
      obtain ⟨rfl, hd⟩ := List.append_inj' heq rfl
      obtain rfl := List.singleton_inj.mp hd
      rcases List.mem_append.mp h with h | h
      · exact .inl (.inr (.inr ⟨l₁, l₃, rfl, h⟩))
      · refine .inr (.inr (.inr ⟨(List.mem_singleton.mp h).symm, ?_⟩))
        exact List.mem_append_right l₁ List.mem_cons_self
  · rintro (h | rfl | rfl | ⟨rfl, h⟩)
    · exact h.append _
    · exact .inl (List.mem_append_right p List.mem_cons_self)
    · exact .inr (.inl (List.mem_append_right p List.mem_cons_self))
    · obtain ⟨l₁, l₂, rfl⟩ := List.append_of_mem h
      refine .inr (.inr ⟨l₁, l₂ ++ [93], ?_, List.mem_append_right l₂ List.mem_cons_self⟩)
      rw [List.append_assoc, List.cons_append]

/-- The answer is right, and nothing behind the string is read. -/
def Answers (p s : CStr) (nesting : Nat) : Prop :=
  ∃ b, fnmatchLoop s nesting = .ok b ∧ (b = true ↔ IsPattern (p ++ unescaped s))

/-- A `\` at the end is behind a match, and before the first match there are fewer than `2 ^ 31` of
the `[`. -/
structure Fits (p s : CStr) : Prop where
  ends : IsPattern (p ++ unescaped s) ∨ ¬ Dangling s
  nesting : ∀ q, q <+: unescaped s → ¬ IsPattern (p ++ q) → (p ++ q).count 91 < 2 ^ 31

variable {n : Nat}

/-- A character that makes a match. -/
theorem fits_of_match {s' : CStr} (hu : unescaped s = c :: unescaped s')
    (hc : IsPattern (p ++ [c])) (hn : p.count 91 < 2 ^ 31) : Fits p s := by
  have happ : ∀ q, p ++ c :: q = p ++ [c] ++ q := fun q => by simp
  refine ⟨.inl ?_, fun q hq hnot => ?_⟩
  · rw [hu, happ]
    exact hc.append _
  · rw [hu] at hq
    rcases List.prefix_cons_iff.mp hq with rfl | ⟨q, rfl, -⟩
    · rwa [List.append_nil]
    · rw [happ] at hnot
      exact absurd (hc.append q) hnot

/-- A character that makes none. -/
theorem fits_concat {s' : CStr} (hu : unescaped s = c :: unescaped s')
    (hd : Dangling s ↔ Dangling s') (hn : p.count 91 < 2 ^ 31) :
    Fits p s ↔ Fits (p ++ [c]) s' := by
  have happ : ∀ q, p ++ c :: q = p ++ [c] ++ q := fun q => by simp
  constructor
  · rintro ⟨hends, hnest⟩
    rw [hu] at hends hnest
    refine ⟨?_, fun q hq hnot => ?_⟩
    · rwa [← happ, ← hd]
    · rw [← happ] at hnot ⊢
      exact hnest (c :: q) (List.prefix_cons_iff.mpr (.inr ⟨q, rfl, hq⟩)) hnot
  · rintro ⟨hends, hnest⟩
    refine ⟨?_, fun q hq hnot => ?_⟩
    · rwa [hu, happ, hd]
    · rw [hu] at hq
      rcases List.prefix_cons_iff.mp hq with rfl | ⟨q, rfl, hq'⟩
      · rwa [List.append_nil]
      · rw [happ] at hnot ⊢
        exact hnest q hq' hnot

theorem unescaped_cons {c : UInt8} (hc : c ≠ 92) (s : CStr) :
    unescaped (c :: s) = c :: unescaped s := by
  rw [unescaped.eq_def]
  exact if_neg hc

theorem dangling_cons {c : UInt8} (hc : c ≠ 92) (s : CStr) : Dangling (c :: s) ↔ Dangling s := by
  rw [Dangling.eq_def]
  exact iff_of_eq (if_neg hc)

/-- A character at which the loop answers. -/
theorem answers_of_match (hc : c ≠ 92) (hloop : fnmatchLoop (c :: s) n = .ok true)
    (hp : IsPattern (p ++ [c])) : Answers p (c :: s) n := by
  refine ⟨true, hloop, iff_of_true rfl ?_⟩
  rw [unescaped_cons hc, ← List.singleton_append, ← List.append_assoc]
  exact hp.append _

/-- A character behind which the loop goes on. -/
theorem answers_iff_concat {m : Nat} (hc : c ≠ 92)
    (hloop : fnmatchLoop (c :: s) n = fnmatchLoop s m) (hn : p.count 91 < 2 ^ 31)
    (h : Answers (p ++ [c]) s m ↔ Fits (p ++ [c]) s) : Answers p (c :: s) n ↔ Fits p (c :: s) := by
  rw [fits_concat (unescaped_cons hc s) (dangling_cons hc s) hn, ← h, Answers, Answers, hloop,
    unescaped_cons hc, List.append_assoc, List.singleton_append]

/-- The character behind a `\` is left out. -/
theorem answers_escape (s : CStr) : Answers p (92 :: c :: s) n ↔ Answers p s n := Iff.rfl

theorem fits_escape (s : CStr) : Fits p (92 :: c :: s) ↔ Fits p s :=
  ⟨fun h => ⟨h.ends, h.nesting⟩, fun h => ⟨h.ends, h.nesting⟩⟩

/-- The loop behind the characters `p`, which are no pattern and have `n` of the `[`. -/
theorem answers_iff (hp : ¬ IsPattern p) (hn : n = p.count 91) (hlt : n < 2 ^ 31) :
    Answers p s n ↔ Fits p s := by
  induction s, n using fnmatchLoop.induct generalizing p with
  | case1 n =>
    refine iff_of_true ⟨false, rfl, ?_⟩ ⟨.inr id, fun q hq _ => ?_⟩
    · simpa [unescaped] using hp
    · rw [List.prefix_nil.mp hq, List.append_nil, ← hn]
      exact hlt
  | case2 c s n hc =>
    have hne : c ≠ 92 := by rintro rfl; revert hc; decide
    have hmatch : IsPattern (p ++ [c]) :=
      isPattern_concat.mpr (hc.elim (fun h => .inr (.inl h)) fun h => .inr (.inr (.inl h)))
    refine iff_of_true (answers_of_match hne ?_ hmatch)
      (fits_of_match (unescaped_cons hne s) hmatch (hn ▸ hlt))
    rw [fnmatchLoop.eq_def]
    exact if_pos hc
  | case3 n =>
    refine iff_of_false (fun ⟨b, h, _⟩ => ?_) fun h => ?_
    · cases h
    · refine h.ends.elim (fun h => hp ?_) fun h => h trivial
      simpa [unescaped] using h
  | case4 n c s _ ih => rw [answers_escape, fits_escape, ih hp hn hlt]
  | case5 s n hlt' _ _ ih =>
    have hopen : ¬ IsPattern (p ++ [91]) := by simpa [isPattern_concat] using hp
    refine answers_iff_concat (m := n + 1) (by decide) ?_ (hn ▸ hlt) (ih hopen ?_ hlt')
    · rw [fnmatchLoop_open, if_pos hlt']
    · rw [hn, List.count_append, List.count_singleton_self]
  | case6 s n hlt' =>
    have hopen : ¬ IsPattern (p ++ [91]) := by simpa [isPattern_concat] using hp
    refine iff_of_false (fun ⟨b, h, _⟩ => ?_) fun h => ?_
    · rw [fnmatchLoop_open, if_neg hlt'] at h
      cases h
    · have hcount := h.nesting [91] (by simp [unescaped_cons]) hopen
      rw [List.count_append, List.count_singleton_self, ← hn] at hcount
      exact hlt' hcount
  | case7 s n hn' =>
    have hmatch : IsPattern (p ++ [93]) := by
      refine isPattern_concat.mpr (.inr (.inr (.inr ⟨rfl, ?_⟩)))
      rw [← List.count_pos_iff, ← hn]
      exact Nat.pos_of_ne_zero hn'
    refine iff_of_true (answers_of_match (by decide) ?_ hmatch)
      (fits_of_match (unescaped_cons (by decide) s) hmatch (hn ▸ hlt))
    rw [fnmatchLoop_close, if_pos hn']
  | case8 s n hn' _ _ _ ih =>
    have hnone : 91 ∉ p := by
      rw [← List.count_eq_zero, ← hn]
      exact not_not.mp hn'
    have hclose : ¬ IsPattern (p ++ [93]) := by simpa [isPattern_concat, hnone] using hp
    refine answers_iff_concat (m := n) (by decide) ?_ (hn ▸ hlt) (ih hclose ?_ hlt)
    · rw [fnmatchLoop_close, if_neg hn']
    · simpa using hn
  | case9 c s n hone hesc hopen hclose ih =>
    have hnot : ¬ IsPattern (p ++ [c]) := by
      rw [isPattern_concat]
      tauto
    refine answers_iff_concat (m := n) hesc ?_ (hn ▸ hlt) (ih hnot ?_ hlt)
    · rw [fnmatchLoop.eq_def]
      simp [hone, hesc, hopen, hclose]
    · rw [hn, List.count_append, List.count_singleton, beq_false_of_ne hopen]
      rfl

/-- The function answers right and reads no more than the string if and only if a `\` at the end
takes a character or is behind a match, and `++nesting` stays in an `int` up to the first match. -/
theorem fnmatchTest_iff (s : CStr) :
    (∃ b, fnmatchTest s = .ok b ∧ (b = true ↔ IsPattern (unescaped s))) ↔
      (IsPattern (unescaped s) ∨ ¬ Dangling s) ∧
        ∀ q, q <+: unescaped s → ¬ IsPattern q → q.count 91 < 2 ^ 31 := by
  have hnil : ¬ IsPattern [] := by
    rintro (h | h | ⟨l₁, l₂, h, -⟩)
    · cases h
    · cases h
    · simp at h
  refine (answers_iff (p := []) (s := s) hnil rfl (by decide)).trans ?_
  exact ⟨fun h => ⟨h.ends, h.nesting⟩, fun h => ⟨h.1, h.2⟩⟩

/-- Behind a `\` alone the character behind the `NUL` is read. -/
theorem not_fnmatchTest_answers :
    ¬ ∀ s : CStr, ∃ b, fnmatchTest s = .ok b ∧ (b = true ↔ IsPattern (unescaped s)) := by
  intro h
  obtain ⟨b, hb, -⟩ := h [92]
  cases hb

end Fnmatch

end Orchids
