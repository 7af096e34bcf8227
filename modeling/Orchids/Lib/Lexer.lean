import Mathlib.Data.List.Basic

/-!
# Scanners

The scanners that `flex` makes from rules: the longest prefix of the input that a rule accepts is
taken, by the first rule that accepts it.

* `longest_append`, `of_longest`: which rule is taken, and for which prefix.
* `scan_ok`, `scan_error`: one action of the loop.
-/

/-- A pattern, and what the scanner does. -/
structure LexRule (σ τ : Type) where
  accepts : List σ → Bool
  token : τ

namespace LexRule

variable {σ τ α β : Type} (rules : List (LexRule σ τ))

/-- The first rule that accepts. -/
def first (text : List σ) : Option τ := (rules.find? (·.accepts text)).map token

/-- The longest prefix that is accepted, of length `n` at most and not empty. -/
def longestUpTo (input : List σ) : Nat → Option (τ × List σ × List σ)
  | 0 => none
  | n + 1 =>
    match first rules (input.take (n + 1)) with
    | some t => some (t, input.take (n + 1), input.drop (n + 1))
    | none => longestUpTo input n

/-- The rule that is taken, with the prefix and what remains. -/
def longest (input : List σ) : Option (τ × List σ × List σ) := longestUpTo rules input input.length

/-- The loop of a scanner, with at most `n` actions. An action goes on from a new state, or stops
it. -/
def scan (act : α → τ → List σ → Except β α) : Nat → α → List σ → Option (β × List σ)
  | 0, _, _ => none
  | n + 1, a, input =>
    (longest rules input).bind fun (t, text, rest) =>
      match act a t text with
      | .ok a => scan act n a rest
      | .error b => some (b, rest)

@[simp]
theorem first_nil (text : List σ) : first ([] : List (LexRule σ τ)) text = none := rfl

@[simp]
theorem first_cons (r : LexRule σ τ) (text : List σ) :
    first (r :: rules) text = if r.accepts text then some r.token else first rules text := by
  cases h : r.accepts text <;> simp [first, h]

variable {rules} {act : α → τ → List σ → Except β α} {input text rest : List σ} {t : τ} {n : Nat}
  {a a' : α} {b : β}

theorem longestUpTo_eq {m : Nat} (hm : m ≠ 0) (ht : first rules (input.take m) = some t)
    (hlong : ∀ k ≤ n, m < k → first rules (input.take k) = none) (hn : m ≤ n) :
    longestUpTo rules input n = some (t, input.take m, input.drop m) := by
  induction n with
  | zero => omega
  | succ n ih =>
    rw [longestUpTo]
    by_cases h : m = n + 1
    · rw [← h, ht]
    · rw [hlong (n + 1) (Nat.le_refl _) (by omega)]
      exact ih (fun k hk => hlong k (by omega)) (by omega)

/-- A prefix that is accepted, and with more of the input is not. -/
theorem longest_append (hne : text ≠ []) (ht : first rules text = some t)
    (hlong : ∀ l, l ≠ [] → l <+: rest → first rules (text ++ l) = none) :
    longest rules (text ++ rest) = some (t, text, rest) := by
  have htake : (text ++ rest).take text.length = text := List.take_left
  have hdrop : (text ++ rest).drop text.length = rest := List.drop_left
  have hmore : ∀ k ≤ (text ++ rest).length, text.length < k →
      first rules ((text ++ rest).take k) = none := by
    intro k hk hlt
    rw [List.take_append, List.take_of_length_le (Nat.le_of_lt hlt)]
    refine hlong _ (List.ne_nil_of_length_pos ?_) (List.take_prefix _ _)
    simp only [List.length_append, List.length_take] at hk ⊢
    omega
  rw [longest, longestUpTo_eq (by simpa using hne) (by rw [htake, ht]) hmore (by simp), htake,
    hdrop]

theorem of_longestUpTo (h : longestUpTo rules input n = some (t, text, rest)) :
    input = text ++ rest ∧ first rules text = some t := by
  induction n with
  | zero => cases h
  | succ n ih =>
    rw [longestUpTo] at h
    split at h
    · rename_i t' ht
      cases h
      exact ⟨(List.take_append_drop _ _).symm, ht⟩
    · exact ih h

/-- What is taken is the first part of the input, and its rule accepts it. -/
theorem of_longest (h : longest rules input = some (t, text, rest)) :
    input = text ++ rest ∧ first rules text = some t :=
  of_longestUpTo h

theorem of_first (h : first rules text = some t) : ∃ r ∈ rules, r.accepts text ∧ r.token = t := by
  obtain ⟨r, hr, ht⟩ := Option.map_eq_some_iff.mp h
  exact ⟨r, List.mem_of_find?_eq_some hr, by simpa using List.find?_some hr, ht⟩

theorem scan_ok (h : longest rules input = some (t, text, rest)) (ha : act a t text = .ok a') :
    scan rules act (n + 1) a input = scan rules act n a' rest := by
  simp [scan, h, ha]

theorem scan_error (h : longest rules input = some (t, text, rest)) (ha : act a t text = .error b) :
    scan rules act (n + 1) a input = some (b, rest) := by
  simp [scan, h, ha]

end LexRule
