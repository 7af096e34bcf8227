import Orchids.Mod.Syslog

/-!
# Reads of a line

The helpers of `string_util.c` at a position of a line, where a read past the `NUL` is a crash.

* `readAt`: a byte of the line, or its `NUL`.
* `getNextIntAt_eq`, `myStrspnAt_eq`, `startsAt_eq`: inside the line they do not crash, and their
  results are those for the pointer to the position.
* `getNextIntAt_append`, `myStrspnAt_append`: the results where the text of a token is known.
-/

namespace Orchids

/-- `s[i]` -/
def readAt (s : CStr) (i : Nat) : Except Reject UInt8 :=
  if i ≤ s.length then .ok (s[i]?.getD 0) else .error (.crash .overread)

/-- The loop of `get_next_int` at a position, for `k` digits more. -/
def nextDigitsAt (line : CStr) (pos : Nat) : Nat → Nat → BitVec 64 → Except Reject (Nat × BitVec 64)
  | 0, sz, i => do
    -- the size is looked at after the digit
    let _ ← readAt line (pos + sz)
    return (sz, i)
  | k + 1, sz, i => do
    let c ← readAt line (pos + sz)
    if isDigit c then nextDigitsAt line pos k (sz + 1) (i * 10 + BitVec.ofNat 64 (c.toNat - 48))
    else return (sz, i)

/-- `get_next_int(line + pos, ..)` -/
def getNextIntAt (line : CStr) (pos n : Nat) : Except Reject (Nat × BitVec 64) :=
  nextDigitsAt line pos (n + 1) 0 0

/-- The loop of `my_strspn` at a position, for `k` bytes more. -/
def spanUntilAt (line : CStr) (pos : Nat) (eot : CStr) : Nat → Nat → Except Reject Nat
  | 0, tokenSize => return tokenSize
  | k + 1, tokenSize => do
    let c ← readAt line (pos + tokenSize)
    if c ∈ eot then return tokenSize else spanUntilAt line pos eot k (tokenSize + 1)

/-- `my_strspn(line + pos, ..)` -/
def myStrspnAt (line : CStr) (pos : Nat) (eot : CStr) (n : Nat) : Except Reject Nat :=
  spanUntilAt line pos eot n 0

/-- `strncmp(s, line + pos, strlen(s)) == 0` -/
def startsAt (line : CStr) : CStr → Nat → Except Reject Bool
  | [], _ => return true
  | c :: s, pos => do
    if (← readAt line pos) = c then startsAt line s (pos + 1) else return false

/-! ## Pointers -/

namespace Text

theorem byteAt_advance (p : Text) (n i : Nat) : (p.advance n).byteAt i = p.byteAt (n + i) := by
  rw [byteAt, byteAt, advance, List.getElem?_drop, List.length_drop]
  have hbehind : i - (p.bytes.length - n) + (n - p.bytes.length) = n + i - p.bytes.length ∨
      n + i < p.bytes.length := by omega
  rcases hbehind with h | h
  · rw [← h]
  · rw [List.getElem?_eq_getElem h]
    rfl

theorem advance_zero (p : Text) : p.advance 0 = p := by
  rw [advance, Nat.zero_sub]
  rfl

theorem advance_advance (p : Text) (m n : Nat) : (p.advance m).advance n = p.advance (m + n) := by
  rw [advance, advance, advance, List.drop_drop, List.length_drop]
  refine congrArg _ (funext fun i => congrArg p.behind ?_)
  omega

/-- A text as `n + 1` bytes of memory. -/
theorem mem_succ (p : Text) (n : Nat) : p.mem (n + 1) = p.byteAt 0 :: (p.advance 1).mem n := by
  rw [mem, mem, byteAt, advance]
  cases p.bytes with
  | nil => simp [List.range_succ_eq_map]
  | cons b l => simp

theorem getElem?_mem (p : Text) {i n : Nat} (h : i < n) : (p.mem n)[i]? = some (p.byteAt i) := by
  induction n generalizing p i with
  | zero => exact absurd h (Nat.not_lt_zero i)
  | succ n ih =>
    rw [mem_succ]
    cases i with
    | zero => rfl
    | succ i =>
      rw [List.getElem?_cons_succ, ih (p.advance 1) (Nat.lt_of_succ_lt_succ h), byteAt_advance,
        Nat.add_comm]

theorem startsWith_nil (p : Text) : p.startsWith [] := by
  rw [startsWith, List.length_nil, mem, Nat.zero_sub]
  rfl

theorem startsWith_cons (p : Text) (c : UInt8) (s : CStr) :
    p.startsWith (c :: s) = (p.byteAt 0 == c && (p.advance 1).startsWith s) := by
  rw [startsWith, startsWith, List.length_cons, mem_succ]
  rfl

end Text

/-- The bytes of a text are a line, and a `NUL` is behind it. -/
structure IsLine (line : CStr) (t : Text) : Prop where
  bytes : t.bytes = line
  nul : t.behind 0 = 0

section

variable {line : CStr} {t : Text} {pos : Nat}

theorem readAt_eq (ht : IsLine line t) {i : Nat} (h : pos + i ≤ line.length) :
    readAt line (pos + i) = .ok ((t.advance pos).byteAt i) := by
  rw [readAt, if_pos h, Text.byteAt_advance, Text.byteAt, ht.bytes]
  rcases Nat.lt_or_eq_of_le h with hlt | heq
  · rw [List.getElem?_eq_getElem hlt]
    rfl
  · rw [heq, List.getElem?_eq_none (Nat.le_refl _), Nat.sub_self, ht.nul]

/-- The byte after the line is its `NUL`. -/
theorem byteAt_nul (ht : IsLine line t) {i : Nat} (h : pos + i = line.length) :
    (t.advance pos).byteAt i = 0 := by
  rw [Text.byteAt_advance, Text.byteAt, ht.bytes, h, List.getElem?_eq_none (Nat.le_refl _),
    Nat.sub_self, ht.nul]
  rfl

theorem nextDigitsAt_eq (ht : IsLine line t) (k sz : Nat) (i : BitVec 64)
    (h : pos + sz ≤ line.length) :
    nextDigitsAt line pos k sz i = .ok (nextDigits (t.advance pos) k sz i) ∧
      pos + (nextDigits (t.advance pos) k sz i).1 ≤ line.length := by
  induction k generalizing sz i with
  | zero =>
    rw [nextDigitsAt, readAt_eq ht h]
    exact ⟨rfl, h⟩
  | succ k ih =>
    rw [nextDigitsAt, readAt_eq ht h, nextDigits]
    by_cases hdigit : isDigit ((t.advance pos).byteAt sz)
    · have hne : pos + sz ≠ line.length := by
        intro heq
        rw [byteAt_nul ht heq] at hdigit
        exact absurd hdigit (by decide)
      have hih := ih (sz + 1) (i * 10 + BitVec.ofNat 64 (((t.advance pos).byteAt sz).toNat - 48))
        (by omega)
      rw [if_pos hdigit]
      refine ⟨?_, hih.2⟩
      rw [← hih.1]
      exact if_pos hdigit
    · rw [if_neg hdigit]
      exact ⟨if_neg hdigit, h⟩

theorem getNextIntAt_eq (ht : IsLine line t) (n : Nat) (h : pos ≤ line.length) :
    getNextIntAt line pos n = .ok (getNextInt (t.advance pos) n) ∧
      pos + (getNextInt (t.advance pos) n).1 ≤ line.length :=
  nextDigitsAt_eq ht (n + 1) 0 0 h

theorem spanUntilAt_eq (ht : IsLine line t) (eot : CStr) (k tokenSize : Nat)
    (h : pos + tokenSize + k ≤ line.length) :
    spanUntilAt line pos eot k tokenSize = .ok (spanUntil (t.advance pos) eot k tokenSize) ∧
      spanUntil (t.advance pos) eot k tokenSize ≤ tokenSize + k := by
  induction k generalizing tokenSize with
  | zero => exact ⟨rfl, Nat.le_refl _⟩
  | succ k ih =>
    rw [spanUntilAt, readAt_eq ht (by omega), spanUntil]
    by_cases hmem : (t.advance pos).byteAt tokenSize ∈ eot
    · rw [if_pos hmem]
      exact ⟨if_pos hmem, by omega⟩
    · have hih := ih (tokenSize + 1) (by omega)
      rw [if_neg hmem]
      refine ⟨?_, by omega⟩
      rw [← hih.1]
      exact if_neg hmem

theorem myStrspnAt_eq (ht : IsLine line t) (eot : CStr) (n : Nat) (h : pos + n ≤ line.length) :
    myStrspnAt line pos eot n = .ok (myStrspn (t.advance pos) eot n) ∧
      myStrspn (t.advance pos) eot n ≤ n := by
  have hspan := spanUntilAt_eq ht eot n 0 h
  rwa [Nat.zero_add] at hspan

theorem startsAt_eq (ht : IsLine line t) (s : CStr) (hs : 0 ∉ s) (h : pos ≤ line.length) :
    startsAt line s pos = .ok ((t.advance pos).startsWith s) ∧
      ((t.advance pos).startsWith s = true → pos + s.length ≤ line.length) := by
  induction s generalizing pos with
  | nil => exact ⟨congrArg Except.ok (Text.startsWith_nil _).symm, fun _ => h⟩
  | cons c s ih =>
    have hread : readAt line pos = .ok ((t.advance pos).byteAt 0) := @readAt_eq _ _ _ ht 0 h
    rw [startsAt, hread, Text.startsWith_cons, Text.advance_advance]
    by_cases hc : (t.advance pos).byteAt 0 = c
    · have hne : pos ≠ line.length := by
        intro heq
        have hnul : (t.advance pos).byteAt 0 = 0 := byteAt_nul ht heq
        rw [hnul] at hc
        exact hs (hc ▸ List.mem_cons_self)
      have hih := @ih (pos + 1) (fun hmem => hs (List.mem_cons_of_mem _ hmem)) (by omega)
      rw [beq_iff_eq.mpr hc, Bool.true_and, List.length_cons]
      refine ⟨?_, fun hstarts => ?_⟩
      · rw [← hih.1]
        exact if_pos hc
      · have := hih.2 hstarts
        omega
    · rw [beq_eq_false_iff_ne.mpr hc, Bool.false_and]
      exact ⟨if_neg hc, nofun⟩

end

/-! ## Known texts -/

section

variable {pre rest : CStr} {pos : Nat}

theorem readAt_append {mid : CStr} {i : Nat} (hi : i ≤ mid.length) :
    readAt (pre ++ mid) (pre.length + i) = .ok (mid[i]?.getD 0) := by
  rw [readAt, if_pos (by rw [List.length_append]; omega),
    List.getElem?_append_right (Nat.le_add_right _ _), Nat.add_sub_cancel_left]

theorem foldl_ofNat (ds : CStr) (n : Nat) :
    ds.foldl (fun i c => i * 10 + BitVec.ofNat 64 (c.toNat - 48)) (BitVec.ofNat 64 n) =
      BitVec.ofNat 64 (ds.foldl (fun n c => n * 10 + (c.toNat - 48)) n) := by
  induction ds generalizing n with
  | nil => rfl
  | cons c ds ih =>
    rw [List.foldl_cons, List.foldl_cons, ← ih, BitVec.ofNat_add, BitVec.ofNat_mul]
    rfl

theorem nextDigitsAt_append {ds : CStr} (hds : ∀ c ∈ ds, isDigit c)
    (hrest : ¬ isDigit (rest[0]?.getD 0)) {k sz : Nat} (hk : ds.length ≤ k) (i : BitVec 64)
    (hpos : pos + sz = pre.length) :
    nextDigitsAt (pre ++ (ds ++ rest)) pos k sz i =
      .ok (sz + ds.length, ds.foldl (fun i c => i * 10 + BitVec.ofNat 64 (c.toNat - 48)) i) := by
  induction ds generalizing pre k sz i with
  | nil =>
    have hread : readAt (pre ++ ([] ++ rest)) (pos + sz) = .ok (rest[0]?.getD 0) := by
      rw [hpos]
      exact readAt_append (Nat.zero_le _)
    cases k with
    | zero =>
      rw [nextDigitsAt, hread]
      rfl
    | succ k =>
      rw [nextDigitsAt, hread]
      exact if_neg hrest
  | cons c ds ih =>
    obtain ⟨k, rfl⟩ : ∃ k', k = k' + 1 := ⟨k - 1, by rw [List.length_cons] at hk; omega⟩
    have hread : readAt (pre ++ (c :: ds ++ rest)) (pos + sz) = .ok c := by
      rw [hpos]
      exact readAt_append (Nat.zero_le _)
    have hih := @ih (pre ++ [c]) (fun c' hc' => hds c' (List.mem_cons_of_mem _ hc')) k (sz + 1)
      (Nat.le_of_succ_le_succ hk) (i * 10 + BitVec.ofNat 64 (c.toNat - 48))
      (by rw [List.length_append, List.length_singleton]; omega)
    rw [List.append_assoc, List.singleton_append] at hih
    rw [nextDigitsAt, hread, List.length_cons, List.foldl_cons, Nat.add_comm ds.length,
      ← Nat.add_assoc, ← hih]
    exact if_pos (hds c List.mem_cons_self)

/-- The digits of a number, up to another byte. -/
theorem getNextIntAt_append {ds : CStr} (hds : ∀ c ∈ ds, isDigit c)
    (hrest : ¬ isDigit (rest[0]?.getD 0)) {n : Nat} (hn : ds.length ≤ n + 1) :
    getNextIntAt (pre ++ (ds ++ rest)) pre.length n =
      .ok (ds.length, BitVec.ofNat 64 (digits ds)) := by
  rw [getNextIntAt, nextDigitsAt_append hds hrest hn 0 (Nat.add_zero _), Nat.zero_add]
  exact congrArg (fun v => Except.ok (ds.length, v)) (foldl_ofNat ds 0)

theorem spanUntilAt_append {tok eot : CStr} (htok : ∀ c ∈ tok, c ∉ eot) {k tokenSize : Nat}
    (hk : tok.length < k ∧ rest[0]?.getD 0 ∈ eot ∨ tok.length = k)
    (hpos : pos + tokenSize = pre.length) :
    spanUntilAt (pre ++ (tok ++ rest)) pos eot k tokenSize = .ok (tokenSize + tok.length) := by
  induction tok generalizing pre k tokenSize with
  | nil =>
    cases k with
    | zero => rfl
    | succ k =>
      have hmem : rest[0]?.getD 0 ∈ eot := by
        rcases hk with ⟨-, h⟩ | ⟨⟨⟩⟩
        exact h
      have hread : readAt (pre ++ ([] ++ rest)) (pos + tokenSize) = .ok (rest[0]?.getD 0) := by
        rw [hpos]
        exact readAt_append (Nat.zero_le _)
      rw [spanUntilAt, hread]
      exact if_pos hmem
  | cons c tok ih =>
    rw [List.length_cons] at hk ⊢
    obtain ⟨k, rfl⟩ : ∃ k', k = k' + 1 := ⟨k - 1, by omega⟩
    have hread : readAt (pre ++ (c :: tok ++ rest)) (pos + tokenSize) = .ok c := by
      rw [hpos]
      exact readAt_append (Nat.zero_le _)
    have hih := @ih (pre ++ [c]) (fun c' hc' => htok c' (List.mem_cons_of_mem _ hc')) k
      (tokenSize + 1) (hk.imp (fun h => ⟨Nat.lt_of_succ_lt_succ h.1, h.2⟩) Nat.succ.inj)
      (by rw [List.length_append, List.length_singleton]; omega)
    rw [List.append_assoc, List.singleton_append] at hih
    rw [spanUntilAt, hread, Nat.add_comm tok.length, ← Nat.add_assoc, ← hih]
    exact if_neg (htok c List.mem_cons_self)

/-- A token up to one of the bytes that end it, or up to the end of what may be read. -/
theorem myStrspnAt_append {tok eot : CStr} (htok : ∀ c ∈ tok, c ∉ eot) {n : Nat}
    (hn : tok.length < n ∧ rest[0]?.getD 0 ∈ eot ∨ tok.length = n) :
    myStrspnAt (pre ++ (tok ++ rest)) pre.length eot n = .ok tok.length := by
  rw [myStrspnAt, spanUntilAt_append htok hn (Nat.add_zero _), Nat.zero_add]

theorem startsAt_append {s mid : CStr} (hs : 0 ∉ s) :
    startsAt (pre ++ mid) s pre.length = .ok (s.isPrefixOf mid) := by
  induction s generalizing pre mid with
  | nil => rfl
  | cons c s ih =>
    have hread : readAt (pre ++ mid) pre.length = .ok (mid[0]?.getD 0) :=
      readAt_append (Nat.zero_le _)
    rw [startsAt, hread]
    cases mid with
    | nil =>
      have hne : (0 : UInt8) ≠ c := fun h => hs (h ▸ List.mem_cons_self)
      exact if_neg hne
    | cons b mid =>
      have hih := @ih (pre ++ [b]) mid (fun h => hs (List.mem_cons_of_mem _ h))
      rw [List.append_assoc, List.singleton_append, List.length_append,
        List.length_singleton] at hih
      rw [List.isPrefixOf_cons_cons]
      by_cases hbc : b = c
      · rw [beq_iff_eq.mpr hbc.symm, Bool.true_and, ← hih]
        exact if_pos hbc
      · rw [beq_eq_false_iff_ne.mpr (Ne.symm hbc), Bool.false_and]
        exact if_neg hbc

end

end Orchids
