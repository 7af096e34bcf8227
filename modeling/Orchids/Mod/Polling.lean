import Orchids.Lib.Except
import Orchids.Lib.Fuel
import Orchids.Mod.TextFile

/-!
# Polling a file

* `Finishes`: the pieces of a line, up to the one that ends with its newline.
* `NextLine`: a complete line that is to be posted.
* `Polled`: a call returns, and posts the next line if it is there.
* `Run`: calls that return, and appends. `Delivered`: what is read are whole lines, and those that are
  not too long are posted.
* `polled_iff`: a call is as it is to be if and only if there is nothing left or a line finishes, and
  the end-of-file indicator does not hide a line. A run delivers its lines.
-/

namespace Orchids

/-! ## Pieces of a line -/

/-- The next piece. -/
def piece (rest : List UInt8) : List UInt8 := fgets (buffSz - 1) rest

/-- The pieces up to the first one that is seen to end with a newline; none before is empty up to its
`NUL`. -/
inductive Finishes : List UInt8 → List (List UInt8) → Prop
  | last {rest : List UInt8} : endsLine (cString (piece rest)) = .ok true →
      Finishes rest [piece rest]
  | more {rest : List UInt8} {ps : List (List UInt8)} :
      endsLine (cString (piece rest)) = .ok false →
      Finishes (rest.drop (piece rest).length) ps → Finishes rest (piece rest :: ps)

/-- A complete next line without `NUL` and of less than `MAX_LINE_SZ - 2 * BUFF_SZ` bytes. -/
structure NextLine (rest l : List UInt8) : Prop where
  isPrefix : l <+: rest
  newline : ∃ body, l = body ++ [10] ∧ 10 ∉ body
  noNul : 0 ∉ l
  short : l.length < maxLineSz - 2 * buffSz

theorem Finishes.ne_nil {rest : List UInt8} {ps : List (List UInt8)} (h : Finishes rest ps) :
    rest ≠ [] := by
  rintro rfl
  cases h with
  | last h => cases h
  | more h => cases h

theorem finishes_line {body : List UInt8} (hb : 10 ∉ body) (hz : 0 ∉ body) (more : List UInt8) :
    ∃ ps, Finishes (body ++ 10 :: more) ps ∧ ps.flatten = body ++ [10] ∧
      (ps.map cString).flatten = body ++ [10] ∧ (buffSz - 1) * (ps.length - 1) ≤ body.length := by
  induction hk : body.length using Nat.strong_induction_on generalizing body with
  | _ k ih =>
    subst hk
    rcases Nat.lt_or_ge body.length (buffSz - 1) with hlt | hge
    · have hpiece : piece (body ++ 10 :: more) = body ++ [10] := fgets_line hb hlt more
      have hstr : cString (body ++ [10]) = body ++ [10] := by
        refine cString_eq_self fun hmem => ?_
        rcases List.mem_append.mp hmem with hmem | hmem
        · exact hz hmem
        · cases List.mem_singleton.mp hmem
      refine ⟨[piece (body ++ 10 :: more)], .last ?_, ?_, ?_, Nat.zero_le _⟩
      · rw [hpiece, hstr, endsLine, List.getLast?_concat]
        rfl
      · rw [List.flatten_singleton, hpiece]
      · rw [List.map_singleton, List.flatten_singleton, hpiece, hstr]
    · have hpiece : piece (body ++ 10 :: more) = body.take (buffSz - 1) := fgets_full hb hge _
      have hstr : cString (body.take (buffSz - 1)) = body.take (buffSz - 1) :=
        cString_eq_self fun hmem => hz (List.mem_of_mem_take hmem)
      have hlen : (body.take (buffSz - 1)).length = buffSz - 1 := by
        rw [List.length_take, Nat.min_eq_left hge]
      have hends : endsLine (body.take (buffSz - 1)) = .ok false := by
        have hne : body.take (buffSz - 1) ≠ [] := by
          intro hnil
          rw [hnil] at hlen
          exact absurd hlen (by decide)
        obtain ⟨c, hc⟩ := Option.isSome_iff_exists.mp (List.getLast?_isSome.mpr hne)
        rw [endsLine, hc]
        have hne : c ≠ 10 := by
          rintro rfl
          exact hb (List.mem_of_mem_take (List.mem_of_getLast? hc))
        exact congrArg Except.ok (beq_false_of_ne hne)
      have hdrop : (body ++ 10 :: more).drop (piece (body ++ 10 :: more)).length =
          body.drop (buffSz - 1) ++ 10 :: more := by
        rw [hpiece, hlen, List.drop_append_of_le_length hge]
      have hpos : 0 < buffSz - 1 := by decide
      obtain ⟨ps, hps, hflat, hstrs, hcount⟩ := ih (body.drop (buffSz - 1)).length
        (by rw [List.length_drop]; omega) (fun hmem => hb (List.mem_of_mem_drop hmem))
        (fun hmem => hz (List.mem_of_mem_drop hmem)) rfl
      refine ⟨piece (body ++ 10 :: more) :: ps, .more (by rw [hpiece, hstr]; exact hends)
        (by rw [hdrop]; exact hps), ?_, ?_, ?_⟩
      · rw [List.flatten_cons, hflat, hpiece, ← List.append_assoc, List.take_append_drop]
      · rw [List.map_cons, List.flatten_cons, hstrs, hpiece, hstr, ← List.append_assoc,
          List.take_append_drop]
      · rw [List.length_drop] at hcount
        obtain ⟨k, hk⟩ : ∃ k, ps.length = k + 1 := by
          cases hps with
          | last => exact ⟨0, rfl⟩
          | more => exact ⟨_, List.length_cons⟩
        rw [List.length_cons, hk, Nat.add_sub_cancel, Nat.mul_succ]
        rw [hk, Nat.add_sub_cancel] at hcount
        omega

/-- A line that is to be posted has few pieces. -/
theorem NextLine.finishes {rest l : List UInt8} (h : NextLine rest l) :
    ∃ ps, Finishes rest ps ∧ ps.flatten = l ∧ (ps.map cString).flatten = l ∧ ps.length ≤ 8 := by
  obtain ⟨body, rfl, hb⟩ := h.newline
  obtain ⟨more, rfl⟩ := h.isPrefix
  have hz : 0 ∉ body := fun hmem => h.noNul (List.mem_append_left _ hmem)
  obtain ⟨ps, hps, hflat, hstrs, hcount⟩ := finishes_line hb hz more
  have hshort := h.short
  rw [List.length_append, List.length_singleton] at hshort
  refine ⟨ps, ?_, hflat, hstrs, ?_⟩
  · rw [List.append_assoc]
    exact hps
  · have hcount' : 1023 * (ps.length - 1) ≤ body.length := hcount
    have hshort' : body.length + 1 < 7952 := hshort
    omega

theorem endsLine_eq {s : CStr} {b : Bool} (h : endsLine s = .ok b) :
    ∃ c, s.getLast? = some c ∧ b = (c == 10) := by
  unfold endsLine at h
  cases hlast : s.getLast? with
  | none =>
    rw [hlast] at h
    cases h
  | some c =>
    rw [hlast] at h
    cases h
    exact ⟨c, rfl, rfl⟩

theorem piece_of_ends {rest : List UInt8} (h : endsLine (cString (piece rest)) = .ok true) :
    ∃ body, piece rest = body ++ [10] ∧ 10 ∉ body := by
  obtain ⟨c, hlast, hc⟩ := endsLine_eq h
  obtain rfl := eq_of_beq hc.symm
  exact fgets_newline ((List.takeWhile_sublist _).mem (List.mem_of_getLast? hlast))

theorem Finishes.flatten {rest : List UInt8} {ps : List (List UInt8)} (h : Finishes rest ps) :
    ps.flatten <+: rest ∧ ∃ l, ps.flatten = l ++ [10] := by
  induction h with
  | @last rest hends =>
    obtain ⟨body, hbody, -⟩ := piece_of_ends hends
    rw [List.flatten_singleton]
    exact ⟨isPrefix_fgets _ _, body, hbody⟩
  | @more rest ps hends _ ih =>
    obtain ⟨⟨t, ht⟩, l, hl⟩ := ih
    have hrest : piece rest ++ rest.drop (piece rest).length = rest :=
      List.prefix_iff_eq_append.mp (isPrefix_fgets _ _)
    rw [List.flatten_cons]
    refine ⟨⟨t, ?_⟩, piece rest ++ l, ?_⟩
    · rw [List.append_assoc, ht]
      exact hrest
    · rw [hl, List.append_assoc]

theorem Finishes.mem_newline {rest : List UInt8} {ps : List (List UInt8)} (h : Finishes rest ps) :
    10 ∈ rest := by
  obtain ⟨hpre, l, hl⟩ := h.flatten
  refine List.IsPrefix.subset hpre ?_
  rw [hl]
  exact List.mem_append_right l (List.mem_singleton_self 10)

/-- Without `NUL` the pieces are one line. -/
theorem Finishes.line {rest : List UInt8} {ps : List (List UInt8)} (h : Finishes rest ps)
    (hz : 0 ∉ ps.flatten) : ∃ body, ps.flatten = body ++ [10] ∧ 10 ∉ body ∧
      (ps.map cString).flatten = ps.flatten ∧ (buffSz - 1) * (ps.length - 1) < ps.flatten.length ∧
      ps.flatten.length ≤ (buffSz - 1) * ps.length := by
  have hle : ∀ rest : List UInt8, (piece rest).length ≤ buffSz - 1 := fun rest =>
    length_fgets_le _ rest
  induction h with
  | @last rest hends =>
    obtain ⟨body, hbody, hnot⟩ := piece_of_ends hends
    rw [List.flatten_singleton] at hz ⊢
    refine ⟨body, hbody, hnot, ?_, ?_, ?_⟩
    · rw [List.map_singleton, List.flatten_singleton, cString_eq_self hz]
    · rw [hbody, List.length_append]
      exact Nat.succ_pos _
    · rw [List.length_singleton, Nat.mul_one]
      exact hle rest
  | @more rest ps hends hps ih =>
    rw [List.flatten_cons, List.mem_append, not_or] at hz
    obtain ⟨body, hbody, hnot, hstrs, hlt, hlen⟩ := ih hz.2
    rw [cString_eq_self hz.1] at hends
    obtain ⟨c, hlast, hc⟩ := endsLine_eq hends
    have hlast' : (piece rest).getLast? ≠ some 10 := by
      rw [hlast]
      rintro ⟨⟩
      cases hc
    -- the piece is full: there is more
    have hfull : (piece rest).length = buffSz - 1 := by
      refine Nat.le_antisymm (hle rest) (Nat.le_of_not_lt fun hshort => hps.ne_nil ?_)
      have hall : piece rest = rest := fgets_short hshort hlast'
      rw [hall, List.drop_length]
    have hbody' : 10 ∉ piece rest := by
      intro hmem
      obtain ⟨b, hb, -⟩ := fgets_newline hmem
      exact hlast' (by rw [piece, hb, List.getLast?_concat])
    rw [List.flatten_cons, List.map_cons, List.flatten_cons, hstrs, cString_eq_self hz.1,
      List.length_append, List.length_cons, hfull, Nat.mul_succ]
    refine ⟨piece rest ++ body, ?_, ?_, rfl, ?_, ?_⟩
    · rw [hbody, List.append_assoc]
    · rw [List.mem_append, not_or]
      exact ⟨hbody', hnot⟩
    · obtain ⟨k, hk⟩ : ∃ k, ps.length = k + 1 :=
        Nat.exists_eq_succ_of_ne_zero (by cases hps <;> simp)
      rw [hk, Nat.add_sub_cancel] at hlt ⊢
      rw [Nat.mul_succ]
      omega
    · omega

/-! ## Reads of the stream -/

namespace Stream

variable {sticky : Bool} {fd : Stream}

/-- Nothing more is read. -/
def Ended (sticky : Bool) (fd : Stream) : Prop := (sticky && fd.atEof) = true ∨ fd.rest = []

theorem gets_of_ended (h : fd.Ended sticky) : ∃ fd', fd.gets sticky = (none, fd') ∧
    fd'.content = fd.content ∧ fd'.pos = fd.pos ∧ fd'.rest = fd.rest := by
  unfold gets
  by_cases hblocked : (sticky && fd.atEof) = true
  · rw [if_pos hblocked]
    exact ⟨fd, rfl, rfl, rfl, rfl⟩
  · have hrest : fd.rest = [] := h.resolve_left hblocked
    rw [if_neg hblocked, hrest]
    exact ⟨_, rfl, rfl, rfl, hrest⟩

/-- A piece is read; if the indicator is set then, it is the last one. -/
theorem gets_of_not_ended (h : ¬ fd.Ended sticky) : ∃ fd',
    fd.gets sticky = (some (piece fd.rest), fd') ∧ fd'.content = fd.content ∧
      fd'.pos = fd.pos + (piece fd.rest).length ∧
      fd'.rest = fd.rest.drop (piece fd.rest).length ∧ (fd'.Ended sticky → fd'.rest = []) := by
  obtain ⟨hblocked, hne⟩ := not_or.mp h
  have hpos : 0 < (piece fd.rest).length := length_fgets_pos (by decide) hne
  have hpiece : piece fd.rest ≠ [] := List.ne_nil_of_length_pos hpos
  have hrest : fd.content.drop (fd.pos + (piece fd.rest).length) =
      fd.rest.drop (piece fd.rest).length := (List.drop_drop ..).symm
  unfold gets
  rw [if_neg hblocked]
  refine ⟨{ fd with
    pos := fd.pos + (piece fd.rest).length
    atEof := fd.atEof || ((piece fd.rest).length < buffSz - 1 &&
      (piece fd.rest).getLast? != some 10) }, ?_, rfl, rfl, hrest, ?_⟩
  · show (if piece fd.rest = [] then none else some (piece fd.rest), _) = _
    rw [if_neg hpiece]
    rfl
  · rintro (hset | hnil)
    · obtain ⟨hsticky, hset⟩ := Bool.and_eq_true_iff.mp hset
      rcases Bool.or_eq_true_iff.mp hset with hold | hnew
      · exact absurd (Bool.and_eq_true_iff.mpr ⟨hsticky, hold⟩) hblocked
      · obtain ⟨hlen, hlast⟩ := Bool.and_eq_true_iff.mp hnew
        have hall : piece fd.rest = fd.rest :=
          fgets_short (of_decide_eq_true hlen) (bne_iff_ne.mp hlast)
        show fd.content.drop _ = []
        rw [hrest, hall, List.drop_length]
    · exact hnil

end Stream

/-! ## The loop over a long line -/

theorem growBuff_of_pos {size : Nat} (h : 0 < size) (dBuff sBuff : CStr) :
    growBuff size dBuff sBuff = .ok (dBuff ++ sBuff) := if_neg (Nat.ne_of_gt h)

theorem size_succ {j : Nat} (hj : j + 1 < 2 ^ 22) :
    (buffSz * j + buffSz) % 2 ^ 32 = buffSz * (j + 1) :=
  Nat.mod_eq_of_lt (by simp only [buffSz]; omega)

/-- `d_buff` after a turn of the loop. -/
def appended (j : Nat) (dBuff sBuff : CStr) : CStr :=
  if buffSz * (j + 1) < maxLineSz then dBuff ++ sBuff else dBuff

section

variable {sticky : Bool} {fd fd' : Stream} {read : Option (List UInt8)}

/-- A turn of the loop, before the size is 0 again. -/
theorem longLine_succ (n : Nat) {j : Nat} (hj : j + 1 < 2 ^ 22) (dBuff sBuff : CStr)
    (hgets : fd.gets sticky = (read, fd')) :
    longLine sticky (n + 1) fd (buffSz * j) dBuff sBuff =
      (endsLine ((read.map cString).getD sBuff)).bind fun ends =>
        if ends then
          .ok (fd', buffSz * (j + 1), appended j dBuff sBuff, (read.map cString).getD sBuff)
        else
          longLine sticky n fd' (buffSz * (j + 1)) (appended j dBuff sBuff)
            ((read.map cString).getD sBuff) := by
  have hgrow : 0 < buffSz * (j + 1) := Nat.mul_pos (by decide) (Nat.succ_pos j)
  simp only [longLine, size_succ hj, growBuff_of_pos hgrow, hgets, appended]
  split <;> cases read <;> rfl

/-- The loop reads up to the piece that finishes the line. -/
theorem longLine_of_finishes {rest : List UInt8} {ps : List (List UInt8)} (h : Finishes rest ps)
    (hrest : fd.rest = rest) (hended : fd.Ended sticky → fd.rest = []) {j : Nat}
    (hj : j + ps.length < 2 ^ 22) (dBuff sBuff : CStr) : ∃ fd' dBuff' sBuff',
      (∀ n, ps.length ≤ n → longLine sticky n fd (buffSz * j) dBuff sBuff =
        .ok (fd', buffSz * (j + ps.length), dBuff', sBuff')) ∧
      fd'.content = fd.content ∧ fd'.pos = fd.pos + ps.flatten.length ∧
      (buffSz * (j + ps.length) < maxLineSz →
        dBuff' ++ sBuff' = dBuff ++ sBuff ++ (ps.map cString).flatten) := by
  induction h generalizing fd j dBuff sBuff with
  | @last rest hends =>
    have hne : ¬ fd.Ended sticky := fun he => (Finishes.last hends).ne_nil (hrest ▸ hended he)
    obtain ⟨fd', hgets, hcontent, hpos, -, -⟩ := Stream.gets_of_not_ended hne
    rw [hrest] at hgets hpos
    rw [List.length_singleton] at hj ⊢
    refine ⟨fd', appended j dBuff sBuff, cString (piece rest), ?_, hcontent, ?_, ?_⟩
    · intro n hn
      obtain ⟨n, rfl⟩ := Nat.exists_eq_succ_of_ne_zero (Nat.ne_of_gt hn)
      rw [longLine_succ n hj dBuff sBuff hgets, Option.map_some, Option.getD_some, hends]
      rfl
    · rw [hpos, List.flatten_singleton]
    · intro hlt
      rw [appended, if_pos hlt, List.map_singleton, List.flatten_singleton]
  | @more rest ps hends hps ih =>
    have hne : ¬ fd.Ended sticky := fun he =>
      (Finishes.more hends hps).ne_nil (hrest ▸ hended he)
    obtain ⟨fd', hgets, hcontent, hpos, hrest', hended'⟩ := Stream.gets_of_not_ended hne
    rw [hrest] at hgets hpos hrest'
    have hcount : j + (piece rest :: ps).length = j + 1 + ps.length := by
      rw [List.length_cons]
      omega
    rw [hcount] at hj ⊢
    obtain ⟨fd₁, dBuff₁, sBuff₁, hrun, hcontent₁, hpos₁, hbuff₁⟩ := ih hrest' hended' hj
      (appended j dBuff sBuff) (cString (piece rest))
    refine ⟨fd₁, dBuff₁, sBuff₁, ?_, hcontent₁.trans hcontent, ?_, ?_⟩
    · intro n hn
      rw [List.length_cons] at hn
      obtain ⟨n, rfl⟩ := Nat.exists_eq_succ_of_ne_zero (Nat.ne_of_gt (Nat.zero_lt_of_lt hn))
      rw [longLine_succ n (Nat.lt_of_le_of_lt (Nat.le_add_right _ _) hj) dBuff sBuff hgets,
        Option.map_some, Option.getD_some, hends]
      exact hrun n (Nat.le_of_succ_le_succ hn)
    · rw [hpos₁, hpos, List.flatten_cons, List.length_append, Nat.add_assoc]
    · intro hlt
      have hlt' : buffSz * (j + 1) < maxLineSz :=
        Nat.lt_of_le_of_lt (Nat.mul_le_mul_left _ (Nat.le_add_right _ _)) hlt
      rw [hbuff₁ hlt, appended, if_pos hlt', List.map_cons, List.flatten_cons]
      simp only [List.append_assoc]

/-- If the loop ends, the line finishes, before the size is 0 again. -/
theorem finishes_of_longLine (hended : fd.Ended sticky → fd.rest = []) {n j : Nat}
    (hj : j < 2 ^ 22) {dBuff sBuff : CStr} (hsBuff : endsLine sBuff = .ok false)
    {r : Stream × Nat × CStr × CStr} (h : longLine sticky n fd (buffSz * j) dBuff sBuff = .ok r) :
    ∃ ps, Finishes fd.rest ps ∧ j + ps.length < 2 ^ 22 ∧ r.2.1 = buffSz * (j + ps.length) := by
  induction n generalizing fd j dBuff sBuff with
  | zero => cases h
  | succ n ih =>
    have hj' : j + 1 < 2 ^ 22 := by
      refine Nat.lt_of_le_of_ne hj fun heq => ?_
      have hzero : (buffSz * j + buffSz) % 2 ^ 32 = 0 := by
        simp only [buffSz]
        omega
      rw [longLine, hzero] at h
      cases h
    by_cases he : fd.Ended sticky
    · -- `s_buff` is as before, so the loop goes on
      obtain ⟨fd', hgets, -, -, hrest⟩ := Stream.gets_of_ended he
      rw [longLine_succ n hj' dBuff sBuff hgets, Option.map_none, Option.getD_none, hsBuff] at h
      obtain ⟨ps, hps, -⟩ := ih (fun _ => hrest.trans (hended he)) hj' hsBuff h
      exact absurd (hrest.trans (hended he)) hps.ne_nil
    · obtain ⟨fd', hgets, -, -, hrest, hended'⟩ := Stream.gets_of_not_ended he
      rw [longLine_succ n hj' dBuff sBuff hgets, Option.map_some, Option.getD_some] at h
      cases hends : endsLine (cString (piece fd.rest)) with
      | error stop =>
        rw [hends] at h
        cases h
      | ok ends =>
        rw [hends] at h
        cases ends with
        | true =>
          cases h
          exact ⟨[piece fd.rest], .last hends, hj', rfl⟩
        | false =>
          obtain ⟨ps, hps, hcount, hsize⟩ := ih hended' hj' hends h
          have hlen : j + (piece fd.rest :: ps).length = j + 1 + ps.length := by
            rw [List.length_cons]
            omega
          exact ⟨piece fd.rest :: ps, .more hends (hrest ▸ hps), hlen ▸ hcount, hlen ▸ hsize⟩

end

/-! ## A call -/

namespace TextFile

variable {sticky : Bool} {crc32 : BitVec 32 → CStr → BitVec 32} {tf tf' : TextFile}
  {events : List LineEvent} {ps : List (List UInt8)}

variable (crc32) in
theorem processNewLines_of_ended (h : tf.fd.Ended sticky) : ∃ fd', fd'.content = tf.fd.content ∧
    fd'.pos = tf.fd.pos ∧
      ∀ n, tf.processNewLines sticky crc32 n = .ok ({ tf with fd := fd', eof := true }, []) := by
  obtain ⟨fd', hgets, hcontent, hpos, -⟩ := Stream.gets_of_ended h
  refine ⟨fd', hcontent, hpos, fun n => ?_⟩
  rw [processNewLines, hgets]

/-- The end of a long line, after the loop. -/
def longDone (crc32 : BitVec 32 → CStr → BitVec 32) (tf : TextFile)
    (r : Stream × Nat × CStr × CStr) : Except PollStop (TextFile × List LineEvent) :=
  let size := (r.2.1 + buffSz) % 2 ^ 32
  (growBuff size r.2.2.1 r.2.2.2).bind fun dBuff =>
    .ok ({ tf with fd := r.1 }.deliver crc32 size dBuff)

theorem longDone_ok {j : Nat} (hj : j + 1 < 2 ^ 22) (fd : Stream) (dBuff sBuff : CStr) :
    tf.longDone crc32 (fd, buffSz * j, dBuff, sBuff) =
      .ok ({ tf with fd }.deliver crc32 (buffSz * (j + 1)) (dBuff ++ sBuff)) := by
  have hgrow : 0 < buffSz * (j + 1) := Nat.mul_pos (by decide) (Nat.succ_pos j)
  simp only [longDone, size_succ hj, growBuff_of_pos hgrow]
  rfl

theorem longDone_exit {r : Stream × Nat × CStr × CStr} (h : (r.2.1 + buffSz) % 2 ^ 32 = 0) :
    tf.longDone crc32 r = .error .exit := by
  simp only [longDone, h]
  rfl

theorem processNewLines_of_gets {piece : List UInt8} {fd' : Stream}
    (hgets : tf.fd.gets sticky = (some piece, fd')) (n : Nat) :
    tf.processNewLines sticky crc32 n = (endsLine (cString piece)).bind fun ends =>
      if ends then .ok ({ tf with fd := fd' }.deliver crc32 buffSz (cString piece))
      else (longLine sticky n fd' buffSz [] (cString piece)).bind (tf.longDone crc32) := by
  rw [processNewLines, hgets]
  rfl

variable (crc32) in
/-- A line that finishes is delivered; of more than 8 pieces it is too long. -/
theorem processNewLines_of_finishes (hne : ¬ tf.fd.Ended sticky) (h : Finishes tf.fd.rest ps)
    (hcount : ps.length + 1 < 2 ^ 22) : ∃ fd' size buff, fd'.content = tf.fd.content ∧
      fd'.pos = tf.fd.pos + ps.flatten.length ∧ (size < maxLineSz ↔ ps.length ≤ 8) ∧
      (ps.length ≤ 8 → buff = (ps.map cString).flatten) ∧
      ∀ n, ps.length ≤ n →
        tf.processNewLines sticky crc32 n = .ok ({ tf with fd := fd' }.deliver crc32 size buff) := by
  obtain ⟨fd', hgets, hcontent, hpos, hrest, hended⟩ := Stream.gets_of_not_ended hne
  cases h with
  | last hends =>
    have hsize : buffSz < maxLineSz := by decide
    refine ⟨fd', buffSz, cString (piece tf.fd.rest), hcontent, ?_,
      iff_of_true hsize (by rw [List.length_singleton]; decide), fun _ => ?_, fun n _ => ?_⟩
    · rw [hpos, List.flatten_singleton]
    · rw [List.map_singleton, List.flatten_singleton]
    · rw [processNewLines_of_gets hgets, hends]
      rfl
  | @more _ ps hends hps =>
    have hlen : (piece tf.fd.rest :: ps).length = ps.length + 1 := List.length_cons
    rw [hlen] at hcount ⊢
    obtain ⟨fd₁, dBuff, sBuff, hrun, hcontent₁, hpos₁, hbuff⟩ :=
      longLine_of_finishes hps hrest hended (j := 1) (by omega) [] (cString (piece tf.fd.rest))
    refine ⟨fd₁, buffSz * (1 + ps.length + 1), dBuff ++ sBuff, hcontent₁.trans hcontent, ?_, ?_, ?_,
      ?_⟩
    · rw [hpos₁, hpos, List.flatten_cons, List.length_append, Nat.add_assoc]
    · simp only [buffSz, maxLineSz]
      omega
    · intro hshort
      have hlt : buffSz * (1 + ps.length) < maxLineSz := by
        simp only [buffSz, maxLineSz]
        omega
      rw [hbuff hlt, List.nil_append, List.map_cons, List.flatten_cons]
    · intro n hn
      have hrun' := hrun n (by omega)
      rw [Nat.mul_one] at hrun'
      rw [processNewLines_of_gets hgets, hends]
      change (longLine sticky n fd' buffSz [] (cString (piece tf.fd.rest))).bind _ = _
      rw [hrun', ok_bind, longDone_ok (by omega)]

/-- A call that returns reads nothing, or a line that finishes. -/
theorem finishes_of_processNewLines {n : Nat} {r : TextFile × List LineEvent}
    (h : tf.processNewLines sticky crc32 n = .ok r) :
    tf.fd.Ended sticky ∨ ∃ ps, Finishes tf.fd.rest ps ∧ ps.length + 1 < 2 ^ 22 := by
  by_cases he : tf.fd.Ended sticky
  · exact .inl he
  · refine .inr ?_
    obtain ⟨fd', hgets, -, -, hrest, hended⟩ := Stream.gets_of_not_ended he
    rw [processNewLines_of_gets hgets] at h
    cases hends : endsLine (cString (piece tf.fd.rest)) with
    | error stop =>
      rw [hends] at h
      cases h
    | ok ends =>
      rw [hends] at h
      cases ends with
      | true =>
        refine ⟨[piece tf.fd.rest], .last hends, ?_⟩
        rw [List.length_singleton]
        decide
      | false =>
        change (longLine sticky n fd' buffSz [] (cString (piece tf.fd.rest))).bind _ = _ at h
        cases hlong : longLine sticky n fd' buffSz [] (cString (piece tf.fd.rest)) with
        | error stop =>
          rw [hlong] at h
          cases h
        | ok r =>
          rw [hlong, ok_bind] at h
          rw [← Nat.mul_one buffSz] at hlong
          obtain ⟨ps, hps, hcount, hsize⟩ := finishes_of_longLine hended (by decide) hends hlong
          refine ⟨piece tf.fd.rest :: ps, .more hends (hrest ▸ hps), ?_⟩
          rw [List.length_cons]
          refine Nat.lt_of_le_of_ne (by omega) fun heq => ?_
          have hzero : (r.2.1 + buffSz) % 2 ^ 32 = 0 := by
            rw [hsize]
            simp only [buffSz]
            omega
          rw [longDone_exit hzero] at h
          cases h

variable (crc32) in
theorem settles_of_ended (h : tf.fd.Ended sticky) : ∃ tf',
    Settles (tf.processNewLines sticky crc32) (.ok (tf', [])) ∧ tf'.fd.content = tf.fd.content ∧
      tf'.fd.pos = tf.fd.pos := by
  obtain ⟨fd', hcontent, hpos, hrun⟩ := processNewLines_of_ended crc32 h
  exact ⟨_, .of_forall hrun, hcontent, hpos⟩

variable (crc32) in
/-- What a call does with a line that finishes. -/
theorem settles_of_finishes (hne : ¬ tf.fd.Ended sticky) (h : Finishes tf.fd.rest ps)
    (hcount : ps.length + 1 < 2 ^ 22) : ∃ tf' events,
      Settles (tf.processNewLines sticky crc32) (.ok (tf', events)) ∧
      tf'.fd.content = tf.fd.content ∧ tf'.fd.pos = tf.fd.pos + ps.flatten.length ∧
      (ps.length ≤ 8 → tf'.line = (tf.line + 1) % 2 ^ 32 ∧
        events = [{ lineNum := (tf.line + 1) % 2 ^ 32, file := tf.filename
                    line := (ps.map cString).flatten }]) ∧
      (8 < ps.length → events = []) := by
  obtain ⟨fd', size, buff, hcontent, hpos, hsize, hbuff, hrun⟩ :=
    processNewLines_of_finishes crc32 hne h hcount
  have hsettles : Settles (tf.processNewLines sticky crc32)
      (.ok ({ tf with fd := fd' }.deliver crc32 size buff)) :=
    Filter.eventually_atTop.mpr ⟨ps.length, hrun⟩
  by_cases hshort : ps.length ≤ 8
  · rw [deliver, if_neg (Nat.not_le.mpr (hsize.mpr hshort)), hbuff hshort] at hsettles
    exact ⟨_, _, hsettles, hcontent, hpos, fun _ => ⟨rfl, rfl⟩,
      fun hlong => absurd hshort (Nat.not_le.mpr hlong)⟩
  · rw [deliver, if_pos (Nat.le_of_not_lt fun hlt => hshort (hsize.mp hlt))] at hsettles
    exact ⟨_, _, hsettles, hcontent, hpos, fun hle => absurd hle hshort, fun _ => rfl⟩

/-- The call returns. It posts the next line, with its number; and nothing, if no line is complete. -/
structure Polled (sticky : Bool) (crc32 : BitVec 32 → CStr → BitVec 32) (tf : TextFile) : Prop where
  returns : ∃ r, Settles (tf.processNewLines sticky crc32) (.ok r)
  posts : ∀ l, NextLine tf.fd.rest l → ∃ tf', Settles (tf.processNewLines sticky crc32)
    (.ok (tf', [{ lineNum := tf.line + 1, file := tf.filename, line := l }])) ∧
      tf'.line = tf.line + 1 ∧ tf'.fd.content = tf.fd.content ∧
      tf'.fd.pos = tf.fd.pos + l.length
  nothing : 10 ∉ tf.fd.rest → ∀ tf' events,
    Settles (tf.processNewLines sticky crc32) (.ok (tf', events)) → events = []

/-- Nothing is left, or a line finishes before the size of the buffer is 0 again; and if a line is to
be posted, no indicator hides it and its number is an `unsigned int`. -/
structure Meets (sticky : Bool) (tf : TextFile) : Prop where
  finishes : ¬ tf.fd.Ended sticky → ∃ ps, Finishes tf.fd.rest ps ∧ ps.length + 1 < 2 ^ 22
  posted : ∀ l, NextLine tf.fd.rest l → ¬ tf.fd.Ended sticky ∧ tf.line + 1 < 2 ^ 32

theorem Polled.meets (h : Polled sticky crc32 tf) : Meets sticky tf := by
  constructor
  · intro hne
    obtain ⟨r, hr⟩ := h.returns
    obtain ⟨n, hn⟩ := hr.exists
    exact (finishes_of_processNewLines hn).resolve_left hne
  · intro l hl
    obtain ⟨tf', hposts, -⟩ := h.posts l hl
    have hne : ¬ tf.fd.Ended sticky := by
      intro he
      obtain ⟨tf₁, hended, -⟩ := settles_of_ended crc32 he
      cases hended.unique hposts
    refine ⟨hne, ?_⟩
    obtain ⟨ps, hps, -, hstrs, hcount⟩ := hl.finishes
    obtain ⟨tf₁, events, hsettles, -, -, hshort, -⟩ :=
      settles_of_finishes crc32 hne hps (by omega)
    obtain ⟨-, rfl⟩ := hshort hcount
    have heq := hsettles.unique hposts
    simp only [Except.ok.injEq, Prod.mk.injEq, List.cons.injEq, LineEvent.mk.injEq] at heq
    exact (Nat.mod_eq_iff_lt (by decide)).mp heq.2.1.1

theorem Meets.polled (h : Meets sticky tf) : Polled sticky crc32 tf := by
  by_cases he : tf.fd.Ended sticky
  · obtain ⟨tf', hended, -⟩ := settles_of_ended crc32 he
    refine ⟨⟨_, hended⟩, fun l hl => absurd he (h.posted l hl).1, fun _ tf₁ events h₁ => ?_⟩
    cases h₁.unique hended
    rfl
  · obtain ⟨ps, hps, hcount⟩ := h.finishes he
    obtain ⟨tf', events, hsettles, -⟩ := settles_of_finishes crc32 he hps hcount
    refine ⟨⟨_, hsettles⟩, fun l hl => ?_, fun hno => ?_⟩
    · obtain ⟨ps, hps, hflat, hstrs, hcount⟩ := hl.finishes
      obtain ⟨tf', events, hsettles, hcontent, hpos, hshort, -⟩ :=
        settles_of_finishes crc32 he hps (by omega)
      obtain ⟨hline, rfl⟩ := hshort hcount
      rw [Nat.mod_eq_of_lt (h.posted l hl).2] at hline hsettles
      rw [hstrs] at hsettles
      rw [hflat] at hpos
      exact ⟨tf', hsettles, hline, hcontent, hpos⟩
    · exact absurd hps.mem_newline hno

/-! ## Runs -/

/-- Calls that return, and appends in between; and what is posted. -/
inductive Run (sticky : Bool) (crc32 : BitVec 32 → CStr → BitVec 32) (tf : TextFile) :
    TextFile → List LineEvent → Prop
  | start : Run sticky crc32 tf tf []
  | append {tf₁ : TextFile} {events : List LineEvent} (bytes : List UInt8) :
      Run sticky crc32 tf tf₁ events →
      Run sticky crc32 tf { tf₁ with fd.content := tf₁.fd.content ++ bytes } events
  | poll {tf₁ tf₂ : TextFile} {events posted : List LineEvent} :
      Run sticky crc32 tf tf₁ events →
      Settles (tf₁.processNewLines sticky crc32) (.ok (tf₂, posted)) →
      Run sticky crc32 tf tf₂ (events ++ posted)

/-- What is read, from the position of `tf` on, are whole lines; without `NUL`, those of no more than
8 pieces are posted, once and in order. -/
def Delivered (tf tf' : TextFile) (events : List LineEvent) : Prop :=
  ∃ read, read <+: tf'.fd.content.drop tf.fd.pos ∧ tf'.fd.pos = tf.fd.pos + read.length ∧
    (frames 10 read).2 = [] ∧
      (0 ∉ read → events.map LineEvent.line =
        (frames 10 read).1.filter (·.length ≤ 8 * (buffSz - 1)))

theorem Delivered.append {bytes : List UInt8} (h : Delivered tf tf' events) :
    Delivered tf { tf' with fd.content := tf'.fd.content ++ bytes } events := by
  obtain ⟨read, hread, hrest⟩ := h
  refine ⟨read, ?_, hrest⟩
  show read <+: (tf'.fd.content ++ bytes).drop tf.fd.pos
  rw [List.drop_append]
  exact hread.trans (List.prefix_append _ _)

theorem Delivered.poll {tf₁ tf₂ : TextFile} {posted : List LineEvent}
    (h : Delivered tf tf₁ events)
    (hpoll : Settles (tf₁.processNewLines sticky crc32) (.ok (tf₂, posted))) :
    Delivered tf tf₂ (events ++ posted) := by
  obtain ⟨read, hread, hpos, hwhole, hevents⟩ := h
  obtain ⟨n, hn⟩ := hpoll.exists
  by_cases he : tf₁.fd.Ended sticky
  · obtain ⟨tf', hended, hcontent, hpos'⟩ := settles_of_ended crc32 he
    cases hpoll.unique hended
    rw [List.append_nil]
    exact ⟨read, hcontent ▸ hread, hpos'.trans hpos, hwhole, hevents⟩
  · obtain ⟨ps, hps, hcount⟩ := (finishes_of_processNewLines hn).resolve_left he
    obtain ⟨tf', events', hsettles, hcontent, hpos', hshort, hlong⟩ :=
      settles_of_finishes crc32 he hps hcount
    cases hpoll.unique hsettles
    obtain ⟨hpre, l, hl⟩ := hps.flatten
    have hframes : frames 10 (read ++ ps.flatten) =
        ((frames 10 read).1 ++ (frames 10 ps.flatten).1, (frames 10 ps.flatten).2) := by
      rw [frames_append, hwhole]
      rfl
    refine ⟨read ++ ps.flatten, ?_, ?_, ?_, fun hz => ?_⟩
    · obtain ⟨t, ht⟩ := hread
      rw [hcontent, ← ht]
      refine (List.prefix_append_right_inj read).mpr ?_
      rw [Stream.rest, hpos, ← List.drop_drop, ← ht, List.drop_left] at hpre
      exact hpre
    · rw [hpos', hpos, List.length_append, Nat.add_assoc]
    · rw [hframes, hl, frames_append]
      rfl
    · rw [List.mem_append, not_or] at hz
      obtain ⟨body, hbody, hnot, hstrs, hlt, hle⟩ := hps.line hz.2
      rw [hframes, List.map_append, hevents hz.1, List.filter_append, hbody, frames_frame hnot]
      refine congrArg _ ?_
      by_cases hcount : ps.length ≤ 8
      · obtain ⟨-, rfl⟩ := hshort hcount
        have hlen : ps.flatten.length ≤ 8 * (buffSz - 1) := by
          rw [Nat.mul_comm 8]
          exact hle.trans (Nat.mul_le_mul_left _ hcount)
        rw [List.filter_singleton, ← hbody, decide_eq_true hlen, hstrs]
        rfl
      · obtain rfl := hlong (Nat.lt_of_not_le hcount)
        have hlen : ¬ ps.flatten.length ≤ 8 * (buffSz - 1) := by
          rw [Nat.not_le, Nat.mul_comm 8]
          refine Nat.lt_of_le_of_lt (Nat.mul_le_mul_left _ ?_) hlt
          omega
        rw [List.filter_singleton, ← hbody, decide_eq_false hlen]
        rfl

theorem Run.delivered (h : Run sticky crc32 tf tf' events) : Delivered tf tf' events := by
  induction h with
  | start => exact ⟨[], List.nil_prefix, rfl, rfl, fun _ => rfl⟩
  | append bytes _ ih => exact ih.append
  | poll _ hpoll ih => exact ih.poll hpoll

end TextFile

open TextFile

/-- A call is as it is to be if and only if what is left is nothing or a line that finishes, and no
line is hidden. In each run the lines are delivered. -/
theorem polled_iff (sticky : Bool) (crc32 : BitVec 32 → CStr → BitVec 32) :
    (∀ tf : TextFile, Polled sticky crc32 tf ↔ TextFile.Meets sticky tf) ∧
      ∀ (tf tf' : TextFile) (events : List LineEvent), TextFile.Run sticky crc32 tf tf' events →
        Delivered tf tf' events :=
  ⟨fun _ => ⟨Polled.meets, TextFile.Meets.polled⟩, fun _ _ _ h => h.delivered⟩

/-- A file of one byte, without a newline. -/
theorem not_polled : ¬ ∀ (sticky : Bool) (crc32 : BitVec 32 → CStr → BitVec 32) (tf : TextFile),
    Polled sticky crc32 tf := by
  intro h
  let tf : TextFile :=
    { filename := [], fd := { content := [97], pos := 0, atEof := false }, line := 0, hash := 0
      eof := false }
  have hne : ¬ tf.fd.Ended true := by
    rintro (hset | hnil)
    · cases hset
    · cases hnil
  obtain ⟨ps, hps, -⟩ := (h true (fun hash _ => hash) tf).meets.finishes hne
  have hmem : (10 : UInt8) ∈ [97] := hps.mem_newline
  revert hmem
  decide

end Orchids
