import Orchids.Mod.TextSocket

/-!
# Lines of a text socket

* `Run`: reads of a stream, cut anyhow into chunks that the buffer has room for.
* `Inv`: the unread data are the unfinished line.
* `Framed`: the events are the lines of the stream, and the next read has room.
* `windowStart`, `WindowFull`: the part of the stream that the buffer holds, from the cuts alone.
* `framed_iff`: the stream is framed if and only if no read fills the window with an unfinished line
  of `MAX_LINE_SZ` bytes or more, and the line numbers are those of an `unsigned int`.
-/

namespace Orchids

/-! ## Parts of a buffer -/

theorem slice_add (buf : List UInt8) (off m n : Nat) :
    slice buf off (m + n) = slice buf off m ++ slice buf (off + m) n := by
  rw [slice, slice, slice, ← List.drop_drop, List.take_add]

theorem length_slice {buf : List UInt8} {off n : Nat} (h : off + n ≤ buf.length) :
    (slice buf off n).length = n := by
  rw [slice, List.length_take, List.length_drop]
  omega

section

variable {buf bytes : List UInt8} {off : Nat}

theorem length_store (h : off + bytes.length ≤ buf.length) :
    (store buf off bytes).length = buf.length := by
  simp only [store, List.length_append, List.length_take, List.length_drop]
  omega

theorem slice_store (h : off ≤ buf.length) :
    slice (store buf off bytes) off bytes.length = bytes := by
  have hlen : (buf.take off).length = off := by
    rw [List.length_take]
    omega
  rw [slice, store, List.append_assoc, List.drop_append_of_le_length (Nat.le_of_eq hlen.symm),
    List.drop_eq_nil_of_le (Nat.le_of_eq hlen), List.nil_append, List.take_left]

theorem slice_store_before {off' n : Nat} (h : off ≤ buf.length) (hn : off' + n ≤ off) :
    slice (store buf off bytes) off' n = slice buf off' n := by
  have hlen : (buf.take off).length = off := by
    rw [List.length_take]
    omega
  rw [slice, slice, store, List.append_assoc, List.drop_append_of_le_length (by omega),
    List.take_append_of_le_length (by rw [List.length_drop]; omega), List.drop_take,
    List.take_take, Nat.min_eq_left (by omega)]

end

/-! ## What is to be posted -/

/-- The events for these lines, after `n` others. -/
def expectedFrom (file : CStr) (n : Nat) : List (List UInt8) → List LineEvent
  | [] => []
  | l :: lines =>
    if l.length ≤ maxLineSz then
      { lineNum := n + 1, file, line := l } :: expectedFrom file (n + 1) lines
    else expectedFrom file (n + 1) lines

/-- The events of a stream: its lines that are not too long, with their numbers. -/
def expected (file : CStr) (stream : List UInt8) : List LineEvent :=
  expectedFrom file 0 (frames 10 stream).1

theorem expectedFrom_append (file : CStr) (n : Nat) (lines lines' : List (List UInt8)) :
    expectedFrom file n (lines ++ lines') =
      expectedFrom file n lines ++ expectedFrom file (n + lines.length) lines' := by
  induction lines generalizing n with
  | nil => rfl
  | cons l lines ih =>
    have hlen : n + (l :: lines).length = n + 1 + lines.length := by
      rw [List.length_cons]
      omega
    rw [List.cons_append, expectedFrom, expectedFrom, ih, hlen]
    split <;> rfl

/-- The number as an `unsigned int`. -/
def LineEvent.wrap (e : LineEvent) : LineEvent := { e with lineNum := e.lineNum % 2 ^ 32 }

namespace TextSock

/-! ## The loop -/

/-- What the loop does to the state, for the lines and the unfinished end that the bytes up to `stop`
are: the lines have the numbers after `n`. -/
structure Parsed (f : TextSock) (stop n : Nat) (lines : List (List UInt8)) (tail : List UInt8)
    (f' : TextSock) (events : List LineEvent) : Prop where
  bufSz : f'.bufSz = f.bufSz
  buf : f'.buf = f.buf
  writeOff : f'.writeOff = f.writeOff
  filename : f'.filename = f.filename
  readOff : f'.readOff + tail.length = stop
  unread : slice f.buf f'.readOff tail.length = tail
  tooLong : f'.tooLong = true → maxLineSz < tail.length
  line : f'.line = (n + lines.length) % 2 ^ 32
  events : events = (expectedFrom f.filename n lines).map LineEvent.wrap

/-- The state after a newline. -/
def nextLine (f : TextSock) (p : Nat) : TextSock :=
  { f with line := (f.line + 1) % 2 ^ 32, readOff := p + 1, tooLong := false }

theorem parse_newline (f : TextSock) (p : Nat) (rest : List UInt8) : f.parse p (10 :: rest) =
    (((f.nextLine p).parse (p + 1) rest).1,
      if f.tooLong = true ∨ maxLineSz < p + 1 - f.readOff then
        ((f.nextLine p).parse (p + 1) rest).2
      else
        { lineNum := (f.line + 1) % 2 ^ 32, file := f.filename
          line := slice f.buf f.readOff (p + 1 - f.readOff) } ::
          ((f.nextLine p).parse (p + 1) rest).2) := by
  rw [parse, if_pos rfl]
  show (if f.tooLong = true then ((f.nextLine p).parse (p + 1) rest) else _) = _
  by_cases hlong : f.tooLong = true
  · rw [if_pos hlong, if_pos (.inl hlong)]
  · rw [if_neg hlong]
    by_cases hlen : maxLineSz < p + 1 - f.readOff
    · rw [if_pos hlen, if_pos (.inr hlen)]
      rfl
    · rw [if_neg hlen, if_neg (not_or.mpr ⟨hlong, hlen⟩)]
      rfl

theorem parse_parsed (f : TextSock) (p n : Nat) (cur rest : List UInt8)
    (hp : f.readOff + cur.length = p) (hin : p + rest.length ≤ f.buf.length)
    (hcur : slice f.buf f.readOff cur.length = cur) (hrest : slice f.buf p rest.length = rest)
    (hlong : f.tooLong = true → maxLineSz < cur.length) (hline : f.line = n % 2 ^ 32) :
    Parsed f (p + rest.length) n (framesFrom 10 cur rest).1 (framesFrom 10 cur rest).2
      (f.parse p rest).1 (f.parse p rest).2 := by
  induction rest generalizing f p n cur with
  | nil => exact ⟨rfl, rfl, rfl, rfl, hp, hcur, hlong, hline, rfl⟩
  | cons c rest ih =>
    have hlen : p + (c :: rest).length = p + 1 + rest.length := by
      rw [List.length_cons]
      omega
    rw [hlen] at hin ⊢
    -- the byte at `p`, and the others
    obtain ⟨hc, hrest'⟩ : slice f.buf p 1 = [c] ∧ slice f.buf (p + 1) rest.length = rest := by
      rw [List.length_cons, Nat.add_comm, slice_add] at hrest
      exact List.append_inj hrest (length_slice (by omega))
    have hcur' : slice f.buf f.readOff (cur ++ [c]).length = cur ++ [c] := by
      rw [List.length_append, slice_add, hcur, hp]
      exact congrArg (cur ++ ·) hc
    have hsize : (cur ++ [c]).length = cur.length + 1 := List.length_append
    by_cases hsep : c = 10
    · subst hsep
      have hnum : (f.line + 1) % 2 ^ 32 = (n + 1) % 2 ^ 32 := by rw [hline, Nat.mod_add_mod]
      have hpos : p + 1 - f.readOff = (cur ++ [10]).length := by omega
      have hih := ih (f.nextLine p) (p + 1) (n + 1) [] rfl hin rfl hrest' nofun hnum
      rw [framesFrom_sep, parse_newline, hpos, hcur']
      refine ⟨hih.bufSz, hih.buf, hih.writeOff, hih.filename, hih.readOff, hih.unread, hih.tooLong,
        ?_, ?_⟩
      · rw [hih.line, List.length_cons, Nat.add_right_comm, Nat.add_assoc]
      · have hdrop : f.tooLong = true ∨ maxLineSz < (cur ++ [10]).length ↔
            ¬ (cur ++ [10]).length ≤ maxLineSz := by
          rw [Nat.not_le]
          refine ⟨?_, .inr⟩
          rintro (h | h)
          · have := hlong h
            omega
          · exact h
        rw [expectedFrom, hih.events]
        by_cases hle : (cur ++ [10]).length ≤ maxLineSz
        · rw [if_neg (fun h => hdrop.mp h hle), if_pos hle, hnum]
          rfl
        · rw [if_pos (hdrop.mpr hle), if_neg hle]
          rfl
    · rw [framesFrom_of_ne hsep, parse, if_neg hsep]
      exact ih f (p + 1) n (cur ++ [c]) (by omega) hin hcur' hrest'
        (fun h => Nat.lt_of_lt_of_le (hlong h) (by omega)) hline

/-! ## The window on the stream -/

/-- Where the unfinished line of a stream starts. -/
def lineStart (stream : List UInt8) : Nat := stream.length - (frames 10 stream).2.length

/-- Before a read the window moves to the unfinished line, if that is far from its start. -/
def moveWindow (start line : Nat) : Nat := if maxLineSz + 1 < line - start then line else start

/-- One more chunk: the stream, and where in it the window starts that the chunk is read into. -/
def nextWindow (w : Nat × List UInt8) (c : List UInt8) : Nat × List UInt8 :=
  (moveWindow w.1 (lineStart w.2), w.2 ++ c)

/-- The window that the last of the chunks was read into, and the stream. -/
def window (chunks : List (List UInt8)) : Nat × List UInt8 := chunks.foldl nextWindow (0, [])

/-- Where in the stream the window starts. -/
def windowStart (chunks : List (List UInt8)) : Nat := (window chunks).1

/-- The last read fills the window, and the unfinished line has `MAX_LINE_SZ` bytes or more. -/
def WindowFull (chunks : List (List UInt8)) : Prop :=
  windowStart chunks + (2 * maxLineSz + 1) = chunks.flatten.length ∧
    maxLineSz ≤ (frames 10 chunks.flatten).2.length

theorem lineStart_add (stream : List UInt8) :
    lineStart stream + (frames 10 stream).2.length = stream.length := by
  have hflat : (frames 10 stream).1.flatten ++ (frames 10 stream).2 = stream := flatten_frames stream
  have hlen := congrArg List.length hflat
  rw [List.length_append] at hlen
  unfold lineStart
  omega

theorem window_snd (chunks : List (List UInt8)) : (window chunks).2 = chunks.flatten := by
  have hfold : ∀ w : Nat × List UInt8, (chunks.foldl nextWindow w).2 = w.2 ++ chunks.flatten := by
    induction chunks with
    | nil => exact fun w => (List.append_nil _).symm
    | cons c chunks ih =>
      intro w
      rw [List.foldl_cons, ih, List.flatten_cons, ← List.append_assoc]
      rfl
  exact hfold (0, [])

theorem windowStart_snoc (chunks : List (List UInt8)) (c : List UInt8) :
    windowStart (chunks ++ [c]) =
      moveWindow (windowStart chunks) (lineStart chunks.flatten) := by
  rw [← window_snd]
  exact congrArg Prod.fst List.foldl_append

/-! ## Reads -/

/-- What the callback does with the bytes of a read that is not empty. -/
def received (f : TextSock) (bytes : List UInt8) : TextSock × List LineEvent :=
  (f.callback (some bytes)).2

/-- The reads of a stream, each with some bytes that there is room for; and what is posted. -/
inductive Run (file : CStr) : List (List UInt8) → TextSock → List LineEvent → Prop
  | new : Run file [] (.new file) []
  | read {chunks : List (List UInt8)} {f : TextSock} {events : List LineEvent} {c : List UInt8} :
      Run file chunks f events → c ≠ [] → c.length ≤ f.compact.room →
      Run file (chunks ++ [c]) (f.received c).1 (events ++ (f.received c).2)

/-- The unread data are the unfinished line of the stream. -/
structure Inv (file : CStr) (stream : List UInt8) (f : TextSock) : Prop where
  bufSz : f.bufSz = 2 * maxLineSz + 1
  size : f.buf.length = f.bufSz
  filename : f.filename = file
  writeOff : f.readOff + (frames 10 stream).2.length = f.writeOff
  inside : f.writeOff ≤ f.bufSz
  unread : slice f.buf f.readOff (frames 10 stream).2.length = (frames 10 stream).2
  tooLong : f.tooLong = true → maxLineSz < (frames 10 stream).2.length
  line : f.line = (frames 10 stream).1.length % 2 ^ 32

section

variable {file : CStr} {stream c : List UInt8} {f : TextSock}

theorem inv_new (file : CStr) : Inv file [] (.new file) where
  bufSz := rfl
  size := List.length_replicate
  filename := rfl
  writeOff := rfl
  inside := Nat.zero_le _
  unread := rfl
  tooLong := nofun
  line := rfl

/-- The unread data that are moved fit before their old place. -/
theorem Inv.compact (h : Inv file stream f) : Inv file stream f.compact := by
  obtain ⟨hsz, hsize, hfile, hoff, hin, hunread, hlong, hline⟩ := h
  unfold TextSock.compact
  split
  · have hlen : f.writeOff - f.readOff = (frames 10 stream).2.length := by omega
    have hfits : 0 + (frames 10 stream).2.length ≤ f.buf.length := by omega
    rw [hlen, hunread]
    by_cases hpos : f.readOff < f.writeOff
    · rw [if_pos hpos]
      have hle : (frames 10 stream).2.length ≤ f.bufSz := by omega
      exact ⟨hsz, (length_store hfits).trans hsize, hfile, Nat.zero_add _, hle,
        slice_store (Nat.zero_le _), hlong, hline⟩
    · rw [if_neg hpos]
      have hnil : (frames 10 stream).2 = [] := List.eq_nil_of_length_eq_zero (by omega)
      have hle : (frames 10 stream).2.length ≤ f.bufSz := by omega
      exact ⟨hsz, hsize, hfile, Nat.zero_add _, hle, by rw [hnil]; rfl, hlong, hline⟩
  · exact ⟨hsz, hsize, hfile, hoff, hin, hunread, hlong, hline⟩

/-- The state in which the new bytes are parsed. -/
def stored (f : TextSock) (bytes : List UInt8) : TextSock :=
  { f.compact with
    buf := store f.compact.buf f.compact.writeOff bytes
    writeOff := f.compact.writeOff + bytes.length }

theorem received_eq (hne : c ≠ []) : f.received c =
    let r := (f.stored c).parse f.compact.writeOff c
    (if r.1.writeOff - r.1.readOff > maxLineSz then { r.1 with tooLong := true } else r.1, r.2) := by
  cases c with
  | nil => exact absurd rfl hne
  | cons b bytes => rfl

/-- A read adds its bytes to the stream, and posts the lines that they finish. -/
theorem Inv.received (h : Inv file stream f) (hne : c ≠ []) (hroom : c.length ≤ f.compact.room) :
    Inv file (stream ++ c) (f.received c).1 ∧
      (f.received c).2 = (expectedFrom file (frames 10 stream).1.length
        (framesFrom 10 (frames 10 stream).2 c).1).map LineEvent.wrap ∧
      (f.received c).1.writeOff = f.compact.writeOff + c.length := by
  obtain ⟨hsz, hsize, hfile, hoff, hin, hunread, hlong, hline⟩ := h.compact
  rw [TextSock.room] at hroom
  have hat : f.compact.writeOff ≤ f.compact.buf.length := by omega
  have hfits : f.compact.writeOff + c.length ≤ f.compact.buf.length := by omega
  have hsize' : (f.stored c).buf.length = f.compact.buf.length := length_store hfits
  have hparsed := (f.stored c).parse_parsed f.compact.writeOff (frames 10 stream).1.length
    (frames 10 stream).2 c hoff (hsize'.symm ▸ hfits)
    ((slice_store_before hat (Nat.le_of_eq hoff)).trans hunread) (slice_store hat) hlong hline
  obtain ⟨pbuf, psize, pwrite, pfile, poff, punread, plong, pline, pevents⟩ := hparsed
  rw [received_eq hne]
  generalize (f.stored c).parse f.compact.writeOff c = r at *
  have hfile' : (f.stored c).filename = file := hfile
  have hwrite' : (f.stored c).writeOff = f.compact.writeOff + c.length := rfl
  have hbufSz' : (f.stored c).bufSz = f.compact.bufSz := rfl
  have hlines : (frames 10 (stream ++ c)).1 = (frames 10 stream).1 ++
      (framesFrom 10 (frames 10 stream).2 c).1 := by rw [frames_append]
  have htail : (frames 10 (stream ++ c)).2 = (framesFrom 10 (frames 10 stream).2 c).2 := by
    rw [frames_append]
  have hwrite : (if r.1.writeOff - r.1.readOff > maxLineSz then
      ({ r.1 with tooLong := true } : TextSock) else r.1).writeOff =
        f.compact.writeOff + c.length := by
    split
    · exact pwrite
    · exact pwrite
  refine ⟨?_, hfile' ▸ pevents, hwrite⟩
  have hcount : r.1.line = (frames 10 (stream ++ c)).1.length % 2 ^ 32 := by
    rw [hlines, List.length_append]
    exact pline
  rw [← htail] at poff punread plong
  rw [← psize] at punread
  have hsize₁ : r.1.buf.length = r.1.bufSz := by rw [psize, hsize', pbuf, hbufSz', hsize]
  have hoff' : r.1.readOff + (frames 10 (stream ++ c)).2.length = r.1.writeOff := by omega
  have hin' : r.1.writeOff ≤ r.1.bufSz := by omega
  show Inv file (stream ++ c) (if r.1.writeOff - r.1.readOff > maxLineSz then _ else r.1)
  split
  · rename_i hgt
    have hlong' : maxLineSz < (frames 10 (stream ++ c)).2.length := by omega
    exact ⟨pbuf.trans hsz, hsize₁, pfile.trans hfile', hoff', hin', punread, fun _ => hlong', hcount⟩
  · exact ⟨pbuf.trans hsz, hsize₁, pfile.trans hfile', hoff', hin', punread, plong, hcount⟩

end

variable {file : CStr} {chunks : List (List UInt8)} {f : TextSock} {events : List LineEvent}

theorem Run.inv (h : Run file chunks f events) : Inv file chunks.flatten f ∧
    events = (expected file chunks.flatten).map LineEvent.wrap := by
  induction h with
  | new => exact ⟨inv_new file, rfl⟩
  | @read chunks f events c _ hne hroom ih =>
    obtain ⟨hinv, hevents⟩ := ih
    obtain ⟨hinv', hevents', -⟩ := hinv.received hne hroom
    rw [List.flatten_append, List.flatten_singleton]
    refine ⟨hinv', ?_⟩
    rw [hevents, hevents', expected, expected, frames_append, expectedFrom_append, List.map_append,
      Nat.zero_add]

/-- The window starts `read_off` before the unfinished line. -/
theorem Run.windowStart_add (h : Run file chunks f events) :
    windowStart chunks + f.readOff = lineStart chunks.flatten := by
  induction h with
  | new => rfl
  | @read chunks f events c hrun hne hroom ih =>
    obtain ⟨hinv, -⟩ := hrun.inv
    obtain ⟨hinv', -, hwrite⟩ := hinv.received hne hroom
    have hoff := hinv.compact.writeOff
    have hoff' := hinv'.writeOff
    have hline := lineStart_add chunks.flatten
    have hline' := lineStart_add (chunks.flatten ++ c)
    have hmoved : moveWindow (windowStart chunks) (lineStart chunks.flatten) + f.compact.readOff =
        lineStart chunks.flatten := by
      have hsz := hinv.bufSz
      have hin := hinv.inside
      have hle := hinv.writeOff
      unfold moveWindow TextSock.compact
      split
      · split
        · exact Nat.add_zero _
        · omega
      · split
        · omega
        · exact ih
    rw [windowStart_snoc, List.flatten_append, List.flatten_singleton]
    rw [List.length_append] at hline'
    omega

/-! ## Framing -/

/-- The events are the lines of the stream that are not too long, the offsets are in the buffer, and
the next read is not of zero bytes. -/
structure Framed (file : CStr) (chunks : List (List UInt8)) (f : TextSock)
    (events : List LineEvent) : Prop where
  events : events = expected file chunks.flatten
  readOff : f.readOff ≤ f.writeOff
  writeOff : f.writeOff ≤ f.bufSz
  next : f.compact.room ≠ 0

theorem Run.room_eq_zero_iff (h : Run file chunks f events) :
    f.compact.room = 0 ↔ WindowFull chunks := by
  obtain ⟨hinv, -⟩ := h.inv
  have hsz := hinv.bufSz
  have hin := hinv.inside
  have hoff := hinv.writeOff
  have hstart := h.windowStart_add
  have hline := lineStart_add chunks.flatten
  have hpos : 0 < maxLineSz := by decide
  unfold TextSock.compact room WindowFull
  split
  · show f.bufSz - (f.writeOff - f.readOff) = 0 ↔ _
    omega
  · omega

theorem map_wrap_eq_iff (l : List LineEvent) :
    l.map LineEvent.wrap = l ↔ ∀ e ∈ l, e.lineNum < 2 ^ 32 := by
  have hone : ∀ e : LineEvent, e.wrap = e ↔ e.lineNum < 2 ^ 32 := by
    intro e
    obtain ⟨n, file, line⟩ := e
    simp only [LineEvent.wrap, LineEvent.mk.injEq, and_true]
    exact Nat.mod_eq_iff_lt (by decide)
  conv_lhs => rhs; rw [← List.map_id l]
  rw [List.map_eq_map_iff]
  exact forall₂_congr fun e _ => hone e

/-- The lines are posted and the next read has room if and only if the last read did not fill the
window with an unfinished line that is too long, and no number of a posted line is too large. -/
theorem framed_iff (h : Run file chunks f events) : Framed file chunks f events ↔
    ¬ WindowFull chunks ∧ ∀ e ∈ expected file chunks.flatten, e.lineNum < 2 ^ 32 := by
  obtain ⟨hinv, hevents⟩ := h.inv
  rw [← map_wrap_eq_iff, ← hevents, ← h.room_eq_zero_iff]
  constructor
  · intro hf
    exact ⟨hf.next, hf.events⟩
  · rintro ⟨hnext, hev⟩
    have hoff := hinv.writeOff
    exact ⟨hev, by omega, hinv.inside, hnext⟩

end TextSock

open TextSock

/-- Two reads that cut a line. -/
theorem framed_iff_twoReads : ∃ f events, TextSock.Run [] [[97], [98, 10]] f events ∧
    Framed [] [[97], [98, 10]] f events := by
  have h₀ : TextSock.Run [] [] _ _ := .new
  have h₁ := h₀.read (c := [97]) (by decide) (by decide)
  have h₂ := h₁.read (c := [98, 10]) (by decide) (by decide)
  exact ⟨_, _, h₂, (framed_iff h₂).mpr ⟨fun hfull => absurd hfull.2 (by decide), by decide⟩⟩

/-- `2 * MAX_LINE_SZ + 1` bytes without a newline, in one read. -/
theorem not_framed : ¬ ∀ (file : CStr) (chunks : List (List UInt8)) (f : TextSock)
    (events : List LineEvent), TextSock.Run file chunks f events → Framed file chunks f events := by
  intro h
  obtain ⟨c, hlen, hc⟩ : ∃ c : List UInt8, c.length = 2 * maxLineSz + 1 ∧ 10 ∉ c := by
    refine ⟨List.replicate (2 * maxLineSz + 1) 97, List.length_replicate, fun hmem => ?_⟩
    cases List.eq_of_mem_replicate hmem
  have hne : c ≠ [] := by
    rintro rfl
    cases hlen
  have hroom : (TextSock.new []).compact.room = 2 * maxLineSz + 1 := rfl
  have h₀ : TextSock.Run [] [] (.new []) [] := .new
  have h₁ := h₀.read hne (Nat.le_of_eq (hlen.trans hroom.symm))
  have hframes : frames 10 ([] ++ [c]).flatten = ([], c) := by
    rw [List.nil_append, List.flatten_singleton, frames_of_not_mem hc]
  have hstart : windowStart ([] ++ [c]) = 0 := rfl
  refine (h _ _ _ _ h₁).next (h₁.room_eq_zero_iff.mpr ⟨?_, ?_⟩)
  · rw [hstart, List.nil_append, List.flatten_singleton, hlen, Nat.zero_add]
  · rw [hframes, hlen]
    omega

end Orchids
