import Orchids.Mod.TextSocket

/-!
# Text files (`mod_textfile.c`)

`process_new_lines`, which reads one line of a file. The loop over a long line may go on without end,
so it has a number of steps. A stream reads nothing more when its end-of-file indicator is set; that
some libraries read on is a parameter, and so is `crc32`.
-/

namespace Orchids

/-- `BUFF_SZ` -/
def buffSz : Nat := 1024

/-- `FILE`: the bytes of the file, the position and the end-of-file indicator. -/
structure Stream where
  content : List UInt8
  pos : Nat
  atEof : Bool

namespace Stream

/-- What is not read yet. -/
def rest (fd : Stream) : List UInt8 := fd.content.drop fd.pos

/-- `Xfgets(s_buff, BUFF_SZ, fd)`: the bytes that are read, or `NULL`. -/
def gets (sticky : Bool) (fd : Stream) : Option (List UInt8) × Stream :=
  if sticky && fd.atEof then (none, fd)
  else
    let piece := fgets (buffSz - 1) fd.rest
    let atEof := fd.atEof || (piece.length < buffSz - 1 && piece.getLast? != some 10)
    (if piece = [] then none else some piece, { fd with pos := fd.pos + piece.length, atEof })

end Stream

/-- `textfile_t` -/
structure TextFile where
  filename : CStr
  fd : Stream
  line : Nat
  hash : BitVec 32
  eof : Bool

/-- Why `process_new_lines` does not return. -/
inductive PollStop where
  /-- The steps are used up. -/
  | running
  /-- The byte before the buffer is read. -/
  | misread
  /-- `Xrealloc` exits: the size is 0. -/
  | exit
  deriving DecidableEq

/-- `s_buff[strlen(s_buff) - 1] == '\n'` -/
def endsLine (sBuff : CStr) : Except PollStop Bool :=
  match sBuff.getLast? with
  | none => .error .misread
  | some c => .ok (c == 10)

/-- `Xrealloc(d_buff, buff_sz)` and `strcat(d_buff, s_buff)` -/
def growBuff (size : Nat) (dBuff sBuff : CStr) : Except PollStop CStr :=
  if size = 0 then .error .exit else .ok (dBuff ++ sBuff)

/-- The loop over the pieces of a long line. At the end of the file `s_buff` stays as it is. -/
def longLine (sticky : Bool) : Nat → Stream → Nat → CStr → CStr →
    Except PollStop (Stream × Nat × CStr × CStr)
  | 0, _, _, _, _ => .error .running
  | n + 1, fd, size, dBuff, sBuff => do
    let size := (size + buffSz) % 2 ^ 32
    let dBuff ← if size < maxLineSz then growBuff size dBuff sBuff else .ok dBuff
    let (piece, fd) := fd.gets sticky
    let sBuff := match piece with
      | none => sBuff
      | some piece => cString piece
    if ← endsLine sBuff then return (fd, size, dBuff, sBuff)
    else longLine sticky n fd size dBuff sBuff

namespace TextFile

/-- A line was read, with a buffer of this size. -/
def deliver (crc32 : BitVec 32 → CStr → BitVec 32) (tf : TextFile) (size : Nat) (buff : CStr) :
    TextFile × List LineEvent :=
  if size ≥ maxLineSz then ({ tf with eof := false }, [])
  else
    let line := (tf.line + 1) % 2 ^ 32
    ({ tf with line, hash := crc32 tf.hash buff, eof := false },
      [{ lineNum := line, file := tf.filename, line := buff }])

/-- `process_new_lines` -/
def processNewLines (sticky : Bool) (crc32 : BitVec 32 → CStr → BitVec 32) (n : Nat)
    (tf : TextFile) : Except PollStop (TextFile × List LineEvent) :=
  match tf.fd.gets sticky with
  | (none, fd) => .ok ({ tf with fd, eof := true }, [])
  | (some piece, fd) => do
    let sBuff := cString piece
    if ← endsLine sBuff then return { tf with fd }.deliver crc32 buffSz sBuff
    else
      let (fd, size, dBuff, sBuff) ← longLine sticky n fd buffSz [] sBuff
      let size := (size + buffSz) % 2 ^ 32
      let dBuff ← growBuff size dBuff sBuff
      return { tf with fd }.deliver crc32 size dBuff

end TextFile

end Orchids
