import Mathlib.Algebra.Group.Nat.Defs
import Orchids.Lib.Frames
import Orchids.Util.Stdio

/-!
# Text sockets (`mod_textfile.c`)

`textsocket_callback`: a buffer with two offsets, whose new bytes are cut into lines. What `read`
returns is a parameter of the call.
-/

namespace Orchids

/-- `MAX_LINE_SZ` -/
def maxLineSz : Nat := 10000

/-- A line of a file or of a socket, as it is posted: `F_LINE_NUM`, `F_FILE` and `F_LINE`. -/
structure LineEvent where
  lineNum : Nat
  file : CStr
  line : List UInt8
  deriving DecidableEq

/-- `textsock_t`; `tooLong` is the flag `TEXTSOCK_LINE_TOO_LONG`. -/
structure TextSock where
  bufSz : Nat
  buf : List UInt8
  tooLong : Bool
  line : Nat
  readOff : Nat
  writeOff : Nat
  filename : CStr

/-- The bytes from `off` on, `n` of them. -/
def slice (buf : List UInt8) (off n : Nat) : List UInt8 := (buf.drop off).take n

/-- The buffer with these bytes from `off` on. -/
def store (buf : List UInt8) (off : Nat) (bytes : List UInt8) : List UInt8 :=
  buf.take off ++ bytes ++ buf.drop (off + bytes.length)

namespace TextSock

/-- What `add_input_file` makes. -/
def new (filename : CStr) : TextSock where
  bufSz := 2 * maxLineSz + 1
  buf := List.replicate (2 * maxLineSz + 1) 0
  tooLong := false
  line := 0
  readOff := 0
  writeOff := 0
  filename := filename

/-- The unread data go to the start of the buffer, if there is not much room after them. -/
def compact (f : TextSock) : TextSock :=
  if f.bufSz - f.readOff < maxLineSz then
    { f with
      buf := if f.readOff < f.writeOff then
          store f.buf 0 (slice f.buf f.readOff (f.writeOff - f.readOff))
        else f.buf
      writeOff := f.writeOff - f.readOff
      readOff := 0 }
  else f

/-- The bytes that `read` is asked for. -/
def room (f : TextSock) : Nat := f.bufSz - f.writeOff

/-- The loop over the new bytes, from `p` on; `pstart` is `read_off`. -/
def parse (f : TextSock) : Nat → List UInt8 → TextSock × List LineEvent
  | _, [] => (f, [])
  | p, c :: rest =>
    if c = 10 then
      let line := (f.line + 1) % 2 ^ 32
      let f' : TextSock := { f with line, readOff := p + 1, tooLong := false }
      let (f'', events) := f'.parse (p + 1) rest
      if f.tooLong then (f'', events)
      else if p + 1 - f.readOff > maxLineSz then (f'', events)
      else
        (f'', { lineNum := line, file := f.filename
                line := slice f.buf f.readOff (p + 1 - f.readOff) } :: events)
    else f.parse (p + 1) rest

/-- What a callback returns. -/
inductive Return where
  | failed
  | connectionLost
  | success
  deriving DecidableEq

/-- `textsocket_callback`, with what `read` returns: an error, or the bytes that it stores. -/
def callback (f : TextSock) (read : Option (List UInt8)) : Return × TextSock × List LineEvent :=
  let f := f.compact
  match read with
  | none => (.failed, f, [])
  | some [] => (.connectionLost, f, [])
  | some bytes =>
    let p := f.writeOff
    let f : TextSock :=
      { f with buf := store f.buf p bytes, writeOff := p + bytes.length }
    let (f, events) := f.parse p bytes
    let f : TextSock :=
      if f.writeOff - f.readOff > maxLineSz then { f with tooLong := true } else f
    (.success, f, events)

end TextSock

end Orchids
