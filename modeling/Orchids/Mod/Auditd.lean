import Orchids.Mod.Syslog

/-!
# The auditd dissector (`mod_auditd.c`)

`action_parse_event`, which looks for keywords in a text and adds a field for each, and edits the
text in place: an end-of-string marker behind a word, and the bytes of a quoted string without its
escapes. A pointer into the text is what the text has from there on; `strtod`, with what is made of
the number, is a parameter.
-/

namespace Orchids

namespace Auditd

/-- `ACTION_AUDIT`, `ACTION_INT`, `ACTION_HEX`, `ACTION_STRING` and `ACTION_DEV` -/
inductive ActionCode where
  | audit | int | hex | string | dev
  deriving DecidableEq

/-- A keyword, or what is left of it; the action, and the field. -/
structure Action where
  name : CStr
  code : ActionCode
  evtno : Nat
  deriving DecidableEq

def actions : List Action :=
  [("node=", .string, 0), ("type=", .string, 1), ("audit(", .audit, 0), ("msg=audit(", .audit, 0),
   ("arch=", .int, 4), ("syscall=", .int, 5), ("success=", .string, 6), ("exit=", .int, 7),
   ("a0=", .hex, 8), ("a1=", .hex, 9), ("a2=", .hex, 10), ("a3=", .hex, 11), ("items=", .int, 12),
   ("ppid=", .int, 13), ("pid=", .int, 14), ("auid=", .int, 15), ("uid=", .int, 16),
   ("gid=", .int, 17), ("euid=", .int, 18), ("suid=", .int, 19), ("fsuid=", .int, 20),
   ("egid=", .int, 21), ("sgid=", .int, 22), ("fsgid=", .int, 23), ("tty=", .string, 24),
   ("ses=", .int, 25), ("comm=", .string, 26), ("exe=", .string, 27), ("subj=", .string, 28),
   ("key=", .string, 29), ("item=", .int, 30), ("name=", .string, 31), ("inode=", .int, 32),
   ("mode=", .int, 33), ("dev=", .dev, 34), ("ouid=", .int, 35), ("ogid=", .int, 36),
   ("rdev=", .dev, 37), ("cwd=", .string, 38)].map
    fun (name, code, evtno) => { name := ascii name, code, evtno }

/-- `atp->what.proceed[c]`: a node of the tree is what is left of the keywords that go on from it. -/
def proceed (node : List Action) (c : UInt8) : List Action :=
  node.filterMap fun a =>
    match a.name with
    | [] => none
    | c' :: name => if c' = c then some { a with name } else none

/-- A node with `TAG_END`. -/
def endTag (node : List Action) : Option Action := node.find? fun a => a.name = []

/-! ## Numbers -/

def isXdigit (c : UInt8) : Bool := isDigit c || (65 ≤ c && c ≤ 70) || (97 ≤ c && c ≤ 102)

/-- The value of a digit of `action_atoi_hex`. -/
def xdigit (c : UInt8) : Nat := if isDigit c then c.toNat - 48 else (c.toNat - 65 + 10) &&& 0x1f

/-- The `int` of some digits. -/
def number (base : Nat) (digits : List UInt8) : BitVec 32 :=
  digits.foldl (fun i c => i * BitVec.ofNat 32 base + BitVec.ofNat 32 (xdigit c)) 0

/-- `action_atoi_hex` -/
def atoiHex (s : List UInt8) : BitVec 32 × List UInt8 :=
  (number 16 (s.takeWhile isXdigit), s.dropWhile isXdigit)

/-- The digits of a decimal number. -/
def atoiDec (s : List UInt8) : BitVec 32 × List UInt8 :=
  (number 10 (s.takeWhile isDigit), s.dropWhile isDigit)

/-- `action_atoi_unsigned` -/
def atoiUnsigned (s : List UInt8) : BitVec 32 × List UInt8 :=
  match s with
  | 48 :: 120 :: s => atoiHex s
  | 48 :: s =>
    let octal (c : UInt8) : Bool := 48 ≤ c && c < 56
    (number 8 (s.takeWhile octal), s.dropWhile octal)
  | s => atoiDec s

/-- `action_atoi_signed` -/
def atoiSigned (s : List UInt8) : BitVec 32 × List UInt8 :=
  match s with
  | 45 :: s =>
    let (i, t) := atoiUnsigned s
    (-i, t)
  | s => atoiUnsigned s

/-! ## Actions -/

variable {F : Type}

/-- What an action does: the fields from `evtno` on, the bytes that it writes, each with the length of
the text from its place on, and where it goes on. -/
structure Done (F : Type) where
  evtno : Nat
  fields : List (OvmVar F)
  edits : List (Nat × UInt8) := []
  rest : List UInt8

/-- A number that is stored as a field. -/
def intField (evtno : Nat) (r : BitVec 32 × List UInt8) : Done F :=
  { evtno, fields := [.int (r.1.signExtend 64)], rest := r.2 }

/-- `action_doer_int` -/
def doerInt (s : List UInt8) (n : Nat) : Done F := intField n (atoiSigned s)

/-- `action_doer_hex` -/
def doerHex (s : List UInt8) (n : Nat) : Done F := intField n (atoiHex s)

/-- `action_doer_dev`: the number that is read for the minor is not used. -/
def doerDev (s : List UInt8) (n : Nat) : Done F :=
  let (_, s) := atoiDec s
  let s := match s with
    | 58 :: s => (atoiDec s).2
    | s => s
  intField n (atoiUnsigned s)

/-- `action_doer_id` -/
def doerId (s : List UInt8) (n : Nat) : Done F :=
  let stop (c : UInt8) : Bool := c == 0 || isSpace c
  let word := s.takeWhile (!stop ·)
  let t := s.dropWhile (!stop ·)
  let fields := [.vstr { bytes := word, behind := fun _ => 0 }]
  match t with
  | c :: t' => if c = 0 then { evtno := n, fields, rest := t }
      else { evtno := n, fields, edits := [(t.length, 0)], rest := t' }
  | [] => { evtno := n, fields, rest := t }

def isOctal (c : UInt8) : Bool := 48 ≤ c && c < 56

/-- The bytes of an octal escape: at most two digits after the first one. -/
def octalEscape (c : UInt8) (s : List UInt8) : UInt8 × List UInt8 :=
  let digits := c :: (s.take 2).takeWhile isOctal
  (UInt8.ofNat (digits.foldl (fun i c => 8 * i + (c.toNat - 48)) 0), s.drop (digits.length - 1))

/-- The byte that a letter stands for after a backslash. -/
def escape (c : UInt8) : UInt8 :=
  if c = 110 then 10 else if c = 114 then 13 else if c = 116 then 9 else c

/-- The loop of `action_doer_string`: the bytes that it writes, and what is behind the string. A
backslash before the `NUL` takes it past the end. -/
def unquote : Nat → List UInt8 → List UInt8 × List UInt8
  | 0, s => ([], s)
  | _ + 1, [] => ([], [])
  | n + 1, c :: s =>
    if c = 0 then ([], c :: s)
    else if c = 34 then ([], s)
    else if c = 92 then
      match s with
      | [] => ([], [])
      | c :: s =>
        if c = 0 ∨ c = 34 then ([], s)
        else if isOctal c then
          let (b, s) := octalEscape c s
          let (bytes, s) := unquote n s
          (b :: bytes, s)
        else
          let (bytes, s) := unquote n s
          (escape c :: bytes, s)
    else
      let (bytes, s) := unquote n s
      (c :: bytes, s)

/-- The bytes `b` from the place on that has `n` bytes of the text behind it. -/
def writes (n : Nat) (b : List UInt8) : List (Nat × UInt8) :=
  b.zipIdx.map fun (c, i) => (n - i, c)

/-- `action_doer_string`: without its escapes the string is written from its quote on. -/
def doerString (s : List UInt8) (n : Nat) : Done F :=
  match s with
  | 34 :: t =>
    let (bytes, rest) := unquote t.length t
    { evtno := n, fields := [.vstr { bytes, behind := fun _ => 0 }]
      edits := writes s.length (bytes ++ [0]), rest }
  | s => doerId s n

/-- `time_convert`: the time, where it goes on, and whether the number ends as it is to. It writes a
`NUL` over the sign behind the number; else it goes one byte back. -/
def timeConvert (strtod : List UInt8 → Timeval × Nat) (before : UInt8) (str : List UInt8) :
    Timeval × List UInt8 × List (Nat × UInt8) :=
  let (time, size) := strtod str
  match str.drop size with
  | c :: s =>
    if c = 58 ∨ c = 41 then (time, s, [(s.length + 1, 0)])
    else (time, (before :: str).drop size, [])
  | [] => (time, (before :: str).drop size, [])

/-- `action_doer_audit` -/
def doerAudit (strtod : List UInt8 → Timeval × Nat) (s : List UInt8) : Done F :=
  let (time, t, edits) := timeConvert strtod 40 s
  let (serial, t) := match t with
    | c :: t' =>
      if c ≠ 0 then
        let (serial, t'') := atoiUnsigned t'
        (serial, match t'' with
          | 41 :: t'' => t''
          | t'' => t'')
      else (0, t)
    | [] => (0, t)
  { evtno := 2, fields := [.timeval time, .int (serial.signExtend 64)], edits, rest := t }

/-- `actx->action_doer[code]` -/
def actionDoer (strtod : List UInt8 → Timeval × Nat) (a : Action) (s : List UInt8) : Done F :=
  match a.code with
  | .audit => doerAudit strtod s
  | .int => doerInt s a.evtno
  | .hex => doerHex s a.evtno
  | .string => doerString s a.evtno
  | .dev => doerDev s a.evtno

/-- `action_parse_event`: what the actions do, in this order. The loop is at `again` with a part of a
keyword, and skips blanks without one. -/
def actionParseEvent (strtod : List UInt8 → Timeval × Nat) :
    Nat → List Action → List UInt8 → Except Reject (List (Done F))
  | 0, _, _ => .ok []
  | _ + 1, _, [] => .error (.crash .overread)
  | n + 1, node, c :: s =>
    if c = 0 then .ok []
    else if node = actions ∧ isSpace c then actionParseEvent strtod n actions s
    else
      let atp := proceed node c
      if atp = [] then actionParseEvent strtod n actions s
      else match endTag atp with
      | none => actionParseEvent strtod n atp s
      | some a => do
        let done := actionDoer strtod a s
        let more ← actionParseEvent strtod n actions done.rest
        return done :: more

/-- The text after all writes. -/
def edited (line : Text) (dones : List (Done F)) : Text :=
  let edits := dones.flatMap Done.edits
  { line with bytes := edits.foldl (fun b e => b.set (line.bytes.length + 1 - e.1) e.2) line.bytes }

end Auditd

/-- `dissect_auditd`, up to `post_event`: what is done, and the text after it. -/
def auditdParse (strtod : List UInt8 → Timeval × Nat) (v : OvmVar F) :
    Except Reject (List (Auditd.Done F) × Text) := do
  let line ← strValue v
  let text := line.bytes ++ [0]
  let dones ← Auditd.actionParseEvent strtod (text.length + 1) Auditd.actions text
  return (dones, Auditd.edited line dones)

end Orchids
