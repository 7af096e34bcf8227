import Orchids.Util.StringUtil

/-!
# The syslog dissector (`mod_syslog.c`)

`dissect_syslog`, up to the fields that it adds to the event. What the program stops at is `Crash`;
`mktime` is a parameter.
-/

namespace Orchids

/-- Why the program does not come back from a dissection. -/
inductive Crash where
  /-- `event->next` is `NULL`, and its value is read; or there is no event. -/
  | nullEvent
  /-- An accessor on an object of another type, or a read out of a table. -/
  | misread
  /-- A write behind an array. -/
  | overflow
  /-- The data of the dissector are `NULL`, and are read. -/
  | nullData
  /-- A module that is not loaded. -/
  | noModule
  /-- A read past the `NUL` at the end of a text. -/
  | overread
  deriving DecidableEq

/-- How a dissector comes to no fields. -/
inductive Reject where
  /-- It returns 1. -/
  | failed
  | crash (c : Crash)
  deriving DecidableEq

/-- `struct tm`; a month that the text does not give is the one that the last date had. -/
structure Tm where
  mon : Option Nat
  mday : Int
  hour : Int
  min : Int
  sec : Int

variable {F : Type}

/-- `STR(event->value)` and `STRLEN(event->value)`, without a test of the type. -/
def strValue : OvmVar F → Except Reject Text
  | .str t => .ok t
  | _ => .error (.crash .misread)

namespace Syslog

def facilities : List CStr :=
  ["(0) kernel messages", "(1) user-level messages", "(2) mail system", "(3) system daemons",
   "(4) security/authorization messages", "(5) messages generated internally by syslogd",
   "(6) line printer subsystem", "(7) network news subsystem", "(8) UUCP subsystem",
   "(9) clock daemon (and cron/at)", "(10) security/authorization messages", "(11) FTP daemon",
   "(12) NTP subsystem", "(13) log audit ", "(14) log alert ", "(15) clock daemon",
   "(16) local use 0  (local0)", "(17) local use 1  (local1)", "(18) local use 2  (local2)",
   "(19) local use 3  (local3)", "(20) local use 4  (local4)", "(21) local use 5  (local5)",
   "(22) local use 6  (local6)", "(23) local use 7  (local7)"].map ascii

def severities : List CStr :=
  ["(0) Emergency: system is unusable", "(1) Alert: action must be taken immediately",
   "(2) Critical: critical conditions", "(3) Error: error conditions",
   "(4) Warning: warning conditions", "(5) Notice: normal but significant condition",
   "(6) Informational: informational messages", "(7) Debug: debug-level messages"].map ascii

/-- The months of `syslog_getdate`: `none` if the first letter is of no month. -/
def month (date : Text) : Option (Option Nat) :=
  let c₁ := date.byteAt 1
  let c₂ := date.byteAt 2
  match Char.ofNat (date.byteAt 0).toNat with
  | 'A' => some (if c₁ = 117 then some 7 else if c₁ = 118 then some 3 else none)
  | 'D' => some (some 11)
  | 'F' => some (some 1)
  | 'J' =>
    some (if c₁ = 97 then some 0 else if c₁ = 117 ∧ c₂ = 108 then some 6
      else if c₁ = 117 ∧ c₂ = 110 then some 5 else none)
  | 'M' => some (if c₂ = 114 then some 2 else if c₂ = 121 then some 4 else none)
  | 'N' => some (some 10)
  | 'O' => some (some 9)
  | 'S' => some (some 8)
  | _ => none

/-- `syslog_getdate` -/
def getdate (date : Text) : Option Tm :=
  -- a `char` is signed
  let digit (i : Nat) : Int := (date.byteAt i).toInt8.toInt - 48
  match month date with
  | none => none
  | some mon =>
    some
      { mon
        mday := (if date.byteAt 4 ≠ 32 then digit 4 * 10 else 0) + digit 5
        hour := digit 7 * 10 + digit 8
        min := digit 10 * 10 + digit 11
        sec := digit 13 * 10 + digit 14 }

/-- `attr` -/
structure Attr (F : Type) where
  facility : Slot (OvmVar F) := .null
  severity : Slot (OvmVar F) := .null
  time : Slot (OvmVar F) := .null
  host : Slot (OvmVar F) := .null
  repeated : Slot (OvmVar F) := .null
  pid : Slot (OvmVar F) := .null
  prog : Slot (OvmVar F) := .null
  msg : Slot (OvmVar F) := .null

def Attr.table (attr : Attr F) : List (Slot (OvmVar F)) :=
  [attr.facility, attr.severity, attr.time, attr.host, attr.repeated, attr.pid, attr.prog, attr.msg]

/-- `txt_line`, `txt_len` and `attr` -/
structure State (F : Type) where
  txtLine : Text
  txtLen : Int
  attr : Attr F

namespace State

/-- `txt_line += n` and `txt_len -= n` -/
def skip (s : State F) (n : Nat) : State F :=
  { s with txtLine := s.txtLine.advance n, txtLen := subSize s.txtLen n }

/-- A constant string of the program. -/
def literal (s : CStr) : Slot (OvmVar F) := .value (.vstr { bytes := s, behind := fun _ => 0 })

/-- The facility and the severity, if they are encoded. -/
def readPriority (s : State F) : Except Reject (State F) :=
  if s.txtLine.byteAt 0 = 60 then
    let (tokenSize, priority) := getNextInt (s.txtLine.advance 1) (toSize s.txtLen)
    if (191 : BitVec 64).slt priority then .error .failed
    else
      -- a negative number is an index too
      match facilities[priority.toNat >>> 3]? with
      | none => .error (.crash .misread)
      | some facility =>
        let severity := severities.getD (priority.toNat % 8) []
        let attr := { s.attr with facility := literal facility, severity := literal severity }
        .ok ({ s with attr }.skip (tokenSize + 2))
  else .ok s

/-- The text starts as a date does. -/
def atDate (s : State F) : Bool :=
  s.txtLen > 15 && s.txtLine.byteAt 3 == 32 && s.txtLine.byteAt 6 == 32 &&
    s.txtLine.byteAt 9 == 58 && s.txtLine.byteAt 12 == 58 && s.txtLine.byteAt 15 == 32

/-- The date. -/
def readDate (mktime : Tm → BitVec 64) (s : State F) : Except Reject (State F) :=
  if s.atDate then
    match getdate s.txtLine with
    | none => .error .failed
    | some t => .ok ({ s with attr := { s.attr with time := .value (.ctime (mktime t)) } }.skip 16)
  else .ok s

/-- "syntax error. ignoring event": there is no text any more. -/
def checkLen (s : State F) : Except Reject (State F) :=
  if s.txtLen ≤ 0 then .error .failed else .ok s

/-- The host, if a blank ends it. -/
def readHost (s : State F) : Except Reject (State F) :=
  let tokenSize := myStrspn s.txtLine (ascii " [:") (toSize s.txtLen)
  if s.txtLine.byteAt tokenSize = 32 ∧ s.txtLine.byteAt (tokenSize + 1) ≠ 40 then
    let host := .value (.vstr (s.txtLine.slice tokenSize))
    ({ s with attr := { s.attr with host } }.skip (tokenSize + 1)).checkLen
  else .ok s

/-- "last message repeated" -/
def readRepeated (s : State F) : Attr F :=
  let msg := s.txtLine.slice (myStrspn s.txtLine (ascii "\r\n") (toSize s.txtLen))
  let s := s.skip 22
  let (_, repeated) := getNextInt s.txtLine (toSize s.txtLen)
  { s.attr with
    msg := .value (.vstr msg)
    repeated := .value (.int repeated)
    prog := .value (.str { bytes := ascii "syslog", behind := fun _ => 0 }) }

/-- The program; only `gconfd` has a `[` or a `:` in its name. -/
def readProg (s : State F) : Except Reject (State F) :=
  let tokenSize := myStrspn s.txtLine (ascii "[:") (toSize s.txtLen)
  let progLen := if s.txtLine.startsWith (ascii "gconfd") then 6 else tokenSize
  let prog := .value (.vstr (s.txtLine.slice progLen))
  ({ s with attr := { s.attr with prog } }.skip tokenSize).checkLen

/-- The number of the process, or the end of the name. -/
def readPid (s : State F) : Except Reject (State F) :=
  if s.txtLine.byteAt 0 = 91 then
    let (tokenSize, pid) := getNextInt (s.txtLine.advance 1) (toSize s.txtLen)
    ({ s with attr := { s.attr with pid := .value (.int pid) } }.skip (tokenSize + 4)).checkLen
  else if s.txtLine.byteAt 0 = 58 then (s.skip 2).checkLen
  else s.checkLen

/-- The message. -/
def readMsg (s : State F) : Attr F :=
  let tokenSize := myStrspn s.txtLine (ascii "\r\n") (toSize s.txtLen)
  { s.attr with msg := .value (.vstr (s.txtLine.slice tokenSize)) }

end State

/-- The fields of a line. -/
def attrs (mktime : Tm → BitVec 64) (line : Text) : Except Reject (Attr F) := do
  let s : State F := { txtLine := line, txtLen := toInt line.bytes.length, attr := {} }
  let s ← s.readPriority
  let s ← s.readDate mktime
  let s ← s.checkLen
  let s ← s.readHost
  if s.txtLine.startsWith (ascii "last message repeated ") then return s.readRepeated
  else
    let s ← s.readProg
    let s ← s.readPid
    return s.readMsg

end Syslog

/-- `dissect_syslog`, up to `add_fields_to_event`: the table of the attributes. -/
def syslogAttrs (mktime : Tm → BitVec 64) (v : OvmVar F) :
    Except Reject (List (Slot (OvmVar F))) := do
  let line ← strValue v
  let attr ← Syslog.attrs mktime line
  return attr.table

end Orchids
