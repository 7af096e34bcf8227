import Orchids.Mod.Readable
import Orchids.Util.Reading

/-!
# Syslog lines by position

`dissect_syslog` with `txt_line` as a position of the line, where a read past the `NUL` is a crash
and the fields are ranges of the line.

* `Follows`: a computation of positions has the result of one of pointers, and its own results have
  a property.
* `follows_dissect`: the fields are those of `Syslog.attrs`, and their ranges are inside the line.
-/

namespace Orchids

namespace Syslog

/-- A `T_VSTR` in the line. -/
structure Span where
  pos : Nat
  len : Nat
  deriving DecidableEq

/-- The program: a range, or the copy of `"syslog"`. -/
inductive ProgName where
  | span (sp : Span)
  | syslog
  deriving DecidableEq

/-- `attr`: the facility and the severity are indices of their tables. -/
structure Found where
  facility : Option Nat := none
  severity : Option Nat := none
  time : Option Tm := none
  host : Option Span := none
  repeated : Option (BitVec 64) := none
  pid : Option (BitVec 64) := none
  prog : Option ProgName := none
  msg : Option Span := none

/-- `txt_line`, `txt_len` and `attr` -/
structure Scan where
  pos : Nat
  len : Int
  found : Found

/-- The bytes at some offsets are these, looked at one after the other. -/
def bytesAre (line : CStr) (pos : Nat) : List (Nat × UInt8) → Except Reject Bool
  | [] => return true
  | (i, c) :: l => do if (← readAt line (pos + i)) = c then bytesAre line pos l else return false

/-- `n` bytes of the line. -/
def readBytes (line : CStr) (pos : Nat) : Nat → Except Reject CStr
  | 0 => return []
  | n + 1 => do
    let c ← readAt line pos
    let l ← readBytes line (pos + 1) n
    return c :: l

/-- `syslog_getdate(line + pos)`, which reads no byte but the first 15. -/
def getdateAt (line : CStr) (pos : Nat) : Except Reject (Option Tm) := do
  let bytes ← readBytes line pos 15
  return getdate { bytes, behind := fun _ => 0 }

namespace Scan

/-- `txt_line += n` and `txt_len -= n` -/
def skip (s : Scan) (n : Nat) : Scan := { s with pos := s.pos + n, len := subSize s.len n }

/-- The range of length `n` at `txt_line`. -/
def span (s : Scan) (n : Nat) : Span := { pos := s.pos, len := n }

def readPriority (line : CStr) (s : Scan) : Except Reject Scan := do
  if (← readAt line s.pos) = 60 then
    let (tokenSize, priority) ← getNextIntAt line (s.pos + 1) (toSize s.len)
    if (191 : BitVec 64).slt priority then throw .failed
    else
      let facility := priority.toNat >>> 3
      if facilities.length ≤ facility then throw (.crash .misread)
      else
        let severity := priority.toNat % 8
        let found := { s.found with facility := some facility, severity := some severity }
        return { s with found }.skip (tokenSize + 2)
  else return s

def atDate (line : CStr) (s : Scan) : Except Reject Bool :=
  if s.len > 15 then bytesAre line s.pos [(3, 32), (6, 32), (9, 58), (12, 58), (15, 32)]
  else return false

def readDate (line : CStr) (s : Scan) : Except Reject Scan := do
  if ← s.atDate line then
    match ← getdateAt line s.pos with
    | none => throw .failed
    | some t => return { s with found := { s.found with time := some t } }.skip 16
  else return s

def checkLen (s : Scan) : Except Reject Scan := if s.len ≤ 0 then throw .failed else return s

def readHost (line : CStr) (s : Scan) : Except Reject Scan := do
  let tokenSize ← myStrspnAt line s.pos (ascii " [:") (toSize s.len)
  if (← readAt line (s.pos + tokenSize)) = 32 then
    if (← readAt line (s.pos + (tokenSize + 1))) ≠ 40 then
      let found := { s.found with host := some (s.span tokenSize) }
      ({ s with found }.skip (tokenSize + 1)).checkLen
    else return s
  else return s

def readRepeated (line : CStr) (s : Scan) : Except Reject Found := do
  let tokenSize ← myStrspnAt line s.pos (ascii "\r\n") (toSize s.len)
  let msg := some (s.span tokenSize)
  let s := s.skip 22
  let (_, repeated) ← getNextIntAt line s.pos (toSize s.len)
  return { s.found with msg, repeated := some repeated, prog := some .syslog }

def readProg (line : CStr) (s : Scan) : Except Reject Scan := do
  let tokenSize ← myStrspnAt line s.pos (ascii "[:") (toSize s.len)
  let progLen := if ← startsAt line (ascii "gconfd") s.pos then 6 else tokenSize
  let found := { s.found with prog := some (.span (s.span progLen)) }
  ({ s with found }.skip tokenSize).checkLen

def readPid (line : CStr) (s : Scan) : Except Reject Scan := do
  let c ← readAt line s.pos
  if c = 91 then
    let (tokenSize, pid) ← getNextIntAt line (s.pos + 1) (toSize s.len)
    -- what follows is only looked at for a message of the debug log
    let _ ← startsAt line (ascii "]: ") (s.pos + 1 + tokenSize)
    ({ s with found := { s.found with pid := some pid } }.skip (tokenSize + 4)).checkLen
  else if c = 58 then (s.skip 2).checkLen
  else s.checkLen

def readMsg (line : CStr) (s : Scan) : Except Reject Found := do
  let tokenSize ← myStrspnAt line s.pos (ascii "\r\n") (toSize s.len)
  return { s.found with msg := some (s.span tokenSize) }

end Scan

/-- `dissect_syslog`, up to `add_fields_to_event` -/
def dissect (line : CStr) : Except Reject Found := do
  let s : Scan := { pos := 0, len := toInt line.length, found := {} }
  let s ← s.readPriority line
  let s ← s.readDate line
  let s ← s.checkLen
  let s ← s.readHost line
  if ← startsAt line (ascii "last message repeated ") s.pos then s.readRepeated line
  else
    let s ← s.readProg line
    let s ← s.readPid line
    s.readMsg line

/-! ## Lengths -/

/-- A number as an `int`. -/
def wrap32 (n : Int) : Int := (BitVec.ofInt 32 n).toInt

theorem wrap32_eq (n : Int) : wrap32 n = n.bmod (2 ^ 32) := BitVec.toInt_ofInt n

theorem subSize_wrap32 (n : Int) (k : Nat) : subSize (wrap32 n) k = wrap32 (n - k) := by
  have hsub : subSize (wrap32 n) k = wrap32 (wrap32 n - k) := rfl
  rw [hsub, wrap32_eq, wrap32_eq, wrap32_eq, Int.bmod_sub_bmod]

/-- A length that is positive as an `int` is not more than what it counts. -/
theorem of_wrap32_pos {n : Int} (hn : -4 < n) (h : 0 < wrap32 n) : 0 < n ∧ wrap32 n ≤ n := by
  have hwrap : wrap32 n = n.bmod 4294967296 := wrap32_eq n
  rw [Int.bmod_def] at hwrap
  split at hwrap <;> omega

theorem wrap32_lt (n : Int) : wrap32 n < 2 ^ 31 := BitVec.toInt_lt

/-! ## Views -/

/-- A range is inside the line. -/
def Span.Inside (line : CStr) (sp : Span) : Prop := sp.pos + sp.len ≤ line.length

/-- All ranges are inside the line. -/
structure Found.Inside (line : CStr) (f : Found) : Prop where
  host : ∀ sp, f.host = some sp → sp.Inside line
  prog : ∀ sp, f.prog = some (.span sp) → sp.Inside line
  msg : ∀ sp, f.msg = some sp → sp.Inside line

section

variable {F : Type} (mktime : Tm → BitVec 64) (t : Text)

/-- The range as a text. -/
def Span.text (sp : Span) : Text := (t.advance sp.pos).slice sp.len

def ProgName.value : ProgName → OvmVar F
  | .span sp => .vstr (sp.text t)
  | .syslog => .str { bytes := ascii "syslog", behind := fun _ => 0 }

/-- The attributes, with pointers to the line. -/
def Found.attr (f : Found) : Attr F where
  facility := f.facility.elim .null fun i => State.literal (facilities.getD i [])
  severity := f.severity.elim .null fun i => State.literal (severities.getD i [])
  time := f.time.elim .null fun tm => .value (.ctime (mktime tm))
  host := f.host.elim .null fun sp => .value (.vstr (sp.text t))
  repeated := f.repeated.elim .null fun i => .value (.int i)
  pid := f.pid.elim .null fun i => .value (.int i)
  prog := f.prog.elim .null fun p => .value (p.value t)
  msg := f.msg.elim .null fun sp => .value (.vstr (sp.text t))

def Scan.state (s : Scan) : State F :=
  { txtLine := t.advance s.pos, txtLen := s.len, attr := s.found.attr mktime t }

theorem Scan.state_skip (s : Scan) (n : Nat) :
    ((s.skip n).state mktime t : State F) = (s.state mktime t).skip n := by
  rw [Scan.state, State.skip, Scan.skip, Scan.state]
  dsimp only
  rw [Text.advance_advance]

end

/-- `r'` is what `r` is when its results are viewed so, and these have a property. -/
structure Follows {α β : Type} (view : α → β) (P : α → Prop) (r : Except Reject α)
    (r' : Except Reject β) : Prop where
  eq : r.map view = r'
  post : ∀ a, r = .ok a → P a

section

variable {α β γ δ : Type} {view : α → β} {view' : γ → δ} {P : α → Prop} {Q : γ → Prop}

theorem follows_ok {a : α} (h : P a) : Follows view P (.ok a) (.ok (view a)) where
  eq := rfl
  post _ ha := Except.ok.inj ha ▸ h

theorem follows_error (e : Reject) : Follows view P (.error e) (.error e) := ⟨rfl, nofun⟩

theorem Follows.bind {r : Except Reject α} {r' : Except Reject β} (h : Follows view P r r')
    {f : α → Except Reject γ} {g : β → Except Reject δ}
    (hf : ∀ a, P a → Follows view' Q (f a) (g (view a))) :
    Follows view' Q (r >>= f) (r' >>= g) := by
  rw [← h.eq]
  cases hr : r with
  | error e => exact follows_error e
  | ok a => exact hf a (h.post a hr)

end

/-! ## Steps -/

/-- The state after a step: what is left of the line is counted by an `int`. -/
structure Counted (line : CStr) (s : Scan) : Prop where
  len : s.len = wrap32 (line.length - s.pos)
  pos : s.pos ≤ line.length + 3
  inside : s.found.Inside line

/-- The state where there is text left. -/
structure Live (line : CStr) (s : Scan) : Prop extends Counted line s where
  live : 0 < s.len

section

variable {line : CStr} {s : Scan}

theorem Counted.skip (h : Counted line s) {n : Nat} (hn : s.pos + n ≤ line.length + 3) :
    Counted line (s.skip n) where
  len := by
    have hpos : ((line.length : Int) - s.pos - n) = line.length - (s.skip n).pos := by
      rw [Scan.skip]
      push_cast
      omega
    rw [← hpos, ← subSize_wrap32, ← h.len]
    rfl
  pos := hn
  inside := h.inside

theorem Live.toSize_len (h : Live line s) : (toSize s.len : Int) = s.len := by
  have hlive := h.live
  have hlt : s.len < 2 ^ 31 := h.len ▸ wrap32_lt _
  rw [toSize_of_nonneg (Int.le_of_lt hlive) hlt]
  omega

theorem Live.le (h : Live line s) : s.pos + toSize s.len ≤ line.length ∧ s.pos < line.length := by
  have hpos := h.pos
  have hlive := h.live
  rw [h.len] at hlive
  obtain ⟨hlt, hle⟩ := of_wrap32_pos (by omega) hlive
  rw [h.len, toSize_of_nonneg (Int.le_of_lt hlive) (wrap32_lt _)]
  omega

variable {F : Type} {mktime : Tm → BitVec 64} {t : Text}

theorem readAt_zero (ht : IsLine line t) {pos : Nat} (h : pos ≤ line.length) :
    readAt line pos = .ok ((t.advance pos).byteAt 0) := @readAt_eq _ _ _ ht 0 h

/-- A byte that is not `NUL` is in the line. -/
theorem pos_lt_of_byteAt (ht : IsLine line t) {pos i : Nat} (h : pos + i ≤ line.length)
    (hne : (t.advance pos).byteAt i ≠ 0) : pos + i < line.length :=
  Nat.lt_of_le_of_ne h fun heq => hne (byteAt_nul ht heq)

theorem follows_checkLen (h : Counted line s) :
    Follows (Scan.state mktime t) (Live line) s.checkLen
      (State.checkLen (s.state mktime t : State F)) := by
  rw [Scan.checkLen, State.checkLen]
  by_cases hlen : s.len ≤ 0
  · rw [if_pos hlen, if_pos (show (s.state mktime t : State F).txtLen ≤ 0 from hlen)]
    exact follows_error .failed
  · rw [if_neg hlen, if_neg (show ¬ (s.state mktime t : State F).txtLen ≤ 0 from hlen)]
    exact follows_ok ⟨h, Int.not_le.mp hlen⟩

theorem follows_skip {P : Scan → Prop} {n : Nat} (h : P (s.skip n)) :
    Follows (Scan.state mktime t) P (.ok (s.skip n))
      (.ok ((s.state mktime t : State F).skip n)) := by
  rw [← Scan.state_skip]
  exact follows_ok h

theorem follows_skip_checkLen (h : Counted line s) {n : Nat} (hn : s.pos + n ≤ line.length + 3) :
    Follows (Scan.state mktime t) (Live line) (s.skip n).checkLen
      ((s.state mktime t : State F).skip n).checkLen := by
  rw [← Scan.state_skip]
  exact follows_checkLen (h.skip hn)

theorem follows_readPriority (ht : IsLine line t) (h : Counted line s) (hpos : s.pos ≤ line.length) :
    Follows (Scan.state mktime t) (Counted line) (s.readPriority line)
      (State.readPriority (s.state mktime t : State F)) := by
  rw [Scan.readPriority, bind_of_ok (readAt_zero ht hpos), State.readPriority]
  by_cases h60 : (t.advance s.pos).byteAt 0 = 60
  · rw [if_pos h60, if_pos (show (s.state mktime t : State F).txtLine.byteAt 0 = 60 from h60)]
    have hlt : s.pos < line.length := pos_lt_of_byteAt ht hpos (by rw [h60]; decide)
    obtain ⟨hint, hsize⟩ := @getNextIntAt_eq line t (s.pos + 1) ht (toSize s.len) hlt
    have hstate : getNextInt ((s.state mktime t : State F).txtLine.advance 1)
        (toSize (s.state mktime t : State F).txtLen) =
          getNextInt (t.advance (s.pos + 1)) (toSize s.len) := by
      rw [← Text.advance_advance]
      rfl
    rw [bind_of_ok hint, hstate]
    revert hsize
    generalize getNextInt (t.advance (s.pos + 1)) (toSize s.len) = r
    obtain ⟨tokenSize, priority⟩ := r
    intro hsize
    dsimp only
    by_cases hpri : (191 : BitVec 64).slt priority
    · rw [if_pos hpri, if_pos hpri]
      exact follows_error .failed
    · rw [if_neg hpri, if_neg hpri]
      by_cases hle : facilities.length ≤ priority.toNat >>> 3
      · rw [if_pos hle, List.getElem?_eq_none hle]
        exact follows_error (.crash .misread)
      · have hget : facilities[priority.toNat >>> 3]? =
            some (facilities.getD (priority.toNat >>> 3) []) := by
          rw [List.getD_eq_getElem?_getD, List.getElem?_eq_getElem (Nat.not_le.mp hle)]
          rfl
        rw [if_neg hle, hget]
        have hcounted : Counted line { s with
            found := { s.found with
              facility := some (priority.toNat >>> 3), severity := some (priority.toNat % 8) } } :=
          ⟨h.len, h.pos, h.inside.host, h.inside.prog, h.inside.msg⟩
        exact follows_skip (hcounted.skip (by dsimp only; omega))
  · rw [if_neg h60, if_neg (show ¬ (s.state mktime t : State F).txtLine.byteAt 0 = 60 from h60)]
    exact follows_ok h

theorem bytesAre_eq (ht : IsLine line t) (pos : Nat) (l : List (Nat × UInt8))
    (hl : ∀ p ∈ l, pos + p.1 ≤ line.length) :
    bytesAre line pos l = .ok (l.all fun p => (t.advance pos).byteAt p.1 == p.2) := by
  induction l with
  | nil => rfl
  | cons p l ih =>
    obtain ⟨i, c⟩ := p
    rw [bytesAre, bind_of_ok (readAt_eq ht (hl _ List.mem_cons_self)), List.all_cons]
    by_cases hc : (t.advance pos).byteAt i = c
    · rw [if_pos hc, beq_iff_eq.mpr hc, Bool.true_and]
      exact ih fun p hp => hl p (List.mem_cons_of_mem _ hp)
    · rw [if_neg hc, beq_eq_false_iff_ne.mpr hc]
      rfl

theorem atDate_eq (ht : IsLine line t) (h : Counted line s) :
    s.atDate line = .ok (s.state mktime t : State F).atDate ∧
      ((s.state mktime t : State F).atDate = true → s.pos + 16 ≤ line.length) := by
  rw [Scan.atDate]
  have hstate : (s.state mktime t : State F).atDate =
      (decide (s.len > 15) && [((3 : Nat), (32 : UInt8)), (6, 32), (9, 58), (12, 58), (15, 32)].all
        fun p => (t.advance s.pos).byteAt p.1 == p.2) := by
    simp only [State.atDate, Scan.state, List.all_cons, List.all_nil, Bool.and_true, Bool.and_assoc]
    rfl
  rw [hstate]
  by_cases hlen : s.len > 15
  · have hlive : Live line s := ⟨h, by omega⟩
    have hle := hlive.le
    have hsize := hlive.toSize_len
    rw [if_pos hlen, bytesAre_eq ht, decide_eq_true hlen, Bool.true_and]
    · exact ⟨rfl, fun _ => by omega⟩
    · intro p hp
      have hoffset : ∀ p ∈ [((3 : Nat), (32 : UInt8)), (6, 32), (9, 58), (12, 58), (15, 32)],
          p.1 ≤ 15 := by decide
      have := hoffset p hp
      omega
  · rw [if_neg hlen, decide_eq_false hlen, Bool.false_and]
    exact ⟨rfl, nofun⟩

theorem readBytes_eq (ht : IsLine line t) (n pos : Nat) (h : pos + n ≤ line.length) :
    readBytes line pos n = .ok ((t.advance pos).mem n) := by
  induction n generalizing pos with
  | zero =>
    rw [readBytes, Text.mem, Nat.zero_sub]
    rfl
  | succ n ih =>
    rw [readBytes, bind_of_ok (readAt_zero ht (by omega)), bind_of_ok (ih (pos + 1) (by omega)),
      Text.mem_succ, Text.advance_advance]
    rfl

/-- `getdate` reads 15 bytes. -/
theorem getdate_mem (p : Text) : getdate { bytes := p.mem 15, behind := fun _ => 0 } = getdate p := by
  have hbyte : ∀ i < 15,
      ({ bytes := p.mem 15, behind := fun _ => 0 } : Text).byteAt i = p.byteAt i := by
    intro i hi
    rw [Text.byteAt, Text.getElem?_mem p hi]
    rfl
  have hmonth : month { bytes := p.mem 15, behind := fun _ => 0 } = month p := by
    rw [month, month, hbyte 0 (by decide), hbyte 1 (by decide), hbyte 2 (by decide)]
  simp only [getdate, hmonth, hbyte 4 (by decide), hbyte 5 (by decide), hbyte 7 (by decide),
    hbyte 8 (by decide), hbyte 10 (by decide), hbyte 11 (by decide), hbyte 13 (by decide),
    hbyte 14 (by decide)]

theorem follows_readDate (ht : IsLine line t) (h : Counted line s) :
    Follows (Scan.state mktime t) (Counted line) (s.readDate line)
      (State.readDate mktime (s.state mktime t : State F)) := by
  obtain ⟨hatDate, hpos⟩ := @atDate_eq line s F mktime t ht h
  rw [Scan.readDate, bind_of_ok hatDate, State.readDate]
  by_cases hdate : (s.state mktime t : State F).atDate = true
  · have hpos := hpos hdate
    have hget : getdateAt line s.pos = .ok (getdate (s.state mktime t : State F).txtLine) := by
      rw [getdateAt, bind_of_ok (readBytes_eq ht 15 s.pos (by omega)), getdate_mem]
      rfl
    rw [if_pos hdate, if_pos hdate, bind_of_ok hget]
    cases getdate (s.state mktime t : State F).txtLine with
    | none => exact follows_error .failed
    | some tm =>
      have hcounted : Counted line { s with found := { s.found with time := some tm } } :=
        ⟨h.len, h.pos, h.inside.host, h.inside.prog, h.inside.msg⟩
      exact follows_skip (hcounted.skip (by dsimp only; omega))
  · rw [if_neg hdate, if_neg hdate]
    exact follows_ok h

theorem follows_readHost (ht : IsLine line t) (h : Live line s) :
    Follows (Scan.state mktime t) (Live line) (s.readHost line)
      (State.readHost (s.state mktime t : State F)) := by
  obtain ⟨hspan, hsize⟩ := myStrspnAt_eq ht (ascii " [:") _ h.le.1
  have hle := h.le
  have hstate : myStrspn (s.state mktime t : State F).txtLine (ascii " [:")
      (toSize (s.state mktime t : State F).txtLen) =
        myStrspn (t.advance s.pos) (ascii " [:") (toSize s.len) := rfl
  rw [Scan.readHost, bind_of_ok hspan, State.readHost, hstate]
  generalize myStrspn (t.advance s.pos) (ascii " [:") (toSize s.len) = tokenSize at *
  rw [bind_of_ok (readAt_eq ht (by omega))]
  dsimp only
  by_cases h32 : (t.advance s.pos).byteAt tokenSize = 32
  · have hlt : s.pos + tokenSize < line.length :=
      pos_lt_of_byteAt ht (by omega) (by rw [h32]; decide)
    have hiff : ((s.state mktime t : State F).txtLine.byteAt tokenSize = 32 ∧
        (s.state mktime t : State F).txtLine.byteAt (tokenSize + 1) ≠ 40) ↔
          (t.advance s.pos).byteAt (tokenSize + 1) ≠ 40 := and_iff_right h32
    rw [if_pos h32, bind_of_ok (readAt_eq ht (by omega))]
    by_cases h40 : (t.advance s.pos).byteAt (tokenSize + 1) ≠ 40
    · rw [if_pos h40, if_pos (hiff.mpr h40)]
      have hcounted : Counted line { s with
          found := { s.found with host := some (s.span tokenSize) } } := by
        refine ⟨h.len, h.pos, ?_, h.inside.prog, h.inside.msg⟩
        rintro sp ⟨⟩
        exact Nat.le_of_lt hlt
      exact follows_skip_checkLen hcounted (by dsimp only; omega)
    · rw [if_neg h40, if_neg fun hboth => h40 (hiff.mp hboth)]
      exact follows_ok h
  · have hneg : ¬ ((s.state mktime t : State F).txtLine.byteAt tokenSize = 32 ∧
        (s.state mktime t : State F).txtLine.byteAt (tokenSize + 1) ≠ 40) := fun hboth => h32 hboth.1
    rw [if_neg h32, if_neg hneg]
    exact follows_ok h

theorem follows_readRepeated (ht : IsLine line t) (h : Live line s)
    (hpos : s.pos + 22 ≤ line.length) :
    Follows (Found.attr mktime t) (Found.Inside line) (s.readRepeated line)
      (.ok (State.readRepeated (s.state mktime t : State F))) := by
  obtain ⟨hspan, hsize⟩ := myStrspnAt_eq ht (ascii "\r\n") _ h.le.1
  have hle := h.le
  obtain ⟨hint, -⟩ := getNextIntAt_eq ht (toSize (s.skip 22).len) hpos
  rw [Scan.readRepeated, bind_of_ok hspan]
  dsimp only
  rw [bind_of_ok (show getNextIntAt line (s.skip 22).pos _ = _ from hint), State.readRepeated,
    ← Scan.state_skip]
  refine follows_ok ⟨h.inside.host, nofun, ?_⟩
  rintro sp ⟨⟩
  exact Nat.le_trans (Nat.add_le_add_left hsize _) hle.1

theorem follows_readProg (ht : IsLine line t) (h : Live line s) :
    Follows (Scan.state mktime t) (Live line) (s.readProg line)
      (State.readProg (s.state mktime t : State F)) := by
  obtain ⟨hspan, hsize⟩ := myStrspnAt_eq ht (ascii "[:") _ h.le.1
  have hle := h.le
  obtain ⟨hstarts, hsix⟩ := startsAt_eq ht (ascii "gconfd") (by decide) (Nat.le_of_lt hle.2)
  rw [Scan.readProg, bind_of_ok hspan, bind_of_ok hstarts, State.readProg]
  have hcounted : Counted line { s with
      found := { s.found with prog := some (.span (s.span
        (if (t.advance s.pos).startsWith (ascii "gconfd") then 6
          else myStrspn (t.advance s.pos) (ascii "[:") (toSize s.len)))) } } := by
    refine ⟨h.len, h.pos, h.inside.host, ?_, h.inside.msg⟩
    rintro sp ⟨⟩
    rw [Span.Inside, Scan.span]
    dsimp only
    split
    · exact hsix ‹_›
    · omega
  exact follows_skip_checkLen hcounted (by dsimp only; omega)

theorem follows_readPid (ht : IsLine line t) (h : Live line s) :
    Follows (Scan.state mktime t) (Live line) (s.readPid line)
      (State.readPid (s.state mktime t : State F)) := by
  have hle := h.le
  have hnext : s.pos + 1 ≤ line.length := hle.2
  rw [Scan.readPid, bind_of_ok (readAt_zero ht (Nat.le_of_lt hle.2)), State.readPid]
  by_cases h91 : (t.advance s.pos).byteAt 0 = 91
  · obtain ⟨hint, hsize⟩ := getNextIntAt_eq ht (toSize s.len) hnext
    obtain ⟨hstarts, -⟩ := startsAt_eq ht (ascii "]: ") (by decide) hsize
    have hstate : getNextInt ((s.state mktime t : State F).txtLine.advance 1)
        (toSize (s.state mktime t : State F).txtLen) =
          getNextInt (t.advance (s.pos + 1)) (toSize s.len) := by
      rw [← Text.advance_advance]
      rfl
    rw [if_pos h91, if_pos (show (s.state mktime t : State F).txtLine.byteAt 0 = 91 from h91),
      bind_of_ok hint, hstate]
    dsimp only
    rw [bind_of_ok hstarts]
    have hcounted : Counted line { s with
        found := { s.found with
          pid := some (getNextInt (t.advance (s.pos + 1)) (toSize s.len)).2 } } :=
      ⟨h.len, h.pos, h.inside.host, h.inside.prog, h.inside.msg⟩
    exact follows_skip_checkLen hcounted (by dsimp only; omega)
  · rw [if_neg h91, if_neg (show ¬ (s.state mktime t : State F).txtLine.byteAt 0 = 91 from h91)]
    by_cases h58 : (t.advance s.pos).byteAt 0 = 58
    · rw [if_pos h58, if_pos (show (s.state mktime t : State F).txtLine.byteAt 0 = 58 from h58)]
      exact follows_skip_checkLen h.toCounted (by omega)
    · rw [if_neg h58, if_neg (show ¬ (s.state mktime t : State F).txtLine.byteAt 0 = 58 from h58)]
      exact follows_checkLen h.toCounted

theorem follows_readMsg (ht : IsLine line t) (h : Live line s) :
    Follows (Found.attr mktime t) (Found.Inside line) (s.readMsg line)
      (.ok (State.readMsg (s.state mktime t : State F))) := by
  obtain ⟨hspan, hsize⟩ := myStrspnAt_eq ht (ascii "\r\n") _ h.le.1
  have hle := h.le
  rw [Scan.readMsg, bind_of_ok hspan, State.readMsg]
  refine follows_ok ⟨h.inside.host, h.inside.prog, ?_⟩
  rintro sp ⟨⟩
  exact Nat.le_trans (Nat.add_le_add_left hsize _) hle.1

/-- The fields of a line are those of `attrs`, and their ranges are inside the line. -/
theorem follows_dissect (mktime : Tm → BitVec 64) (ht : IsLine line t) :
    Follows (Found.attr mktime t) (Found.Inside line) (dissect line)
      (attrs mktime t : Except Reject (Attr F)) := by
  have hcounted : Counted line { pos := 0, len := toInt line.length, found := {} } :=
    ⟨by rw [toInt, ← BitVec.ofInt_natCast]; exact congrArg wrap32 (Int.sub_zero _).symm,
      Nat.zero_le _, nofun, nofun, nofun⟩
  have hstart : (Scan.state mktime t { pos := 0, len := toInt line.length, found := {} } : State F) =
      { txtLine := t, txtLen := toInt t.bytes.length, attr := {} } := by
    rw [Scan.state, Text.advance_zero, ht.bytes]
    rfl
  rw [dissect, attrs, ← hstart]
  refine (follows_readPriority ht hcounted (Nat.zero_le _)).bind fun s₁ h₁ => ?_
  refine (follows_readDate ht h₁).bind fun s₂ h₂ => ?_
  refine (follows_checkLen h₂).bind fun s₃ h₃ => ?_
  refine (follows_readHost ht h₃).bind fun s₄ h₄ => ?_
  obtain ⟨hstarts, hpos⟩ := startsAt_eq ht (ascii "last message repeated ") (by decide)
    (Nat.le_of_lt h₄.le.2)
  rw [bind_of_ok hstarts]
  by_cases hrep : (t.advance s₄.pos).startsWith (ascii "last message repeated ") = true
  · rw [if_pos hrep, if_pos (show (s₄.state mktime t : State F).txtLine.startsWith _ = true from hrep)]
    exact follows_readRepeated ht h₄ (hpos hrep)
  · rw [if_neg hrep,
      if_neg (show ¬ (s₄.state mktime t : State F).txtLine.startsWith _ = true from hrep)]
    refine (follows_readProg ht h₄).bind fun s₅ h₅ => ?_
    refine (follows_readPid ht h₅).bind fun s₆ h₆ => ?_
    exact follows_readMsg ht h₆

/-- A line that is dissected without a crash is one with a priority that is not negative. -/
theorem crashes_dissect (line : CStr) :
    Crashes (dissect line) ↔ ¬ Readable { bytes := line, behind := fun _ => 0 } := by
  have hfollows := @follows_dissect line PUnit { bytes := line, behind := fun _ => 0 } (fun _ => 0)
    ⟨rfl, rfl⟩
  rw [← crashes_attrs (fun _ => 0), ← hfollows.eq]
  cases dissect line with
  | ok f => exact iff_of_false (not_crashes_ok _) (not_crashes_ok _)
  | error e =>
    constructor
    · rintro ⟨c, ⟨⟩⟩
      exact ⟨c, rfl⟩
    · rintro ⟨c, ⟨⟩⟩
      exact ⟨c, rfl⟩

end

end Syslog

end Orchids
