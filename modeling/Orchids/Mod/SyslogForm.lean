import Orchids.Mod.SyslogDate
import Orchids.Mod.SyslogLine

/-!
# Syslog lines in the usual form

* `Form`: the texts of which a line `<PRI>Mon D HH:MM:SS host prog[pid]: message` is made.
* `Dissects`: the dissection of a line does not crash, its ranges are inside the line, and if the
  line is in the form, the fields are these texts.
* `dissect_line`: the result for a line in the form.
* `dissects_iff`: a line is dissected so if and only if its number of the priority is not negative
  and, if it is in the form, the texts fit.
-/

namespace Orchids

namespace Syslog

/-! ## The form -/

/-- The texts of a line. -/
structure Form where
  pri : CStr
  date : CStr
  host : CStr
  prog : CStr
  pid : CStr
  message : CStr
  eol : CStr

namespace Form

def fromMessage (f : Form) : CStr := f.message ++ f.eol

def fromPid (f : Form) : CStr := 91 :: (f.pid ++ 93 :: 58 :: 32 :: f.fromMessage)

def fromProg (f : Form) : CStr := f.prog ++ f.fromPid

def fromHost (f : Form) : CStr := f.host ++ 32 :: f.fromProg

/-- What is after the priority. -/
def body (f : Form) : CStr := f.date ++ 32 :: f.fromHost

def line (f : Form) : CStr := 60 :: (f.pri ++ (62 :: f.body))

/-- `isalpha` -/
def isAlpha (c : UInt8) : Bool := (65 ≤ c && c ≤ 90) || (97 ≤ c && c ≤ 122)

/-- A name, of a host or of a program. -/
def IsName (s : CStr) : Prop := s ≠ [] ∧ ∀ c ∈ s, c ∉ ascii " []:"

/-- A number. -/
def IsNumber (s : CStr) : Prop := s ≠ [] ∧ ∀ c ∈ s, isDigit c

structure WellFormed (f : Form) : Prop where
  pri : IsNumber f.pri ∧ f.pri.length ≤ 3 ∧ digits f.pri ≤ 191
  date : f.date.length = 15 ∧ InLayout { bytes := f.date, behind := fun _ => 0 }
  host : IsName f.host
  prog : IsName f.prog ∧ ∀ c, f.prog.head? = some c → isAlpha c
  notGconfd : ¬ ascii "gconfd" <+: f.prog
  pid : IsNumber f.pid
  message : ∀ c ∈ f.message, c ∉ ascii "\r\n"
  eol : ∀ c, f.eol.head? = some c → c ∈ ascii "\r\n"

/-- An `int` counts the bytes, there is something after the program, and the number of the process is
one of a `long`. -/
structure Fits (f : Form) : Prop where
  length : f.body.length < 2 ^ 31
  message : f.fromMessage ≠ []
  pid : digits f.pid < 2 ^ 63

end Form

/-- The bytes of a range. -/
def Span.bytes (line : CStr) (sp : Span) : CStr := (line.drop sp.pos).take sp.len

/-- The fields are the texts of the line. -/
structure Faithful (f : Form) (found : Found) : Prop where
  facility : found.facility = some (digits f.pri / 8)
  severity : found.severity = some (digits f.pri % 8)
  host : ∃ sp, found.host = some sp ∧ sp.bytes f.line = f.host
  prog : ∃ sp, found.prog = some (.span sp) ∧ sp.bytes f.line = f.prog
  pid : ∃ n, found.pid = some n ∧ n.toInt = digits f.pid
  msg : ∃ sp, found.msg = some sp ∧ sp.bytes f.line = f.message

/-- The dissection is safe and faithful. -/
structure Dissects (line : CStr) : Prop where
  safe : ¬ Crashes (dissect line)
  inside : ∀ found, dissect line = .ok found → found.Inside line
  faithful : ∀ f : Form, f.WellFormed → f.line = line →
    ∃ found, dissect line = .ok found ∧ Faithful f found

/-! ## A cursor in a line -/

/-- The state before `mid`. -/
def Scan.before (pre mid : CStr) (found : Found) : Scan :=
  { pos := pre.length, len := mid.length, found }

section

variable {line pre tok mid : CStr} {found : Found}

theorem subSize_length {m n : Nat} (hm : m < 2 ^ 31) (hn : n ≤ m) :
    subSize (m : Int) n = ((m - n : Nat) : Int) := by
  have hsub : subSize (m : Int) n = wrap32 (m - n) := rfl
  rw [hsub, wrap32_eq, Int.bmod_def, if_pos (by omega)]
  omega

theorem Scan.skip_before {n : Nat} (hn : n = tok.length) (hlen : (tok ++ mid).length < 2 ^ 31) :
    (Scan.before pre (tok ++ mid) found).skip n = Scan.before (pre ++ tok) mid found := by
  subst hn
  rw [Scan.before, Scan.skip, Scan.before]
  dsimp only
  rw [subSize_length hlen (by rw [List.length_append]; omega), List.length_append,
    List.length_append, Nat.add_sub_cancel_left]

theorem Scan.checkLen_before (h : mid ≠ []) :
    (Scan.before pre mid found).checkLen = .ok (Scan.before pre mid found) := by
  have hpos : 0 < mid.length := List.length_pos_iff.mpr h
  rw [checkLen, if_neg (by dsimp only [before]; omega)]
  rfl

theorem toSize_before (hlen : mid.length < 2 ^ 31) :
    toSize (Scan.before pre mid found).len = mid.length :=
  toSize_of_nonneg (Int.natCast_nonneg _) (by dsimp only [Scan.before]; omega)

/-- The bytes of a range are known with what is before it. -/
theorem bytes_span (hline : line = pre ++ (tok ++ mid)) :
    Span.bytes line { pos := pre.length, len := tok.length } = tok := by
  rw [hline, Span.bytes, List.drop_left, List.take_left]

/-! ## Steps on known texts -/

theorem bytesAre_append (l : List (Nat × UInt8)) (hl : ∀ p ∈ l, mid[p.1]? = some p.2) :
    bytesAre (pre ++ mid) pre.length l = .ok true := by
  induction l with
  | nil => rfl
  | cons p l ih =>
    obtain ⟨i, c⟩ := p
    have hget : mid[i]? = some c := hl (i, c) List.mem_cons_self
    have hi : i < mid.length := (List.getElem?_eq_some_iff.mp hget).1
    rw [bytesAre, bind_of_ok (readAt_append (Nat.le_of_lt hi)), hget, Option.getD_some,
      if_pos rfl]
    exact ih fun p hp => hl p (List.mem_cons_of_mem _ hp)

theorem readBytes_append : readBytes (pre ++ (tok ++ mid)) pre.length tok.length = .ok tok := by
  induction tok generalizing pre with
  | nil => rfl
  | cons c tok ih =>
    have hih := @ih (pre ++ [c])
    rw [List.append_assoc, List.singleton_append, List.length_append, List.length_singleton] at hih
    have hread : readAt (pre ++ (c :: tok ++ mid)) pre.length = .ok c :=
      readAt_append (Nat.zero_le _)
    rw [List.length_cons, readBytes, bind_of_ok hread, List.cons_append, bind_of_ok hih]
    rfl

theorem readDate_before {date : CStr} (hdate : date.length = 15)
    (hlayout : InLayout { bytes := date, behind := fun _ => 0 })
    (hline : line = pre ++ (date ++ 32 :: mid)) (hlen : (date ++ 32 :: mid).length < 2 ^ 31) :
    ∃ tm, (Scan.before pre (date ++ 32 :: mid) found).readDate line =
      .ok (Scan.before (pre ++ (date ++ [32])) mid { found with time := some tm }) := by
  have hget : ∀ i c, c ≠ 0 → ({ bytes := date, behind := fun _ => 0 } : Text).byteAt i = c →
      (date ++ 32 :: mid)[i]? = some c := by
    intro i c hc hbyte
    rw [Text.byteAt] at hbyte
    cases hi : date[i]? with
    | none =>
      rw [hi] at hbyte
      exact absurd hbyte.symm hc
    | some b =>
      rw [hi] at hbyte
      rw [List.getElem?_append_left (List.getElem?_eq_some_iff.mp hi).1, hi]
      exact congrArg some hbyte
  have hatDate : (Scan.before pre (date ++ 32 :: mid) found).atDate line = .ok true := by
    have hlong : (Scan.before pre (date ++ 32 :: mid) found).len > 15 := by
      dsimp only [Scan.before]
      rw [List.length_append, List.length_cons]
      omega
    rw [Scan.atDate, if_pos hlong, hline]
    refine bytesAre_append _ ?_
    simp only [List.forall_mem_cons, List.not_mem_nil, false_implies, implies_true, and_true]
    refine ⟨hget 3 32 (by decide) hlayout.marks.1, hget 6 32 (by decide) hlayout.marks.2.1,
      hget 9 58 (by decide) hlayout.marks.2.2.1, hget 12 58 (by decide) hlayout.marks.2.2.2, ?_⟩
    rw [List.getElem?_append_right (by omega), hdate]
    rfl
  obtain ⟨tm, htm⟩ : ∃ tm, getdate { bytes := date, behind := fun _ => 0 } = some tm := by
    have hmonth : month { bytes := date, behind := fun _ => 0 } ≠ none := fun h =>
      month_eq_none_iff.mp h hlayout.firstLetter
    rw [getdate]
    cases hm : month { bytes := date, behind := fun _ => 0 } with
    | none => exact absurd hm hmonth
    | some mon => exact ⟨_, rfl⟩
  have hgetdate : getdateAt line (Scan.before pre (date ++ 32 :: mid) found).pos = .ok (some tm) := by
    have hread : readBytes line (Scan.before pre (date ++ 32 :: mid) found).pos 15 = .ok date := by
      rw [hline, ← hdate]
      exact readBytes_append
    rw [getdateAt, bind_of_ok hread]
    exact congrArg Except.ok htm
  rw [Scan.readDate, bind_of_ok hatDate, if_pos rfl, bind_of_ok hgetdate]
  refine ⟨tm, congrArg Except.ok ?_⟩
  have hmid : date ++ 32 :: mid = (date ++ [32]) ++ mid := List.append_cons _ _ _
  have hskip := @Scan.skip_before pre (date ++ [32]) mid { found with time := some tm } 16
    (by rw [List.length_append, hdate]; rfl) (hmid ▸ hlen)
  rw [← hmid] at hskip
  exact hskip

theorem readHost_before {host : CStr} {c : UInt8} (hhost : Form.IsName host) (hc : c ≠ 40)
    (hline : line = pre ++ (host ++ 32 :: c :: mid))
    (hlen : (host ++ 32 :: c :: mid).length < 2 ^ 31) :
    (Scan.before pre (host ++ 32 :: c :: mid) found).readHost line =
      .ok (Scan.before (pre ++ (host ++ [32])) (c :: mid)
        { found with host := some { pos := pre.length, len := host.length } }) := by
  have hname : ∀ b ∈ host, b ∉ ascii " [:" := by
    have hsub : ∀ b ∈ ascii " [:", b ∈ ascii " []:" := by simp [ascii]
    exact fun b hb hmem => hhost.2 b hb (hsub b hmem)
  have hspan : myStrspnAt line (Scan.before pre (host ++ 32 :: c :: mid) found).pos (ascii " [:")
      (toSize (Scan.before pre (host ++ 32 :: c :: mid) found).len) = .ok host.length := by
    rw [toSize_before hlen, hline]
    refine myStrspnAt_append hname (.inl ⟨?_, show 32 ∈ ascii " [:" by decide⟩)
    rw [List.length_append, List.length_cons]
    omega
  have hread : ∀ i ≤ 1, readAt line
      ((Scan.before pre (host ++ 32 :: c :: mid) found).pos + (host.length + i)) =
        .ok ((32 :: c :: mid)[i]?.getD 0) := by
    intro i hi
    rw [hline, Scan.before, readAt_append (by
      rw [List.length_append, List.length_cons, List.length_cons]; omega),
      List.getElem?_append_right (Nat.le_add_right _ _), Nat.add_sub_cancel_left]
  have hfirst := hread 0 (by decide)
  rw [Nat.add_zero] at hfirst
  rw [Scan.readHost, bind_of_ok hspan, bind_of_ok hfirst,
    if_pos (show (32 :: c :: mid)[0]?.getD 0 = 32 from rfl), bind_of_ok (hread 1 (by decide)),
    if_pos (show (32 :: c :: mid)[1]?.getD 0 ≠ 40 from hc)]
  have hmid : host ++ 32 :: c :: mid = (host ++ [32]) ++ c :: mid := List.append_cons _ _ _
  have hskip := @Scan.skip_before pre (host ++ [32]) (c :: mid)
    { found with host := some { pos := pre.length, len := host.length } } (host.length + 1)
    (by rw [List.length_append, List.length_singleton]) (hmid ▸ hlen)
  rw [← hmid] at hskip
  exact (congrArg Scan.checkLen hskip).trans (Scan.checkLen_before (List.cons_ne_nil _ _))

/-- A prefix without the byte that ends a text is a prefix of the text. -/
theorem prefix_of_prefix_append {s : CStr} {c : UInt8} (hc : c ∉ s) (h : s <+: tok ++ c :: mid) :
    s <+: tok := by
  rw [List.append_cons] at h
  rcases List.prefix_or_prefix_of_prefix h (List.prefix_append _ mid) with h | h
  · rcases List.prefix_concat_iff.mp h with rfl | h
    · exact absurd (List.mem_append_right tok List.mem_cons_self) hc
    · exact h
  · exact absurd (h.subset (List.mem_append_right tok List.mem_cons_self)) hc

theorem readProg_before {prog : CStr} (hprog : Form.IsName prog)
    (hgconfd : ¬ ascii "gconfd" <+: prog) (hline : line = pre ++ (prog ++ 91 :: mid))
    (hlen : (prog ++ 91 :: mid).length < 2 ^ 31) :
    (Scan.before pre (prog ++ 91 :: mid) found).readProg line =
      .ok (Scan.before (pre ++ prog) (91 :: mid)
        { found with prog := some (.span { pos := pre.length, len := prog.length }) }) := by
  have hname : ∀ b ∈ prog, b ∉ ascii "[:" := by
    have hsub : ∀ b ∈ ascii "[:", b ∈ ascii " []:" := by simp [ascii]
    exact fun b hb hmem => hprog.2 b hb (hsub b hmem)
  have hspan : myStrspnAt line (Scan.before pre (prog ++ 91 :: mid) found).pos (ascii "[:")
      (toSize (Scan.before pre (prog ++ 91 :: mid) found).len) = .ok prog.length := by
    rw [toSize_before hlen, hline]
    refine myStrspnAt_append hname (.inl ⟨?_, show 91 ∈ ascii "[:" by decide⟩)
    rw [List.length_append, List.length_cons]
    omega
  have hstarts : startsAt line (ascii "gconfd") (Scan.before pre (prog ++ 91 :: mid) found).pos =
      .ok false := by
    rw [hline, Scan.before, startsAt_append (by decide), Except.ok.injEq, Bool.eq_false_iff, Ne,
      List.isPrefixOf_iff_prefix]
    exact fun h => hgconfd (prefix_of_prefix_append (by decide) h)
  rw [Scan.readProg, bind_of_ok hspan, bind_of_ok hstarts]
  have hskip := @Scan.skip_before pre prog (91 :: mid)
    { found with prog := some (.span { pos := pre.length, len := prog.length }) } prog.length rfl hlen
  exact (congrArg Scan.checkLen hskip).trans (Scan.checkLen_before (List.cons_ne_nil _ _))

theorem readPid_before {pid : CStr} (hpid : Form.IsNumber pid)
    (hline : line = pre ++ (91 :: (pid ++ 93 :: 58 :: 32 :: mid)))
    (hlen : (91 :: (pid ++ 93 :: 58 :: 32 :: mid)).length < 2 ^ 31) :
    (Scan.before pre (91 :: (pid ++ 93 :: 58 :: 32 :: mid)) found).readPid line =
      (Scan.before (pre ++ (91 :: (pid ++ [93, 58, 32]))) mid
        { found with pid := some (BitVec.ofNat 64 (digits pid)) }).checkLen := by
  have hread : readAt line (Scan.before pre (91 :: (pid ++ 93 :: 58 :: 32 :: mid)) found).pos =
      .ok 91 := by
    rw [hline]
    exact readAt_append (Nat.zero_le _)
  have hline' : line = (pre ++ [91]) ++ (pid ++ 93 :: 58 :: 32 :: mid) := by
    rw [hline, List.append_assoc, List.singleton_append]
  have hpos : (Scan.before pre (91 :: (pid ++ 93 :: 58 :: 32 :: mid)) found).pos + 1 =
      (pre ++ [91]).length := by
    rw [List.length_append, List.length_singleton]
    rfl
  have hint : getNextIntAt line
      ((Scan.before pre (91 :: (pid ++ 93 :: 58 :: 32 :: mid)) found).pos + 1)
      (toSize (Scan.before pre (91 :: (pid ++ 93 :: 58 :: 32 :: mid)) found).len) =
        .ok (pid.length, BitVec.ofNat 64 (digits pid)) := by
    rw [toSize_before hlen, hpos, hline']
    have hclose : ¬ isDigit ((93 :: 58 :: 32 :: mid)[0]?.getD 0) := show ¬ isDigit 93 by decide
    refine getNextIntAt_append hpid.2 hclose ?_
    rw [List.length_cons, List.length_append]
    omega
  obtain ⟨b, hstarts⟩ : ∃ b, startsAt line (ascii "]: ")
      ((Scan.before pre (91 :: (pid ++ 93 :: 58 :: 32 :: mid)) found).pos + 1 + pid.length) =
        .ok b := by
    have hline'' : line = (pre ++ [91] ++ pid) ++ 93 :: 58 :: 32 :: mid := by
      rw [hline', List.append_assoc, List.append_assoc, List.append_assoc]
    rw [hpos, ← List.length_append, hline'']
    exact ⟨_, startsAt_append (by decide)⟩
  rw [Scan.readPid, bind_of_ok hread]
  dsimp only
  rw [if_pos rfl, bind_of_ok hint]
  dsimp only
  rw [bind_of_ok hstarts]
  have hmid : 91 :: (pid ++ 93 :: 58 :: 32 :: mid) = (91 :: (pid ++ [93, 58, 32])) ++ mid := by
    rw [List.cons_append, List.append_assoc]
    rfl
  have hskip := @Scan.skip_before pre (91 :: (pid ++ [93, 58, 32])) mid
    { found with pid := some (BitVec.ofNat 64 (digits pid)) } (pid.length + 4)
    (by rw [List.length_cons, List.length_append]; rfl) (hmid ▸ hlen)
  rw [← hmid] at hskip
  exact congrArg Scan.checkLen hskip

theorem readMsg_before {message eol : CStr} (hmessage : ∀ c ∈ message, c ∉ ascii "\r\n")
    (heol : ∀ c, eol.head? = some c → c ∈ ascii "\r\n") (hline : line = pre ++ (message ++ eol))
    (hlen : (message ++ eol).length < 2 ^ 31) :
    (Scan.before pre (message ++ eol) found).readMsg line =
      .ok { found with msg := some { pos := pre.length, len := message.length } } := by
  have hspan : myStrspnAt line (Scan.before pre (message ++ eol) found).pos (ascii "\r\n")
      (toSize (Scan.before pre (message ++ eol) found).len) = .ok message.length := by
    rw [toSize_before hlen, hline]
    refine myStrspnAt_append hmessage ?_
    cases eol with
    | nil => exact .inr (by rw [List.append_nil])
    | cons c eol =>
      refine .inl ⟨?_, heol c rfl⟩
      rw [List.length_append, List.length_cons]
      omega
  rw [Scan.readMsg, bind_of_ok hspan]
  rfl

end

/-! ## Lines in the form -/

section

variable {f : Form}

theorem readPriority_line (hf : f.WellFormed) (hlen : f.body.length < 2 ^ 31) :
    (⟨0, toInt f.line.length, {}⟩ : Scan).readPriority f.line =
      .ok (Scan.before (60 :: (f.pri ++ [62])) f.body
        { facility := some (digits f.pri / 8), severity := some (digits f.pri % 8) }) := by
  obtain ⟨hnumber, hthree, hle⟩ := hf.pri
  have hlength : f.line.length = f.pri.length + 2 + f.body.length := by
    rw [Form.line, List.length_cons, List.length_append, List.length_cons]
    omega
  have hread : readAt f.line 0 = .ok 60 := rfl
  have hsize : f.pri.length ≤ toSize (toInt f.line.length) + 1 := by
    have hbody : 15 ≤ f.body.length := by
      rw [Form.body, List.length_append, hf.date.1]
      omega
    have htoInt : toInt f.line.length = (f.line.length : Int).bmod 4294967296 :=
      wrap32_eq f.line.length
    have htoSize : toSize (toInt f.line.length) =
        (toInt f.line.length % 18446744073709551616).toNat := BitVec.toNat_ofInt _
    rw [Int.bmod_def] at htoInt
    rw [htoSize]
    split at htoInt <;> omega
  have hint : getNextIntAt f.line (0 + 1) (toSize (toInt f.line.length)) =
      .ok (f.pri.length, BitVec.ofNat 64 (digits f.pri)) :=
    @getNextIntAt_append [60] (62 :: f.body) f.pri hnumber.2 (show ¬ isDigit 62 by decide) _ hsize
  have htoNat : (BitVec.ofNat 64 (digits f.pri)).toNat = digits f.pri := by
    rw [BitVec.toNat_ofNat]
    omega
  have hslt : ¬ (191 : BitVec 64).slt (BitVec.ofNat 64 (digits f.pri)) := by
    have hint : (BitVec.ofNat 64 (digits f.pri)).toInt = digits f.pri := by
      rw [BitVec.toInt_eq_toNat_of_lt (by rw [htoNat]; omega), htoNat]
    have h191 : (191 : BitVec 64).toInt = 191 := rfl
    rw [BitVec.slt_iff_toInt_lt, hint, h191]
    omega
  have hshift : digits f.pri >>> 3 = digits f.pri / 8 := Nat.shiftRight_eq_div_pow _ 3
  have hindex : ¬ facilities.length ≤ digits f.pri / 8 := by
    have : facilities.length = 24 := rfl
    omega
  rw [Scan.readPriority, bind_of_ok hread, if_pos rfl]
  dsimp only
  rw [bind_of_ok hint]
  dsimp only
  rw [if_neg hslt, htoNat, hshift, if_neg hindex]
  have hlen' : subSize (toInt f.line.length) (f.pri.length + 2) = f.body.length := by
    have hwrap : toInt f.line.length = wrap32 f.line.length := rfl
    rw [hwrap, subSize_wrap32, wrap32_eq, Int.bmod_def, if_pos (by omega)]
    omega
  refine congrArg Except.ok ?_
  rw [Scan.skip, Scan.before, List.length_cons, List.length_append]
  dsimp only
  rw [hlen', Nat.zero_add]
  rfl

/-- The result for a line in the form. -/
theorem dissect_line (hf : f.WellFormed) (hlen : f.body.length < 2 ^ 31) :
    (f.fromMessage = [] → dissect f.line = .error .failed) ∧
      (f.fromMessage ≠ [] → ∃ found, dissect f.line = .ok found ∧
        found.facility = some (digits f.pri / 8) ∧ found.severity = some (digits f.pri % 8) ∧
        (∃ sp, found.host = some sp ∧ sp.bytes f.line = f.host) ∧
        (∃ sp, found.prog = some (.span sp) ∧ sp.bytes f.line = f.prog) ∧
        found.pid = some (BitVec.ofNat 64 (digits f.pid)) ∧
        ∃ sp, found.msg = some sp ∧ sp.bytes f.line = f.message) := by
  obtain ⟨c, prog', hprog⟩ : ∃ c prog', f.prog = c :: prog' := List.exists_cons_of_ne_nil hf.prog.1.1
  have hc : c ≠ 40 := by
    rintro rfl
    exact absurd (hf.prog.2 40 (by rw [hprog]; rfl)) (by decide)
  have hprogLine : f.fromProg = c :: (prog' ++ f.fromPid) := by
    rw [Form.fromProg, hprog]
    rfl
  -- what is before the parts of the line
  obtain ⟨pre₁, hpre₁⟩ : ∃ pre, pre = 60 :: (f.pri ++ [62]) := ⟨_, rfl⟩
  have hline₁ : f.line = pre₁ ++ (f.date ++ 32 :: f.fromHost) := by
    rw [hpre₁, Form.line, List.cons_append, List.append_assoc]
    rfl
  obtain ⟨pre₂, hpre₂⟩ : ∃ pre, pre = pre₁ ++ (f.date ++ [32]) := ⟨_, rfl⟩
  have hline₂ : f.line = pre₂ ++ f.fromHost := by
    rw [hpre₂, hline₁, List.append_assoc, List.append_assoc]
    rfl
  obtain ⟨pre₃, hpre₃⟩ : ∃ pre, pre = pre₂ ++ (f.host ++ [32]) := ⟨_, rfl⟩
  have hline₃ : f.line = pre₃ ++ f.fromProg := by
    rw [hpre₃, hline₂, List.append_assoc, List.append_assoc]
    rfl
  obtain ⟨pre₄, hpre₄⟩ : ∃ pre, pre = pre₃ ++ f.prog := ⟨_, rfl⟩
  have hline₄ : f.line = pre₄ ++ f.fromPid := by
    rw [hpre₄, hline₃, List.append_assoc]
    rfl
  obtain ⟨pre₅, hpre₅⟩ : ∃ pre, pre = pre₄ ++ (91 :: (f.pid ++ [93, 58, 32])) := ⟨_, rfl⟩
  have hline₅ : f.line = pre₅ ++ f.fromMessage := by
    rw [hpre₅, hline₄, List.append_assoc, List.cons_append, List.append_assoc]
    rfl
  have hlen₂ : f.fromHost.length < 2 ^ 31 := by
    have : f.body.length = f.date.length + (f.fromHost.length + 1) := List.length_append
    omega
  have hlen₃ : f.fromProg.length < 2 ^ 31 := by
    have : f.fromHost.length = f.host.length + (f.fromProg.length + 1) := List.length_append
    omega
  have hlen₄ : f.fromPid.length < 2 ^ 31 := by
    have : f.fromProg.length = f.prog.length + f.fromPid.length := List.length_append
    omega
  have hlen₅ : f.fromMessage.length < 2 ^ 31 := by
    have : f.fromPid.length = (f.pid ++ 93 :: 58 :: 32 :: f.fromMessage).length + 1 := rfl
    rw [List.length_append, List.length_cons, List.length_cons, List.length_cons] at this
    omega
  have hpri := readPriority_line hf hlen
  rw [← hpre₁] at hpri
  obtain ⟨tm, hdate⟩ := @readDate_before f.line pre₁ f.fromHost
    { facility := some (digits f.pri / 8), severity := some (digits f.pri % 8) } f.date hf.date.1
    hf.date.2 hline₁ hlen
  rw [← hpre₂, show f.date ++ 32 :: f.fromHost = f.body from rfl] at hdate
  have hfromHost : f.fromHost = f.host ++ 32 :: c :: (prog' ++ f.fromPid) := by
    rw [Form.fromHost, hprogLine]
  have hhost := @readHost_before f.line pre₂ (prog' ++ f.fromPid)
    { facility := some (digits f.pri / 8), severity := some (digits f.pri % 8), time := some tm }
    f.host c hf.host hc (hfromHost ▸ hline₂) (hfromHost ▸ hlen₂)
  rw [← hfromHost, ← hprogLine, ← hpre₃] at hhost
  have hstarts : startsAt f.line (ascii "last message repeated ") pre₃.length = .ok false := by
    rw [hline₃, startsAt_append (by decide), Except.ok.injEq, Bool.eq_false_iff, Ne,
      List.isPrefixOf_iff_prefix]
    intro hprefix
    have hblank : 32 ∈ f.prog :=
      (prefix_of_prefix_append (by decide) hprefix).subset (by decide)
    exact hf.prog.1.2 32 hblank (by decide)
  have hprog := @readProg_before f.line pre₃ (f.pid ++ 93 :: 58 :: 32 :: f.fromMessage)
    { facility := some (digits f.pri / 8), severity := some (digits f.pri % 8), time := some tm
      host := some { pos := pre₂.length, len := f.host.length } }
    f.prog hf.prog.1 hf.notGconfd hline₃ hlen₃
  have hfromPid : 91 :: (f.pid ++ 93 :: 58 :: 32 :: f.fromMessage) = f.fromPid := rfl
  rw [← hpre₄, hfromPid, show f.prog ++ f.fromPid = f.fromProg from rfl] at hprog
  have hpid := @readPid_before f.line pre₄ f.fromMessage
    { facility := some (digits f.pri / 8), severity := some (digits f.pri % 8), time := some tm
      host := some { pos := pre₂.length, len := f.host.length }
      prog := some (.span { pos := pre₃.length, len := f.prog.length }) }
    f.pid hf.pid hline₄ hlen₄
  rw [← hpre₅, hfromPid] at hpid
  have hrun : dissect f.line =
      (Scan.before pre₅ f.fromMessage
        { facility := some (digits f.pri / 8), severity := some (digits f.pri % 8), time := some tm
          host := some { pos := pre₂.length, len := f.host.length }
          prog := some (.span { pos := pre₃.length, len := f.prog.length })
          pid := some (BitVec.ofNat 64 (digits f.pid)) }).checkLen >>= fun s => s.readMsg f.line := by
    have hne : f.fromHost ≠ [] := by
      rw [hfromHost]
      exact List.append_ne_nil_of_right_ne_nil f.host (List.cons_ne_nil 32 _)
    rw [dissect, bind_of_ok hpri, bind_of_ok hdate, bind_of_ok (Scan.checkLen_before hne),
      bind_of_ok hhost, bind_of_ok (show startsAt f.line _ (Scan.before pre₃ _ _).pos = _ from hstarts),
      if_neg Bool.false_ne_true, bind_of_ok hprog, ← hpid]
  rw [hrun]
  constructor
  · intro hnil
    rw [hnil]
    rfl
  · intro hne
    rw [bind_of_ok (Scan.checkLen_before hne)]
    refine ⟨_, readMsg_before hf.message hf.eol hline₅ hlen₅, rfl, rfl, ⟨_, rfl, ?_⟩, ⟨_, rfl, ?_⟩,
      rfl, ⟨_, rfl, ?_⟩⟩
    · exact bytes_span hline₂
    · exact bytes_span hline₃
    · exact bytes_span hline₅

end

/-- A line is dissected safely and faithfully if its priority is not negative and its texts fit; for
lines that an `int` counts, only if it is so. -/
theorem dissects_iff (line : CStr) :
    (Readable { bytes := line, behind := fun _ => 0 } ∧
        (∀ f : Form, f.WellFormed → f.line = line → f.Fits) → Dissects line) ∧
      (line.length < 2 ^ 31 → Dissects line →
        Readable { bytes := line, behind := fun _ => 0 } ∧
          ∀ f : Form, f.WellFormed → f.line = line → f.Fits) := by
  constructor
  · rintro ⟨hreadable, hfits⟩
    have hfollows := @follows_dissect line PUnit { bytes := line, behind := fun _ => 0 } (fun _ => 0)
      ⟨rfl, rfl⟩
    refine ⟨fun h => (crashes_dissect line).mp h hreadable, hfollows.post, ?_⟩
    rintro f hf rfl
    have hfit := hfits f hf rfl
    obtain ⟨found, hrun, hfacility, hseverity, hhost, hprog, hpid, hmsg⟩ :=
      (dissect_line hf hfit.length).2 hfit.message
    have htoNat : (BitVec.ofNat 64 (digits f.pid)).toNat = digits f.pid := by
      have := hfit.pid
      rw [BitVec.toNat_ofNat]
      omega
    have htoInt : (BitVec.ofNat 64 (digits f.pid)).toInt = digits f.pid := by
      have := hfit.pid
      rw [BitVec.toInt_eq_toNat_of_lt (by rw [htoNat]; omega), htoNat]
    exact ⟨found, hrun, hfacility, hseverity, hhost, hprog, ⟨_, hpid, htoInt⟩, hmsg⟩
  · intro hlen h
    refine ⟨not_not.mp fun hreadable => h.safe ((crashes_dissect line).mpr hreadable), ?_⟩
    rintro f hf rfl
    have hbody : f.body.length < 2 ^ 31 := by
      rw [Form.line, List.length_cons, List.length_append, List.length_cons] at hlen
      omega
    obtain ⟨found, hrun, hfaithful⟩ := h.faithful f hf rfl
    refine ⟨hbody, fun hnil => ?_, ?_⟩
    · have hfailed := (dissect_line hf hbody).1 hnil
      rw [hrun] at hfailed
      cases hfailed
    · obtain ⟨n, -, hn⟩ := hfaithful.pid
      have : n.toInt < 2 ^ 63 := BitVec.toInt_lt
      omega

/-- A line of the program `su`. -/
def suForm : Form where
  pri := ascii "34"
  date := ascii "Oct 11 22:14:15"
  host := ascii "mymachine"
  prog := ascii "su"
  pid := ascii "230"
  message := ascii "'su root' failed for lonvick on /dev/pts/8"
  eol := ascii "\n"

theorem suForm_wellFormed : suForm.WellFormed where
  pri := ⟨⟨by decide +kernel, by decide +kernel⟩, by decide +kernel, by decide +kernel⟩
  date := by
    refine ⟨rfl, ⟨ascii "Oct", by decide +kernel, by decide +kernel⟩, ?_, ?_, ?_⟩
    · exact ⟨.inr (by decide +kernel), by decide +kernel⟩
    · decide +kernel
    · decide +kernel
  host := ⟨by decide +kernel, by decide +kernel⟩
  prog := ⟨⟨by decide +kernel, by decide +kernel⟩, fun c hc => by cases hc; rfl⟩
  notGconfd := by decide +kernel
  pid := ⟨by decide +kernel, by decide +kernel⟩
  message := by decide +kernel
  eol c hc := by
    cases hc
    decide +kernel

theorem foldl_digits_lt {l : CStr} (h : ∀ c ∈ l, isDigit c) (n : Nat) :
    l.foldl (fun n c => n * 10 + (c.toNat - 48)) n < (n + 1) * 10 ^ l.length := by
  induction l generalizing n with
  | nil => simp
  | cons c l ih =>
    obtain ⟨hc, hl⟩ := List.forall_mem_cons.mp h
    have hc9 : c.toNat ≤ 57 := by
      simp only [isDigit, Bool.and_eq_true, decide_eq_true_eq] at hc
      exact hc.2
    calc (c :: l).foldl (fun n c => n * 10 + (c.toNat - 48)) n
        < (n * 10 + (c.toNat - 48) + 1) * 10 ^ l.length := ih hl _
      _ ≤ ((n + 1) * 10) * 10 ^ l.length := Nat.mul_le_mul_right _ (by omega)
      _ = (n + 1) * 10 ^ (c :: l).length := by
        rw [List.length_cons, pow_succ', Nat.mul_assoc]

theorem digits_lt {l : CStr} (h : ∀ c ∈ l, isDigit c) : digits l < 10 ^ l.length := by
  have hlt := foldl_digits_lt h 0
  rwa [Nat.zero_add, Nat.one_mul] at hlt

/-- Whatever texts the line is made of, they fit: it ends with a newline and has few digits. -/
theorem fits_suForm {f : Form} (hf : f.WellFormed) (h : f.line = suForm.line) : f.Fits := by
  have hlen : f.line.length = suForm.line.length := congrArg List.length h
  have hpid : f.pid.Sublist f.line := by
    refine List.IsInfix.sublist ⟨60 :: (f.pri ++ 62 :: (f.date ++ 32 :: (f.host ++ 32 ::
      (f.prog ++ [91])))), 93 :: 58 :: 32 :: f.fromMessage, ?_⟩
    simp [Form.line, Form.body, Form.fromHost, Form.fromProg, Form.fromPid]
  refine ⟨?_, fun hnil => ?_, ?_⟩
  · have hbody : f.body.length < f.line.length := by
      rw [Form.line, List.length_cons, List.length_append, List.length_cons]
      omega
    exact (hbody.trans_eq hlen).trans (by decide)
  · have hline : f.line = 60 :: (f.pri ++ 62 :: (f.date ++ 32 :: (f.host ++ 32 ::
        (f.prog ++ 91 :: (f.pid ++ [93, 58]))))) ++ [32] := by
      simp [Form.line, Form.body, Form.fromHost, Form.fromProg, Form.fromPid, hnil]
    have hlast : f.line.getLast? = some 32 := by rw [hline, List.getLast?_concat]
    rw [h] at hlast
    exact absurd hlast (by decide)
  · -- the digits of the process are among those of the line
    have hfilter : f.pid.filter isDigit = f.pid := List.filter_eq_self.mpr hf.pid.2
    have hle := (hpid.filter isDigit).length_le
    rw [hfilter, h] at hle
    have hfew : (suForm.line.filter isDigit).length = 14 := by decide
    calc digits f.pid < 10 ^ f.pid.length := digits_lt hf.pid.2
      _ ≤ 10 ^ 14 := Nat.pow_le_pow_right (by decide) (hle.trans_eq hfew)
      _ < 2 ^ 63 := by decide

theorem dissects_suForm : suForm.WellFormed ∧ Dissects suForm.line := by
  refine ⟨suForm_wellFormed, (dissects_iff suForm.line).1 ⟨?_, fun f hf h => fits_suForm hf h⟩⟩
  unfold Readable
  decide

/-- The number of the priority wraps to a negative index. -/
theorem not_dissects : ¬ Dissects (ascii "<9223372036854775808>text") := by
  intro h
  refine h.safe ((crashes_dissect _).mpr ?_)
  unfold Readable
  decide

end Syslog

end Orchids
