import Mathlib.Data.List.Nodup
import Orchids.Cfg.Tree
import Orchids.Lib.Fuel

/-!
# Nested sections

* `Reads`: what a text is, as sections that are closed by their whole names; the first wrong end tag,
  or the end of a file in a section, is the error.
* `Nests`: `build_config_tree` builds the tree of a well-nested text and returns the error of any
  other.
* `nests_iff`: so it does if and only if the error, if there is one, is in the file itself and is one
  that is noticed. End tags are compared by their starts, those outside of sections with the directive
  of no parent, and the errors of included files are dropped.
-/

namespace Orchids

namespace Cfg

/-! ## What a text is -/

/-- The directives up to the end of the section and the lines after it, or the first error with the
number of `Include` directives around it. -/
inductive Outcome where
  | ok (ts : List Directive) (rest : List (Nat × CStr))
  | error (depth : Nat) (e : CfgError)

/-- The outcome with these directives before. -/
def Outcome.prepend (ds : List Directive) : Outcome → Outcome
  | .ok ts rest => .ok (ds ++ ts) rest
  | .error depth e => .error depth e

/-- What is read: lines of a file inside a section, or some files. -/
inductive Task where
  | lines (file : CStr) (parent : Option CStr) (lines : List (Nat × CStr))
  | files (files : List CStr)

/-- The file of an error. -/
def CfgError.file : CfgError → CStr
  | .sect f _ _ _ | .extra f _ _ | .peof f => f

/-- `</name>`, for a section whose directive is `<name`. -/
def endTag (directive : CStr) : CStr := [60, 47] ++ directive.drop 1 ++ [62]

variable {fs : Files} {file : CStr} {parent : Option CStr} {line : Nat} {text : CStr}
  {rest : List (Nat × CStr)}

/-- A section is closed by its end tag, directives and sections follow each other as in the text,
and the directives of included files stand in place of the `Include`. -/
inductive Reads (fs : Files) : Task → Outcome → Prop
  | eof {file : CStr} : Reads fs (.lines file none []) (.ok [] [])
  | peof {file p : CStr} : Reads fs (.lines file (some p) []) (.error 0 (.peof file))
  | skip {file : CStr} {parent : Option CStr} {line : Nat} {text : CStr} {rest : List (Nat × CStr)}
      {o : Outcome} : readItem text = .skip → Reads fs (.lines file parent rest) o →
      Reads fs (.lines file parent ((line, text) :: rest)) o
  | directive {file : CStr} {parent : Option CStr} {line : Nat} {text : CStr}
      {rest : List (Nat × CStr)} {d : CStr} {a : Option CStr} {o : Outcome} :
      readItem text = .directive d a → Reads fs (.lines file parent rest) o →
      Reads fs (.lines file parent ((line, text) :: rest)) (o.prepend [.mk d a file line []])
  | nested {file : CStr} {parent : Option CStr} {line : Nat} {text : CStr}
      {rest rest' : List (Nat × CStr)} {d : CStr} {a : Option CStr} {ts : List Directive}
      {o : Outcome} : readItem text = .openSection d a →
      Reads fs (.lines file (some d) rest) (.ok ts rest') →
      Reads fs (.lines file parent rest') o →
      Reads fs (.lines file parent ((line, text) :: rest)) (o.prepend [.mk d a file line ts])
  | nestedError {file : CStr} {parent : Option CStr} {line : Nat} {text : CStr}
      {rest : List (Nat × CStr)} {d : CStr} {a : Option CStr} {k : Nat} {e : CfgError} :
      readItem text = .openSection d a → Reads fs (.lines file (some d) rest) (.error k e) →
      Reads fs (.lines file parent ((line, text) :: rest)) (.error k e)
  | close {file p : CStr} {line : Nat} {text : CStr} {rest : List (Nat × CStr)} :
      readItem text = .endTag (endTag p) →
      Reads fs (.lines file (some p) ((line, text) :: rest)) (.ok [] rest)
  | mismatch {file p t : CStr} {line : Nat} {text : CStr} {rest : List (Nat × CStr)} :
      readItem text = .endTag t → t ≠ endTag p →
      Reads fs (.lines file (some p) ((line, text) :: rest)) (.error 0 (.sect file line p t))
  | extra {file t : CStr} {line : Nat} {text : CStr} {rest : List (Nat × CStr)} :
      readItem text = .endTag t →
      Reads fs (.lines file none ((line, text) :: rest)) (.error 0 (.extra file line t))
  | includes {file : CStr} {parent : Option CStr} {line : Nat} {text : CStr}
      {rest : List (Nat × CStr)} {pattern : CStr} {ts : List Directive} {o : Outcome} :
      readItem text = .includes (some pattern) → Reads fs (.files (fs.glob pattern)) (.ok ts []) →
      Reads fs (.lines file parent rest) o →
      Reads fs (.lines file parent ((line, text) :: rest)) (o.prepend ts)
  | includesError {file : CStr} {parent : Option CStr} {line : Nat} {text : CStr}
      {rest : List (Nat × CStr)} {pattern : CStr} {k : Nat} {e : CfgError} :
      readItem text = .includes (some pattern) →
      Reads fs (.files (fs.glob pattern)) (.error k e) →
      Reads fs (.lines file parent ((line, text) :: rest)) (.error (k + 1) e)
  | noFiles : Reads fs (.files []) (.ok [] [])
  | file {file : CStr} {files : List CStr} {bytes : List UInt8} {ts : List Directive} {o : Outcome} :
      fs.read file = some bytes → Reads fs (.lines file none (numberedLines bytes)) (.ok ts []) →
      Reads fs (.files files) o → Reads fs (.files (file :: files)) (o.prepend ts)
  | fileError {file : CStr} {files : List CStr} {bytes : List UInt8} {k : Nat} {e : CfgError} :
      fs.read file = some bytes → Reads fs (.lines file none (numberedLines bytes)) (.error k e) →
      Reads fs (.files (file :: files)) (.error k e)

/-- What a configuration file is. -/
def ReadsFile (fs : Files) (root : CStr) (o : Outcome) : Prop :=
  ∃ bytes, fs.read root = some bytes ∧ Reads fs (.lines root none (numberedLines bytes)) o

/-- The tree of a well-nested text is built, and the error of any other is returned. -/
structure Nests (fs : Files) (root : CStr) : Prop where
  built : ∀ ts rest, ReadsFile fs root (.ok ts rest) →
    Settles (buildConfigTree fs · root) (.ok ts)
  reported : ∀ k e, ReadsFile fs root (.error k e) →
    Settles (buildConfigTree fs · root) (.error (.error e))

/-- The error is the end of the file in a section, or an end tag in a section whose name does not
start like it. -/
def CfgError.Noticed : CfgError → Prop
  | .sect _ _ parent directive => closes directive parent = false
  | .extra _ _ _ => False
  | .peof _ => True

/-! ## Inversion -/

/-- What a line can be. -/
theorem Reads.inv {o : Outcome} (h : Reads fs (.lines file parent ((line, text) :: rest)) o) :
    match readItem text with
    | .skip => Reads fs (.lines file parent rest) o
    | .directive d a =>
      ∃ o', Reads fs (.lines file parent rest) o' ∧ o = o'.prepend [.mk d a file line []]
    | .openSection d a =>
      (∃ ts rest' o', Reads fs (.lines file (some d) rest) (.ok ts rest') ∧
        Reads fs (.lines file parent rest') o' ∧ o = o'.prepend [.mk d a file line ts]) ∨
      ∃ k e, Reads fs (.lines file (some d) rest) (.error k e) ∧ o = .error k e
    | .endTag t =>
      (∃ p, parent = some p ∧ t = endTag p ∧ o = .ok [] rest) ∨
      (∃ p, parent = some p ∧ t ≠ endTag p ∧ o = .error 0 (.sect file line p t)) ∨
      parent = none ∧ o = .error 0 (.extra file line t)
    | .includes none => False
    | .includes (some pattern) =>
      (∃ ts o', Reads fs (.files (fs.glob pattern)) (.ok ts []) ∧
        Reads fs (.lines file parent rest) o' ∧ o = o'.prepend ts) ∨
      ∃ k e, Reads fs (.files (fs.glob pattern)) (.error k e) ∧ o = .error (k + 1) e := by
  cases h with
  | skip hi h => rw [hi]; exact h
  | directive hi h => rw [hi]; exact ⟨_, h, rfl⟩
  | nested hi h h' => rw [hi]; exact .inl ⟨_, _, _, h, h', rfl⟩
  | nestedError hi h => rw [hi]; exact .inr ⟨_, _, h, rfl⟩
  | close hi => rw [hi]; exact .inl ⟨_, rfl, rfl, rfl⟩
  | mismatch hi hne => rw [hi]; exact .inr (.inl ⟨_, rfl, hne, rfl⟩)
  | extra hi => rw [hi]; exact .inr (.inr ⟨rfl, rfl⟩)
  | includes hi h h' => rw [hi]; exact .inl ⟨_, _, h, h', rfl⟩
  | includesError hi h => rw [hi]; exact .inr ⟨_, _, h, rfl⟩

/-- A text is one thing. -/
theorem Reads.unique {t : Task} {o o' : Outcome} (h : Reads fs t o) (h' : Reads fs t o') : o = o' := by
  induction h generalizing o' with
  | eof => cases h'; rfl
  | peof => cases h'; rfl
  | skip hi _ ih =>
    have hinv := h'.inv
    rw [hi] at hinv
    exact ih hinv
  | directive hi _ ih =>
    have hinv := h'.inv
    rw [hi] at hinv
    obtain ⟨o', hr, rfl⟩ := hinv
    rw [ih hr]
  | nested hi _ _ ih ih' =>
    have hinv := h'.inv
    rw [hi] at hinv
    obtain ⟨ts, rest', o', hc, hs, rfl⟩ | ⟨k, e, hc, rfl⟩ := hinv
    · cases ih hc
      rw [ih' hs]
    · cases ih hc
  | nestedError hi _ ih =>
    have hinv := h'.inv
    rw [hi] at hinv
    obtain ⟨ts, rest', o', hc, hs, rfl⟩ | ⟨k, e, hc, rfl⟩ := hinv
    · cases ih hc
    · exact ih hc
  | close hi =>
    have hinv := h'.inv
    rw [hi] at hinv
    obtain ⟨p, hp, -, rfl⟩ | ⟨p, hp, hne, -⟩ | ⟨hp, -⟩ := hinv
    · rfl
    · cases hp
      exact absurd rfl hne
    · cases hp
  | mismatch hi hne =>
    have hinv := h'.inv
    rw [hi] at hinv
    obtain ⟨p, hp, heq, -⟩ | ⟨p, hp, -, rfl⟩ | ⟨hp, -⟩ := hinv
    · cases hp
      exact absurd heq hne
    · cases hp
      rfl
    · cases hp
  | extra hi =>
    have hinv := h'.inv
    rw [hi] at hinv
    obtain ⟨p, hp, -⟩ | ⟨p, hp, -⟩ | ⟨-, rfl⟩ := hinv
    · cases hp
    · cases hp
    · rfl
  | includes hi _ _ ih ih' =>
    have hinv := h'.inv
    rw [hi] at hinv
    obtain ⟨ts, o', hf, hs, rfl⟩ | ⟨k, e, hf, rfl⟩ := hinv
    · cases ih hf
      rw [ih' hs]
    · cases ih hf
  | includesError hi _ ih =>
    have hinv := h'.inv
    rw [hi] at hinv
    obtain ⟨ts, o', hf, hs, rfl⟩ | ⟨k, e, hf, rfl⟩ := hinv
    · cases ih hf
    · cases ih hf
      rfl
  | noFiles => cases h'; rfl
  | file hr _ _ ih ih' =>
    cases h' with
    | file hr' h h' =>
      cases hr.symm.trans hr'
      cases ih h
      rw [ih' h']
    | fileError hr' h =>
      cases hr.symm.trans hr'
      cases ih h
  | fileError hr _ ih =>
    cases h' with
    | file hr' h h' =>
      cases hr.symm.trans hr'
      cases ih h
    | fileError hr' h =>
      cases hr.symm.trans hr'
      exact ih h

/-! ## Results of lines -/

section

variable {d pattern : CStr} {a : Option CStr} {r : Except Stop (List Directive × List (Nat × CStr))}

theorem settles_skip (hi : readItem text = .skip)
    (h : Settles (buildConfigTreeSub fs · file parent rest) r) :
    Settles (buildConfigTreeSub fs · file parent ((line, text) :: rest)) r := by
  refine .of_succ ?_
  filter_upwards [h] with n hn
  rw [buildConfigTreeSub_skip hi]
  exact hn

theorem settles_directive (hi : readItem text = .directive d a)
    (h : Settles (buildConfigTreeSub fs · file parent rest) r) :
    Settles (buildConfigTreeSub fs · file parent ((line, text) :: rest)) (do
      let (siblings, rest) ← r
      return (.mk d a file line [] :: siblings, rest)) := by
  refine .of_succ ?_
  filter_upwards [h] with n hn
  rw [buildConfigTreeSub_directive hi, hn]

theorem settles_openSection (hi : readItem text = .openSection d a) {children : List Directive}
    {rest' : List (Nat × CStr)}
    (hc : Settles (buildConfigTreeSub fs · file (some d) rest) (.ok (children, rest')))
    (h : Settles (buildConfigTreeSub fs · file parent rest') r) :
    Settles (buildConfigTreeSub fs · file parent ((line, text) :: rest)) (do
      let (siblings, rest) ← r
      return (.mk d a file line children :: siblings, rest)) := by
  refine .of_succ ?_
  filter_upwards [hc, h] with n hc hn
  rw [buildConfigTreeSub_openSection hi, hc, ← hn]
  rfl

theorem settles_openSection_error (hi : readItem text = .openSection d a) {stop : Stop}
    (hc : Settles (buildConfigTreeSub fs · file (some d) rest) (.error stop)) :
    Settles (buildConfigTreeSub fs · file parent ((line, text) :: rest)) (.error stop) := by
  refine .of_succ ?_
  filter_upwards [hc] with n hc
  rw [buildConfigTreeSub_openSection hi, hc]
  rfl

theorem settles_includes (hi : readItem text = .includes (some pattern))
    {included : List Directive}
    (hf : Settles (proceedIncludes fs · (fs.glob pattern)) (.ok included))
    (h : Settles (buildConfigTreeSub fs · file parent rest) r) :
    Settles (buildConfigTreeSub fs · file parent ((line, text) :: rest)) (do
      let (siblings, rest) ← r
      return (included ++ siblings, rest)) := by
  refine .of_succ ?_
  filter_upwards [hf, h] with n hf hn
  rw [buildConfigTreeSub_includes hi, hf, ← hn]
  rfl

theorem settles_endTag {p t : CStr} (hi : readItem text = .endTag t) (hc : closes t p = true) :
    Settles (buildConfigTreeSub fs · file (some p) ((line, text) :: rest)) (.ok ([], rest)) :=
  .of_succ (.of_forall fun _ => (buildConfigTreeSub_endTag hi).trans (if_pos hc))

theorem settles_sect {p t : CStr} (hi : readItem text = .endTag t) (hc : ¬ closes t p = true) :
    Settles (buildConfigTreeSub fs · file (some p) ((line, text) :: rest))
      (.error (.error (.sect file line p t))) :=
  .of_succ (.of_forall fun _ => (buildConfigTreeSub_endTag hi).trans (if_neg hc))

theorem settles_endTag_none {t : CStr} (hi : readItem text = .endTag t) :
    Settles (buildConfigTreeSub fs · file none ((line, text) :: rest)) (.error .nullParent) :=
  .of_succ (.of_forall fun _ => buildConfigTreeSub_endTag_none hi)

theorem settles_eof : Settles (buildConfigTreeSub fs · file none []) (.ok ([], [])) :=
  .of_succ (.of_forall fun _ => rfl)

theorem settles_peof {p : CStr} :
    Settles (buildConfigTreeSub fs · file (some p) []) (.error (.error (.peof file))) :=
  .of_succ (.of_forall fun _ => rfl)

theorem settles_noFiles : Settles (proceedIncludes fs · []) (.ok []) :=
  .of_succ (.of_forall fun n => by simp only [proceedIncludes])

theorem settles_files {files : List CStr} {newRoot others : List Directive}
    (hf : Settles (buildConfigTree fs · file) (.ok newRoot))
    (h : Settles (proceedIncludes fs · files) (.ok others)) :
    Settles (proceedIncludes fs · (file :: files)) (.ok (newRoot ++ others)) := by
  refine .of_succ ?_
  filter_upwards [hf, h] with n hf hn
  rw [proceedIncludes_cons, hf, hn]
  rfl

/-- A file is read with one step more than its lines. -/
theorem settles_buildConfigTree {bytes : List UInt8} (hr : fs.read file = some bytes)
    (h : Settles (buildConfigTreeSub fs · file none (numberedLines bytes)) r) :
    Settles (buildConfigTree fs · file) (r.map Prod.fst) := by
  refine .of_succ ?_
  filter_upwards [h] with n hn
  rw [buildConfigTree_read hr, hn]
  cases r <;> rfl

end

/-! ## Well-nested texts -/

theorem Outcome.prepend_eq_ok {o : Outcome} {ds ts : List Directive} :
    o.prepend ds = .ok ts rest ↔ ∃ ts', o = .ok ts' rest ∧ ts = ds ++ ts' := by
  cases o <;> simp [Outcome.prepend, eq_comm, and_comm]

theorem Outcome.prepend_eq_error {o : Outcome} {ds : List Directive} {k : Nat} {e : CfgError} :
    o.prepend ds = .error k e ↔ o = .error k e := by
  cases o <;> simp [Outcome.prepend]

/-- What is returned for it. -/
def Gives (fs : Files) : Task → List Directive → List (Nat × CStr) → Prop
  | .lines file parent lines, ts, rest =>
    Settles (buildConfigTreeSub fs · file parent lines) (.ok (ts, rest))
  | .files files, ts, _ => Settles (proceedIncludes fs · files) (.ok ts)

/-- The section is closed by its end tag. -/
theorem closes_endTag (p : CStr) : closes (endTag p) p = true := by
  have hlen : tagLen (endTag p) = (p.drop 1).length := by
    have : (endTag p).length = (p.drop 1).length + 3 := by
      rw [endTag, List.length_append, List.length_append]
      exact Nat.add_right_comm 2 _ 1 |>.trans (Nat.add_comm _ _)
    rw [tagLen, this, if_pos (Nat.le_add_left _ _), Nat.add_sub_cancel]
  have hdrop : (endTag p).drop 2 = p.drop 1 ++ [62] := rfl
  rw [closes, strncmpEq, hlen, hdrop, List.take_left, List.take_length]
  exact beq_self_eq_true _

theorem Reads.gives {t : Task} {o : Outcome} (h : Reads fs t o) {ts : List Directive}
    (ho : o = .ok ts rest) : Gives fs t ts rest := by
  induction h generalizing ts rest with
  | eof =>
    cases ho
    exact settles_eof
  | peof => cases ho
  | skip hi _ ih => exact settles_skip hi (ih ho)
  | directive hi _ ih =>
    obtain ⟨ts', ho', rfl⟩ := Outcome.prepend_eq_ok.mp ho
    exact settles_directive hi (ih ho')
  | nested hi _ _ ihc ihs =>
    obtain ⟨ts', ho', rfl⟩ := Outcome.prepend_eq_ok.mp ho
    exact settles_openSection hi (ihc rfl) (ihs ho')
  | nestedError => cases ho
  | close hi =>
    cases ho
    exact settles_endTag hi (closes_endTag _)
  | mismatch => cases ho
  | extra => cases ho
  | includes hi _ _ ihf ihs =>
    obtain ⟨ts', ho', rfl⟩ := Outcome.prepend_eq_ok.mp ho
    exact settles_includes hi (ihf rfl) (ihs ho')
  | includesError => cases ho
  | noFiles =>
    cases ho
    exact settles_noFiles
  | file hr _ _ ih ihs =>
    obtain ⟨ts', ho', rfl⟩ := Outcome.prepend_eq_ok.mp ho
    exact settles_files (settles_buildConfigTree hr (ih rfl)) (ihs ho')
  | fileError => cases ho

/-! ## Errors -/

/-- What ends the reading at the error, if it does: where there is no section, the directive of its
parent is read for the report. -/
def CfgError.stop : CfgError → Stop
  | .extra _ _ _ => .nullParent
  | e => .error e

/-- The end tag is taken for that of the section. -/
def CfgError.Accepted : CfgError → Prop
  | .sect _ _ parent directive => closes directive parent = true
  | _ => False

theorem Reads.stops {t : Task} {o : Outcome} (h : Reads fs t o) {lines : List (Nat × CStr)}
    (ht : t = .lines file parent lines) {e : CfgError} (ho : o = .error 0 e) (he : ¬ e.Accepted) :
    Settles (buildConfigTreeSub fs · file parent lines) (.error e.stop) := by
  induction h generalizing file parent lines with
  | eof => cases ho
  | peof =>
    cases ht
    cases ho
    exact settles_peof
  | skip hi _ ih =>
    cases ht
    exact settles_skip hi (ih rfl ho)
  | directive hi _ ih =>
    cases ht
    exact settles_directive hi (ih rfl (Outcome.prepend_eq_error.mp ho))
  | nested hi hc _ _ ihs =>
    cases ht
    exact settles_openSection hi (hc.gives rfl) (ihs rfl (Outcome.prepend_eq_error.mp ho))
  | nestedError hi _ ih =>
    cases ht
    exact settles_openSection_error hi (ih rfl ho)
  | close => cases ho
  | mismatch hi hne =>
    cases ht
    cases ho
    exact settles_sect hi he
  | extra hi =>
    cases ht
    cases ho
    exact settles_endTag_none hi
  | includes hi hf _ _ ihs =>
    cases ht
    exact settles_includes hi (hf.gives rfl) (ihs rfl (Outcome.prepend_eq_error.mp ho))
  | includesError => cases ho
  | noFiles => cases ht
  | file => cases ht
  | fileError => cases ht

/-! ## Where an error is found -/

/-- An error is of the file, and of one of its lines. -/
def CfgError.In (file : CStr) (lines : List (Nat × CStr)) : CfgError → Prop
  | .sect f line _ _ => f = file ∧ line ∈ lines.map Prod.fst
  | .extra _ _ _ => False
  | .peof f => f = file

/-- What is left is the end of the lines, and an error is one of them. -/
def Inside (file : CStr) (lines : List (Nat × CStr)) :
    Except Stop (List Directive × List (Nat × CStr)) → Prop
  | .ok (_, rest) => rest <:+ lines
  | .error (.error e) => e.In file lines
  | .error _ => True

theorem Inside.mono {r : Except Stop (List Directive × List (Nat × CStr))}
    {lines lines' : List (Nat × CStr)} (h : Inside file lines r) (hsub : lines <:+ lines') :
    Inside file lines' r := by
  match r, h with
  | .ok (_, _), h => exact List.IsSuffix.trans h hsub
  | .error (.error (.sect _ _ _ _)), h => exact ⟨h.1, (hsub.map Prod.fst).subset h.2⟩
  | .error (.error (.extra _ _ _)), h => exact h
  | .error (.error (.peof _)), h => exact h
  | .error .running, _ | .error (.exit _), _ | .error .nullParent, _ | .error .nullPattern, _ =>
    trivial

/-- The directives before do not matter. -/
theorem Inside.siblings {r : Except Stop (List Directive × List (Nat × CStr))}
    {lines : List (Nat × CStr)} (h : Inside file lines r) (ds : List Directive) :
    Inside file lines (do
      let (siblings, rest) ← r
      return (ds ++ siblings, rest)) := by
  cases r with
  | ok res => exact h
  | error stop => exact h

/-- The errors of included files are dropped. -/
theorem proceedIncludes_ne_error (n : Nat) (files : List CStr) (e : CfgError) :
    proceedIncludes fs n files ≠ .error (.error e) := by
  induction n generalizing files with
  | zero => rintro ⟨⟩
  | succ n ih =>
    cases files with
    | nil => rintro ⟨⟩
    | cons file files =>
      rw [proceedIncludes_cons]
      split
      · cases hf : proceedIncludes fs n files with
        | ok others => rintro ⟨⟩
        | error stop =>
          rintro ⟨⟩
          exact ih files hf
      · rintro ⟨⟩
      · rename_i hne _
        intro heq
        cases heq
        exact hne _ rfl

theorem buildConfigTreeSub_inside (fs : Files) (n : Nat) (file : CStr) (parent : Option CStr)
    (lines : List (Nat × CStr)) : Inside file lines (buildConfigTreeSub fs n file parent lines) := by
  induction n generalizing parent lines with
  | zero => trivial
  | succ n ih =>
    cases lines with
    | nil =>
      cases parent with
      | none => exact List.suffix_refl _
      | some p => rfl
    | cons l rest =>
      obtain ⟨line, text⟩ := l
      have hcons : rest <:+ (line, text) :: rest := List.suffix_cons _ _
      cases hi : readItem text with
      | skip =>
        rw [buildConfigTreeSub_skip hi]
        exact (ih parent rest).mono hcons
      | openSection d a =>
        rw [buildConfigTreeSub_openSection hi]
        have hchild := (ih (some d) rest).mono hcons
        cases hc : buildConfigTreeSub fs n file (some d) rest with
        | ok res =>
          rw [hc] at hchild
          exact ((ih parent res.2).siblings [.mk d a file line res.1]).mono hchild
        | error stop =>
          rw [hc] at hchild
          exact hchild
      | endTag t =>
        cases parent with
        | none =>
          rw [buildConfigTreeSub_endTag_none hi]
          trivial
        | some p =>
          rw [buildConfigTreeSub_endTag hi]
          cases closes t p with
          | true => exact hcons
          | false => exact ⟨rfl, List.mem_cons_self⟩
      | includes pattern =>
        cases pattern with
        | none =>
          rw [buildConfigTreeSub_includes_none hi]
          trivial
        | some pattern =>
          rw [buildConfigTreeSub_includes hi]
          cases hf : proceedIncludes fs n (fs.glob pattern) with
          | ok included => exact ((ih parent rest).siblings included).mono hcons
          | error stop =>
            cases stop with
            | error e => exact absurd hf (proceedIncludes_ne_error n _ e)
            | _ => trivial
      | directive d a =>
        rw [buildConfigTreeSub_directive hi]
        exact ((ih parent rest).siblings [.mk d a file line []]).mono hcons

/-- After a wrong end tag that is accepted, it is no longer among the lines. -/
def Passed (e : CfgError) (line : Nat) : Except Stop (List Directive × List (Nat × CStr)) → Prop
  | .ok (_, rest) => line ∉ rest.map Prod.fst
  | .error stop => stop ≠ .error e

theorem Passed.siblings {r : Except Stop (List Directive × List (Nat × CStr))} {e : CfgError}
    (h : Passed e line r) (ds : List Directive) :
    Passed e line (do
      let (siblings, rest) ← r
      return (ds ++ siblings, rest)) := by
  cases r with
  | ok res => exact h
  | error stop => exact h

/-- An error is not of a line that is not there. -/
theorem Inside.passed {r : Except Stop (List Directive × List (Nat × CStr))}
    {lines : List (Nat × CStr)} (h : Inside file lines r) (hline : line ∉ lines.map Prod.fst)
    (f p t : CStr) : Passed (.sect f line p t) line r := by
  match r, h with
  | .ok (_, _), h => exact fun hmem => hline ((List.IsSuffix.map Prod.fst h).subset hmem)
  | .error (.error (.sect _ _ _ _)), h =>
    rintro ⟨⟩
    exact hline h.2
  | .error (.error (.peof _)), _ => rintro ⟨⟩
  | .error .running, _ | .error (.exit _), _ | .error .nullParent, _ | .error .nullPattern, _ =>
    rintro ⟨⟩

theorem Reads.passed {t : Task} {o : Outcome} (h : Reads fs t o) {lines : List (Nat × CStr)}
    (ht : t = .lines file parent lines) (hnd : (lines.map Prod.fst).Nodup) {f p d : CStr}
    (ho : o = .error 0 (.sect f line p d)) (hacc : closes d p = true) (n : Nat) :
    Passed (.sect f line p d) line (buildConfigTreeSub fs n file parent lines) := by
  induction h generalizing file parent lines n with
  | eof => cases ho
  | peof => cases ho
  | skip hi _ ih =>
    cases ht
    cases n with
    | zero => rw [buildConfigTreeSub_zero]; rintro ⟨⟩
    | succ n =>
      rw [buildConfigTreeSub_skip hi]
      exact ih rfl hnd.of_cons ho n
  | directive hi _ ih =>
    cases ht
    cases n with
    | zero => rw [buildConfigTreeSub_zero]; rintro ⟨⟩
    | succ n =>
      rw [buildConfigTreeSub_directive hi]
      exact (ih rfl hnd.of_cons (Outcome.prepend_eq_error.mp ho) n).siblings [_]
  | @nested file parent line' text rest rest' d' a ts o' hi hc hs _ ihs =>
    cases ht
    cases n with
    | zero => rw [buildConfigTreeSub_zero]; rintro ⟨⟩
    | succ n =>
      rw [buildConfigTreeSub_openSection hi]
      have hstable : ∀ n, _ → _ := fun n => (steps_succ fs n).1 file (some d') rest
      by_cases hrun : buildConfigTreeSub fs n file (some d') rest = .error .running
      · rw [hrun]
        rintro ⟨⟩
      · have hok := Settles.eq_of_ne hstable (hc.gives rfl) hrun
        have hsuf : rest' <:+ rest := by
          have := buildConfigTreeSub_inside fs n file (some d') rest
          rw [hok] at this
          exact this
        rw [hok]
        have hnd' := hnd.of_cons.sublist ((hsuf.map Prod.fst).sublist)
        exact (ihs rfl hnd' (Outcome.prepend_eq_error.mp ho) n).siblings [_]
  | @nestedError file parent line' text rest d' a k e hi _ ih =>
    cases ht
    cases n with
    | zero => rw [buildConfigTreeSub_zero]; rintro ⟨⟩
    | succ n =>
      rw [buildConfigTreeSub_openSection hi]
      have hchild := ih rfl hnd.of_cons ho n
      cases hc : buildConfigTreeSub fs n file (some d') rest with
      | ok res =>
        rw [hc] at hchild
        have hrest := buildConfigTreeSub_inside fs n file parent res.2
        exact (hrest.passed hchild f p d).siblings [_]
      | error stop =>
        rw [hc] at hchild
        exact hchild
  | close => cases ho
  | mismatch hi hne =>
    cases ht
    cases ho
    cases n with
    | zero => rw [buildConfigTreeSub_zero]; rintro ⟨⟩
    | succ n =>
      rw [buildConfigTreeSub_endTag hi, hacc]
      exact (List.nodup_cons.mp hnd).1
  | extra => cases ho
  | @includes file parent line' text rest pattern ts o' hi _ _ _ ihs =>
    cases ht
    cases n with
    | zero => rw [buildConfigTreeSub_zero]; rintro ⟨⟩
    | succ n =>
      rw [buildConfigTreeSub_includes hi]
      cases hf : proceedIncludes fs n (fs.glob pattern) with
      | ok included =>
        exact (ihs rfl hnd.of_cons (Outcome.prepend_eq_error.mp ho) n).siblings included
      | error stop =>
        rintro ⟨⟩
        exact proceedIncludes_ne_error n _ _ hf
  | includesError => cases ho
  | noFiles => cases ht
  | file => cases ht
  | fileError => cases ht

/-! ## Included files -/

theorem Reads.file_eq {t : Task} {o : Outcome} (h : Reads fs t o) {lines : List (Nat × CStr)}
    (ht : t = .lines file parent lines) {e : CfgError} (ho : o = .error 0 e) : e.file = file := by
  induction h generalizing file parent lines with
  | eof => cases ho
  | peof =>
    cases ht
    cases ho
    rfl
  | skip _ _ ih =>
    cases ht
    exact ih rfl ho
  | directive _ _ ih =>
    cases ht
    exact ih rfl (Outcome.prepend_eq_error.mp ho)
  | nested _ _ _ _ ihs =>
    cases ht
    exact ihs rfl (Outcome.prepend_eq_error.mp ho)
  | nestedError _ _ ih =>
    cases ht
    exact ih rfl ho
  | close => cases ho
  | mismatch =>
    cases ht
    cases ho
    rfl
  | extra =>
    cases ht
    cases ho
    rfl
  | includes _ _ _ _ ihs =>
    cases ht
    exact ihs rfl (Outcome.prepend_eq_error.mp ho)
  | includesError => cases ho
  | noFiles => cases ht
  | file => cases ht
  | fileError => cases ht

/-- An error in an included file is the one of that file. -/
theorem Reads.innermost {t : Task} {o : Outcome} (h : Reads fs t o) {k : Nat} {e : CfgError}
    (ho : o = .error k e) (hk : 0 < k ∨ ∃ files, t = .files files) :
    ReadsFile fs e.file (.error 0 e) := by
  induction h generalizing k with
  | eof => cases ho
  | peof =>
    cases ho
    simp at hk
  | skip _ _ ih => exact ih ho (by simpa using hk)
  | directive _ _ ih => exact ih (Outcome.prepend_eq_error.mp ho) (by simpa using hk)
  | nested _ _ _ _ ihs => exact ihs (Outcome.prepend_eq_error.mp ho) (by simpa using hk)
  | nestedError _ _ ih => exact ih ho (by simpa using hk)
  | close => cases ho
  | mismatch =>
    cases ho
    simp at hk
  | extra =>
    cases ho
    simp at hk
  | includes _ _ _ _ ihs => exact ihs (Outcome.prepend_eq_error.mp ho) (by simpa using hk)
  | includesError _ _ ih =>
    cases ho
    exact ih rfl (.inr ⟨_, rfl⟩)
  | noFiles => cases ho
  | file _ _ _ _ ihs => exact ihs (Outcome.prepend_eq_error.mp ho) (.inr ⟨_, rfl⟩)
  | @fileError file files bytes k e hr h ih =>
    cases ho
    rcases Nat.eq_zero_or_pos k with rfl | hpos
    · rw [h.file_eq rfl rfl]
      exact ⟨bytes, hr, h⟩
    · exact ih rfl (.inl hpos)

/-! ## Configurations -/

theorem nodup_numberedLines (bytes : List UInt8) : ((numberedLines bytes).map Prod.fst).Nodup := by
  have hmap : (numberedLines bytes).map Prod.fst =
      ((readPieces (lineMax - 1) bytes).zipIdx.map Prod.snd).map (· + 1) := by
    rw [numberedLines, List.map_map, List.map_map]
    rfl
  rw [hmap, List.zipIdx_map_snd]
  exact List.Nodup.map Nat.succ_injective (List.nodup_range' 1)

/-- Texts are built and reported as they are to be if and only if the error, if there is one, is in
the file itself and is noticed. -/
theorem nests_iff (fs : Files) (root : CStr) :
    Nests fs root ↔ ∀ k e, ReadsFile fs root (.error k e) → k = 0 ∧ e.Noticed := by
  constructor
  · intro hn k e hread
    obtain ⟨bytes, hr, h⟩ := hread
    obtain ⟨n, hret⟩ : ∃ n, buildConfigTree fs n root = .error (.error e) :=
      (hn.reported k e ⟨bytes, hr, h⟩).exists
    -- so the lines of the file itself return the error
    obtain ⟨m, hsub⟩ : ∃ m, buildConfigTreeSub fs m root none (numberedLines bytes) =
        .error (.error e) := by
      cases n with
      | zero => cases hret
      | succ m =>
        rw [buildConfigTree_read hr] at hret
        refine ⟨m, ?_⟩
        cases hs : buildConfigTreeSub fs m root none (numberedLines bytes) with
        | ok res =>
          rw [hs] at hret
          cases hret
        | error stop =>
          rw [hs] at hret
          cases hret
          rfl
    have hin := buildConfigTreeSub_inside fs m root none (numberedLines bytes)
    rw [hsub] at hin
    have hfile : e.file = root := by
      cases e with
      | sect => exact hin.1
      | extra => exact hin.elim
      | peof => exact hin
    have hzero : k = 0 := by
      refine Nat.eq_zero_of_not_pos fun hpos => ?_
      obtain ⟨bytes', hr', h'⟩ := h.innermost rfl (.inl hpos)
      rw [hfile, hr] at hr'
      cases hr'
      rw [hfile] at h'
      cases h.unique h'
      exact absurd hpos (Nat.lt_irrefl 0)
    refine ⟨hzero, ?_⟩
    subst hzero
    cases e with
    | sect f line p d =>
      refine Bool.eq_false_iff.mpr fun hacc => ?_
      have hpassed := h.passed rfl (nodup_numberedLines bytes) rfl hacc m
      rw [hsub] at hpassed
      exact hpassed rfl
    | extra => exact hin
    | peof => trivial
  · intro hcond
    constructor
    · rintro ts rest ⟨bytes, hr, h⟩
      exact settles_buildConfigTree hr (h.gives rfl)
    · rintro k e ⟨bytes, hr, h⟩
      obtain ⟨rfl, hnoticed⟩ := hcond k e ⟨bytes, hr, h⟩
      have hstop : e.stop = .error e := by
        cases e with
        | sect => rfl
        | extra => exact hnoticed.elim
        | peof => rfl
      have hnot : ¬ e.Accepted := by
        cases e with
        | sect f line p d => exact ne_true_of_eq_false hnoticed
        | extra => exact id
        | peof => exact id
      rw [← hstop]
      exact settles_buildConfigTree hr (h.stops rfl rfl hnot)

/-- `<name>`, closed by `</na>`. -/
theorem not_nests : ¬ ∀ (fs : Files) (root : CStr), Nests fs root := by
  intro h
  let fs : Files := { read := fun _ => some [60, 110, 97, 109, 101, 62, 10, 60, 47, 110, 97, 62, 10]
                      glob := fun _ => [] }
  have herr : ReadsFile fs [114] (.error 0 (.sect [114] 2 [60, 110, 97, 109, 101]
      [60, 47, 110, 97, 62])) :=
    ⟨_, rfl, .nestedError rfl (.mismatch rfl (by decide))⟩
  have hok : buildConfigTree fs 8 [114] = .ok [.mk [60, 110, 97, 109, 101] none [114] 1 []] := rfl
  have hsettles := Settles.of_ne (fun n => (steps_succ fs n).2.2 [114]) (n := 8) (by
    rw [hok]
    rintro ⟨⟩)
  rw [hok] at hsettles
  cases hsettles.unique ((h fs [114]).reported _ _ herr)

end Cfg

end Orchids
