import Mathlib.Data.Fintype.Card
import Mathlib.Data.Set.Finite.Basic
import Mathlib.Logic.Relation
import Orchids.Cfg.Nesting

/-!
# Included files

* `scan`: what the reading of a file does by itself: the patterns that it includes, and how it ends.
* `Includes`: a file reads another one.
* `ends_iff`: reading a configuration ends with a tree or an error if and only if no file that it
  reads includes itself, directly or through others, and none reads through a `NULL`.
-/

namespace Orchids

namespace Cfg

/-! ## A file by itself -/

/-- How the lines of a file end. -/
inductive Ending where
  | tree
  /-- A wrong end tag that is noticed, or the end of the file in a section. -/
  | error
  /-- An end tag outside of all sections, or an `Include` without a pattern. -/
  | crash
  deriving DecidableEq

/-- The patterns that are included, and how the lines end, with these sections open. -/
def scan : List CStr → List (Nat × CStr) → List CStr × Ending
  | [], [] => ([], .tree)
  | _ :: _, [] => ([], .error)
  | sections, (_, text) :: rest =>
    match readItem text with
    | .skip | .directive _ _ => scan sections rest
    | .openSection d _ => scan (d :: sections) rest
    | .endTag t =>
      match sections with
      | [] => ([], .crash)
      | p :: sections => if closes t p then scan sections rest else ([], .error)
    | .includes none => ([], .crash)
    | .includes (some pattern) =>
      let (patterns, ending) := scan sections rest
      (pattern :: patterns, ending)

/-- The files of a configuration; `glob` finds some of them. -/
structure ConfigDir where
  files : List (CStr × List UInt8)
  glob : CStr → List CStr
  glob_mem : ∀ pattern, ∀ f ∈ glob pattern, f ∈ files.map Prod.fst

def ConfigDir.toFiles (dir : ConfigDir) : Files :=
  { read := fun f => List.lookup f dir.files, glob := dir.glob }

/-- How a file ends by itself. -/
def EndsBy (fs : Files) (f : CStr) (ending : Ending) : Prop :=
  ∃ bytes, fs.read f = some bytes ∧ (scan [] (numberedLines bytes)).2 = ending

/-- The reading of a file reads the other one: it finds it for one of its patterns, and none of those
that it finds before ends with an error. -/
def Includes (fs : Files) (f g : CStr) : Prop :=
  ∃ bytes, fs.read f = some bytes ∧ ∃ pattern ∈ (scan [] (numberedLines bytes)).1,
    ∃ before after, fs.glob pattern = before ++ g :: after ∧ ∀ h ∈ before, ¬ EndsBy fs h .error

/-- A tree or an error code. -/
def Ended : Except Stop (List Directive) → Prop
  | .ok _ | .error (.error _) => True
  | .error _ => False

/-- The reading ends with a tree or an error. -/
def Ends (fs : Files) (root : CStr) : Prop := ∃ n, Ended (buildConfigTree fs n root)

/-! ## What a reading that ended has read -/

variable {fs : Files}

theorem scan_cons (sections : List CStr) (line : Nat) (text : CStr) (rest : List (Nat × CStr)) :
    scan sections ((line, text) :: rest) =
      match readItem text with
      | .skip | .directive _ _ => scan sections rest
      | .openSection d _ => scan (d :: sections) rest
      | .endTag t =>
        match sections with
        | [] => ([], .crash)
        | p :: sections => if closes t p then scan sections rest else ([], .error)
      | .includes none => ([], .crash)
      | .includes (some pattern) =>
        let (patterns, ending) := scan sections rest
        (pattern :: patterns, ending) := by
  cases sections <;> rfl

theorem scan_skip {text : CStr} (hi : readItem text = .skip) (sections : List CStr) (line : Nat)
    (rest : List (Nat × CStr)) : scan sections ((line, text) :: rest) = scan sections rest := by
  rw [scan_cons, hi]

theorem scan_directive {text : CStr} {d : CStr} {a : Option CStr}
    (hi : readItem text = .directive d a) (sections : List CStr) (line : Nat)
    (rest : List (Nat × CStr)) : scan sections ((line, text) :: rest) = scan sections rest := by
  rw [scan_cons, hi]

theorem scan_openSection {text : CStr} {d : CStr} {a : Option CStr}
    (hi : readItem text = .openSection d a) (sections : List CStr) (line : Nat)
    (rest : List (Nat × CStr)) :
    scan sections ((line, text) :: rest) = scan (d :: sections) rest := by
  rw [scan_cons, hi]

theorem scan_endTag {text t : CStr} (hi : readItem text = .endTag t) (p : CStr)
    (sections : List CStr) (line : Nat) (rest : List (Nat × CStr)) :
    scan (p :: sections) ((line, text) :: rest) =
      if closes t p then scan sections rest else ([], .error) := by
  rw [scan_cons, hi]

theorem scan_endTag_nil {text t : CStr} (hi : readItem text = .endTag t) (line : Nat)
    (rest : List (Nat × CStr)) : scan [] ((line, text) :: rest) = ([], .crash) := by
  rw [scan_cons, hi]

theorem scan_includes {text pattern : CStr} (hi : readItem text = .includes (some pattern))
    (sections : List CStr) (line : Nat) (rest : List (Nat × CStr)) :
    scan sections ((line, text) :: rest) =
      (pattern :: (scan sections rest).1, (scan sections rest).2) := by
  rw [scan_cons, hi]

theorem scan_includes_none {text : CStr} (hi : readItem text = .includes none)
    (sections : List CStr) (line : Nat) (rest : List (Nat × CStr)) :
    scan sections ((line, text) :: rest) = ([], .crash) := by
  rw [scan_cons, hi]

/-- The files of a pattern are read, with less than these steps. -/
def ReadBy (fs : Files) (n : Nat) (pattern : CStr) : Prop :=
  ∃ m < n, ∃ res, proceedIncludes fs m (fs.glob pattern) = .ok res

theorem ReadBy.succ {n : Nat} {pattern : CStr} (h : ReadBy fs n pattern) :
    ReadBy fs (n + 1) pattern := by
  obtain ⟨m, hm, hres⟩ := h
  exact ⟨m, Nat.lt_succ_of_lt hm, hres⟩

/-- A section that was read to its end is scanned to its end; where an error is returned, the scan
ends with it. All patterns on the way are read. -/
def Scanned (fs : Files) (n : Nat) (sections outer : List CStr) (lines : List (Nat × CStr)) :
    Except Stop (List Directive × List (Nat × CStr)) → Prop
  | .ok (_, rest) => ∃ patterns, (∀ p ∈ patterns, ReadBy fs n p) ∧
      scan sections lines = (patterns ++ (scan outer rest).1, (scan outer rest).2)
  | .error (.error _) =>
    (∀ p ∈ (scan sections lines).1, ReadBy fs n p) ∧ (scan sections lines).2 = .error
  | .error _ => True

section

variable {n : Nat} {sections outer : List CStr} {lines : List (Nat × CStr)}
  {r : Except Stop (List Directive × List (Nat × CStr))}

theorem Scanned.siblings (h : Scanned fs n sections outer lines r) (ds : List Directive) :
    Scanned fs n sections outer lines (do
      let (siblings, rest) ← r
      return (ds ++ siblings, rest)) := by
  cases r with
  | ok res => exact h
  | error stop => exact h

/-- What was scanned before comes first. -/
theorem Scanned.after {sections' : List CStr} {lines' : List (Nat × CStr)} {patterns : List CStr}
    (h : Scanned fs n sections' outer lines' r) (hp : ∀ p ∈ patterns, ReadBy fs (n + 1) p)
    (hscan : scan sections lines = (patterns ++ (scan sections' lines').1, (scan sections' lines').2)) :
    Scanned fs (n + 1) sections outer lines r := by
  match r, h with
  | .ok (_, rest), h =>
    obtain ⟨patterns', hp', hscan'⟩ := h
    refine ⟨patterns ++ patterns', ?_, ?_⟩
    · intro p hmem
      rcases List.mem_append.mp hmem with hmem | hmem
      · exact hp p hmem
      · exact (hp' p hmem).succ
    · rw [hscan, hscan', List.append_assoc]
  | .error (.error _), h =>
    obtain ⟨hp', herr⟩ := h
    rw [Scanned, hscan]
    refine ⟨?_, herr⟩
    intro p hmem
    rcases List.mem_append.mp hmem with hmem | hmem
    · exact hp p hmem
    · exact (hp' p hmem).succ
  | .error .running, _ | .error (.exit _), _ | .error .nullParent, _ | .error .nullPattern, _ =>
    trivial

end

theorem buildConfigTreeSub_scanned (fs : Files) (n : Nat) (file : CStr) (parent : Option CStr)
    (outer : List CStr) (lines : List (Nat × CStr)) :
    Scanned fs n (parent.toList ++ outer) outer lines
      (buildConfigTreeSub fs n file parent lines) := by
  induction n generalizing parent outer lines with
  | zero =>
    rw [buildConfigTreeSub.eq_def]
    trivial
  | succ n ih =>
    cases lines with
    | nil =>
      cases parent with
      | none =>
        simp only [buildConfigTreeSub]
        exact ⟨[], List.forall_mem_nil _, rfl⟩
      | some p =>
        simp only [buildConfigTreeSub]
        exact ⟨List.forall_mem_nil _, rfl⟩
    | cons l rest =>
      obtain ⟨line, text⟩ := l
      cases hi : readItem text with
      | skip =>
        rw [buildConfigTreeSub_skip hi]
        exact (ih parent outer rest).after (List.forall_mem_nil _) (scan_skip hi _ _ _)
      | openSection d a =>
        rw [buildConfigTreeSub_openSection hi]
        have hchild := ih (some d) (parent.toList ++ outer) rest
        have hscan := scan_openSection hi (parent.toList ++ outer) line rest
        cases hc : buildConfigTreeSub fs n file (some d) rest with
        | ok res =>
          rw [hc] at hchild
          obtain ⟨patterns, hp, hscan'⟩ := hchild
          exact ((ih parent outer res.2).siblings [.mk d a file line res.1]).after
            (fun p hmem => (hp p hmem).succ) (hscan.trans hscan')
        | error stop =>
          rw [hc] at hchild
          -- what comes after the section does not matter
          have herr : Scanned fs n (d :: (parent.toList ++ outer)) outer rest (.error stop) := by
            cases stop <;> exact hchild
          exact herr.after (List.forall_mem_nil _) hscan
      | endTag t =>
        cases parent with
        | none =>
          rw [buildConfigTreeSub_endTag_none hi]
          trivial
        | some p =>
          rw [buildConfigTreeSub_endTag hi]
          have hscan := scan_endTag hi p outer line rest
          cases hcl : closes t p with
          | true =>
            rw [hcl] at hscan
            exact ⟨[], List.forall_mem_nil _, hscan⟩
          | false =>
            rw [hcl] at hscan
            rw [Option.toList_some, List.singleton_append]
            exact ⟨by rw [hscan]; exact List.forall_mem_nil _, by rw [hscan]; rfl⟩
      | includes pattern =>
        cases pattern with
        | none =>
          rw [buildConfigTreeSub_includes_none hi]
          trivial
        | some pattern =>
          rw [buildConfigTreeSub_includes hi]
          have hscan := scan_includes hi (parent.toList ++ outer) line rest
          cases hf : proceedIncludes fs n (fs.glob pattern) with
          | ok included =>
            have hread : ReadBy fs (n + 1) pattern := ⟨n, Nat.lt_succ_self n, included, hf⟩
            exact ((ih parent outer rest).siblings included).after
              (List.forall_mem_singleton.mpr hread) hscan
          | error stop =>
            cases stop with
            | error e => exact absurd hf (proceedIncludes_ne_error n _ e)
            | _ => trivial
      | directive d a =>
        rw [buildConfigTreeSub_directive hi]
        exact ((ih parent outer rest).siblings [.mk d a file line []]).after (List.forall_mem_nil _)
          (scan_directive hi _ _ _)

/-- Outside of sections the lines are read to the end. -/
theorem buildConfigTreeSub_top {n : Nat} {file : CStr} {lines rest : List (Nat × CStr)}
    {ts : List Directive} (h : buildConfigTreeSub fs n file none lines = .ok (ts, rest)) :
    rest = [] := by
  induction n generalizing ts lines with
  | zero =>
    rw [buildConfigTreeSub.eq_def] at h
    cases h
  | succ n ih =>
    have later : ∀ (ds : List Directive) {lines : List (Nat × CStr)}, (do
        let (siblings, rest) ← buildConfigTreeSub fs n file none lines
        return (ds ++ siblings, rest)) = .ok (ts, rest) → rest = [] := by
      intro ds lines h
      cases hs : buildConfigTreeSub fs n file none lines with
      | ok res =>
        rw [hs] at h
        cases h
        exact ih hs
      | error stop =>
        rw [hs] at h
        cases h
    cases lines with
    | nil =>
      simp only [buildConfigTreeSub] at h
      cases h
      rfl
    | cons l lines =>
      obtain ⟨line, text⟩ := l
      cases hi : readItem text with
      | skip =>
        rw [buildConfigTreeSub_skip hi] at h
        exact ih h
      | openSection d a =>
        rw [buildConfigTreeSub_openSection hi] at h
        cases hc : buildConfigTreeSub fs n file (some d) lines with
        | ok res =>
          rw [hc] at h
          exact later [.mk d a file line res.1] h
        | error stop =>
          rw [hc] at h
          cases h
      | endTag t =>
        rw [buildConfigTreeSub_endTag_none hi] at h
        cases h
      | includes pattern =>
        cases pattern with
        | none =>
          rw [buildConfigTreeSub_includes_none hi] at h
          cases h
        | some pattern =>
          rw [buildConfigTreeSub_includes hi] at h
          cases hf : proceedIncludes fs n (fs.glob pattern) with
          | ok included =>
            rw [hf] at h
            exact later included h
          | error stop =>
            rw [hf] at h
            cases h
      | directive d a =>
        rw [buildConfigTreeSub_directive hi] at h
        exact later [.mk d a file line []] h

/-- A tree or an error code is the result for a file that is there, whose lines end so by
themselves; and all its patterns are read. -/
theorem Ended.scan {n : Nat} {f : CStr} (h : Ended (buildConfigTree fs n f)) :
    ∃ bytes, fs.read f = some bytes ∧
      (∀ p ∈ (scan [] (numberedLines bytes)).1, ReadBy fs n p) ∧
      (scan [] (numberedLines bytes)).2 ≠ .crash ∧
      ((scan [] (numberedLines bytes)).2 = .error ↔
        ∃ e, buildConfigTree fs n f = .error (.error e)) := by
  cases n with
  | zero =>
    rw [buildConfigTree.eq_def] at h
    exact h.elim
  | succ n =>
    cases hr : fs.read f with
    | none =>
      simp only [buildConfigTree, hr] at h
      exact h.elim
    | some bytes =>
      refine ⟨bytes, rfl, ?_⟩
      rw [buildConfigTree_read hr] at h ⊢
      have hscan := buildConfigTreeSub_scanned fs n f none [] (numberedLines bytes)
      cases hs : buildConfigTreeSub fs n f none (numberedLines bytes) with
      | ok res =>
        obtain ⟨ts, rest⟩ := res
        obtain rfl := buildConfigTreeSub_top hs
        rw [hs] at hscan
        obtain ⟨patterns, hp, heq⟩ := hscan
        have heq : Cfg.scan [] (numberedLines bytes) = (patterns, .tree) := by
          simpa [Cfg.scan] using heq
        rw [heq]
        refine ⟨fun p hmem => (hp p hmem).succ, by rintro ⟨⟩, ?_⟩
        constructor
        · rintro ⟨⟩
        · rintro ⟨e, ⟨⟩⟩
      | error stop =>
        rw [hs] at h hscan
        cases stop with
        | error e =>
          obtain ⟨hp, herr⟩ := hscan
          have hp : ∀ p ∈ (Cfg.scan [] (numberedLines bytes)).1, ReadBy fs n p := hp
          have herr : (Cfg.scan [] (numberedLines bytes)).2 = .error := herr
          rw [herr]
          exact ⟨fun p hmem => (hp p hmem).succ, by rintro ⟨⟩, fun _ => ⟨e, rfl⟩, fun _ => rfl⟩
        | _ => exact h.elim

/-- The files of a pattern that ended are read up to the first error. -/
theorem ReadBy.ended {n : Nat} {pattern : CStr} (h : ReadBy fs n pattern) {g : CStr}
    {before after : List CStr} (hglob : fs.glob pattern = before ++ g :: after)
    (hb : ∀ f ∈ before, ¬ EndsBy fs f .error) : ∃ m < n, Ended (buildConfigTree fs m g) := by
  obtain ⟨m, hm, res, hres⟩ := h
  rw [hglob] at hres
  clear hglob
  induction before generalizing m res with
  | nil =>
    cases m with
    | zero =>
      rw [proceedIncludes.eq_def] at hres
      cases hres
    | succ m =>
      rw [List.nil_append, proceedIncludes_cons] at hres
      refine ⟨m, Nat.lt_of_succ_lt hm, ?_⟩
      cases hg : buildConfigTree fs m g with
      | ok ts => trivial
      | error stop =>
        rw [hg] at hres
        cases stop with
        | error e => trivial
        | _ => cases hres
  | cons f before ih =>
    cases m with
    | zero =>
      rw [proceedIncludes.eq_def] at hres
      cases hres
    | succ m =>
      rw [List.cons_append, proceedIncludes_cons] at hres
      obtain ⟨hf, hb⟩ := List.forall_mem_cons.mp hb
      cases hg : buildConfigTree fs m f with
      | ok ts =>
        rw [hg] at hres
        cases hrest : proceedIncludes fs m (before ++ g :: after) with
        | ok others => exact ih hb m (Nat.lt_of_succ_lt hm) others hrest
        | error stop =>
          rw [hrest] at hres
          cases hres
      | error stop =>
        rw [hg] at hres
        cases stop with
        | error e =>
          -- the file ends with an error by itself
          obtain ⟨bytes, hr, -, -, herr⟩ := Ended.scan (show Ended (buildConfigTree fs m f) by
            rw [hg]; trivial)
          exact absurd ⟨bytes, hr, herr.mpr ⟨e, hg⟩⟩ hf
        | _ => cases hres

/-- What a reading that ended includes ended with less steps. -/
theorem Ended.includes {n : Nat} {f g : CStr} (h : Ended (buildConfigTree fs n f))
    (hi : Includes fs f g) : ∃ m < n, Ended (buildConfigTree fs m g) := by
  obtain ⟨bytes, hr, hp, -⟩ := h.scan
  obtain ⟨bytes', hr', pattern, hmem, before, after, hglob, hb⟩ := hi
  cases hr.symm.trans hr'
  exact (hp pattern hmem).ended hglob hb

/-! ## What ends -/

/-- Lines end whose patterns do, if they do not crash by themselves. -/
theorem exists_settles_sub (file : CStr) (k : Nat) (parent : Option CStr) (outer : List CStr)
    (lines : List (Nat × CStr)) (hk : lines.length ≤ k) (ho : parent = none → outer = [])
    (hp : ∀ p ∈ (scan (parent.toList ++ outer) lines).1,
      ∃ res, Settles (proceedIncludes fs · (fs.glob p)) (.ok res))
    (hend : (scan (parent.toList ++ outer) lines).2 ≠ .crash) :
    (∃ res, Settles (buildConfigTreeSub fs · file parent lines) (.ok res)) ∨
      ∃ e, Settles (buildConfigTreeSub fs · file parent lines) (.error (.error e)) := by
  induction k generalizing parent outer lines with
  | zero =>
    obtain rfl := List.eq_nil_of_length_eq_zero (Nat.le_zero.mp hk)
    cases parent with
    | none => exact .inl ⟨_, settles_eof⟩
    | some p => exact .inr ⟨_, settles_peof⟩
  | succ k ih =>
    cases lines with
    | nil =>
      cases parent with
      | none => exact .inl ⟨_, settles_eof⟩
      | some p => exact .inr ⟨_, settles_peof⟩
    | cons l rest =>
      obtain ⟨line, text⟩ := l
      have hk' : rest.length ≤ k := Nat.le_of_succ_le_succ hk
      cases hi : readItem text with
      | skip =>
        rw [scan_skip hi] at hp hend
        rcases ih parent outer rest hk' ho hp hend with ⟨res, h⟩ | ⟨e, h⟩
        · exact .inl ⟨res, settles_skip hi h⟩
        · exact .inr ⟨e, settles_skip hi h⟩
      | openSection d a =>
        rw [scan_openSection hi] at hp hend
        rcases ih (some d) (parent.toList ++ outer) rest hk' nofun hp hend with ⟨res, hc⟩ | ⟨e, hc⟩
        · -- the lines after the section are scanned with the sections around it
          obtain ⟨n, hn⟩ : ∃ n, buildConfigTreeSub fs n file (some d) rest = .ok res := hc.exists
          have hscan := buildConfigTreeSub_scanned fs n file (some d) (parent.toList ++ outer) rest
          have hin := buildConfigTreeSub_inside fs n file (some d) rest
          rw [hn] at hscan hin
          obtain ⟨patterns, -, heq⟩ := hscan
          have heq : scan (d :: (parent.toList ++ outer)) rest = _ := heq
          rw [heq] at hp hend
          have hlen : res.2.length ≤ k := (List.IsSuffix.length_le hin).trans hk'
          have hp' := fun p hmem => hp p (List.mem_append_right patterns hmem)
          rcases ih parent outer res.2 hlen ho hp' hend with ⟨res', h⟩ | ⟨e, h⟩
          · exact .inl ⟨_, settles_openSection hi hc h⟩
          · exact .inr ⟨e, settles_openSection hi hc h⟩
        · exact .inr ⟨e, settles_openSection_error hi hc⟩
      | endTag t =>
        cases parent with
        | none =>
          obtain rfl := ho rfl
          rw [Option.toList_none, List.nil_append, scan_endTag_nil hi] at hend
          exact absurd rfl hend
        | some p =>
          by_cases hc : closes t p = true
          · exact .inl ⟨_, settles_endTag hi hc⟩
          · exact .inr ⟨_, settles_sect hi hc⟩
      | includes pattern =>
        cases pattern with
        | none =>
          rw [scan_includes_none hi] at hend
          exact absurd rfl hend
        | some pattern =>
          rw [scan_includes hi] at hp hend
          obtain ⟨⟨included, hf⟩, hp⟩ := List.forall_mem_cons.mp hp
          rcases ih parent outer rest hk' ho hp hend with ⟨res, h⟩ | ⟨e, h⟩
          · exact .inl ⟨_, settles_includes hi hf h⟩
          · exact .inr ⟨e, settles_includes hi hf h⟩
      | directive d a =>
        rw [scan_directive hi] at hp hend
        rcases ih parent outer rest hk' ho hp hend with ⟨res, h⟩ | ⟨e, h⟩
        · exact .inl ⟨_, settles_directive hi h⟩
        · exact .inr ⟨e, settles_directive hi h⟩

/-- An ended result stays with more steps. -/
theorem Ended.settles {n : Nat} {f : CStr} (h : Ended (buildConfigTree fs n f)) :
    Settles (buildConfigTree fs · f) (buildConfigTree fs n f) := by
  refine Settles.of_ne (fun m => (steps_succ fs m).2.2 f) (n := n) ?_
  intro hrun
  rw [hrun] at h
  exact h

/-- Files end that end each by itself and with all that it includes, up to the first error. -/
theorem exists_settles_files (files : List CStr)
    (h : ∀ before g after, files = before ++ g :: after → (∀ f ∈ before, ¬ EndsBy fs f .error) →
      Ends fs g) : ∃ res, Settles (proceedIncludes fs · files) (.ok res) := by
  induction files with
  | nil => exact ⟨_, settles_noFiles⟩
  | cons f files ih =>
    obtain ⟨n, hn⟩ := h [] f files rfl (List.forall_mem_nil _)
    have hsettles := hn.settles
    obtain ⟨bytes, hr, -, -, herr⟩ := hn.scan
    cases hf : buildConfigTree fs n f with
    | ok newRoot =>
      have hok : ¬ EndsBy fs f .error := by
        rintro ⟨bytes', hr', hend⟩
        cases hr.symm.trans hr'
        obtain ⟨e, he⟩ := herr.mp hend
        rw [hf] at he
        cases he
      obtain ⟨others, hothers⟩ := ih fun before g after heq hb =>
        h (f :: before) g after (congrArg (f :: ·) heq) (List.forall_mem_cons.mpr ⟨hok, hb⟩)
      rw [hf] at hsettles
      exact ⟨_, settles_files hsettles hothers⟩
    | error stop =>
      rw [hf] at hn hsettles
      cases stop with
      | error e =>
        refine ⟨[], .of_succ ?_⟩
        filter_upwards [hsettles] with m hm
        rw [proceedIncludes_cons, hm]
      | _ => exact hn.elim

/-- A file ends if all that it includes do, and it does not crash by itself. -/
theorem ends_of_includes {f : CStr} {bytes : List UInt8} (hr : fs.read f = some bytes)
    (hcrash : ¬ EndsBy fs f .crash) (h : ∀ g, Includes fs f g → Ends fs g) : Ends fs f := by
  have hp : ∀ p ∈ (scan [] (numberedLines bytes)).1,
      ∃ res, Settles (proceedIncludes fs · (fs.glob p)) (.ok res) := by
    intro p hmem
    refine exists_settles_files _ fun before g after hglob hb => ?_
    exact h g ⟨bytes, hr, p, hmem, before, after, hglob, hb⟩
  have hend : (scan [] (numberedLines bytes)).2 ≠ .crash := fun heq => hcrash ⟨bytes, hr, heq⟩
  rcases exists_settles_sub f _ none [] _ (Nat.le_refl _) (fun _ => rfl) hp hend with
    ⟨res, hs⟩ | ⟨e, hs⟩
  · obtain ⟨n, hn⟩ : ∃ n, buildConfigTree fs n f = .ok res.1 :=
      (settles_buildConfigTree hr hs).exists
    exact ⟨n, by rw [hn]; trivial⟩
  · obtain ⟨n, hn⟩ : ∃ n, buildConfigTree fs n f = .error (.error e) :=
      (settles_buildConfigTree hr hs).exists
    exact ⟨n, by rw [hn]; trivial⟩

/-! ## Configurations -/

open Relation

/-- The file is read for the root. -/
def ReadFor (fs : Files) (root f : CStr) : Prop := ReflTransGen (Includes fs) root f

theorem Ended.readFor {n : Nat} {root f : CStr} (h : Ended (buildConfigTree fs n root))
    (hf : ReadFor fs root f) : ∃ m, Ended (buildConfigTree fs m f) := by
  induction hf with
  | refl => exact ⟨n, h⟩
  | tail _ hi ih =>
    obtain ⟨m, hm⟩ := ih
    obtain ⟨m', -, hm'⟩ := hm.includes hi
    exact ⟨m', hm'⟩

/-- A file that includes itself would end with less steps than it takes. -/
theorem Ended.not_transGen {n : Nat} {f : CStr} (h : Ended (buildConfigTree fs n f)) :
    ¬ TransGen (Includes fs) f f := by
  have hless : ∀ {g : CStr}, TransGen (Includes fs) f g → ∀ n, Ended (buildConfigTree fs n f) →
      ∃ m < n, Ended (buildConfigTree fs m g) := by
    intro g hg
    induction hg with
    | single hi => exact fun n hn => hn.includes hi
    | tail _ hi ih =>
      intro n hn
      obtain ⟨m, hm, hend⟩ := ih n hn
      obtain ⟨m', hm', hend'⟩ := hend.includes hi
      exact ⟨m', hm'.trans hm, hend'⟩
  intro hcycle
  induction n using Nat.strong_induction_on with
  | _ n ih =>
    obtain ⟨m, hm, hend⟩ := hless hcycle n h
    exact ih m hm hend

theorem ReadFor.mem {dir : ConfigDir} {root f : CStr} (hroot : root ∈ dir.files.map Prod.fst)
    (hf : ReadFor dir.toFiles root f) : f ∈ dir.files.map Prod.fst := by
  induction hf with
  | refl => exact hroot
  | tail _ hi _ =>
    obtain ⟨_, _, pattern, _, before, after, hglob, -⟩ := hi
    refine dir.glob_mem pattern _ ?_
    show _ ∈ dir.toFiles.glob pattern
    rw [hglob]
    exact List.mem_append_right _ List.mem_cons_self

theorem ConfigDir.exists_read {dir : ConfigDir} {f : CStr} (hf : f ∈ dir.files.map Prod.fst) :
    ∃ bytes, dir.toFiles.read f = some bytes := by
  obtain ⟨e, he, rfl⟩ := List.mem_map.mp hf
  exact Option.isSome_iff_exists.mp (List.lookup_isSome_iff.mpr ⟨e, he, beq_self_eq_true _⟩)

/-- Reading a file of a configuration ends with a tree or an error if and only if no file that it
reads includes itself or crashes. -/
theorem ends_iff (dir : ConfigDir) {root : CStr} (hroot : root ∈ dir.files.map Prod.fst) :
    Ends dir.toFiles root ↔ ∀ f, ReadFor dir.toFiles root f →
      ¬ TransGen (Includes dir.toFiles) f f ∧ ¬ EndsBy dir.toFiles f .crash := by
  constructor
  · rintro ⟨n, hn⟩ f hf
    obtain ⟨m, hm⟩ := hn.readFor hf
    refine ⟨hm.not_transGen, ?_⟩
    rintro ⟨bytes, hr, hcrash⟩
    obtain ⟨bytes', hr', -, hne, -⟩ := hm.scan
    cases hr.symm.trans hr'
    exact hne hcrash
  · intro h
    -- what is read for the root is finitely many files, and inclusion has no cycle there
    let Read := { f : CStr // ReadFor dir.toFiles root f }
    have hfin : Finite Read :=
      ((List.finite_toSet _).subset fun f (hf : ReadFor dir.toFiles root f) =>
        hf.mem hroot).to_subtype
    let below : Read → Read → Prop := fun g f => TransGen (Includes dir.toFiles) f.1 g.1
    have htrans : IsTrans Read below := ⟨fun _ _ _ hab hbc => hbc.trans hab⟩
    have hirrefl : Std.Irrefl below := ⟨fun f => (h f.1 f.2).1⟩
    have hwf : WellFounded below := Finite.wellFounded_of_trans_of_irrefl below
    have hends : ∀ f : Read, Ends dir.toFiles f.1 := by
      intro f
      induction f using hwf.induction with
      | _ f ih =>
        obtain ⟨bytes, hr⟩ := ConfigDir.exists_read (f.2.mem hroot)
        refine ends_of_includes hr (h f.1 f.2).2 fun g hi => ?_
        exact ih ⟨g, f.2.tail hi⟩ (.single hi)
    exact hends ⟨root, .refl⟩

/-- `Include b` in `a`, and a directive in `b`. -/
def twoFiles : ConfigDir where
  files := [([97], [73, 110, 99, 108, 117, 100, 101, 32, 98, 10]), ([98], [88, 32, 49, 10])]
  glob := fun _ => [[98]]
  glob_mem := by
    intro pattern f hf
    obtain rfl := List.mem_singleton.mp hf
    decide

theorem ends_iff_twoFiles : Ends twoFiles.toFiles [97] ∧ ∀ f, ReadFor twoFiles.toFiles [97] f →
    ¬ TransGen (Includes twoFiles.toFiles) f f ∧ ¬ EndsBy twoFiles.toFiles f .crash := by
  have hends : Ends twoFiles.toFiles [97] := ⟨8, trivial⟩
  exact ⟨hends, (ends_iff twoFiles (by decide)).mp hends⟩

/-- `Include a` in `a`. -/
theorem not_ends : ¬ ∀ (dir : ConfigDir) (root : CStr), root ∈ dir.files.map Prod.fst →
    Ends dir.toFiles root := by
  intro h
  obtain ⟨n, hn⟩ := h
    { files := [([97], [73, 110, 99, 108, 117, 100, 101, 32, 97, 10])]
      glob := fun _ => [[97]]
      glob_mem := by
        intro pattern f hf
        obtain rfl := List.mem_singleton.mp hf
        decide } [97] (by decide)
  exact hn.not_transGen (.single ⟨_, rfl, [97], by decide, [], [], rfl, List.forall_mem_nil _⟩)

end Cfg

end Orchids
