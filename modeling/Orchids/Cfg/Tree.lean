import Mathlib.Algebra.Group.Nat.Defs
import Orchids.Util.Stdio

/-!
# The configuration tree (`orchids_cfg.c`)

`build_config_tree`, `build_config_tree_sub` and `proceed_includes`, with the functions that cut a
line. The files and what `glob` finds are parameters. The calls may go on without end, so they have a
number of steps. A tree is a list of directives in the order of their `next`, each with the list of
its children.
-/

namespace Orchids

namespace Cfg

/-! ## Lines -/

/-- One of `" \t\n"`. -/
def isGap (c : UInt8) : Bool := c == 32 || c == 9 || c == 10

/-- The loop of `strip_trailing_garbage`: what is kept so far, backwards, and what comes after the
last effective byte. At the end of the string nothing is cut. -/
def stripLoop : CStr → Bool → Option UInt8 → CStr → CStr → CStr
  | [], _, _, kept, blanks => (blanks ++ kept).reverse
  | c :: string, true, inQuote, kept, blanks => stripLoop string false inQuote (c :: blanks ++ kept) []
  | c :: string, false, inQuote, kept, blanks =>
    if c = 35 ∧ inQuote = none then kept.reverse
    else if c = 10 then kept.reverse
    else if c = 9 ∨ c = 32 then stripLoop string false inQuote kept (c :: blanks)
    else if c = 92 then stripLoop string true inQuote (c :: blanks ++ kept) []
    else if c = 39 ∨ c = 34 then
      let inQuote := if inQuote = some c then none else if inQuote = none then some c else inQuote
      stripLoop string false inQuote (c :: blanks ++ kept) []
    else stripLoop string false inQuote (c :: blanks ++ kept) []

/-- `strip_trailing_garbage` -/
def stripTrailingGarbage (string : CStr) : CStr := stripLoop string false none [] []

/-- `c == '#' || c == '\n' || c == '\0'` of the first byte. -/
def ignored : CStr → Bool
  | [] => true
  | c :: _ => c == 35 || c == 10

/-- `split_line`, with `cfg_get_next_token`: the directive and its argument, if the line is not
ignored. -/
def splitLine (line : CStr) : Option (CStr × Option CStr) :=
  let ptr := line.dropWhile isGap
  if ignored ptr then none
  else
    let argument := (ptr.dropWhile (!isGap ·)).dropWhile isGap
    some (ptr.takeWhile (!isGap ·),
      if ignored argument then none else some (stripTrailingGarbage argument))

/-- What a line is. -/
inductive Item where
  | skip
  | openSection (directive : CStr) (args : Option CStr)
  | endTag (directive : CStr)
  | includes (pattern : Option CStr)
  | directive (directive : CStr) (args : Option CStr)
  deriving DecidableEq

/-- The directive of a section without `>` at its end. -/
def openTag (directive : CStr) : CStr :=
  if directive.getLast? = some 62 then directive.dropLast else directive

/-- `"Include"` -/
def includeWord : CStr := [73, 110, 99, 108, 117, 100, 101]

/-- The cases of `build_config_tree_sub`. -/
def readItem (line : CStr) : Item :=
  match splitLine line with
  | none => .skip
  | some (60 :: 47 :: tag, _) => .endTag (60 :: 47 :: tag)
  | some (60 :: tag, arguments) => .openSection (openTag (60 :: tag)) arguments
  | some (directive, arguments) =>
    if directive = includeWord then .includes arguments else .directive directive arguments

/-- `strncmp(a, b, n) == 0` -/
def strncmpEq (a b : CStr) (n : Nat) : Bool := a.take n == b.take n

/-- `strlen(directive) - 3`, which is a `size_t`. -/
def tagLen (directive : CStr) : Nat :=
  if 3 ≤ directive.length then directive.length - 3 else 2 ^ 64 + directive.length - 3

/-- The comparison of an end tag with the directive of the section. -/
def closes (directive parent : CStr) : Bool :=
  strncmpEq (directive.drop 2) (parent.drop 1) (tagLen directive)

/-! ## Trees -/

/-- `config_directive_t`, with its children. -/
inductive Directive where
  | mk (directive : CStr) (args : Option CStr) (file : CStr) (line : Nat)
    (children : List Directive)

/-- A wrong end tag, or none at the end of the file. -/
inductive CfgError where
  /-- `ERR_CFG_SECT`, with what `DebugLog` reports. -/
  | sect (file : CStr) (line : Nat) (parent directive : CStr)
  /-- An end tag outside of all sections. -/
  | extra (file : CStr) (line : Nat) (directive : CStr)
  /-- `ERR_CFG_PEOF`, with the file that ends. -/
  | peof (file : CStr)
  deriving DecidableEq

/-- Why there is no tree. -/
inductive Stop where
  /-- The steps are used up. -/
  | running
  /-- An error code is returned. -/
  | error (e : CfgError)
  /-- `Xfopen` exits. -/
  | exit (file : CStr)
  /-- `parent->directive` is read, and `parent` is `NULL`. -/
  | nullParent
  /-- The pattern for `glob` is `NULL`. -/
  | nullPattern
  deriving DecidableEq

/-- The files that can be opened, and what `glob` finds. -/
structure Files where
  read : CStr → Option (List UInt8)
  glob : CStr → List CStr

/-- `LINE_MAX` -/
def lineMax : Nat := 2048

/-- The lines as `Xfgets` reads them, with their numbers. -/
def numberedLines (text : List UInt8) : List (Nat × CStr) :=
  (readPieces (lineMax - 1) text).zipIdx.map fun (piece, i) => (i + 1, cString piece)

mutual

/-- `build_config_tree_sub`: the directives up to the end of the section, and the lines after it.
`parent` is the directive of the section. -/
def buildConfigTreeSub (fs : Files) : Nat → CStr → Option CStr → List (Nat × CStr) →
    Except Stop (List Directive × List (Nat × CStr))
  | 0, _, _, _ => .error .running
  | _ + 1, file, some _, [] => .error (.error (.peof file))
  | _ + 1, _, none, [] => .ok ([], [])
  | n + 1, file, parent, (line, text) :: rest =>
    match readItem text, parent with
    | .skip, _ => buildConfigTreeSub fs n file parent rest
    | .openSection directive args, _ => do
      let (children, rest) ← buildConfigTreeSub fs n file (some directive) rest
      let (siblings, rest) ← buildConfigTreeSub fs n file parent rest
      return (.mk directive args file line children :: siblings, rest)
    | .endTag directive, some p =>
      if closes directive p then .ok ([], rest)
      else .error (.error (.sect file line p directive))
    | .endTag _, none => .error .nullParent
    | .includes none, _ => .error .nullPattern
    | .includes (some pattern), _ => do
      let included ← proceedIncludes fs n (fs.glob pattern)
      let (siblings, rest) ← buildConfigTreeSub fs n file parent rest
      return (included ++ siblings, rest)
    | .directive directive args, _ => do
      let (siblings, rest) ← buildConfigTreeSub fs n file parent rest
      return (.mk directive args file line [] :: siblings, rest)

/-- The loop of `proceed_includes` over the files. It returns at the first error, which its caller
does not look at. -/
def proceedIncludes (fs : Files) : Nat → List CStr → Except Stop (List Directive)
  | 0, _ => .error .running
  | _ + 1, [] => .ok []
  | n + 1, file :: files =>
    match buildConfigTree fs n file with
    | .ok newRoot => do
      let others ← proceedIncludes fs n files
      return newRoot ++ others
    | .error (.error _) => .ok []
    | .error stop => .error stop

/-- `build_config_tree` -/
def buildConfigTree (fs : Files) : Nat → CStr → Except Stop (List Directive)
  | 0, _ => .error .running
  | n + 1, file =>
    match fs.read file with
    | none => .error (.exit file)
    | some text => do
      let (root, _) ← buildConfigTreeSub fs n file none (numberedLines text)
      return root

end

/-! ## The cases -/

section

variable {fs : Files} {n : Nat} {file : CStr} {parent : Option CStr} {line : Nat} {text : CStr}
  {rest : List (Nat × CStr)} {d p t pattern : CStr} {a : Option CStr}

theorem buildConfigTreeSub_zero (lines : List (Nat × CStr)) :
    buildConfigTreeSub fs 0 file parent lines = .error .running := rfl

/-- The loop at a line. -/
theorem buildConfigTreeSub_cons :
    buildConfigTreeSub fs (n + 1) file parent ((line, text) :: rest) =
      match readItem text, parent with
      | .skip, _ => buildConfigTreeSub fs n file parent rest
      | .openSection d a, _ => do
        let (children, rest) ← buildConfigTreeSub fs n file (some d) rest
        let (siblings, rest) ← buildConfigTreeSub fs n file parent rest
        return (.mk d a file line children :: siblings, rest)
      | .endTag t, some p =>
        if closes t p then .ok ([], rest) else .error (.error (.sect file line p t))
      | .endTag _, none => .error .nullParent
      | .includes none, _ => .error .nullPattern
      | .includes (some pattern), _ => do
        let included ← proceedIncludes fs n (fs.glob pattern)
        let (siblings, rest) ← buildConfigTreeSub fs n file parent rest
        return (included ++ siblings, rest)
      | .directive d a, _ => do
        let (siblings, rest) ← buildConfigTreeSub fs n file parent rest
        return (.mk d a file line [] :: siblings, rest) := by
  cases parent <;> rfl

theorem buildConfigTreeSub_skip (hi : readItem text = .skip) :
    buildConfigTreeSub fs (n + 1) file parent ((line, text) :: rest) =
      buildConfigTreeSub fs n file parent rest := by
  rw [buildConfigTreeSub_cons, hi]

theorem buildConfigTreeSub_openSection (hi : readItem text = .openSection d a) :
    buildConfigTreeSub fs (n + 1) file parent ((line, text) :: rest) = do
      let (children, rest) ← buildConfigTreeSub fs n file (some d) rest
      let (siblings, rest) ← buildConfigTreeSub fs n file parent rest
      return (.mk d a file line children :: siblings, rest) := by
  rw [buildConfigTreeSub_cons, hi]

theorem buildConfigTreeSub_endTag (hi : readItem text = .endTag t) :
    buildConfigTreeSub fs (n + 1) file (some p) ((line, text) :: rest) =
      if closes t p then .ok ([], rest) else .error (.error (.sect file line p t)) := by
  rw [buildConfigTreeSub_cons, hi]

theorem buildConfigTreeSub_endTag_none (hi : readItem text = .endTag t) :
    buildConfigTreeSub fs (n + 1) file none ((line, text) :: rest) = .error .nullParent := by
  rw [buildConfigTreeSub_cons, hi]

theorem buildConfigTreeSub_includes (hi : readItem text = .includes (some pattern)) :
    buildConfigTreeSub fs (n + 1) file parent ((line, text) :: rest) = do
      let included ← proceedIncludes fs n (fs.glob pattern)
      let (siblings, rest) ← buildConfigTreeSub fs n file parent rest
      return (included ++ siblings, rest) := by
  rw [buildConfigTreeSub_cons, hi]

theorem buildConfigTreeSub_includes_none (hi : readItem text = .includes none) :
    buildConfigTreeSub fs (n + 1) file parent ((line, text) :: rest) = .error .nullPattern := by
  rw [buildConfigTreeSub_cons, hi]

theorem buildConfigTreeSub_directive (hi : readItem text = .directive d a) :
    buildConfigTreeSub fs (n + 1) file parent ((line, text) :: rest) = do
      let (siblings, rest) ← buildConfigTreeSub fs n file parent rest
      return (.mk d a file line [] :: siblings, rest) := by
  rw [buildConfigTreeSub_cons, hi]

theorem proceedIncludes_cons (files : List CStr) :
    proceedIncludes fs (n + 1) (file :: files) =
      match buildConfigTree fs n file with
      | .ok newRoot => do
        let others ← proceedIncludes fs n files
        return newRoot ++ others
      | .error (.error _) => .ok []
      | .error stop => .error stop := rfl

theorem buildConfigTree_read {bytes : List UInt8} (hr : fs.read file = some bytes) :
    buildConfigTree fs (n + 1) file = do
      let (root, _) ← buildConfigTreeSub fs n file none (numberedLines bytes)
      return root := by
  rw [buildConfigTree, hr]

/-- More steps do not change what is returned. -/
theorem steps_succ (fs : Files) (n : Nat) :
    (∀ file parent lines, buildConfigTreeSub fs n file parent lines ≠ .error .running →
      buildConfigTreeSub fs (n + 1) file parent lines = buildConfigTreeSub fs n file parent lines) ∧
    (∀ files, proceedIncludes fs n files ≠ .error .running →
      proceedIncludes fs (n + 1) files = proceedIncludes fs n files) ∧
    ∀ file, buildConfigTree fs n file ≠ .error .running →
      buildConfigTree fs (n + 1) file = buildConfigTree fs n file := by
  induction n with
  | zero =>
    refine ⟨?_, ?_, ?_⟩
    · intro file parent lines h
      exact absurd rfl h
    · intro files h
      exact absurd rfl h
    · intro file h
      exact absurd rfl h
  | succ n ih =>
    obtain ⟨ihsub, ihinc, ihtree⟩ := ih
    -- the bind runs the rest only after a result
    have hbind : ∀ {α β : Type} {x y : Except Stop α} {f g : α → Except Stop β},
        (x ≠ .error .running → y = x) → (∀ a, f a ≠ .error .running → g a = f a) →
        x.bind f ≠ .error .running → y.bind g = x.bind f := by
      intro α β x y f g hx hf h
      cases x with
      | error stop =>
        rw [hx (by rintro ⟨⟩; exact h rfl)]
        rfl
      | ok a =>
        rw [hx (by rintro ⟨⟩)]
        exact hf a h
    refine ⟨?_, ?_, ?_⟩
    · intro file parent lines h
      match lines with
      | [] => cases parent <;> rfl
      | (line, text) :: rest =>
        cases hi : readItem text with
        | skip =>
          rw [buildConfigTreeSub_skip hi] at h
          rw [buildConfigTreeSub_skip hi, buildConfigTreeSub_skip hi]
          exact ihsub _ _ _ h
        | openSection d a =>
          rw [buildConfigTreeSub_openSection hi] at h
          rw [buildConfigTreeSub_openSection hi, buildConfigTreeSub_openSection hi]
          refine hbind (ihsub _ _ _) ?_ h
          rintro ⟨children, rest⟩
          exact hbind (ihsub _ _ _) fun _ _ => rfl
        | endTag t =>
          cases parent with
          | none => rw [buildConfigTreeSub_endTag_none hi, buildConfigTreeSub_endTag_none hi]
          | some p => rw [buildConfigTreeSub_endTag hi, buildConfigTreeSub_endTag hi]
        | includes pattern =>
          cases pattern with
          | none => rw [buildConfigTreeSub_includes_none hi, buildConfigTreeSub_includes_none hi]
          | some pattern =>
            rw [buildConfigTreeSub_includes hi] at h
            rw [buildConfigTreeSub_includes hi, buildConfigTreeSub_includes hi]
            refine hbind (ihinc _) ?_ h
            intro included
            exact hbind (ihsub _ _ _) fun _ _ => rfl
        | directive d a =>
          rw [buildConfigTreeSub_directive hi] at h
          rw [buildConfigTreeSub_directive hi, buildConfigTreeSub_directive hi]
          exact hbind (ihsub _ _ _) (fun _ _ => rfl) h
    · intro files h
      match files with
      | [] => rfl
      | file :: files =>
        rw [proceedIncludes_cons] at h
        rw [proceedIncludes_cons, proceedIncludes_cons]
        have htree := ihtree file
        cases hf : buildConfigTree fs n file with
        | ok newRoot =>
          rw [hf] at h htree
          rw [htree (by rintro ⟨⟩)]
          exact hbind (ihinc _) (fun _ _ => rfl) h
        | error stop =>
          rw [hf] at h htree
          cases stop with
          | running => exact absurd rfl h
          | _ => rw [htree (by rintro ⟨⟩)]
    · intro file h
      cases hr : fs.read file with
      | none => simp only [buildConfigTree, hr]
      | some bytes =>
        rw [buildConfigTree_read hr] at h
        rw [buildConfigTree_read hr, buildConfigTree_read hr]
        exact hbind (ihsub _ _ _) (fun _ _ => rfl) h

end

end Cfg

end Orchids
