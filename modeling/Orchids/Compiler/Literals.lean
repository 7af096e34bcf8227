import Orchids.Lib.Lexer
import Orchids.Util.Stdio
import Orchids.Util.StringUtil

/-!
# String literals (`issdl.l`, `build_string` of `rule_compiler.c`)

The rules of the start condition `QSTR`, with the buffer that they fill. A literal is written in
pieces, each for one byte.

* `longest_digits`: a backslash takes all the digits behind it.
* `scan_pieces`: what the scanner makes of a literal.
* `readString_iff`: for which literals that is what was written.
-/

namespace Orchids

namespace Qstr

/-- `QSTRMAX` -/
def qstrMax : Nat := 4096

/-- How the scanner leaves a string. -/
inductive Leave where
  | string (s : CStr)
  /-- `return (0)`, the end of the input for the parser. -/
  | error
  /-- `QSTR_PUTC` exits. -/
  | exit
  deriving DecidableEq

/-- `QSTR_PUTC` -/
def putc (buf : CStr) (c : UInt8) : Except Leave CStr :=
  if buf.length ≥ qstrMax - 1 then .error .exit else .ok (buf ++ [c])

/-- The rules, in their order. -/
inductive Rule where
  | close
  | newline
  | octal
  | badOctal
  | put (c : UInt8)
  | escaped
  | text

/-- `[0-7]` -/
def isOctal (c : UInt8) : Bool := 48 ≤ c && c ≤ 55

/-- `[0-9]` -/
def isDigit (c : UInt8) : Bool := 48 ≤ c && c ≤ 57

/-- `[^\\\n\"]` -/
def isText (c : UInt8) : Bool := c != 92 && c != 10 && c != 34

/-- `\\[0-7]{1,3}` -/
def octalEscape : CStr → Bool
  | 92 :: digits => 1 ≤ digits.length && digits.length ≤ 3 && digits.all isOctal
  | _ => false

/-- `\\[0-9]+` -/
def digitEscape : CStr → Bool
  | 92 :: digits => !digits.isEmpty && digits.all isDigit
  | _ => false

/-- `\\(.|\n)` -/
def anyEscape : CStr → Bool
  | [92, _] => true
  | _ => false

def rules : List (LexRule UInt8 Rule) :=
  [⟨(· == [34]), .close⟩, ⟨(· == [10]), .newline⟩,
    ⟨octalEscape, .octal⟩, ⟨digitEscape, .badOctal⟩,
    ⟨(· == [92, 110]), .put 10⟩, ⟨(· == [92, 116]), .put 9⟩, ⟨(· == [92, 114]), .put 13⟩,
    ⟨(· == [92, 98]), .put 8⟩, ⟨(· == [92, 102]), .put 12⟩,
    ⟨anyEscape, .escaped⟩,
    ⟨fun l => !l.isEmpty && l.all isText, .text⟩]

/-- `sscanf(digits, "%o", &res)` -/
def octalValue (digits : CStr) : Nat := digits.foldl (fun v c => 8 * v + (c.toNat - 48)) 0

/-- The actions, on the buffer and `yytext`. -/
def act (buf : CStr) (rule : Rule) (yytext : CStr) : Except Leave CStr :=
  match rule with
  | .close => .error (.string buf)
  | .newline => .error .error
  | .octal =>
    if octalValue (yytext.drop 1) > 255 then .error .error
    else putc buf (UInt8.ofNat (octalValue (yytext.drop 1)))
  | .badOctal => .error .error
  | .put c => putc buf c
  | .escaped => putc buf (yytext.getD 1 0)
  | .text => (cString yytext).foldlM putc buf

/-- The scanner behind the quote that begins a string. -/
def scanString (input : CStr) : Option (Leave × CStr) :=
  LexRule.scan rules act (input.length + 1) [] input

/-- `build_string` -/
def buildString (str : CStr) : Text := { bytes := cString str, behind := fun _ => 0 }

/-- The constant that the string at the start of the input becomes. -/
def readString : CStr → Option Text
  | 34 :: input =>
    match scanString input with
    | some (.string buf, _) => some (buildString (cString buf))
    | _ => none
  | _ => none

/-! ## What is written -/

/-- The letters behind a backslash, each with its byte. -/
def letters : List (UInt8 × UInt8) := [(110, 10), (116, 9), (114, 13), (98, 8), (102, 12)]

/-- A byte of a literal, in one of the ways to write it. -/
inductive Piece where
  | raw (c : UInt8) (h : isText c = true ∧ c ≠ 0)
  | letter (c b : UInt8) (h : (c, b) ∈ letters)
  | escaped (c : UInt8) (h : ∀ b, (c, b) ∉ letters)
  | octal (b : UInt8)

namespace Piece

/-- The byte. -/
def denote : Piece → UInt8
  | raw c _ => c
  | letter _ b _ => b
  | escaped c _ => c
  | octal b => b

/-- The three digits of a byte. -/
def digits (b : UInt8) : CStr :=
  [UInt8.ofNat (48 + b.toNat / 64), UInt8.ofNat (48 + b.toNat / 8 % 8),
    UInt8.ofNat (48 + b.toNat % 8)]

def write : Piece → CStr
  | raw c _ => [c]
  | letter c _ _ => [92, c]
  | escaped c _ => [92, c]
  | octal b => 92 :: digits b

/-- A digit as it is. -/
def rawDigit : Piece → Bool
  | raw c _ => isDigit c
  | _ => false

/-- A backslash before a digit that stands for itself. -/
def escapedDigit : Piece → Bool
  | escaped c _ => isDigit c
  | _ => false

def isRaw : Piece → Bool
  | raw _ _ => true
  | _ => false

def isOctalPiece : Piece → Bool
  | octal _ => true
  | _ => false

end Piece

/-- A literal between its quotes. -/
def quoted (ps : List Piece) : CStr := 34 :: (ps.flatMap Piece.write ++ [34])

/-- No backslash has a digit behind it that does not belong to its three digits. -/
def Separate : List Piece → Prop
  | [] => True
  | p :: ps =>
    p.escapedDigit = false ∧ (p.isOctalPiece = true → ∀ q ∈ ps.head?, q.rawDigit = false) ∧
      Separate ps

/-! ## The rule that is taken -/

variable {c : UInt8} {ds l rest : CStr}

theorem isOctal_digit (h : isOctal c = true) : isDigit c = true := by
  simp only [isOctal, isDigit, Bool.and_eq_true, decide_eq_true_eq, UInt8.le_iff_toNat_le] at h ⊢
  exact ⟨h.1, h.2.trans (by decide)⟩

/-- A longer text than `text` begins with it and one more byte. -/
theorem longest_of_next (text : CStr) {t : Rule} (hne : text ≠ [])
    (ht : LexRule.first rules text = some t)
    (hnext : ∀ c ∈ rest.head?, ∀ l, LexRule.first rules (text ++ c :: l) = none) :
    LexRule.longest rules (text ++ rest) = some (t, text, rest) := by
  refine LexRule.longest_append hne ht fun l hl hpre => ?_
  obtain ⟨m, rfl⟩ := hpre
  cases l with
  | nil => exact absurd rfl hl
  | cons c l => exact hnext c rfl l

theorem longest_close : LexRule.longest rules (34 :: rest) = some (.close, [34], rest) :=
  longest_of_next [34] (by simp) rfl fun c _ l => by
    simp [LexRule.first, rules, octalEscape, digitEscape, anyEscape, isText]

/-- The rule for a backslash before a byte that is no digit. -/
def pairRule (c : UInt8) : Rule :=
  match letters.lookup c with
  | some b => .put b
  | none => .escaped

theorem longest_pair (hc : isDigit c = false) :
    LexRule.longest rules (92 :: c :: rest) = some (pairRule c, [92, c], rest) := by
  have hoct : isOctal c = false := Bool.eq_false_iff.mpr fun h => by simp [isOctal_digit h] at hc
  refine longest_of_next [92, c] (by simp) ?_ fun c _ l => ?_
  · simp [rules, octalEscape, digitEscape, anyEscape, hoct, hc, pairRule, letters, List.lookup_cons, List.lookup_nil]
    grind
  · simp [rules, octalEscape, digitEscape, anyEscape, isText, hoct, hc]

/-- A backslash takes all the digits behind it. -/
theorem longest_digits (rest ds : CStr) (hne : ds ≠ []) (hds : ∀ c ∈ ds, isDigit c = true)
    (hrest : ∀ c ∈ rest.head?, isDigit c = false) :
    LexRule.longest rules (92 :: ds ++ rest) =
      some (if octalEscape (92 :: ds) then .octal else .badOctal, 92 :: ds, rest) := by
  refine longest_of_next (92 :: ds) (by simp) ?_ fun c hc l => ?_
  · have hdigit : digitEscape (92 :: ds) = true := by
      simpa [digitEscape, hne] using hds
    cases hoct : octalEscape (92 :: ds) <;> simp [rules, hdigit, hoct]
  · have hc := hrest c hc
    have hoct : isOctal c = false := Bool.eq_false_iff.mpr fun h => by simp [isOctal_digit h] at hc
    cases ds with
    | nil => exact absurd rfl hne
    | cons d ds => simp [rules, octalEscape, digitEscape, anyEscape, isText, hc, hoct]

/-- An escape begins with a backslash. -/
theorem escapes_false (hc : c ≠ 92) (l : CStr) :
    octalEscape (c :: l) = false ∧ digitEscape (c :: l) = false ∧ anyEscape (c :: l) = false := by
  refine ⟨?_, ?_, ?_⟩
  · unfold octalEscape
    split <;> simp_all
  · unfold digitEscape
    split <;> simp_all
  · unfold anyEscape
    split <;> simp_all

theorem longest_text (hne : l ≠ []) (hl : ∀ c ∈ l, isText c = true)
    (hrest : ∀ c ∈ rest.head?, isText c = false) :
    LexRule.longest rules (l ++ rest) = some (.text, l, rest) := by
  cases l with
  | nil => exact absurd rfl hne
  | cons x l =>
    obtain ⟨⟨hx, hx'⟩, hx''⟩ : (x ≠ 92 ∧ x ≠ 10) ∧ x ≠ 34 := by
      simpa [isText] using hl x List.mem_cons_self
    refine longest_of_next (x :: l) hne ?_ fun c hc l' => ?_
    · simp [rules, escapes_false hx, hx, hx', hx'']
      simpa using hl
    · simp [rules, escapes_false hx, hx, hx', hx'', hrest c hc]

/-! ## The buffer -/

variable {buf : CStr} {ps : List Piece} {p : Piece} {leave : Leave} {n : Nat}

theorem putc_ok (h : buf.length + 1 < qstrMax) : putc buf c = .ok (buf ++ [c]) := by
  rw [putc, if_neg (by simp only [qstrMax] at h ⊢; omega)]

theorem puts_ok (h : buf.length + l.length < qstrMax) : l.foldlM putc buf = .ok (buf ++ l) := by
  induction l generalizing buf with
  | nil => rw [List.append_nil]; rfl
  | cons c l ih =>
    rw [List.length_cons] at h
    rw [List.foldlM_cons, putc_ok (by omega)]
    show l.foldlM putc (buf ++ [c]) = _
    rw [ih (by simp only [List.length_append, List.length_singleton]; omega), List.append_assoc,
      List.singleton_append]

theorem digits_octal (b : UInt8) : ∀ c ∈ Piece.digits b, isOctal c = true := by
  have hb : b.toNat < 256 := b.toNat_lt
  simp [Piece.digits, isOctal, UInt8.le_iff_toNat_le]
  omega

theorem octalValue_digits (b : UInt8) : octalValue (Piece.digits b) = b.toNat := by
  have hb : b.toNat < 256 := b.toNat_lt
  simp [Piece.digits, octalValue]
  omega

/-- The bytes of a literal and what comes after it. -/
def source (ps : List Piece) (rest : CStr) : CStr := ps.flatMap Piece.write ++ 34 :: rest

/-- How the scanner may leave the literal `ps`, of which it has the bytes `buf` already. -/
structure Outcome (buf : CStr) (ps : List Piece) (leave : Leave) : Prop where
  complete : Separate ps → leave = .string (buf ++ ps.map Piece.denote)
  sound : ∀ s, leave = .string s → ∃ out, s = buf ++ out ∧ out.length ≤ ps.length ∧
    (out = ps.map Piece.denote → Separate ps)

namespace Outcome

theorem nil : Outcome buf [] (.string buf) where
  complete _ := by rw [List.map_nil, List.append_nil]
  sound s hs := ⟨[], by simpa using (Leave.string.inj hs).symm, Nat.le_refl _, fun _ => trivial⟩

/-- A piece that is read as it is written. -/
theorem cons (h : Outcome (buf ++ [p.denote]) ps leave) (hp : p.escapedDigit = false)
    (hoct : p.isOctalPiece = true → ∀ q ∈ ps.head?, q.rawDigit = false) :
    Outcome buf (p :: ps) leave where
  complete hsep := by
    rw [h.complete hsep.2.2, List.append_assoc]
    rfl
  sound s hs := by
    obtain ⟨out, rfl, hlen, hsep⟩ := h.sound s hs
    refine ⟨p.denote :: out, by simp, Nat.succ_le_succ hlen, fun hout => ⟨hp, hoct, hsep ?_⟩⟩
    exact (List.cons.inj hout).2

theorem raws {rs : List Piece} (h : Outcome (buf ++ rs.map Piece.denote) ps leave)
    (hrs : ∀ p ∈ rs, p.escapedDigit = false ∧ p.isOctalPiece = false) :
    Outcome buf (rs ++ ps) leave := by
  induction rs generalizing buf with
  | nil => simpa using h
  | cons p rs ih =>
    have hp := hrs p List.mem_cons_self
    have hps : Outcome (buf ++ [p.denote]) (rs ++ ps) leave :=
      ih (by simpa using h) fun q hq => hrs q (List.mem_cons_of_mem p hq)
    refine hps.cons hp.1 fun hoct => ?_
    rw [hp.2] at hoct
    exact nomatch hoct

theorem error (h : ¬ Separate ps) : Outcome buf ps .error where
  complete hsep := absurd hsep h
  sound _ hs := nomatch hs

/-- A digit that is escaped, with the digits behind it. -/
theorem merged {ds : List Piece} (h : Outcome (buf ++ [c]) ps leave) (hp : p.escapedDigit = true)
    (hc : ds = [] → c ≠ p.denote) : Outcome buf (p :: ds ++ ps) leave where
  complete hsep := by
    rw [hsep.1] at hp
    exact nomatch hp
  sound s hs := by
    obtain ⟨out, rfl, hlen, -⟩ := h.sound s hs
    refine ⟨c :: out, by simp, by simp; omega, fun hout => ?_⟩
    have hlen' := congrArg List.length hout
    simp only [List.cons_append, List.map_cons, List.length_cons, List.length_map,
      List.length_append] at hlen'
    have hds : ds = [] := List.length_eq_zero_iff.mp (by omega)
    exact absurd (List.cons.inj hout).1 (hc hds)

end Outcome

/-! ## The run -/

theorem isRaw_of_rawDigit (h : p.rawDigit = true) : p.isRaw = true := by
  cases p with
  | raw => rfl
  | _ => exact nomatch h

theorem write_raws {rs : List Piece} (h : ∀ p ∈ rs, p.isRaw = true) :
    rs.flatMap Piece.write = rs.map Piece.denote := by
  induction rs with
  | nil => rfl
  | cons p rs ih =>
    rw [List.flatMap_cons, ih fun q hq => h q (List.mem_cons_of_mem p hq), List.map_cons]
    cases p with
    | raw => rfl
    | _ => exact nomatch h _ List.mem_cons_self

/-- The byte that a literal goes on with, when it is no raw one. -/
theorem head_source {c : UInt8} (h : ∀ p ∈ ps.head?, p.isRaw = false)
    (hc : c ∈ (source ps rest).head?) : c = 92 ∨ c = 34 := by
  cases ps with
  | nil => exact .inr (Option.some.inj hc).symm
  | cons p ps =>
    cases p with
    | raw => exact nomatch h _ rfl
    | _ => exact .inl (Option.some.inj hc).symm

theorem isText_head (h : ∀ p ∈ ps.head?, p.isRaw = false) :
    ∀ c ∈ (source ps rest).head?, isText c = false := by
  intro c hc
  rcases head_source h hc with rfl | rfl <;> rfl

theorem isDigit_head (h : ∀ p ∈ ps.head?, p.rawDigit = false) :
    ∀ c ∈ (source ps rest).head?, isDigit c = false := by
  intro c hc
  cases ps with
  | nil =>
    obtain rfl : 34 = c := Option.some.inj hc
    rfl
  | cons p ps =>
    cases p with
    | raw d hd =>
      obtain rfl : d = c := Option.some.inj hc
      exact h _ rfl
    | _ =>
      obtain rfl : 92 = c := Option.some.inj hc
      rfl

theorem head_dropWhile {α : Type} (f : α → Bool) (xs : List α) :
    ∀ x ∈ (xs.dropWhile f).head?, f x = false := by
  intro x hx
  have h := List.head?_dropWhile_not f xs
  rw [Option.mem_def.mp hx] at h
  exact h

theorem source_append {qs : List Piece} :
    source (ps ++ qs) rest = ps.flatMap Piece.write ++ source qs rest := by
  simp [source]

/-- The literal is left from the buffer, with enough actions. -/
def Leaves (ps : List Piece) (rest buf : CStr) : Prop :=
  ∀ n, (source ps rest).length ≤ n → ∃ leave r,
    LexRule.scan rules act n buf (source ps rest) = some (leave, r) ∧ Outcome buf ps leave

namespace Leaves

variable {qs : List Piece} {t : Rule} (text : CStr)

/-- The rule for the bytes `text` goes on with the pieces `qs`. -/
theorem step (h : Leaves qs rest l) (hs : source ps rest = text ++ source qs rest) (hne : text ≠ [])
    (ht : LexRule.longest rules (text ++ source qs rest) = some (t, text, source qs rest))
    (ha : act buf t text = .ok l) (hout : ∀ leave, Outcome l qs leave → Outcome buf ps leave) :
    Leaves ps rest buf := by
  intro n hn
  have hpos : 0 < text.length := List.length_pos_iff.mpr hne
  rw [hs, List.length_append] at hn
  obtain ⟨m, rfl⟩ : ∃ m, n = m + 1 := ⟨n - 1, by omega⟩
  obtain ⟨leave, r, hscan, h⟩ := h m (by omega)
  exact ⟨leave, r, by rw [hs, LexRule.scan_ok ht ha, hscan], hout leave h⟩

theorem stop (hs : source ps rest = text ++ l) (hne : text ≠ [])
    (ht : LexRule.longest rules (text ++ l) = some (t, text, l))
    (ha : act buf t text = .error leave) (hout : Outcome buf ps leave) : Leaves ps rest buf := by
  intro n hn
  have hpos : 0 < text.length := List.length_pos_iff.mpr hne
  rw [hs, List.length_append] at hn
  obtain ⟨m, rfl⟩ : ∃ m, n = m + 1 := ⟨n - 1, by omega⟩
  exact ⟨leave, l, by rw [hs, LexRule.scan_error ht ha], hout⟩

end Leaves

theorem leaves_nil : Leaves [] rest buf := by
  exact Leaves.stop [34] rfl (by simp) longest_close rfl .nil

/-- A backslash before a byte that is no digit. -/
theorem leaves_pair (h : Leaves ps rest (buf ++ [p.denote])) (hlen : buf.length + 1 < qstrMax)
    (hwrite : p.write = [92, c]) (hc : isDigit c = false)
    (hput : act buf (pairRule c) [92, c] = putc buf p.denote) (hp : p.escapedDigit = false)
    (hoct : p.isOctalPiece = false) : Leaves (p :: ps) rest buf := by
  refine h.step [92, c] ?_ (by simp) (longest_pair hc) ?_ fun leave h => ?_
  · simp [source, hwrite]
  · rw [hput, putc_ok hlen]
  · refine h.cons hp fun h => ?_
    rw [hoct] at h
    exact nomatch h

/-- A run of raw pieces. -/
theorem leaves_raws (rs : List Piece) (h : Leaves ps rest (buf ++ rs.map Piece.denote))
    (hne : rs ≠ []) (hrs : ∀ p ∈ rs, p.isRaw = true) (hps : ∀ p ∈ ps.head?, p.isRaw = false)
    (hlen : buf.length + rs.length < qstrMax) : Leaves (rs ++ ps) rest buf := by
  have htext : ∀ c ∈ rs.map Piece.denote, isText c = true ∧ c ≠ 0 := by
    intro c hc
    obtain ⟨p, hp, rfl⟩ := List.mem_map.mp hc
    cases p with
    | raw _ hraw => exact hraw
    | _ => exact nomatch hrs _ hp
  have hcut : cString (rs.map Piece.denote) = rs.map Piece.denote :=
    List.takeWhile_eq_self_iff.mpr fun c hc => by simpa using (htext c hc).2
  refine h.step (rs.map Piece.denote) ?_ (by simpa using hne)
    (longest_text (by simpa using hne) (fun c hc => (htext c hc).1) (isText_head hps)) ?_
    fun leave h => ?_
  · rw [source_append, write_raws hrs]
  · show (cString (rs.map Piece.denote)).foldlM putc buf = _
    rw [hcut, puts_ok (by rwa [List.length_map])]
  · refine h.raws fun p hp => ?_
    cases p with
    | raw => exact ⟨rfl, rfl⟩
    | _ => exact nomatch hrs _ hp

theorem digits_raws {ds : List Piece} (h : ∀ p ∈ ds, p.rawDigit = true) :
    ∀ c ∈ ds.map Piece.denote, isDigit c = true := by
  intro c hc
  obtain ⟨p, hp, rfl⟩ := List.mem_map.mp hc
  cases p with
  | raw _ _ => exact h _ hp
  | _ => exact nomatch h _ hp

/-- A digit that is escaped takes the digits behind it. -/
theorem leaves_escapedDigit (ds : List Piece) (hc : ∀ b, (c, b) ∉ letters)
    (hdigit : isDigit c = true)
    (hds : ∀ p ∈ ds, p.rawDigit = true) (hps : ∀ p ∈ ps.head?, p.rawDigit = false)
    (hlen : buf.length + 1 < qstrMax) (h : ∀ b, Leaves ps rest (buf ++ [b])) :
    Leaves (.escaped c hc :: ds ++ ps) rest buf := by
  have hsource : source (.escaped c hc :: ds ++ ps) rest =
      92 :: (c :: ds.map Piece.denote) ++ source ps rest := by
    rw [source_append, List.flatMap_cons, write_raws fun p hp => isRaw_of_rawDigit (hds p hp)]
    rfl
  have hlong := longest_digits (source ps rest) (c :: ds.map Piece.denote) (List.cons_ne_nil _ _)
    (by simpa [hdigit] using digits_raws hds) (isDigit_head hps)
  have hbad : ¬ Separate (.escaped c hc :: ds ++ ps) := fun hsep => by
    have := hdigit.symm.trans hsep.1
    exact nomatch this
  cases hoct : octalEscape (92 :: c :: ds.map Piece.denote) with
  | false => exact Leaves.stop _ hsource (by simp) (by simpa [hoct] using hlong) rfl (.error hbad)
  | true =>
    rw [hoct, if_pos rfl] at hlong
    by_cases hv : octalValue (c :: ds.map Piece.denote) > 255
    · exact Leaves.stop _ hsource (by simp) hlong (if_pos hv) (.error hbad)
    · refine (h _).step _ hsource (by simp) hlong ((if_neg hv).trans (putc_ok hlen))
        fun leave h => ?_
      refine h.merged hdigit ?_
      rintro rfl heq
      have hlow : 48 ≤ c.toNat := by
        simp only [isDigit, Bool.and_eq_true, decide_eq_true_eq, UInt8.le_iff_toNat_le] at hdigit
        exact hdigit.1
      have hnat := congrArg UInt8.toNat heq
      have hlt := c.toNat_lt
      simp [octalValue, Piece.denote] at hnat
      omega

/-- Three digits with no digit behind them. -/
theorem leaves_octal {b : UInt8} (h : Leaves ps rest (buf ++ [b]))
    (hlen : buf.length + 1 < qstrMax) (hps : ∀ p ∈ ps.head?, p.rawDigit = false) :
    Leaves (.octal b :: ps) rest buf := by
  have hlong := longest_digits (source ps rest) (Piece.digits b) (List.cons_ne_nil _ _)
    (fun c hc => isOctal_digit (digits_octal b c hc)) (isDigit_head hps)
  have hoct : octalEscape (92 :: Piece.digits b) = true := by
    simpa [octalEscape, Piece.digits] using digits_octal b
  have hv : octalValue ((92 :: Piece.digits b).drop 1) = b.toNat := octalValue_digits b
  have hact : act buf .octal (92 :: Piece.digits b) = .ok (buf ++ [b]) := by
    have hb : ¬ b.toNat > 255 := Nat.not_lt.mpr (Nat.le_of_lt_succ b.toNat_lt)
    rw [act, hv, if_neg hb, UInt8.ofNat_toNat, putc_ok hlen]
  rw [hoct, if_pos rfl] at hlong
  refine h.step (92 :: Piece.digits b) ?_ (by simp) hlong hact fun leave h =>
    h.cons rfl fun _ => hps
  simp [source, Piece.write]

/-- Three digits and more. -/
theorem leaves_badOctal {b : UInt8} {q : Piece} (hq : q.rawDigit = true) :
    Leaves (.octal b :: q :: ps) rest buf := by
  have hds : ∀ p ∈ q :: ps.takeWhile Piece.rawDigit, p.rawDigit = true :=
    List.forall_mem_cons.mpr ⟨hq, fun p hp => List.mem_takeWhile_imp hp⟩
  have hsource : source (.octal b :: q :: ps) rest =
      92 :: (Piece.digits b ++ (q :: ps.takeWhile Piece.rawDigit).map Piece.denote) ++
        source (ps.dropWhile Piece.rawDigit) rest := by
    have hps : q :: ps.takeWhile Piece.rawDigit ++ ps.dropWhile Piece.rawDigit = q :: ps := by
      rw [List.cons_append, List.takeWhile_append_dropWhile]
    rw [← write_raws fun p hp => isRaw_of_rawDigit (hds p hp), ← List.cons_append,
      List.append_assoc, ← source_append, hps]
    simp [source, Piece.write]
  have hlong := longest_digits (source (ps.dropWhile Piece.rawDigit) rest)
    (Piece.digits b ++ (q :: ps.takeWhile Piece.rawDigit).map Piece.denote) (by simp)
    (fun c hc => (List.mem_append.mp hc).elim (fun hc => isOctal_digit (digits_octal b c hc))
      (digits_raws hds c)) (isDigit_head (head_dropWhile _ _))
  have hoct : octalEscape
      (92 :: (Piece.digits b ++ (q :: ps.takeWhile Piece.rawDigit).map Piece.denote)) = false := by
    simp [octalEscape, Piece.digits]
  rw [hoct] at hlong
  refine Leaves.stop _ hsource (by simp) hlong rfl (.error fun hsep => ?_)
  have := hq.symm.trans (hsep.2.1 rfl q rfl)
  exact nomatch this

/-- What the scanner makes of a literal, one rule after the other. -/
theorem leaves_pieces (k : Nat) (hk : ps.length < k) (hlen : buf.length + ps.length < qstrMax) :
    Leaves ps rest buf := by
  induction k generalizing ps buf with
  | zero => omega
  | succ k ih =>
    cases ps with
    | nil => exact leaves_nil
    | cons p ps =>
      rw [List.length_cons] at hk hlen
      have hlen' : buf.length + 1 < qstrMax := by omega
      have hnext : ∀ b, Leaves ps rest (buf ++ [b]) := fun b =>
        ih (by omega) (by rw [List.length_append, List.length_singleton]; omega)
      cases p with
      | raw c hc =>
        have hcut : (ps.takeWhile Piece.isRaw).length + (ps.dropWhile Piece.isRaw).length =
            ps.length := by
          rw [← List.length_append, List.takeWhile_append_dropWhile]
        have hrest : Leaves (ps.dropWhile Piece.isRaw) rest
            (buf ++ (.raw c hc :: ps.takeWhile Piece.isRaw).map Piece.denote) :=
          ih (by omega) (by simp; omega)
        have h := leaves_raws _ hrest (by simp)
          (List.forall_mem_cons.mpr ⟨rfl, fun p hp => List.mem_takeWhile_imp hp⟩)
          (head_dropWhile _ _) (by simp; omega)
        rwa [List.cons_append, List.takeWhile_append_dropWhile] at h
      | letter c b h =>
        have hc : isDigit c = false ∧ act buf (pairRule c) [92, c] = putc buf b := by
          simp only [letters, List.mem_cons, Prod.mk.injEq, List.not_mem_nil, or_false] at h
          rcases h with ⟨rfl, rfl⟩ | ⟨rfl, rfl⟩ | ⟨rfl, rfl⟩ | ⟨rfl, rfl⟩ | ⟨rfl, rfl⟩ <;>
            exact ⟨rfl, rfl⟩
        exact leaves_pair (hnext b) hlen' rfl hc.1 hc.2 rfl rfl
      | escaped c h =>
        cases hc : isDigit c with
        | true =>
          have hcut : (ps.dropWhile Piece.rawDigit).length ≤ ps.length :=
            (List.dropWhile_sublist _).length_le
          have h := leaves_escapedDigit (ps.takeWhile Piece.rawDigit) h hc
            (fun p hp => List.mem_takeWhile_imp hp)
            (head_dropWhile Piece.rawDigit ps) hlen' fun b => ih (by omega) (by simp; omega)
          rwa [List.cons_append, List.takeWhile_append_dropWhile] at h
        | false =>
          have hlookup : letters.lookup c = none := by
            simp only [letters, List.mem_cons, Prod.mk.injEq, List.not_mem_nil, or_false] at h
            simp only [letters, List.lookup_cons, List.lookup_nil]
            grind
          exact leaves_pair (hnext c) hlen' rfl hc (by rw [pairRule, hlookup]; rfl) hc rfl
      | octal b =>
        cases ps with
        | nil => exact leaves_octal (hnext b) hlen' fun _ h => by cases h
        | cons q ps =>
          cases hq : q.rawDigit with
          | true => exact leaves_badOctal hq
          | false =>
            refine leaves_octal (hnext b) hlen' fun p hp => ?_
            obtain rfl : q = p := Option.some.inj hp
            exact hq

/-! ## The constant -/

/-- A literal whose bytes are the constant's: it has no NUL, and no backslash takes a digit that is
not its own. -/
def Plain (ps : List Piece) : Prop := 0 ∉ ps.map Piece.denote ∧ Separate ps

/-- The bytes of the constant. -/
theorem readString_iff (h : ps.length < qstrMax) (rest : CStr) :
    (readString (quoted ps ++ rest)).map Text.bytes = some (ps.map Piece.denote) ↔ Plain ps := by
  obtain ⟨leave, r, hscan, hout⟩ : ∃ leave r,
      scanString (source ps rest) = some (leave, r) ∧ Outcome [] ps leave :=
    leaves_pieces (ps.length + 1) (Nat.lt_succ_self _) (by simpa using h) _ (Nat.le_succ _)
  have hinput : quoted ps ++ rest = 34 :: source ps rest := by simp [quoted, source]
  rw [hinput, readString, hscan]
  have hfail : leave ≠ .string (ps.map Piece.denote) → ¬ Plain ps := fun hne hplain =>
    hne (hout.complete hplain.2)
  cases leave with
  | string s =>
    show some (cString (cString s)) = some (ps.map Piece.denote) ↔ Plain ps
    rw [cString_eq_self zero_notMem_cString, Option.some.injEq]
    constructor
    · intro heq
      obtain ⟨out, rfl, hlen, hsep⟩ := hout.sound s rfl
      have hcut : cString s = s := by
        have hlen' := congrArg List.length heq
        rw [List.length_map] at hlen'
        exact (List.takeWhile_prefix _).eq_of_length_le (hlen.trans hlen'.ge)
      rw [← heq] at hsep
      exact ⟨heq ▸ zero_notMem_cString, hsep hcut.symm⟩
    · intro hplain
      obtain rfl : s = ps.map Piece.denote := Leave.string.inj (hout.complete hplain.2)
      exact cString_eq_self hplain.1
  | error => exact iff_of_false (fun h => nomatch h) (hfail (fun h => nomatch h))
  | exit => exact iff_of_false (fun h => nomatch h) (hfail (fun h => nomatch h))

/-- `"a\\101\\n";` -/
theorem readString_escapes :
    (readString (quoted [.raw 97 (by decide), .octal 65, .letter 110 10 (by decide)] ++ [59])).map
      Text.bytes = some [97, 65, 10] :=
  (@readString_iff [.raw 97 (by decide), .octal 65, .letter 110 10 (by decide)]
    (by decide) [59]).mpr
    ⟨by decide, by simp [Separate, Piece.escapedDigit, Piece.isOctalPiece, Piece.rawDigit]⟩

/-- `"\\1012"` is no string. -/
theorem not_readString : ¬ ∀ ps : List Piece, ps.length < qstrMax →
    (readString (quoted ps)).map Text.bytes = some (ps.map Piece.denote) := by
  intro h
  exact absurd (h [.octal 65, .raw 50 (by decide)] (by decide)) (by decide)

end Qstr

end Orchids
