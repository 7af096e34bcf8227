import Orchids.Lang.Compare
import Orchids.Mod.Readable

/-!
# The ranges of the generic dissector (`mod_generic.c`)

`generic_dissect` with the place in the line that a string is from, its return value and the event. What
is read out of the line and of `regmatch`, and what is written in `buf` and `buff`, is in their bounds or
a crash.

* `fieldValues_eq`: without the places it is `Orchids.Mod.Generic`.
* `Regexec`: what is asked of the library.
* `staysInside_iff`: for which lines the bounds are kept and the strings are ranges of the line.
-/

namespace Orchids

namespace Generic

variable {F : Type}

/-- The value of a field; a string is so many bytes of the line, from a place on. -/
inductive Made (F : Type) where
  | range (start : Int) (len : Nat)
  | value (v : OvmVar F)

/-- `rm_so` and `rm_eo` -/
def offsets : Option (Nat × Nat) → Int × Int
  | some (so, eo) => (so, eo)
  | none => (-1, -1)

/-- What is done for a field with its entry of `regmatch`. -/
def makeField (lib : Library F) (line : Text) (type : IssdlTag) (group : Option (Nat × Nat)) :
    Except Reject (Made F) :=
  let (so, eo) := offsets group
  let resSz := min (toSize (eo - so)) (bufSize - 1)
  if resSz = 0 ∨ (0 ≤ so ∧ so + resSz ≤ line.bytes.length) then
    match type with
    | .vstr => .ok (.range so resSz)
    | type => (fieldValue lib type (substringText lib line group)).map .value
  else .error (.crash .overread)

/-- The loop over the fields: the values that are made, with the ids of their fields, and whether all
are. -/
def makeFields (lib : Library F) (line : Text) (regmatch : Nat → Option (Nat × Nat)) :
    List Field → Except Crash (List (Nat × Made F) × Bool)
  | [] => .ok ([], true)
  | f :: fs =>
    if 0 ≤ f.substring ∧ f.substring < nmatch then
      match makeField lib line f.type (regmatch f.substring.toNat) with
      | .error .failed => .ok ([], false)
      | .error (.crash c) => .error c
      | .ok res => do
        let (made, whole) ← makeFields lib line regmatch fs
        return ((f.fieldId, res) :: made, whole)
    else .error .misread

/-- What `generic_dissect` returns, the values that it has made, and the event. -/
structure Dissected (F : Type) where
  ret : Nat
  made : List (Made F)
  event : EventList (Made F)

/-- The table of the values of the fields. -/
def table (size : Nat) (made : List (Nat × Made F)) : List (Slot (Made F)) :=
  made.foldl (fun values x => values.set x.1 (.value x.2)) (.replicate size .null)

/-- `generic_dissect`, up to `post_event`, for the event with a value. -/
def dissect {D : Type} (lib : Library F) (s : ModCtx D) (mods : Nat → ModEntry D) (hook : Hook)
    (v : OvmVar F) (event : EventList (Made F)) : Except Crash (Dissected F) :=
  match copyLine v with
  | .error (.crash c) => .error c
  | .error .failed => .ok { ret := 1, made := [], event }
  | .ok (line, buf) =>
    match firstMatch hook buf with
    | none => .ok { ret := 1, made := [], event }
    | some (vmod, m, regmatch) => do
      let (made, whole) ← makeFields lib line regmatch m.fieldList
      if whole then
        return { ret := 0, made := made.map Prod.snd
                 event := s.addFieldsToEvent (mods vmod.modId) event (table vmod.fields made) }
      else return { ret := 1, made := made.map Prod.snd, event }

/-! ## The texts of the ranges -/

/-- A value without the place that it is from. -/
def Made.erase (lib : Library F) (line : Text) : Made F → OvmVar F
  | .range start len =>
    if 0 ≤ start then .vstr ((line.advance start.toNat).slice len)
    else .vstr (substringText lib line none)
  | .value v => v

/-- The offsets are those of a substring of the text, or of one that takes no part. -/
def Regexec (m : Match) : Prop := ∀ buf regmatch, m.regexec buf = some regmatch →
  ∀ i so eo, regmatch i = some (so, eo) → so ≤ eo ∧ eo ≤ buf.length

variable {lib : Library F} {line : Text} {regmatch : Nat → Option (Nat × Nat)}

/-- The entries of `regmatch` are in a text of some length. -/
def Within (regmatch : Nat → Option (Nat × Nat)) (n : Nat) : Prop :=
  ∀ i so eo, regmatch i = some (so, eo) → so ≤ eo ∧ eo ≤ n

/-- A string is in the line. -/
def Made.Inside (line : Text) : Made F → Prop
  | .range start len => 0 ≤ start ∧ start + len ≤ line.bytes.length
  | .value _ => True

section

variable {type : IssdlTag} {n : Nat} {group : Option (Nat × Nat)}

/-- What is copied is in the line, and fits. -/
theorem makeField_eq (hn : n ≤ line.bytes.length) (hlt : n < bufSize)
    (hgroup : ∀ so eo, group = some (so, eo) → so ≤ eo ∧ eo ≤ n) :
    makeField lib line type group =
      match type with
      | .vstr => .ok (.range (offsets group).1 (group.elim 0 fun g => g.2 - g.1))
      | type => (fieldValue lib type (substringText lib line group)).map .value := by
  rw [makeField]
  cases group with
  | none =>
    have hsize : toSize (-1 - -1) = 0 := rfl
    dsimp only [offsets]
    rw [hsize, Nat.zero_min, if_pos (.inl rfl)]
    rfl
  | some g =>
    obtain ⟨so, eo⟩ := g
    obtain ⟨hle, heo⟩ := hgroup so eo rfl
    have hsize : toSize (eo - so) = eo - so := by
      rw [toSize_of_nonneg] <;> simp only [bufSize] at hlt <;> omega
    have hmin : min (eo - so) (bufSize - 1) = eo - so := by omega
    dsimp only [offsets]
    rw [hsize, hmin, if_pos (.inr ⟨Int.natCast_nonneg so, by omega⟩)]
    rfl

/-- A field has a value or the line is given up; a string is in the line if its substring takes part. -/
theorem makeField_cases (hn : n ≤ line.bytes.length) (hlt : n < bufSize)
    (hgroup : ∀ so eo, group = some (so, eo) → so ≤ eo ∧ eo ≤ n) :
    (∃ x, makeField lib line type group = .ok x ∧
      fieldValue lib type (substringText lib line group) = .ok (x.erase lib line) ∧
      (x.Inside line ↔ (type = .vstr → group ≠ none))) ∨
    (makeField lib line type group = .error .failed ∧
      fieldValue lib type (substringText lib line group) = .error .failed) := by
  rw [makeField_eq hn hlt hgroup]
  by_cases hvstr : type = .vstr
  · subst hvstr
    refine .inl ⟨_, rfl, ?_, ?_⟩
    · cases group with
      | none => rfl
      | some g =>
        obtain ⟨hle, heo⟩ := hgroup g.1 g.2 rfl
        have hmin : min (g.2 - g.1) (bufSize - 1) = g.2 - g.1 := by omega
        rw [Made.erase, offsets, if_pos (Int.natCast_nonneg g.1)]
        dsimp only [Option.elim]
        rw [← hmin]
        rfl
    · cases group with
      | none => exact iff_of_false (fun h => absurd h.1 (by decide)) fun h => h rfl rfl
      | some g =>
        obtain ⟨hle, heo⟩ := hgroup g.1 g.2 rfl
        refine iff_of_true ⟨Int.natCast_nonneg g.1, ?_⟩ nofun
        dsimp only [offsets, Option.elim]
        omega
  · have hother : ∀ r : Except Reject (Made F), (match type with
        | .vstr => r
        | type => (fieldValue lib type (substringText lib line group)).map .value) =
        (fieldValue lib type (substringText lib line group)).map .value := by
      intro r
      split
      · exact absurd rfl hvstr
      · rfl
    rw [hother]
    cases hvalue : fieldValue lib type (substringText lib line group) with
    | ok v => exact .inl ⟨.value v, rfl, rfl, iff_of_true True.intro fun h => absurd h hvstr⟩
    | error e =>
      cases e with
      | failed => exact .inr ⟨rfl, rfl⟩
      | crash c => exact absurd ⟨c, hvalue⟩ (not_crashes_fieldValue lib _ _)

end

variable {n : Nat}

/-- The loop of `Orchids.Mod.Generic` sets the texts of the ranges. -/
theorem fieldValues_eq (hn : n ≤ line.bytes.length) (hlt : n < bufSize) (hwithin : Within regmatch n)
    (fs : List Field) (values : List (Slot (OvmVar F))) :
    fieldValues lib line regmatch fs values =
      match makeFields lib line regmatch fs with
      | .error c => .error (.crash c)
      | .ok (_, false) => .error .failed
      | .ok (made, true) => .ok (made.foldl (fun t x => t.set x.1 (.value (x.2.erase lib line))) values) := by
  induction fs generalizing values with
  | nil => rfl
  | cons f fs ih =>
    rw [fieldValues, makeFields]
    by_cases hsub : 0 ≤ f.substring ∧ f.substring < nmatch
    · rw [if_pos hsub, if_pos hsub]
      rcases @makeField_cases F lib line f.type n _ hn hlt (hwithin f.substring.toNat) with
        ⟨x, hx, hvalue, -⟩ | ⟨hx, hvalue⟩
      · rw [hx, bind_of_ok hvalue, ih]
        dsimp only
        cases makeFields lib line regmatch fs with
        | error c => rfl
        | ok r =>
          obtain ⟨made, whole⟩ := r
          cases whole <;> rfl
      · rw [hx, hvalue]
        rfl
    · rw [if_neg hsub, if_neg hsub]

/-- Each field that is looked at is one of the substrings, and a string is one that takes part; the
first field without a value is the last. -/
def FieldsInside (lib : Library F) (line : Text) (regmatch : Nat → Option (Nat × Nat)) : List Field → Prop
  | [] => True
  | f :: fs =>
    (0 ≤ f.substring ∧ f.substring < nmatch) ∧
      (f.type = .vstr → regmatch f.substring.toNat ≠ none) ∧
      ((∃ v, fieldValue lib f.type (substringText lib line (regmatch f.substring.toNat)) = .ok v) →
        FieldsInside lib line regmatch fs)

theorem makeFields_iff (hn : n ≤ line.bytes.length) (hlt : n < bufSize) (hwithin : Within regmatch n)
    (fs : List Field) :
    (∃ made whole, makeFields lib line regmatch fs = .ok (made, whole) ∧ ∀ x ∈ made, x.2.Inside line) ↔
      FieldsInside lib line regmatch fs := by
  induction fs with
  | nil => exact iff_of_true ⟨[], true, rfl, nofun⟩ True.intro
  | cons f fs ih =>
    rw [makeFields, FieldsInside]
    by_cases hsub : 0 ≤ f.substring ∧ f.substring < nmatch
    · rw [if_pos hsub, and_iff_right hsub]
      rcases @makeField_cases F lib line f.type n _ hn hlt (hwithin f.substring.toNat) with
        ⟨x, hx, hvalue, hinside⟩ | ⟨hx, hvalue⟩
      · rw [hx, hvalue, ← hinside, ← ih]
        dsimp only
        constructor
        · rintro ⟨made, whole, hok, hall⟩
          obtain ⟨⟨made', whole'⟩, hmade, hr⟩ := bind_ok hok
          obtain ⟨rfl, rfl⟩ := Prod.mk.inj (Except.ok.inj hr)
          exact ⟨hall _ List.mem_cons_self, fun _ =>
            ⟨made', whole', hmade, fun x hx => hall x (List.mem_cons_of_mem _ hx)⟩⟩
        · rintro ⟨hfirst, hrest⟩
          obtain ⟨made, whole, hmade, hall⟩ := hrest ⟨_, rfl⟩
          refine ⟨(f.fieldId, x) :: made, whole, bind_of_ok hmade _, fun y hy => ?_⟩
          rcases List.mem_cons.mp hy with rfl | hy
          · exact hfirst
          · exact hall y hy
      · have hvstr : f.type ≠ .vstr := by
          intro h
          rw [h] at hvalue
          cases hvalue
        rw [hx, hvalue]
        exact iff_of_true ⟨[], false, rfl, nofun⟩ ⟨fun h => absurd h hvstr, nofun⟩
    · rw [if_neg hsub]
      exact iff_of_false nofun fun h => hsub h.1

/-! ## The line -/

/-- It comes back, the strings are in the line, and if it returns 1 the event is what it was. -/
def StaysInside {D : Type} (lib : Library F) (s : ModCtx D) (mods : Nat → ModEntry D) (hook : Hook)
    (v : OvmVar F) (event : EventList (Made F)) : Prop :=
  ∃ out, dissect lib s mods hook v event = .ok out ∧
    (∀ line, v = .str line ∨ v = .vstr line → ∀ x ∈ out.made, x.Inside line) ∧
    (out.ret = 1 → out.event = event)

/-- The fields of the first match stay in the line. -/
def MatchInside (lib : Library F) (hook : Hook) (line : Text) : Prop :=
  ∀ vmod m regmatch,
    firstMatch hook (cString (line.mem (toInt line.bytes.length).toNat)) = some (vmod, m, regmatch) →
      FieldsInside lib line regmatch m.fieldList

theorem length_cString_le (l : List UInt8) : (cString l).length ≤ l.length := (List.takeWhile_sublist _).length_le

/-- A length that is not negative as an `int` is at least that. -/
theorem toNat_toInt_le {n : Nat} (h : 0 ≤ toInt n) : (toInt n).toNat ≤ n := by
  have hmod : (BitVec.ofNat 32 n).toNat = n % 2 ^ 32 := BitVec.toNat_ofNat n 32
  rw [toInt, BitVec.toInt_eq_toNat_cond] at h ⊢
  split at h <;> split <;> omega

/-- The copied text is as long as the line at most, and fits. -/
theorem length_copy {line : Text} (h : Fits line) :
    (cString (line.mem (toInt line.bytes.length).toNat)).length ≤ line.bytes.length ∧
      (cString (line.mem (toInt line.bytes.length).toNat)).length < bufSize := by
  have hle := length_cString_le (line.mem (toInt line.bytes.length).toNat)
  have hint := toNat_toInt_le h.1
  have hpos := h.1
  have hlt := h.2
  rw [Text.length_mem] at hle
  exact ⟨hle.trans hint, by omega⟩

variable {D : Type} {s : ModCtx D} {mods : Nat → ModEntry D} {hook : Hook} {v : OvmVar F}
  {event : EventList (Made F)}

theorem staysInside_text (hregexec : ∀ vmod ∈ hook.vmodList, ∀ m ∈ vmod.matchList, Regexec m)
    (hv : v = .str line ∨ v = .vstr line) :
    StaysInside lib s mods hook v event ↔ Fits line ∧ MatchInside lib hook line := by
  have hcopy : Fits line →
      copyLine v = .ok (line, cString (line.mem (toInt line.bytes.length).toNat)) := by
    intro h
    rcases hv with rfl | rfl <;> exact if_pos h
  have hover : ¬ Fits line → copyLine v = .error (.crash .overflow) := by
    intro h
    rcases hv with rfl | rfl <;> exact if_neg h
  have hline : ∀ line', v = .str line' ∨ v = .vstr line' → line' = line := by
    intro line' hv'
    rcases hv with rfl | rfl <;> rcases hv' with hv' | hv' <;> cases hv' <;> rfl
  by_cases hfits : Fits line
  · rw [and_iff_right hfits, StaysInside, dissect, hcopy hfits]
    dsimp only
    cases hmatch : firstMatch hook (cString (line.mem (toInt line.bytes.length).toNat)) with
    | none =>
      refine iff_of_true ⟨_, rfl, nofun, fun _ => rfl⟩ fun vmod m regmatch h => ?_
      rw [hmatch] at h
      cases h
    | some r =>
      obtain ⟨vmod, m, regmatch⟩ := r
      obtain ⟨hvmod, hm, hrun⟩ := firstMatch_eq_some hmatch
      have hlen := length_copy hfits
      have hfields := @makeFields_iff F lib line regmatch _ hlen.1 hlen.2 (hregexec vmod hvmod m hm _ _ hrun)
        m.fieldList
      have hinside : MatchInside lib hook line ↔ FieldsInside lib line regmatch m.fieldList := by
        constructor
        · exact fun h => h vmod m regmatch hmatch
        · intro h vmod' m' regmatch' h'
          cases hmatch.symm.trans h'
          exact h
      rw [hinside, ← hfields]
      dsimp only
      constructor
      · rintro ⟨out, hout, hall, -⟩
        obtain ⟨⟨made, whole⟩, hmade, hr⟩ := bind_ok hout
        refine ⟨made, whole, hmade, fun x hx => hall line hv x.2 ?_⟩
        cases whole <;> cases hr <;> exact List.mem_map_of_mem hx
      · rintro ⟨made, whole, hmade, hall⟩
        refine ⟨{ ret := if whole then 0 else 1, made := made.map Prod.snd
                  event := if whole then s.addFieldsToEvent (mods vmod.modId) event (table vmod.fields made)
                    else event }, ?_, ?_, ?_⟩
        · refine (bind_of_ok hmade _).trans ?_
          cases whole <;> rfl
        · intro line' hv' x hx
          obtain ⟨y, hy, rfl⟩ := List.mem_map.mp hx
          rw [hline line' hv']
          exact hall y hy
        · intro hret
          cases whole
          · rfl
          · cases hret
  · refine iff_of_false ?_ fun h => hfits h.1
    rintro ⟨out, hout, -⟩
    rw [dissect, hover hfits] at hout
    cases hout

/-- The copies stay in their buffers, the strings are in the line and a failure adds nothing, exactly when
the line is no text, or one that is shorter than the buffer, and each field of its first match that is
looked at has the number of a substring, which takes part in the match if the field is a string. -/
theorem staysInside_iff (lib : Library F) (s : ModCtx D) (mods : Nat → ModEntry D) (v : OvmVar F)
    (event : EventList (Made F)) (hregexec : ∀ vmod ∈ hook.vmodList, ∀ m ∈ vmod.matchList, Regexec m) :
    StaysInside lib s mods hook v event ↔
      ∀ line, v = .str line ∨ v = .vstr line → Fits line ∧ MatchInside lib hook line := by
  by_cases hv : ∃ line, v = .str line ∨ v = .vstr line
  · obtain ⟨line, hv⟩ := hv
    rw [staysInside_text hregexec hv]
    refine ⟨fun h line' hv' => ?_, fun h => h line hv⟩
    rcases hv with rfl | rfl <;> rcases hv' with hv' | hv' <;> cases hv' <;> exact h
  · have hfailed : copyLine v = .error .failed := by
      cases v with
      | str line => exact absurd ⟨line, .inl rfl⟩ hv
      | vstr line => exact absurd ⟨line, .inr rfl⟩ hv
      | _ => rfl
    refine iff_of_true ?_ fun line hline => absurd ⟨line, hline⟩ hv
    rw [StaysInside, dissect, hfailed]
    exact ⟨_, rfl, fun _ _ => nofun, fun _ => rfl⟩

/-- A hook with one regular expression, for a whole text, and one field. -/
def wholeHook (type : IssdlTag) (substring : Int) : Hook where
  vmodList := [{
    modId := 0, fields := 1
    matchList := [{
      regexec := fun buf => some fun i => if i = 0 then some (0, buf.length) else none
      fieldList := [{ substring, type, fieldId := 0 }] }]
    fieldId_lt := by
      intro m hm f hf
      obtain rfl := List.mem_singleton.mp hm
      obtain rfl := List.mem_singleton.mp hf
      exact Nat.zero_lt_one }]

theorem regexec_wholeHook (type : IssdlTag) (substring : Int) :
    ∀ vmod ∈ (wholeHook type substring).vmodList, ∀ m ∈ vmod.matchList, Regexec m := by
  intro vmod hvmod m hm
  obtain rfl := List.mem_singleton.mp hvmod
  obtain rfl := List.mem_singleton.mp hm
  rintro buf regmatch hrun i so eo hgroup
  cases hrun
  dsimp only at hgroup
  split at hgroup
  · cases hgroup
    exact ⟨Nat.zero_le _, Nat.le_refl _⟩
  · cases hgroup

/-- A context without modules. -/
def noModules : ModCtx Unit := { mods := [], globalFields := [], numFields := 0 }

def noEntry : ModEntry Unit where
  mod := { magic := modMagic, version := orchidsVersion, name := none, dependencies := [], preConfig := none }
  genericDissect := none
  numFields := 0
  firstFieldPos := 0
  posts := 0
  dissect := none
  subDissectors := none

def noLibrary : Library Unit := { inetAton := fun _ => none, atof := fun _ => (), before := fun _ => 0 }

theorem staysInside_whole : StaysInside noLibrary noModules (fun _ => noEntry) (wholeHook .vstr 0)
    (.str { bytes := ascii "ab", behind := fun _ => 0 }) [] := by
  refine (staysInside_iff _ _ _ _ _ (regexec_wholeHook .vstr 0)).mpr fun line hline => ?_
  rcases hline with hline | hline <;> cases hline
  refine ⟨⟨by decide, by decide⟩, fun vmod m regmatch h => ?_⟩
  obtain ⟨hvmod, hm, hrun⟩ := firstMatch_eq_some h
  obtain rfl := List.mem_singleton.mp hvmod
  obtain rfl := List.mem_singleton.mp hm
  cases hrun
  exact ⟨by decide, fun _ => nofun, fun _ => True.intro⟩

/-- The string of a substring that takes no part starts before the line. -/
theorem not_staysInside : ¬ StaysInside noLibrary noModules (fun _ => noEntry) (wholeHook .vstr 1)
    (.str { bytes := ascii "ab", behind := fun _ => 0 }) [] := by
  intro h
  have hinside := ((staysInside_text (regexec_wholeHook .vstr 1) (.inl rfl)).mp h).2
  have hfields := hinside _ _ _ rfl
  exact hfields.2.1 rfl rfl

end Generic

end Orchids
