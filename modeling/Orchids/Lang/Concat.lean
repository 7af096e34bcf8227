import Orchids.Lang.Arith

/-!
# Concatenation (`str_add`, `vstr_add`)

A text is stored as a `T_STR`, in the object itself, or as a `T_VSTR`, elsewhere. The four sums of
two texts are copied by four pieces of code; the one of two `T_VSTR` copies to `VSTR(res)`, where
`res` is the new `T_STR`.

* `Concatenates`: the sum is a `T_STR` with the one content after the other.
* `concatenates_iff`: so it is if not both are `T_VSTR`, and so for associativity and for texts
  that are stored in other ways.
-/

namespace Orchids

/-- How a text is stored. -/
inductive TextKind where
  | str | vstr
  deriving DecidableEq, Repr

/-- A stored text. -/
structure Stored where
  kind : TextKind
  text : Text

namespace Stored

variable {F : Type}

def var : Stored → OvmVar F
  | ⟨.str, t⟩ => .str t
  | ⟨.vstr, t⟩ => .vstr t

/-- What `issdl_add` returns is a `T_STR` with this content. -/
def IsStr (r : Except Trap (Ret F)) (bytes : List UInt8) : Prop :=
  ∃ o t, r = .ok (some o) ∧ o.var = .str t ∧ t.bytes = bytes

theorem isStr_fresh (bytes : List UInt8) :
    IsStr (F := F) (.ok (some (.fresh (ovmStrNew bytes)))) bytes := ⟨_, _, rfl, rfl, rfl⟩

theorem not_isStr_error (t : Trap) (bytes : List UInt8) : ¬ IsStr (F := F) (.error t) bytes := by
  rintro ⟨o, s, h, -⟩
  cases h

variable [CFloat F]

/-- `issdl_add(a, b)` -/
def add (F : Type) [CFloat F] (a b : Stored) : Except Trap (Ret F) := issdlArith .add a.var b.var

/-- The sum is the content of `a`, then the content of `b`. -/
def Concatenates (F : Type) [CFloat F] (a b : Stored) : Prop :=
  IsStr (add F a b) (a.text.bytes ++ b.text.bytes)

/-- Both ways to add three texts give a `T_STR`, with the same content. -/
def Associates (F : Type) [CFloat F] (a b c : Stored) : Prop :=
  ∃ ab bc bytes, add F a b = .ok (some ab) ∧ add F b c = .ok (some bc) ∧
    IsStr (issdlArith .add ab.var c.var) bytes ∧ IsStr (issdlArith .add a.var bc.var) bytes

/-- Two sums give a `T_STR`, with the same content. -/
def SameSum (F : Type) [CFloat F] (a b a' b' : Stored) : Prop :=
  ∃ bytes, IsStr (add F a b) bytes ∧ IsStr (add F a' b') bytes

/-- Both are texts that are stored elsewhere. -/
def BothVirtual (a b : Stored) : Prop := a.kind = .vstr ∧ b.kind = .vstr

variable {a b c a' b' : Stored}

/-- A sum that reads its operands as what they are. -/
theorem add_of_not_bothVirtual (h : ¬ BothVirtual a b) :
    add F a b = .ok (some (.fresh (ovmStrNew (a.text.bytes ++ b.text.bytes)))) := by
  obtain ⟨k, s⟩ := a
  obtain ⟨k', t⟩ := b
  cases k with
  | str => cases k' <;> rfl
  | vstr =>
    cases k' with
    | str => rfl
    | vstr => exact absurd ⟨rfl, rfl⟩ h

/-- The result of two virtual texts is written as if it were one of them. -/
theorem add_of_bothVirtual (h : BothVirtual a b) : add F a b = .error .misread := by
  obtain ⟨k, s⟩ := a
  obtain ⟨k', t⟩ := b
  obtain ⟨rfl, rfl⟩ := h
  rfl

theorem isStr_add (h : ¬ BothVirtual a b) :
    IsStr (add F a b) (a.text.bytes ++ b.text.bytes) := by
  rw [add_of_not_bothVirtual h]
  exact isStr_fresh _

theorem not_bothVirtual_of_isStr {bytes : List UInt8} (h : IsStr (add F a b) bytes) :
    ¬ BothVirtual a b := by
  intro hv
  rw [add_of_bothVirtual hv] at h
  exact not_isStr_error _ _ h

theorem associates_iff : Associates F a b c ↔ ¬ BothVirtual a b ∧ ¬ BothVirtual b c := by
  constructor
  · rintro ⟨ab, bc, bytes, hab, hbc, -, -⟩
    constructor
    · intro hv
      rw [add_of_bothVirtual hv] at hab
      cases hab
    · intro hv
      rw [add_of_bothVirtual hv] at hbc
      cases hbc
  · rintro ⟨hab, hbc⟩
    -- a sum is a `T_STR`, which adds on either side
    have hl := isStr_add (F := F) (a := ⟨.str, ⟨a.text.bytes ++ b.text.bytes, fun _ => 0⟩⟩)
      (b := c) (fun hv => by cases hv.1)
    have hr := isStr_add (F := F) (a := a)
      (b := ⟨.str, ⟨b.text.bytes ++ c.text.bytes, fun _ => 0⟩⟩) (fun hv => by cases hv.2)
    rw [← List.append_assoc] at hr
    exact ⟨_, _, _, add_of_not_bothVirtual hab, add_of_not_bothVirtual hbc, hl, hr⟩

theorem sameSum_iff (ha : a'.text.bytes = a.text.bytes) (hb : b'.text.bytes = b.text.bytes) :
    SameSum F a b a' b' ↔ ¬ BothVirtual a b ∧ ¬ BothVirtual a' b' := by
  constructor
  · rintro ⟨bytes, h, h'⟩
    exact ⟨not_bothVirtual_of_isStr h, not_bothVirtual_of_isStr h'⟩
  · rintro ⟨h, h'⟩
    have hs := isStr_add (F := F) h'
    rw [ha, hb] at hs
    exact ⟨_, isStr_add h, hs⟩

end Stored

open Stored

/-- The sum of two texts is their concatenation if and only if not both are virtual; for the same
texts it is associative, and stored in other ways they have the same sum. -/
theorem concatenates_iff (F : Type) [CFloat F] (a b : Stored) :
    (Concatenates F a b ↔ ¬ BothVirtual a b) ∧
      (∀ c, Associates F a b c ↔ ¬ BothVirtual a b ∧ ¬ BothVirtual b c) ∧
      (∀ a' b' : Stored, a'.text.bytes = a.text.bytes → b'.text.bytes = b.text.bytes →
        (SameSum F a b a' b' ↔ ¬ BothVirtual a b ∧ ¬ BothVirtual a' b')) :=
  ⟨⟨not_bothVirtual_of_isStr, isStr_add⟩, fun _ => associates_iff,
    fun _ _ ha hb => sameSum_iff ha hb⟩

/-- `"a"` and `"b"`, both of an event's text. -/
theorem not_concatenates : ¬ ∀ a b : Stored, Concatenates ℚ a b := by
  intro h
  exact not_bothVirtual_of_isStr (h ⟨.vstr, ⟨[97], fun _ => 0⟩⟩ ⟨.vstr, ⟨[98], fun _ => 0⟩⟩)
    ⟨rfl, rfl⟩

end Orchids
