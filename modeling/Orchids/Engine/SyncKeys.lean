import Orchids.Engine.Locks
import Orchids.Engine.SyncVal
import Orchids.Lang.Compare

/-!
# Keys of synchronization (`objhash_rule_instance`, `objhash_rule_instance_cmp`)

A lock is looked up by the hash code of the types and the data of its values, and then compared with
`issdl_cmp`, which is an equality of neither.

* `issdlCmp_eq_zero`: which values the comparison does not tell apart.
* `hash_eq_of_cmp`: what it does not tell apart has one hash code if it has one type and the same
  data.
* `hash_collides`: one hash code does not need the same data.
-/

namespace Orchids

/-- The bits of a `float`. -/
class CFloatBits (F : Type) where
  bits : F → BitVec 32

variable {F : Type} [CFloat F] [CFloatBits F]

namespace OvmVar

/-- The memory from `issdl_get_data` on, `issdl_get_data_len` bytes of it. The pointer of a
`T_EXTERNAL` is not modelled. -/
def data : OvmVar F → List (BitVec 8)
  | int v | ctime v | counter v | uint v | ptr32 v => bytesOf 8 v
  | ipv4 addr => bytesOf 4 addr
  | float v => bytesOf 4 (CFloatBits.bits v)
  | timeval t => bytesOf 8 t.sec ++ bytesOf 8 t.usec
  | bstr t | vbstr t | str t | vstr t => t.bytes.map UInt8.toBitVec
  | regex r => r.regexStr.map UInt8.toBitVec
  | sregex r => r.regexStr.map UInt8.toBitVec
  | external => bytesOf 8 0
  | null _ | fnct | array | hash | snmpoid | double => []

/-- One turn of the loop of `objhash_rule_instance`. -/
def hashVar (h : BitVec 64) (x : Nat) (v : OvmVar F) : BitVec 64 :=
  datahashPjw (datahashPjw (datahashPjw h (bytesOf 4 (.ofNat 32 x)))
    (bytesOf 4 (.ofNat 32 v.type.code))) v.data

end OvmVar

/-- `objhash_rule_instance` and the comparison of two values. Keys have values that are set; for a
`NULL` pointer the ones here are arbitrary. -/
instance : SyncValue (OvmVar F) where
  hash key := (key.foldl (fun h p => OvmVar.hashVar h p.1 (p.2.getD (.null 0))) 0).toNat
  cmp v w := issdlCmp (v.getD (.null 0)) (w.getD (.null 0))

/-! ## Values that compare as equal -/

namespace OvmVar

/-- Two values between which the comparison finds no difference: words with the same low half,
strings of which the second begins with the first in memory, numbers whose difference has no
sign. -/
def Alike : OvmVar F → OvmVar F → Prop
  | int v, int w | uint v, uint w | ctime v, ctime w | counter v, counter w =>
    v.setWidth 32 = w.setWidth 32
  | ipv4 v, ipv4 w => v = w
  | timeval s, timeval t => s = t
  | str s, str t | str s, vstr t | vstr s, str t | vstr s, vstr t =>
    s.bytes = t.mem s.bytes.length
  | float v, float w =>
    CFloat.isPos (CFloat.sub v w) = false ∧ CFloat.isNeg (CFloat.sub v w) = false
  | _, _ => False

/-- One type and the same data. -/
def SameData (v w : OvmVar F) : Prop := v.type = w.type ∧ v.data = w.data

omit [CFloatBits F] in
theorem issdlCmp_eq_zero {v w : OvmVar F} : issdlCmp v w = 0 ↔ Alike v w := by
  have hlong : ∀ x y, longDiff x y = 0 ↔ x.setWidth 32 = y.setWidth 32 := fun x y => by
    rw [longDiff_eq, wordDiff_eq_zero]
  cases v with
  | int v => cases w with
    | int w => exact hlong v w
    | _ => exact iff_of_false (typeDiff_ne_zero (fun h => nomatch h)) id
  | uint v => cases w with
    | uint w => exact hlong v w
    | _ => exact iff_of_false (typeDiff_ne_zero (fun h => nomatch h)) id
  | ctime v => cases w with
    | ctime w => exact hlong v w
    | _ => exact iff_of_false (typeDiff_ne_zero (fun h => nomatch h)) id
  | counter v => cases w with
    | counter w => exact hlong v w
    | _ => exact iff_of_false (typeDiff_ne_zero (fun h => nomatch h)) id
  | ipv4 v => cases w with
    | ipv4 w => exact wordDiff_eq_zero
    | _ => exact iff_of_false (typeDiff_ne_zero (fun h => nomatch h)) id
  | timeval s => cases w with
    | timeval t => exact (@timevalDiff_ordered s t s).eq_zero_iff
    | _ => exact iff_of_false (typeDiff_ne_zero (fun h => nomatch h)) id
  | str s => cases w with
    | str t => exact textCmp_eq_zero
    | vstr t => exact textCmp_eq_zero
    | _ => exact iff_of_false (typeDiff_ne_zero (fun h => nomatch h)) id
  | vstr s => cases w with
    | str t => exact textCmp_eq_zero
    | vstr t => exact textCmp_eq_zero
    | _ => exact iff_of_false (typeDiff_ne_zero (fun h => nomatch h)) id
  | float v => cases w with
    | float w =>
      show (if CFloat.isPos (CFloat.sub v w) then 1 else
        if CFloat.isNeg (CFloat.sub v w) then -1 else 0 : Int) = 0 ↔ _ ∧ _
      cases CFloat.isPos (CFloat.sub v w) <;> cases CFloat.isNeg (CFloat.sub v w) <;> simp
    | _ => exact iff_of_false (typeDiff_ne_zero (fun h => nomatch h)) id
  | _ => exact iff_of_false (show (-1 : Int) ≠ 0 by decide) (fun h => nomatch h)

end OvmVar

/-! ## The keys of two state instances -/

/-- The values `f` and `g` of the variables `xs` are told apart, or they are of the same types with
the same data. -/
def Discerned (xs : List Nat) (f g : Nat → Option (OvmVar F)) : Prop :=
  (∀ x ∈ xs, ∀ v ∈ f x, ∀ w ∈ g x, v.Alike w) → ∀ x ∈ xs, ∀ v ∈ f x, ∀ w ∈ g x, v.SameData w

omit [CFloat F] in
theorem hashVar_congr {h : BitVec 64} {x : Nat} {v w : OvmVar F} (hvw : v.SameData w) :
    v.hashVar h x = w.hashVar h x := by
  rw [OvmVar.hashVar, OvmVar.hashVar, hvw.1, hvw.2]

/-- Keys of the same types and data have one hash code. -/
theorem hash_congr {xs : List Nat} {f g : Nat → OvmVar F} (h : ∀ x ∈ xs, (f x).SameData (g x)) :
    SyncValue.hash (xs.map fun x => (x, some (f x))) =
      SyncValue.hash (xs.map fun x => (x, some (g x))) := by
  have hfold : ∀ h₀ : BitVec 64, xs.foldl (fun h x => (f x).hashVar h x) h₀ =
      xs.foldl (fun h x => (g x).hashVar h x) h₀ := by
    induction xs with
    | nil =>
      intro h₀
      rw [List.foldl_nil, List.foldl_nil]
    | cons x xs ih =>
      intro h₀
      rw [List.foldl_cons, List.foldl_cons, hashVar_congr (h x List.mem_cons_self)]
      exact ih (fun y hy => h y (List.mem_cons_of_mem x hy)) _
  simp only [SyncValue.hash, List.foldl_map, Option.getD_some, hfold]

namespace Ctx

variable (rules : RuleSet) (c : Ctx (OvmVar F)) {s s' : Nat}

/-- Two state instances of one rule, with values for its synchronization variables. -/
structure SameSync (s s' : Nat) : Prop where
  rule : (c.ri.cell (c.si.cell s).ruleInstance).rule = (c.ri.cell (c.si.cell s').ruleInstance).rule
  isDefined : c.syncVarEnvIsDefined rules s = true
  isDefined' : c.syncVarEnvIsDefined rules s' = true

variable {rules c}

omit [CFloat F] [CFloatBits F] in
/-- The values of a key that is defined. -/
theorem syncKey_eq {xs : List Nat}
    (hxs : (c.ruleOf rules (c.si.cell s).ruleInstance).syncVars = xs)
    (h : c.syncVarEnvIsDefined rules s = true) :
    ∃ f : Nat → OvmVar F, (∀ x ∈ xs, c.syncVal s x = some (f x)) ∧
      c.syncKey rules s = xs.map fun x => (x, some (f x)) := by
  have hsome : ∀ x ∈ xs, c.syncVal s x = some ((c.syncVal s x).getD (.null 0)) := by
    intro x hx
    have hp := List.all_eq_true.mp h (x, c.syncVal s x)
      (List.mem_map_of_mem (f := fun x => (x, c.syncVal s x)) (hxs ▸ hx))
    obtain ⟨v, hv⟩ := Option.isSome_iff_exists.mp hp
    rw [show c.syncVal s x = some v from hv, Option.getD_some]
  refine ⟨_, hsome, ?_⟩
  rw [syncKey, hxs]
  exact List.map_congr_left fun x hx => congrArg (Prod.mk x) (hsome x hx)

/-- Two state instances that compare as equal have one hash code, where their values are told apart
or have the same data. -/
theorem hash_eq_of_cmp (h : c.SameSync rules s s')
    (hd : Discerned (c.ruleOf rules (c.si.cell s).ruleInstance).syncVars
      (fun x => c.syncVal s x) (fun x => c.syncVal s' x))
    (hcmp : keyCmp (c.syncKey rules s) (c.syncKey rules s') = 0) :
    SyncValue.hash (c.syncKey rules s) = SyncValue.hash (c.syncKey rules s') := by
  have hxs : (c.ruleOf rules (c.si.cell s').ruleInstance).syncVars =
      (c.ruleOf rules (c.si.cell s).ruleInstance).syncVars := by
    rw [ruleOf, ruleOf, h.rule]
  obtain ⟨f, hf, hkey⟩ := syncKey_eq rfl h.isDefined
  obtain ⟨g, hg, hkey'⟩ := syncKey_eq hxs h.isDefined'
  rw [hkey, hkey'] at hcmp ⊢
  have halike := keyCmp_eq_zero.mp hcmp
  refine hash_congr fun x hx => hd (fun y hy v hv w hw => ?_) x hx _ (hf x hx) _ (hg x hx)
  obtain rfl : f y = v := Option.some.inj ((hf y hy).symm.trans hv)
  obtain rfl : g y = w := Option.some.inj ((hg y hy).symm.trans hw)
  exact OvmVar.issdlCmp_eq_zero.mp (halike y hy)

end Ctx

/-! ## Values that are alike and differ -/

instance : CFloatBits ℚ where
  bits _ := 0

/-- A rule with the synchronization variable 0. -/
def syncRule : Rule := { states := [], syncVars := [0], syncLock := true }

/-- Two state instances of this rule, with these values. -/
def twoInstances (v w : OvmVar ℚ) : Ctx (OvmVar ℚ) :=
  { Ctx.init (OvmVar ℚ) with
    si := {
      size := 2
      cell := fun s =>
        { state := 0, ruleInstance := 0, event := none, inheritEnv := fun _ => none
          currentEnv := fun _ => some (if s = 0 then v else w), threadList := [] }
      live := fun _ => true } }

theorem twoInstances_sameSync (v w : OvmVar ℚ) : (twoInstances v w).SameSync [syncRule] 0 1 where
  rule := rfl
  isDefined := rfl
  isDefined' := rfl

theorem hash_eq_of_cmp_int :
    SyncValue.hash ((twoInstances (.int 5) (.int 5)).syncKey [syncRule] 0) =
      SyncValue.hash ((twoInstances (.int 5) (.int 5)).syncKey [syncRule] 1) :=
  Ctx.hash_eq_of_cmp (twoInstances_sameSync _ _)
    (fun _ x _ v hv w hw => by
      obtain rfl : .int 5 = v := Option.some.inj hv
      obtain rfl : .int 5 = w := Option.some.inj hw
      exact ⟨rfl, rfl⟩) rfl

/-- `a` and `ab` are not told apart in this order. -/
theorem not_hash_eq_of_cmp : ¬ ∀ (rules : RuleSet) (c : Ctx (OvmVar ℚ)) (s s' : Nat),
    c.SameSync rules s s' → keyCmp (c.syncKey rules s) (c.syncKey rules s') = 0 →
      SyncValue.hash (c.syncKey rules s) = SyncValue.hash (c.syncKey rules s') := by
  intro h
  have heq := h [syncRule]
    (twoInstances (.str ⟨[97], fun _ => 0⟩) (.str ⟨[97, 98], fun _ => 0⟩)) 0 1
    (twoInstances_sameSync _ _) rfl
  exact absurd heq (by decide)

/-- Two words that are alike and have other data, with one hash code. -/
theorem hash_collides : ∃ v w : OvmVar ℚ, v.Alike w ∧ ¬ v.SameData w ∧
    SyncValue.hash [(0, some v)] = SyncValue.hash [(0, some w)] :=
  ⟨.int 0x100000000, .int 0x100000000000, rfl, fun h => absurd h.2 (by decide), by decide +kernel⟩

end Orchids
