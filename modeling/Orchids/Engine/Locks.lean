import Mathlib.Algebra.Group.Int.Defs
import Mathlib.Data.List.Forall2
import Orchids.Engine.Core
import Orchids.Engine.Executions
import Orchids.Engine.Liveness

/-!
# The lock tables

* `LawfulSync`: values on which the comparison of locks behaves like an equality.
* `LockInv`: every entry of a lock table is where its key says and belongs to a rule instance that
  is not freed, and any two entries have different keys.
* `exclusive_of_stable`: locks exclude each other in a run whose byte code does not change the
  value of a synchronization variable under a lock.
* `not_exclusive`: a run in which two rule instances have a lock on the same value.
-/

namespace Orchids

variable {V : Type}

/-! ## Keys -/

section

variable [SyncValue V]

/-- Two values of the kind `good` that the comparison does not tell apart. -/
def SameValue (good : V → Prop) (v w : Option V) : Prop :=
  (∃ x, v = some x ∧ good x) ∧ (∃ y, w = some y ∧ good y) ∧ SyncValue.cmp v w = 0

/-- On values of the kind `good` the comparison is reflexive and symmetric, and what it does not
tell apart has one hash value. -/
structure LawfulSync (good : V → Prop) : Prop where
  refl : ∀ v, good v → SyncValue.cmp (some v) (some v) = 0
  symm : ∀ v w, good v → good w → SyncValue.cmp (some v) (some w) = 0 →
    SyncValue.cmp (some w) (some v) = 0
  hash : ∀ l l', List.Forall₂ (fun p q => p.1 = q.1 ∧ SameValue good p.2 q.2) l l' →
    SyncValue.hash l = SyncValue.hash l'

/-- A comparison that tells any two values of the kind `good` apart. -/
theorem LawfulSync.of_eq {good : V → Prop}
    (h : ∀ v w, good v → good w → (SyncValue.cmp (some v) (some w) = 0 ↔ v = w)) :
    LawfulSync good where
  refl v hv := (h v v hv hv).mpr rfl
  symm v w hv hw heq := (h w v hw hv).mpr ((h v w hv hw).mp heq).symm
  hash l l' hl := by
    have heq : l = l' := by
      rw [← List.forall₂_eq_eq_eq]
      refine hl.imp ?_
      rintro ⟨x, v⟩ ⟨y, w⟩ ⟨rfl, ⟨a, rfl, ha⟩, ⟨b, rfl, hb⟩, hab⟩
      rw [(h a b ha hb).mp hab]
    rw [heq]

theorem keyCmp_cons (p q : Nat × Option V) (l l' : List (Nat × Option V)) :
    keyCmp (p :: l) (q :: l') = 0 ↔ SyncValue.cmp p.2 q.2 = 0 ∧ keyCmp l l' = 0 := by
  obtain ⟨x, v⟩ := p
  obtain ⟨y, w⟩ := q
  by_cases h : SyncValue.cmp v w = 0
  · simp [keyCmp, h]
  · simp [keyCmp, h]

/-- The keys of two state instances are equal if the comparison does not tell any of the values
apart. -/
theorem keyCmp_eq_zero {xs : List Nat} {f g : Nat → Option V} :
    keyCmp (xs.map fun x => (x, f x)) (xs.map fun x => (x, g x)) = 0 ↔
      ∀ x ∈ xs, SyncValue.cmp (f x) (g x) = 0 := by
  induction xs with
  | nil => simp [keyCmp]
  | cons x xs ih =>
    rw [List.map_cons, List.map_cons, keyCmp_cons, ih]
    simp

end

/-! ## The tables -/

/-- The state instance is in the list of locks of its rule instance. -/
def Ctx.HasLock (s : Nat) (c : Ctx V) : Prop :=
  s ∈ (c.ri.cell (c.si.cell s).ruleInstance).syncLockList

instance (s : Nat) (c : Ctx V) : Decidable (c.HasLock s) := inferInstanceAs (Decidable (_ ∈ _))

/-- What is known of an entry of the bucket `b` in the lock table of the rule `k`. -/
structure Entry [SyncValue V] (rules : RuleSet) (c : Ctx V) (k b s : Nat) : Prop where
  lt : s < c.si.size
  live : c.ri.live (c.si.cell s).ruleInstance = true
  rule : (c.ri.cell (c.si.cell s).ruleInstance).rule = k
  mem : s ∈ (c.ri.cell (c.si.cell s).ruleInstance).syncLockList
  bucket : b = c.bucketOf rules s
  defined : c.syncVarEnvIsDefined rules s = true

/-- The lock tables and the lists of locks are in order. -/
structure LockTable [SyncValue V] (rules : RuleSet) (c : Ctx V) : Prop where
  entry : ∀ k b s, s ∈ c.syncLock k b → Entry rules c k b s
  list : ∀ r, c.ri.live r = true → ∀ s ∈ (c.ri.cell r).syncLockList,
    (c.si.cell s).ruleInstance = r ∧ s ∈ c.syncLock (c.ri.cell r).rule (c.bucketOf rules s)
  nodup : ∀ k b, (c.syncLock k b).Nodup
  listNodup : ∀ r, c.ri.live r = true → (c.ri.cell r).syncLockList.Nodup
  differ : ∀ k b b' s s', s ∈ c.syncLock k b → s' ∈ c.syncLock k b' → s ≠ s' →
    keyCmp (c.syncKey rules s) (c.syncKey rules s') ≠ 0

/-- The values of synchronization variables are of the kind `good`. -/
def GoodEnvs (rules : RuleSet) (good : V → Prop) (c : Ctx V) : Prop :=
  ∀ s, s < c.si.size → ∀ x ∈ (c.ruleOf rules (c.si.cell s).ruleInstance).syncVars, ∀ v,
    (c.si.cell s).currentEnv x = some v ∨ (c.si.cell s).inheritEnv x = some v → good v

section

variable {rules : RuleSet} {cr : Option Nat} {c c' : Ctx V} {r s : Nat}

theorem syncKey_stays (ho : Of c r s) (hk : Stays c c') :
    c'.syncKey rules s = c.syncKey rules s := by
  unfold Ctx.syncKey Ctx.syncVal
  rw [hk.grows.ruleInstance ho.lt, ho.ruleInstance, ruleOf_grows rules ho.rule_lt hk.grows,
    hk.current, hk.inherit]

section

variable {good : V → Prop}

/-- The environments are the same. -/
theorem GoodEnvs.frame (h : GoodEnvs rules good c) (hw : Wf c.records cr) (hg : Grows c c')
    (hn : c'.si.size = c.si.size)
    (hc : ∀ s, (c'.si.cell s).currentEnv = (c.si.cell s).currentEnv)
    (hi : ∀ s, (c'.si.cell s).inheritEnv = (c.si.cell s).inheritEnv) :
    GoodEnvs rules good c' := by
  intro s hs x hx v hv
  rw [hn] at hs
  have ho := hw.state_of hs
  rw [hg.ruleInstance hs, ruleOf_grows rules ho.rule_lt hg] at hx
  rw [hc, hi] at hv
  exact h s hs x hx v hv

theorem GoodEnvs.stays (h : GoodEnvs rules good c) (hw : Wf c.records cr) (hk : Stays c c') :
    GoodEnvs rules good c' := h.frame hw hk.grows hk.states hk.current hk.inherit

/-- What the byte code stores is of the kind `good`, or was there before. -/
theorem GoodEnvs.vmExec (h : GoodEnvs rules good c) (hw : Wf c.records cr) {vm : Vm V}
    {code : List Nat}
    (hvm : ∀ x ∈ (c.ruleOf rules (c.si.cell s).ruleInstance).syncVars, ∀ v,
      (vm c s code).env x = some v → good v ∨ (c.si.cell s).currentEnv x = some v) :
    GoodEnvs rules good (c.vmExec vm s code) := by
  have hg := grows_vmExec vm s code c
  intro b hb x hx v hv
  rw [si_size_vmExec] at hb
  have ho := hw.state_of hb
  rw [hg.ruleInstance hb, ruleOf_grows rules ho.rule_lt hg] at hx
  have hcell : (c.vmExec vm s code).si.cell b =
      if b = s then { c.si.cell s with currentEnv := (vm c s code).env } else c.si.cell b :=
    c.si.cell_modify s b _
  rw [hcell] at hv
  by_cases hbs : b = s
  · subst hbs
    rw [if_pos rfl] at hv
    rcases hv with hv | hv
    · rcases hvm x hx v hv with hgood | hold
      · exact hgood
      · exact h b hb x hx v (.inl hold)
    · exact h b hb x hx v (.inr hv)
  · rw [if_neg hbs] at hv
    exact h b hb x hx v hv

/-- A new state instance inherits the values of its parent. -/
theorem GoodEnvs.newState (h : GoodEnvs rules good c) (hw : Wf c.records cr) (ho : Of c r s)
    (dest : Nat) : GoodEnvs rules good (c.newState dest s) := by
  have hg := grows_newState dest s c
  intro b hb x hx v hv
  have hlt : b < c.si.size + 1 := by simpa [Ctx.newState] using hb
  by_cases hbs : b = c.si.size
  · have hnew := (ho.newState dest).ruleInstance
    rw [hbs, hnew, ruleOf_grows rules ho.rule_lt hg] at hx
    have hcell : (c.newState dest s).si.cell b = _ := hbs ▸ c.si.cell_alloc_self _
    rw [hcell] at hv
    have hpar := h s ho.lt x (ho.ruleInstance ▸ hx)
    rcases hv with hv | hv
    · cases hv
    · simp only at hv
      cases hcur : (c.si.cell s).currentEnv x with
      | none =>
        rw [hcur] at hv
        exact hpar v (.inr hv)
      | some w =>
        rw [hcur] at hv
        exact hpar v (.inl (hcur.trans hv))
  · have hb' : b < c.si.size := by omega
    have hob := hw.state_of hb'
    rw [hg.ruleInstance hb', ruleOf_grows rules hob.rule_lt hg] at hx
    rw [show (c.newState dest s).si.cell b = c.si.cell b from c.si.cell_alloc_of_lt _ hb'] at hv
    exact h b hb' x hx v hv

theorem GoodEnvs.newRuleInst (h : GoodEnvs rules good c) (hw : Wf c.records cr) (k : Nat) :
    GoodEnvs rules good (c.newRuleInst k) := by
  have hg := grows_newRuleInst k c
  intro b hb x hx v hv
  have hlt : b < c.si.size + 1 := by simpa [Ctx.newRuleInst] using hb
  by_cases hbs : b = c.si.size
  · rw [show (c.newRuleInst k).si.cell b = _ from hbs ▸ c.si.cell_alloc_self _] at hv
    rcases hv with hv | hv <;> cases hv
  · have hb' : b < c.si.size := by omega
    have hob := hw.state_of hb'
    rw [hg.ruleInstance hb', ruleOf_grows rules hob.rule_lt hg] at hx
    rw [show (c.newRuleInst k).si.cell b = c.si.cell b from c.si.cell_alloc_of_lt _ hb'] at hv
    exact h b hb' x hx v hv

end

variable [SyncValue V]

theorem bucketOf_congr (h : c'.syncKey rules s = c.syncKey rules s) :
    c'.bucketOf rules s = c.bucketOf rules s := by
  unfold Ctx.bucketOf
  rw [h]

/-- The tables are the same, and so are the keys of the entries. -/
theorem LockTable.frame (h : LockTable rules c) (hw : Wf c.records cr) (hg : Grows c c')
    (htable : c'.syncLock = c.syncLock)
    (hlive : ∀ r, r < c.ri.size → c'.ri.live r = c.ri.live r)
    (hlist : ∀ r, r < c.ri.size → (c'.ri.cell r).syncLockList = (c.ri.cell r).syncLockList)
    (hnew : ∀ r, c.ri.size ≤ r → c'.ri.live r = true → (c'.ri.cell r).syncLockList = [])
    (hkey : ∀ k b s, s ∈ c.syncLock k b → c'.syncKey rules s = c.syncKey rules s) :
    LockTable rules c' where
  entry k b s hs := by
    rw [htable] at hs
    have he := h.entry k b s hs
    have ho := hw.state_of he.lt
    refine ⟨lt_of_lt_of_le he.lt hg.si.size_le, ?_, ?_, ?_, ?_, ?_⟩
    · rw [hg.ruleInstance he.lt, hlive _ ho.rule_lt]
      exact he.live
    · rw [hg.ruleInstance he.lt, hg.ri.cell _ ho.rule_lt]
      exact he.rule
    · rw [hg.ruleInstance he.lt, hlist _ ho.rule_lt]
      exact he.mem
    · rw [bucketOf_congr (hkey k b s hs)]
      exact he.bucket
    · unfold Ctx.syncVarEnvIsDefined
      rw [hkey k b s hs]
      exact he.defined
  list r hr s hs := by
    by_cases hlt : r < c.ri.size
    · rw [hlive r hlt] at hr
      rw [hlist r hlt] at hs
      obtain ⟨howner, hmem⟩ := h.list r hr s hs
      have he := h.entry _ _ s hmem
      rw [hg.ruleInstance he.lt, hg.ri.cell r hlt, htable, bucketOf_congr (hkey _ _ s hmem)]
      exact ⟨howner, hmem⟩
    · rw [hnew r (Nat.le_of_not_lt hlt) hr] at hs
      cases hs
  nodup k b := by
    rw [htable]
    exact h.nodup k b
  listNodup r hr := by
    by_cases hlt : r < c.ri.size
    · rw [hlist r hlt]
      exact h.listNodup r (hlive r hlt ▸ hr)
    · rw [hnew r (Nat.le_of_not_lt hlt) hr]
      exact List.nodup_nil
  differ k b b' s s' hs hs' hne := by
    rw [htable] at hs hs'
    rw [hkey k b s hs, hkey k b' s' hs']
    exact h.differ k b b' s s' hs hs' hne

theorem LockTable.stays (h : LockTable rules c) (hw : Wf c.records cr) (hk : Stays c c') :
    LockTable rules c' := by
  refine h.frame hw hk.grows hk.syncLock (fun r _ => by rw [hk.ruleLive]) (fun r _ => hk.lists r)
    (fun r hr hl => ?_) (fun k b s hs => syncKey_stays (hw.state_of (h.entry k b s hs).lt) hk)
  rw [hk.ruleLive] at hl
  exact absurd (hw.rule_lt r hl) (Nat.not_lt.mpr hr)

/-- The byte code is run on a state instance whose key it keeps, or that has no lock. -/
theorem LockTable.vmExec (h : LockTable rules c) (hw : Wf c.records cr) {vm : Vm V}
    {code : List Nat} (hkey : (∃ k b, s ∈ c.syncLock k b) →
      (c.vmExec vm s code).syncKey rules s = c.syncKey rules s) :
    LockTable rules (c.vmExec vm s code) := by
  have hg := grows_vmExec vm s code c
  refine h.frame hw hg rfl (fun _ _ => rfl) (fun _ _ => rfl)
    (fun r hr hl => absurd (hw.rule_lt r hl) (Nat.not_lt.mpr hr)) fun k b a ha => ?_
  by_cases has : a = s
  · subst has
    exact hkey ⟨k, b, ha⟩
  · have hcell : (c.vmExec vm s code).si.cell a = c.si.cell a := c.si.cell_modify_of_ne _ has
    unfold Ctx.syncKey Ctx.syncVal
    rw [hcell]
    rfl

theorem LockTable.newState (h : LockTable rules c) (hw : Wf c.records cr) (dest s : Nat) :
    LockTable rules (c.newState dest s) := by
  have hg := grows_newState dest s c
  have hlive : ∀ r, (c.newState dest s).ri.live r = c.ri.live r := congrFun (c.ri.live_modify _ _)
  refine h.frame hw hg rfl (fun r _ => hlive r)
    (fun r _ => c.ri.proj_modify _ r _ RuleInst.syncLockList rfl)
    (fun r hr hl => absurd (hw.rule_lt r ((hlive r).symm.trans hl)) (Nat.not_lt.mpr hr))
    fun k b a ha => ?_
  have hlt := (h.entry k b a ha).lt
  have hcell : (c.newState dest s).si.cell a = c.si.cell a := c.si.cell_alloc_of_lt _ hlt
  unfold Ctx.syncKey Ctx.syncVal
  rw [hcell, ruleOf_grows rules (hw.state_of hlt).rule_lt hg]

theorem LockTable.newRuleInst (h : LockTable rules c) (hw : Wf c.records cr) (k : Nat) :
    LockTable rules (c.newRuleInst k) := by
  have hg := grows_newRuleInst k c
  refine h.frame hw hg rfl (fun r hr => c.ri.live_alloc_of_lt _ hr)
    (fun r hr => congrArg RuleInst.syncLockList (c.ri.cell_alloc_of_lt _ hr))
    (fun r hr hl => ?_) fun k' b a ha => ?_
  · by_cases hrr : r = c.ri.size
    · rw [hrr]
      exact congrArg RuleInst.syncLockList (c.ri.cell_alloc_self _)
    · refine absurd (hw.rule_lt r ?_) (Nat.not_lt.mpr hr)
      exact (c.ri.live_alloc_of_ne _ hrr).symm.trans hl
  · have hlt := (h.entry k' b a ha).lt
    have hcell : (c.newRuleInst k).si.cell a = c.si.cell a := c.si.cell_alloc_of_lt _ hlt
    unfold Ctx.syncKey Ctx.syncVal
    rw [hcell, ruleOf_grows rules (hw.state_of hlt).rule_lt hg]

/-! ## A new lock -/

section

variable {good : V → Prop}

omit [SyncValue V] in
/-- The synchronization variables of a state instance that may get a lock. -/
theorem GoodEnvs.defined (h : GoodEnvs rules good c) (ho : Of c r s)
    (hdef : c.syncVarEnvIsDefined rules s = true) :
    ∀ x ∈ (c.ruleOf rules r).syncVars, ∃ v, c.syncVal s x = some v ∧ good v := by
  intro x hx
  obtain ⟨v, hv⟩ : ∃ v, c.syncVal s x = some v := by
    refine Option.isSome_iff_exists.mp (List.all_eq_true.mp hdef (x, c.syncVal s x) ?_)
    unfold Ctx.syncKey
    rw [ho.ruleInstance]
    exact List.mem_map_of_mem hx
  refine ⟨v, hv, h s ho.lt x (ho.ruleInstance.symm ▸ hx) v ?_⟩
  unfold Ctx.syncVal at hv
  cases hcur : (c.si.cell s).currentEnv x with
  | none =>
    rw [hcur] at hv
    exact .inr hv
  | some w =>
    rw [hcur] at hv
    exact .inl hv

/-- State instances of one rule with equal keys: the comparison is symmetric, and they have one
bucket. -/
theorem sameKey_symm (laws : LawfulSync good) (h : GoodEnvs rules good c) {r' s' : Nat}
    (ho : Of c r s) (ho' : Of c r' s') (hrule : c.ruleOf rules r = c.ruleOf rules r')
    (hdef : c.syncVarEnvIsDefined rules s = true) (hdef' : c.syncVarEnvIsDefined rules s' = true)
    (heq : keyCmp (c.syncKey rules s) (c.syncKey rules s') = 0) :
    keyCmp (c.syncKey rules s') (c.syncKey rules s) = 0 ∧
      c.bucketOf rules s = c.bucketOf rules s' := by
  have hgood := h.defined ho hdef
  have hgood' := h.defined ho' hdef'
  unfold Ctx.bucketOf
  unfold Ctx.syncKey at heq ⊢
  rw [ho.ruleInstance, ho'.ruleInstance, ← hrule] at heq ⊢
  rw [← hrule] at hgood'
  rw [keyCmp_eq_zero] at heq ⊢
  refine ⟨fun x hx => ?_, ?_⟩
  · obtain ⟨v, hv, hvg⟩ := hgood x hx
    obtain ⟨w, hw, hwg⟩ := hgood' x hx
    have hcmp := heq x hx
    rw [hv, hw] at hcmp ⊢
    exact laws.symm v w hvg hwg hcmp
  · congr 1
    refine laws.hash _ _ ?_
    rw [List.forall₂_map_left_iff, List.forall₂_map_right_iff, List.forall₂_same]
    exact fun x hx => ⟨rfl, hgood x hx, hgood' x hx, heq x hx⟩

theorem LockTable.addLock (h : LockTable rules c) (hw : Wf c.records cr)
    (henv : GoodEnvs rules good c) (laws : LawfulSync good) (ho : Of c r s)
    (hlive : c.ri.live r = true) (hdef : c.syncVarEnvIsDefined rules s = true)
    (hget : c.objhashGet rules (c.ri.cell r).rule s = none) (hnot : ∀ k b, s ∉ c.syncLock k b) :
    LockTable rules (c.addLock rules s) := by
  have hrule : ∀ a, (c.addLock rules s).ruleOf rules a = c.ruleOf rules a := by
    intro a
    unfold Ctx.ruleOf
    exact congrArg rules.rule (c.ri.proj_modify _ a _ RuleInst.rule rfl)
  have hkey : ∀ a, (c.addLock rules s).syncKey rules a = c.syncKey rules a := by
    intro a
    unfold Ctx.syncKey
    rw [hrule]
    rfl
  have hbucket : ∀ a, (c.addLock rules s).bucketOf rules a = c.bucketOf rules a := fun a =>
    bucketOf_congr (hkey a)
  have hnum : ∀ a, ((c.addLock rules s).ri.cell a).rule = (c.ri.cell a).rule := fun a =>
    c.ri.proj_modify _ a _ RuleInst.rule rfl
  have hlist : ∀ a, ((c.addLock rules s).ri.cell a).syncLockList =
      if a = r then s :: (c.ri.cell r).syncLockList else (c.ri.cell a).syncLockList := by
    intro a
    unfold Ctx.addLock
    simp only [ho.ruleInstance]
    refine (congrArg RuleInst.syncLockList (c.ri.cell_modify r a _)).trans ?_
    split <;> rfl
  have hri : ∀ a, (c.addLock rules s).ri.live a = c.ri.live a := congrFun (c.ri.live_modify _ _)
  have hmem : ∀ k b a, a ∈ (c.addLock rules s).syncLock k b ↔
      (k = (c.ri.cell r).rule ∧ b = c.bucketOf rules s ∧ a = s) ∨ a ∈ c.syncLock k b := by
    intro k b a
    unfold Ctx.addLock Ctx.objhashAdd
    simp only [ho.ruleInstance]
    by_cases hk : k = (c.ri.cell r).rule
    · by_cases hb : b = c.bucketOf rules s
      · simp [hk, hb]
      · simp [hk, hb]
    · simp [hk]
  -- the new key is in no bucket yet
  have hfresh : ∀ b a, a ∈ c.syncLock (c.ri.cell r).rule b →
      keyCmp (c.syncKey rules s) (c.syncKey rules a) ≠ 0 ∧
        keyCmp (c.syncKey rules a) (c.syncKey rules s) ≠ 0 := by
    intro b a ha
    have he := h.entry _ b a ha
    have hoa := hw.state_of he.lt
    have hsame : c.ruleOf rules r = c.ruleOf rules (c.si.cell a).ruleInstance := by
      unfold Ctx.ruleOf
      rw [he.rule]
    have hne : keyCmp (c.syncKey rules s) (c.syncKey rules a) ≠ 0 := by
      intro heq
      obtain ⟨-, hbk⟩ := sameKey_symm laws henv ho hoa hsame hdef he.defined heq
      rw [he.bucket, ← hbk] at ha
      have hfind := List.find?_eq_none.mp hget a ha
      exact hfind (beq_iff_eq.mpr heq)
    exact ⟨hne, fun heq =>
      hne (sameKey_symm laws henv hoa ho hsame.symm he.defined hdef heq).1⟩
  refine ⟨fun k b a ha => ?_, fun a ha b hb => ?_, fun k b => ?_, fun a ha => ?_,
    fun k b b' a a' ha ha' hne => ?_⟩
  · rcases (hmem k b a).mp ha with ⟨rfl, rfl, rfl⟩ | ha
    · have hown : (c.addLock rules a).si.cell a = c.si.cell a := rfl
      refine ⟨ho.lt, ?_, ?_, ?_, (hbucket a).symm, ?_⟩
      · rw [hown, ho.ruleInstance, hri]
        exact hlive
      · rw [hown, ho.ruleInstance, hnum]
      · rw [hown, ho.ruleInstance, hlist, if_pos rfl]
        exact List.mem_cons_self
      · unfold Ctx.syncVarEnvIsDefined
        rw [hkey]
        exact hdef
    · have he := h.entry k b a ha
      have hown : (c.addLock rules s).si.cell a = c.si.cell a := rfl
      refine ⟨he.lt, ?_, ?_, ?_, he.bucket.trans (hbucket a).symm, ?_⟩
      · rw [hown, hri]
        exact he.live
      · rw [hown, hnum]
        exact he.rule
      · rw [hown, hlist]
        split
        · rename_i heq
          exact List.mem_cons_of_mem _ (heq ▸ he.mem)
        · exact he.mem
      · unfold Ctx.syncVarEnvIsDefined
        rw [hkey]
        exact he.defined
  · rw [hri] at ha
    rw [hlist] at hb
    rw [hnum, hbucket, hmem]
    by_cases har : a = r
    · subst har
      rw [if_pos rfl] at hb
      rcases List.mem_cons.mp hb with rfl | hb
      · exact ⟨ho.ruleInstance, .inl ⟨rfl, rfl, rfl⟩⟩
      · exact ⟨(h.list a ha b hb).1, .inr (h.list a ha b hb).2⟩
    · rw [if_neg har] at hb
      exact ⟨(h.list a ha b hb).1, .inr (h.list a ha b hb).2⟩
  · have hcons : (s :: c.syncLock (c.ri.cell r).rule (c.bucketOf rules s)).Nodup :=
      List.nodup_cons.mpr ⟨hnot _ _, h.nodup _ _⟩
    unfold Ctx.addLock Ctx.objhashAdd
    simp only [ho.ruleInstance]
    by_cases hk : k = (c.ri.cell r).rule
    · by_cases hb : b = c.bucketOf rules s
      · simpa [hk, hb] using hcons
      · simpa [hk, hb] using h.nodup _ b
    · simpa [hk] using h.nodup k b
  · rw [hri] at ha
    rw [hlist]
    by_cases har : a = r
    · subst har
      rw [if_pos rfl]
      refine List.nodup_cons.mpr ⟨fun hm => ?_, h.listNodup a ha⟩
      exact hnot _ _ (h.list a ha s hm).2
    · rw [if_neg har]
      exact h.listNodup a ha
  · rw [hkey, hkey]
    rcases (hmem k b a).mp ha with ⟨hk, -, rfl⟩ | hold
    · rcases (hmem k b' a').mp ha' with ⟨-, -, rfl⟩ | hold'
      · exact absurd rfl hne
      · exact (hfresh b' a' (hk ▸ hold')).1
    · rcases (hmem k b' a').mp ha' with ⟨hk, -, rfl⟩ | hold'
      · exact (hfresh b a (hk ▸ hold)).2
      · exact h.differ k b b' a a' hold hold' hne

end

/-! ## The end of the locks of a rule instance -/

/-- The entries of the table of the rule `k` have different keys, and each is in its bucket. -/
structure Keyed (rules : RuleSet) (k : Nat) (c : Ctx V) : Prop where
  bucket : ∀ b s, s ∈ c.syncLock k b → b = c.bucketOf rules s
  self : ∀ b s, s ∈ c.syncLock k b → keyCmp (c.syncKey rules s) (c.syncKey rules s) = 0
  nodup : ∀ b, (c.syncLock k b).Nodup
  differ : ∀ b b' s s', s ∈ c.syncLock k b → s' ∈ c.syncLock k b' → s ≠ s' →
    keyCmp (c.syncKey rules s) (c.syncKey rules s') ≠ 0

/-- `objhash_del` finds the entry itself. -/
theorem Keyed.mem_objhashDel {k : Nat} (h : Keyed rules k c)
    (hs : s ∈ c.syncLock k (c.bucketOf rules s)) (k' b a : Nat) :
    a ∈ (c.objhashDel rules k s).syncLock k' b ↔ a ∈ c.syncLock k' b ∧ ¬ (k' = k ∧ a = s) := by
  have herase : (c.syncLock k (c.bucketOf rules s)).eraseP (fun e => c.sameKey rules s e) =
      (c.syncLock k (c.bucketOf rules s)).erase s := by
    have hsame : ∀ e ∈ c.syncLock k (c.bucketOf rules s), c.sameKey rules s e = (s == e) := by
      intro e he
      rw [Bool.eq_iff_iff, Ctx.sameKey, beq_iff_eq, beq_iff_eq]
      constructor
      · intro heq
        by_contra hne
        exact h.differ _ _ s e hs he hne heq
      · rintro rfl
        exact h.self _ s hs
    rw [List.erase_eq_eraseP]
    generalize c.syncLock k (c.bucketOf rules s) = l at hsame
    induction l with
    | nil => rfl
    | cons e l ih =>
      rw [List.eraseP_cons, List.eraseP_cons, hsame e List.mem_cons_self,
        ih fun e he => hsame e (List.mem_cons_of_mem _ he)]
  unfold Ctx.objhashDel
  simp only [herase]
  by_cases hk : k' = k
  · subst hk
    by_cases hb : b = c.bucketOf rules s
    · subst hb
      simp only [Function.update_self, (h.nodup _).mem_erase_iff, true_and]
      exact and_comm
    · simp only [Function.update_self, Function.update_of_ne hb, true_and]
      refine ⟨fun ha => ⟨ha, ?_⟩, And.left⟩
      rintro rfl
      exact hb (h.bucket b a ha)
  · simp [hk]

theorem Keyed.subset {k : Nat} (h : Keyed rules k c) (hkey : ∀ a, c'.syncKey rules a = c.syncKey rules a)
    (hsub : ∀ b, (c'.syncLock k b).Sublist (c.syncLock k b)) : Keyed rules k c' where
  bucket b s hs := (h.bucket b s ((hsub b).subset hs)).trans (bucketOf_congr (hkey s)).symm
  self b s hs := by
    rw [hkey]
    exact h.self b s ((hsub b).subset hs)
  nodup b := (h.nodup b).sublist (hsub b)
  differ b b' s s' hs hs' hne := by
    rw [hkey, hkey]
    exact h.differ b b' s s' ((hsub b).subset hs) ((hsub b').subset hs') hne

theorem objhashDel_sublist (k s : Nat) (c : Ctx V) (k' b : Nat) :
    ((c.objhashDel rules k s).syncLock k' b).Sublist (c.syncLock k' b) := by
  unfold Ctx.objhashDel
  by_cases hk : k' = k
  · subst hk
    by_cases hb : b = c.bucketOf rules s
    · subst hb
      simpa using List.eraseP_sublist
    · simp [hb]
  · simp [hk]

theorem foldl_objhashDel_sublist (k : Nat) (l : List Nat) (c : Ctx V) (k' b : Nat) :
    ((l.foldl (fun c s => c.objhashDel rules k s) c).syncLock k' b).Sublist (c.syncLock k' b) := by
  induction l generalizing c with
  | nil => exact .refl _
  | cons s l ih => exact (ih _).trans (objhashDel_sublist k s c k' b)

/-- The first loop of `free_rule_instance` takes the locks of its list out of the table. -/
theorem Keyed.mem_foldl {k : Nat} (h : Keyed rules k c) {l : List Nat} (hnd : l.Nodup)
    (hl : ∀ s ∈ l, s ∈ c.syncLock k (c.bucketOf rules s)) (k' b a : Nat) :
    a ∈ (l.foldl (fun c s => c.objhashDel rules k s) c).syncLock k' b ↔
      a ∈ c.syncLock k' b ∧ ¬ (k' = k ∧ a ∈ l) := by
  induction l generalizing c with
  | nil => simp
  | cons s l ih =>
    have hmem := h.mem_objhashDel (hl s List.mem_cons_self)
    obtain ⟨hs, hnd⟩ := List.nodup_cons.mp hnd
    have h' : Keyed rules k (c.objhashDel rules k s) :=
      h.subset (fun _ => rfl) (objhashDel_sublist k s c k)
    rw [List.foldl_cons, ih h' hnd fun e he => ?_, hmem]
    · simp only [List.mem_cons]
      tauto
    · rw [show (c.objhashDel rules k s).bucketOf rules e = c.bucketOf rules e from rfl, hmem]
      refine ⟨hl e (List.mem_cons_of_mem _ he), ?_⟩
      rintro ⟨-, rfl⟩
      exact hs he

theorem LockTable.keyed (h : LockTable rules c) (hw : Wf c.records cr) {good : V → Prop}
    (henv : GoodEnvs rules good c) (laws : LawfulSync good) (k : Nat) : Keyed rules k c where
  bucket b s hs := (h.entry k b s hs).bucket
  self b s hs := by
    have he := h.entry k b s hs
    have hgood := henv.defined (hw.state_of he.lt) he.defined
    unfold Ctx.syncKey
    rw [keyCmp_eq_zero]
    intro x hx
    obtain ⟨v, hv, hvg⟩ := hgood x hx
    rw [hv]
    exact laws.refl v hvg
  nodup := h.nodup k
  differ := h.differ k

omit [SyncValue V] in
theorem syncLock_passState (e t : Nat) (c : Ctx V) : (c.passState e t).syncLock = c.syncLock := by
  unfold Ctx.passState Ctx.countPass
  simp only
  split <;> rfl

theorem syncLock_freeRuleInstance (r : Nat) (c : Ctx V) :
    (c.freeRuleInstance rules r).syncLock =
      ((c.ri.cell r).syncLockList.foldl
        (fun d s => d.objhashDel rules (c.ri.cell r).rule s) c).syncLock := by
  unfold Ctx.freeRuleInstance
  simp only
  generalize hd : List.foldl _ c (c.ri.cell r).syncLockList = d
  obtain ⟨ae, hd, tl, n, heq⟩ := foldl_freeState_eq (c.ri.cell r).stateList
    { d with
      si := d.si.free (c.ri.cell r).firstState
      stateInstances := d.stateInstances - 1 }
  rw [countEnd_eq, heq]

theorem LockTable.freeRuleInstance (h : LockTable rules c) (hw : Wf c.records cr)
    {good : V → Prop} (henv : GoodEnvs rules good c) (laws : LawfulSync good)
    (hr : c.ri.live r = true) : LockTable rules (c.freeRuleInstance rules r) := by
  have hmem : ∀ k b a, a ∈ (c.freeRuleInstance rules r).syncLock k b ↔
      a ∈ c.syncLock k b ∧ ¬ (k = (c.ri.cell r).rule ∧ a ∈ (c.ri.cell r).syncLockList) := by
    intro k b a
    rw [syncLock_freeRuleInstance]
    exact (h.keyed hw henv laws _).mem_foldl (h.listNodup r hr)
      (fun s hs => (h.list r hr s hs).2) k b a
  have hnodup : ∀ k b, ((c.freeRuleInstance rules r).syncLock k b).Nodup := by
    intro k b
    rw [syncLock_freeRuleInstance]
    exact (h.nodup k b).sublist (foldl_objhashDel_sublist _ _ c k b)
  obtain ⟨ae, hd, tl, n, l, heq⟩ := freeRuleInstance_eq rules r c
  have hsi : (c.freeRuleInstance rules r).si.cell = c.si.cell := by
    rw [heq]
    exact Heap.cell_foldl_free _ _
  have hri : (c.freeRuleInstance rules r).ri = c.ri.free r := by
    rw [heq]
  have hkey : ∀ a, (c.freeRuleInstance rules r).syncKey rules a = c.syncKey rules a := by
    intro a
    unfold Ctx.syncKey Ctx.syncVal Ctx.ruleOf
    rw [hsi, hri, Heap.cell_free]
  -- an entry that is left belongs to another rule instance
  have hother : ∀ k b a, a ∈ (c.freeRuleInstance rules r).syncLock k b →
      a ∈ c.syncLock k b ∧ (c.si.cell a).ruleInstance ≠ r := by
    intro k b a ha
    obtain ⟨ha, hnot⟩ := (hmem k b a).mp ha
    have he := h.entry k b a ha
    refine ⟨ha, ?_⟩
    rintro rfl
    exact hnot ⟨he.rule.symm, he.mem⟩
  refine ⟨fun k b a ha => ?_, fun b hb a ha => ?_, hnodup, fun b hb => ?_,
    fun k b b' a a' ha ha' hne => ?_⟩
  · obtain ⟨ha, hne⟩ := hother k b a ha
    have he := h.entry k b a ha
    refine ⟨?_, ?_, ?_, ?_, ?_, ?_⟩
    · rw [heq]
      exact lt_of_lt_of_eq he.lt (Heap.size_foldl_free _ _).symm
    · rw [hsi, hri, Heap.live_free_of_ne _ hne]
      exact he.live
    · rw [hsi, hri, Heap.cell_free]
      exact he.rule
    · rw [hsi, hri, Heap.cell_free]
      exact he.mem
    · rw [bucketOf_congr (hkey a)]
      exact he.bucket
    · unfold Ctx.syncVarEnvIsDefined
      rw [hkey]
      exact he.defined
  · rw [hri] at hb ha ⊢
    rw [Heap.cell_free] at ha ⊢
    rw [Heap.live_free, Bool.and_eq_true, decide_eq_true_iff] at hb
    obtain ⟨howner, hm⟩ := h.list b hb.2 a ha
    rw [hsi, bucketOf_congr (hkey a)]
    refine ⟨howner, (hmem _ _ a).mpr ⟨hm, fun hin => hb.1 ?_⟩⟩
    rw [← howner, (h.list r hr a hin.2).1]
  · rw [hri] at hb ⊢
    rw [Heap.cell_free]
    rw [Heap.live_free, Bool.and_eq_true] at hb
    exact h.listNodup b hb.2
  · rw [hkey, hkey]
    exact h.differ k b b' a a' (hother k b a ha).1 (hother k b' a' ha').1 hne

end

/-! ## The steps of the engine -/

section

variable [SyncValue V] (rules : RuleSet) (good : V → Prop)

/-- The environments and the lock tables are in order. -/
structure LockInv (c : Ctx V) : Prop where
  envs : GoodEnvs rules good c
  table : LockTable rules c

/-- The execution leaves values of the kind `good` in synchronization variables, and keeps the key of
a state instance that has a lock. -/
structure KeepsKey (call : Call V) (x : VmCall V) : Prop where
  good : ∀ y ∈ (x.ctx.ruleOf rules (x.ctx.si.cell x.stateInstance).ruleInstance).syncVars,
    ∀ v ∈ (call.result x).env y, good v ∨ (x.ctx.si.cell x.stateInstance).currentEnv y = some v
  locked : x.ctx.HasLock x.stateInstance →
    (x.ctx.vmExec call.vm x.stateInstance x.code).syncKey rules x.stateInstance =
      x.ctx.syncKey rules x.stateInstance

instance [DecidablePred good] [DecidableEq V] (call : Call V) (x : VmCall V) :
    Decidable (KeepsKey rules good call x) :=
  decidable_of_iff (_ ∧ _) ⟨fun h => ⟨h.1, h.2⟩, fun h => ⟨h.good, h.locked⟩⟩

/-- Every execution keeps the keys. -/
def KeysStay (call : Call V) : Prop := ∀ x, KeepsKey rules good call x

variable {rules good} {prune : Nat → Ctx V → Bool} {call : Call V} {fuel r s e t : Nat}
  {onlyOnce : Bool} {cr : Option Nat} {c c' : Ctx V}

theorem LockInv.stays (h : LockInv rules good c) (hw : Wf c.records cr) (hk : Stays c c') :
    LockInv rules good c' :=
  ⟨h.envs.stays hw hk, h.table.stays hw hk⟩

theorem LockInv.vmExec (h : LockInv rules good c) (hw : Wf c.records cr)
    (hc : KeysStay rules good call) (code : List Nat) :
    LockInv rules good (c.vmExec call.vm s code) := by
  refine ⟨h.envs.vmExec hw fun x hx v hv => (hc ⟨c, s, code⟩).good x hx v hv,
    h.table.vmExec hw ?_⟩
  rintro ⟨k, b, hs⟩
  exact (hc ⟨c, s, code⟩).locked (h.table.entry k b s hs).mem

theorem LockInv.newState (h : LockInv rules good c) (hw : Wf c.records cr) (ho : Of c r s)
    (dest : Nat) : LockInv rules good (c.newState dest s) :=
  ⟨h.envs.newState hw ho dest, h.table.newState hw dest s⟩

theorem LockInv.newRuleInst (h : LockInv rules good c) (hw : Wf c.records cr) (k : Nat) :
    LockInv rules good (c.newRuleInst k) :=
  ⟨h.envs.newRuleInst hw k, h.table.newRuleInst hw k⟩

theorem LockInv.newThread (h : LockInv rules good c) (hw : Wf c.records cr) (s : Nat)
    (clock : Ctx V → Nat) (onlyOnce : Bool) (tr : Trans) :
    LockInv rules good (c.newThread clock s onlyOnce tr) := by
  have hg := grows_newThread clock s onlyOnce tr c
  have hn := congrArg RecordView.states (records_newThread clock s onlyOnce tr c)
  obtain ⟨hcur, hinh, hlists, hlive, hlock⟩ := newThread_rest clock s onlyOnce tr c
  refine ⟨h.envs.frame hw hg hn hcur hinh,
    h.table.frame hw hg hlock (fun b _ => by rw [hlive]) (fun b _ => hlists b)
      (fun b hb hl => ?_) (fun k b a ha => ?_)⟩
  · rw [hlive] at hl
    exact absurd (hw.rule_lt b hl) (Nat.not_lt.mpr hb)
  · have hoa := hw.state_of (h.table.entry k b a ha).lt
    unfold Ctx.syncKey Ctx.syncVal
    rw [hg.ruleInstance hoa.lt, ruleOf_grows rules hoa.rule_lt hg, hcur, hinh]

theorem LockInv.freeRuleInstance (h : LockInv rules good c) (hw : Wf c.records cr)
    (laws : LawfulSync good) (hr : c.ri.live r = true) :
    LockInv rules good (c.freeRuleInstance rules r) := by
  have hg := grows_freeRuleInstance rules r c
  have htable := h.table.freeRuleInstance hw h.envs laws hr
  obtain ⟨ae, hd, tl, n, l, heq⟩ := freeRuleInstance_eq rules r c
  have hcell : ∀ s, ((c.freeRuleInstance rules r).si.cell s) = c.si.cell s := by
    intro s
    rw [heq]
    exact congrFun (Heap.cell_foldl_free _ _) s
  refine ⟨h.envs.frame hw hg ?_ (fun s => by rw [hcell]) (fun s => by rw [hcell]), htable⟩
  rw [heq]
  exact Heap.size_foldl_free _ _

/-- A simulation sets a lock only for a state instance that has none. -/
theorem simulate_locks (laws : LawfulSync good) (hc : KeysStay rules good call) (ho : Of c r s)
    (hw : Wf c.records cr) (h : LockInv rules good c) (hr : c.ri.live r = true)
    (hnot : ∀ k b, s ∉ c.syncLock k b) {ret : Int}
    (heq : simulate rules call fuel s onlyOnce c = some (ret, c')) :
    LockInv rules good c' ∧ c'.ri.live r = true := by
  let I : Ctx V → Prop := fun d =>
    Wf d.records cr ∧ LockInv rules good d ∧ d.records.ruleLive r = true
  have hinv : SimRules rules call r onlyOnce (fun s d => I d ∧ ∀ k b, s ∉ d.syncLock k b) I I := by
    constructor
    · rintro d s code _ ⟨⟨hw, h, hd⟩, hnot⟩ _
      exact ⟨⟨by simpa using hw, h.vmExec hw hc code, by simpa using hd⟩, hnot⟩
    · rintro d s _ ⟨⟨hw, h, hd⟩, -⟩ _
      exact ⟨by simpa using hw, h.stays hw (stays_markDeadRule r d), by simpa using hd⟩
    · exact fun d s _ h _ _ => h.1
    · exact fun d s _ h _ => h.1
    · rintro d s ho ⟨⟨hw, h, hd⟩, hnot⟩ _ _ _ hdef hget
      refine ⟨by simpa using hw, ⟨?_, ?_⟩, by simpa using hd⟩
      · exact h.envs.frame hw (grows_addLock rules s d) rfl (fun _ => rfl) fun _ => rfl
      · exact h.table.addLock hw h.envs laws ho hd hdef hget hnot
    · rintro d s code tr _ ⟨hw, h, hd⟩ _ _
      exact ⟨by simpa using hw, h.vmExec hw hc code, by simpa using hd⟩
    · rintro d s tr ho ⟨hw, h, hd⟩ _ _
      refine ⟨⟨?_, h.newState hw ho tr.dest, ?_⟩, fun k b hs => ?_⟩
      · rw [records_newState, ho.ruleInstance]
        exact hw.addState ho.rule_lt
      · rw [records_newState]
        exact hd
      · exact Nat.lt_irrefl _ (h.table.entry k b _ hs).lt
    · rintro d s tr ho ⟨hw, h, hd⟩ _ _
      refine ⟨?_, h.newThread hw s call.clock onlyOnce tr, ?_⟩
      · rw [records_newThread]
        exact hw.addThread ho.lt
      · rw [records_newThread]
        exact hd
  obtain ⟨-, ⟨_, hi, _⟩ | ⟨_, hi⟩⟩ :=
    simulate_rules hinv fuel s c ret c' ho ⟨⟨hw, h, hr⟩, hnot⟩ heq
  · exact hi.2
  · exact hi.2

theorem startRule_locks (laws : LawfulSync good) (hc : KeysStay rules good call)
    (hw : Wf c.records none) (h : LockInv rules good c) {k : Nat}
    (heq : startRule rules call fuel k c = some c') : LockInv rules good c' := by
  obtain ⟨ret, c₁, hs, rfl⟩ := startRule_some heq
  have ho := Of.newRuleInst k c
  have hw₀ : Wf (c.newRuleInst k).records (some c.ri.size) := by
    rw [records_newRuleInst]
    exact hw.addRule
  obtain ⟨-, hw₁⟩ := simulate_wf ho hw₀ hs
  obtain ⟨h₁, hr⟩ := simulate_locks laws hc ho hw₀ (h.newRuleInst hw k)
    (by simp [Ctx.newRuleInst]) (fun k b hs => Nat.lt_irrefl _ (h.table.entry k b _ hs).lt) hs
  unfold Ctx.finishRuleInst
  split
  · exact h₁.freeRuleInstance hw₁ laws hr
  · exact h₁.stays hw₁ (stays_linkRuleInst _ _ _)

theorem reapThread_locks (laws : LawfulSync good) (hv : Visiting t c) (h : LockInv rules good c)
    (p : Option Nat) : LockInv rules good (c.reapThread rules t p) := by
  have hdown := h.stays hv.wf (stays_countDown (c.ruleInstOf t) c)
  have hwd : Wf (c.countDown (c.ruleInstOf t)).records none := by
    rw [records_countDown]
    exact hv.wf
  have hkill := hdown.stays hwd (stays_killRuleInst (c.ruleInstOf t) _)
  have hwk : Wf ((c.countDown (c.ruleInstOf t)).killRuleInst (c.ruleInstOf t)).records none := by
    rw [records_killRuleInst]
    exact hwd
  have hwdrop : Wf (c.dropThread rules t).records none := by
    have hreap : Wf (c.reapThread rules t p).records none := reapThread_wf hv.wf hv.lt p
    unfold Ctx.reapThread at hreap
    rwa [records_freeThread] at hreap
  have hdrop : LockInv rules good (c.dropThread rules t) := by
    rcases dropThread_cases rules t c with ⟨_, heq⟩ | ⟨_, _, heq⟩ | ⟨_, hm, heq⟩
    · rw [heq]
      exact hdown.stays hwd (stays_unlinkThread t _)
    · rw [heq]
      exact hkill
    · rw [heq]
      have hlive : c.ri.live (c.ruleInstOf t) = true := (hv.wf.ruleLive _).mpr (.inl hm)
      have hu := hkill.stays hwk (stays_unlinkRuleInst (c.ruleInstOf t) _)
      refine hu.freeRuleInstance (hwk.unlink (r := c.ruleInstOf t) hm) laws ?_
      simpa [Ctx.unlinkRuleInst, Ctx.killRuleInst, Ctx.countDown] using hlive
  exact hdrop.stays hwdrop (stays_freeThread t p _)

theorem evaluated_locks (laws : LawfulSync good) (hc : KeysStay rules good call)
    (hv : Visiting t c) (hr : c.ri.live (c.ruleInstOf t) = true) (h : LockInv rules good c)
    (hev : Evaluated rules prune call fuel e t c c') : LockInv rules good c' := by
  let A : Ctx V → Prop := fun d =>
    Wf d.records none ∧ LockInv rules good d ∧ d.records.ruleLive (c.ruleInstOf t) = true
  have hfinal := evaluated_inv (A := A)
    (B := fun d => A d ∧ ∀ k b, c.si.size ∉ d.syncLock k b) hv.wf hv.lt hev ?_ ?_ ?_ ?_
  · exact hfinal.2.1
  · refine ⟨?_, h.vmExec hv.wf hc _, by rwa [records_vmExec]⟩
    rw [records_vmExec]
    exact hv.wf
  · rintro c₀ hw₀ ht₀ hg hsz ⟨-, h₀, hr₀⟩
    have ho := (hw₀.thread_of ht₀).grows (grows_countPass t c₀)
    have hwc : Wf (c₀.countPass t).records none := by rwa [records_countPass]
    have h₁ := ((h₀.stays hw₀ (stays_countPass t c₀)).newState hwc ho
      (c₀.thr.cell t).trans.dest)
    have hw₁ : Wf (c₀.passState e t).records none := by
      rw [records_passState]
      exact hw₀.addState (hw₀.thread_of ht₀).rule_lt
    have hwn : Wf ((c₀.countPass t).newState (c₀.thr.cell t).trans.dest
        (c₀.thr.cell t).stateInstance).records none := by
      rw [records_newState, ho.ruleInstance]
      exact hwc.addState ho.rule_lt
    refine ⟨⟨hw₁, h₁.stays hwn (stays_bindEvent e c₀.si.size _), ?_⟩, fun k b hs => ?_⟩
    · rw [records_passState]
      exact hr₀
    · rw [← hsz, syncLock_passState] at hs
      exact Nat.lt_irrefl _ (h₀.table.entry k b _ hs).lt
  · rintro r c₁ ret c₂ ho hw₁ rfl ⟨⟨-, h₁, hr₁⟩, hnot⟩ hs
    obtain ⟨h₂, hr₂⟩ := simulate_locks laws hc ho hw₁ h₁ hr₁ hnot hs
    exact ⟨(simulate_wf ho hw₁ hs).2, h₂, hr₂⟩
  · rintro c₂ ⟨hw₂, h₂, hr₂⟩
    exact ⟨by rwa [records_killThread], h₂.stays hw₂ (stays_killThread t c₂),
      by rwa [records_killThread]⟩

theorem evtStep_locks {curTime : Nat} (laws : LawfulSync good) (hc : KeysStay rules good call)
    (hb : base.during e (some t) c) (ha : Alive c.records c.accounts.live)
    (h : LockInv rules good c)
    (heq : evtStep rules prune call fuel curTime e t (c.next t) c = some c') :
    LockInv rules good c' := by
  obtain ⟨hv, hcase⟩ := evtStep_visiting hb heq
  have h₀ := h.stays hb.1 (stays_beginVisit curTime t c)
  have hr₀ : (c.beginVisit curTime t).ri.live ((c.beginVisit curTime t).ruleInstOf t) = true := by
    have ha₀ : Alive (c.beginVisit curTime t).records (c.beginVisit curTime t).accounts.live := by
      simpa using ha
    exact ha₀.thread t hv.lt hv.live
  rcases hcase with ⟨_, rfl⟩ | ⟨_, c₁, hev, hv₁, ⟨_, hv₂, rfl⟩ | ⟨_, rfl⟩⟩
  · exact reapThread_locks laws hv h₀ _
  · have h₁ := evaluated_locks laws hc hv hr₀ h₀ hev
    have hwk : Wf (c₁.killThread t).records none := by
      rw [records_killThread]
      exact hv₁.wf
    exact reapThread_locks laws hv₂
      ((h₁.stays hv₁.wf (stays_killThread t c₁)).stays hwk (stays_commitAt t _)) _
  · have h₁ := evaluated_locks laws hc hv hr₀ h₀ hev
    have hwq : Wf (c₁.requeue t).records none := by
      rw [records_requeue]
      exact hv₁.wf
    exact (h₁.stays hv₁.wf (stays_requeue t c₁)).stays hwq (stays_commitAt t _)

/-- The locks are in order. -/
def locksInv (rules : RuleSet) (good : V → Prop) : EngineInv V where
  between c := LockInv rules good c
  during _ _ c := LockInv rules good c

theorem locks_rules (laws : LawfulSync good) : EngineRules rules prune (KeysStay rules good)
    (fun _ _ _ _ => True) quietBase (locksInv rules good) where
  init := by
    refine ⟨?_, ?_⟩
    · intro s hs
      cases hs
    · constructor <;> simp [Ctx.init]
  beginEvent event c hb h := h.stays hb.1.1.1 (stays_beginEvent event c)
  startRule call fuel e k c c' hc _ hb h heq := startRule_locks laws hc hb.1.1.1 h heq
  mergeQueues e c hb h := h.stays hb.1.1.1 (stays_mergeQueues c)
  evtStep call fuel curTime e t c c' hc hb h heq := evtStep_locks laws hc hb.1.1 hb.2 h heq
  endEvent event e c hb h := h.stays hb.1.1.1 (stays_endEvent event e c)

/-- The lock tables hold only state instances of rule instances that are not freed, and what is
locked by two rule instances differs. -/
structure Exclusive (rules : RuleSet) (c : Ctx V) : Prop where
  live : ∀ k b s, s ∈ c.syncLock k b →
    c.si.live s = true ∧ c.ri.live (c.si.cell s).ruleInstance = true
  differ : ∀ k b b' s s', s ∈ c.syncLock k b → s' ∈ c.syncLock k b' →
    (c.si.cell s).ruleInstance ≠ (c.si.cell s').ruleInstance →
    keyCmp (c.syncKey rules s) (c.syncKey rules s') ≠ 0

omit [SyncValue V] in
/-- A restricted machine keeps the keys in every execution. -/
theorem keysStay_restrict (call : Call V) :
    KeysStay rules good (call.withVm (call.vm.restrict (KeepsKey rules good call))) := by
  rintro ⟨c, s, code⟩
  rcases call.vm.restrict_cases (KeepsKey rules good call) c s code with ⟨hk, heq⟩ | heq
  · refine ⟨fun y hy v hv => hk.good y hy v ?_, fun hl => ?_⟩
    · exact (congrArg (fun r => VmResult.env r y) heq).symm.trans hv
    · rw [vmExec_withVm heq]
      exact hk.locked hl
  · refine ⟨fun y _ v hv => .inr ?_, fun _ => ?_⟩
    · exact (congrArg (fun r => VmResult.env r y) heq).symm.trans hv
    · have hcell : ∀ a, (c.vmExec (call.vm.restrict (KeepsKey rules good call)) s code).si.cell a =
          c.si.cell a := by
        intro a
        refine (c.si.cell_modify s a _).trans ?_
        split
        · rename_i has
          rw [heq, has]
          rfl
        · rfl
      show Ctx.syncKey rules s (c.vmExec (call.vm.restrict (KeepsKey rules good call)) s code) = _
      unfold Ctx.syncKey Ctx.syncVal
      rw [hcell]
      rfl

/-- In a run in which no call frees an instance that has threads and the executions keep the keys, the
locks exclude each other. -/
theorem exclusive_of_stable (laws : LawfulSync good)
    (hr : Run rules prune (fun call fuel c =>
      (∀ x ∈ injectVmCalls rules prune call fuel c, KeepsKey rules good call x) ∧
        Quiet rules call fuel c) c) :
    Exclusive rules c := by
  have hr' : Run rules prune
      (fun call fuel c => KeysStay rules good call ∧ Quiet rules call fuel c) c := by
    refine hr.restrict (P := KeepsKey rules good) (fun _ _ _ h => h.1) fun call fuel c h hag => ?_
    exact ⟨keysStay_restrict call, h.2.congr hag⟩
  have hrules : EngineRules rules prune (KeysStay rules good) (QuietStart rules) .trivial
      (quietBase.and (locksInv rules good)) :=
    (quietBase_rules.mono (fun _ _ => trivial) fun _ _ _ _ => id).and
      ((locks_rules laws).mono (fun _ => id) fun _ _ _ _ _ => trivial)
  obtain ⟨⟨⟨⟨hw, -⟩, -⟩, -⟩, h⟩ := hrules.run hr' (fun _ _ _ hok => hok.1) fun _ _ _ hok => hok.2
  refine ⟨fun k b s hs => ?_, fun k b b' s s' hs hs' hne => ?_⟩
  · have he := h.table.entry k b s hs
    exact ⟨hw.stateLive s he.lt he.live, he.live⟩
  · refine h.table.differ k b b' s s' hs hs' ?_
    rintro rfl
    exact hne rfl

end

/-- The integers below `2 ^ 31`. -/
def SmallInt : Val → Prop
  | .null => False
  | .int v => v.toNat < 2 ^ 31

instance : DecidablePred SmallInt
  | .null => inferInstanceAs (Decidable False)
  | .int v => inferInstanceAs (Decidable (v.toNat < 2 ^ 31))

/-- On small integers the comparison of the language is the equality. -/
theorem lawfulSync_smallInt : LawfulSync SmallInt := by
  refine .of_eq ?_
  rintro (_ | v) (_ | w) hv hw
  · cases hv
  · cases hv
  · cases hw
  · have hcmp : SyncValue.cmp (some (Val.int v)) (some (Val.int w)) =
        ((v - w).setWidth 32).toInt := rfl
    have hv' : v.toNat < 2 ^ 31 := hv
    have hw' : w.toNat < 2 ^ 31 := hw
    rw [hcmp, Val.int.injEq, ← BitVec.toInt_zero (w := 32), BitVec.toInt_inj, ← BitVec.toNat_inj,
      ← BitVec.toNat_inj]
    simp only [BitVec.toNat_setWidth, BitVec.toNat_sub, BitVec.toNat_ofNat]
    omega

/-- The code of a comparison of the field 0 with a constant. -/
def fieldCode (op : CmpOp) (c : Nat) : List Nat :=
  [5, 0, 4, c, (Opcode.cmp op).code, 21, 2, 20, 4, 4, 0, 20, 2, 4, 1, 0]

/-- A rule with one instance for each value of the field: at an event with another field than 7 it
assigns the field to its variable, and then waits for a 7. -/
def onePerField : RuleSet :=
  [{ states := [
      { action := none, trans := [⟨1, some (fieldCode .cneq 5), 1⟩], havePushfield := false },
      { action := some [5, 0, 3, 0, 0], trans := [⟨1, some (fieldCode .ceq 5), 2⟩]
        havePushfield := true },
      { action := none, trans := [], havePushfield := false }]
     syncVars := [0], syncLock := true }]

/-- An event with the field 0, and constants from the number 5 on. -/
def fieldCall (consts : List Val) (n : Int) : Call Val where
  event := [(0, .int n)]
  vm := ovmExec (ruleFrame fun _ => valStaticEnv consts) 16
  clock _ := 0

/-- After two events there are two locks, with different values. -/
theorem exclusive_of_stable_onePerField :
    ∃ c, Run onePerField (backtrackIsNotNeeded onePerField) (fun call fuel c =>
        (∀ x ∈ injectVmCalls onePerField (backtrackIsNotNeeded onePerField) call fuel c,
          KeepsKey onePerField SmallInt call x) ∧ Quiet onePerField call fuel c) c ∧
      1 ∈ c.syncLock 0 (c.bucketOf onePerField 1) ∧ 3 ∈ c.syncLock 0 (c.bucketOf onePerField 3) ∧
      Exclusive (V := Val) onePerField c := by
  let prune := backtrackIsNotNeeded (V := Val) onePerField
  let ok : Call Val → Nat → Ctx Val → Prop := fun call fuel c =>
    (∀ x ∈ injectVmCalls onePerField prune call fuel c, KeepsKey onePerField SmallInt call x) ∧
      Quiet onePerField call fuel c
  have hrun : (decide (ok (fieldCall [.int 7] 1) 3 (Ctx.init Val)) &&
      (injectEventWith onePerField prune (fieldCall [.int 7] 1) 3 (Ctx.init Val)).any fun p =>
        decide (ok (fieldCall [.int 7] 2) 3 p.2) &&
          (injectEventWith onePerField prune (fieldCall [.int 7] 2) 3 p.2).any fun q =>
            decide (1 ∈ q.2.syncLock 0 (q.2.bucketOf onePerField 1)) &&
              decide (3 ∈ q.2.syncLock 0 (q.2.bucketOf onePerField 3))) = true := by
    decide +kernel
  rw [Bool.and_eq_true] at hrun
  obtain ⟨hok₁, hrun⟩ := hrun
  obtain ⟨⟨visits₁, c₁⟩, heq₁, hrun⟩ := (Option.any_eq_true _ _).mp hrun
  rw [Bool.and_eq_true] at hrun
  obtain ⟨hok₂, hrun⟩ := hrun
  obtain ⟨⟨visits₂, c₂⟩, heq₂, hlocks⟩ := (Option.any_eq_true _ _).mp hrun
  simp only [Bool.and_eq_true, decide_eq_true_iff] at hok₁ hok₂ hlocks
  have hr : Run onePerField prune ok c₂ :=
    .inject _ 3 (.inject _ 3 .init hok₁ heq₁) hok₂ heq₂
  exact ⟨c₂, hr, hlocks.1, hlocks.2, exclusive_of_stable lawfulSync_smallInt hr⟩

/-- A rule that assigns 1 to its variable in an action, and 2 in the condition `($x = 2) == .f` that
is evaluated later. -/
def onePerValue : RuleSet :=
  [{ states := [
      { action := none, trans := [⟨1, some (fieldCode .ceq 0), 1⟩], havePushfield := false },
      { action := some [4, 0, 3, 0, 0]
        trans := [⟨1, some [4, 5, 3, 0, 2, 0, 5, 0, 22, 21, 2, 20, 4, 4, 0, 20, 2, 4, 1, 0], 2⟩]
        havePushfield := false },
      { action := none, trans := [], havePushfield := false }]
     syncVars := [0], syncLock := true }]

/-- After three events two rule instances have a lock on the same value. -/
theorem not_exclusive :
    ∃ c, Reach onePerValue (backtrackIsNotNeeded onePerValue) c ∧
      ¬ Exclusive (V := Val) onePerValue c := by
  have hrun : ((injectEvents onePerValue (backtrackIsNotNeeded onePerValue) 3
      (List.replicate 3 (fieldCall [.int 2] 1)) (Ctx.init Val)).any fun c =>
        decide (1 ∈ c.syncLock 0 385) && decide (3 ∈ c.syncLock 0 385) &&
        decide ((c.si.cell 1).ruleInstance ≠ (c.si.cell 3).ruleInstance) &&
        decide (keyCmp (c.syncKey onePerValue 1) (c.syncKey onePerValue 3) = 0)) = true := by
    decide +kernel
  obtain ⟨c, hc, hall⟩ := (Option.any_eq_true _ _).mp hrun
  simp only [Bool.and_eq_true, decide_eq_true_iff] at hall
  obtain ⟨⟨⟨h₁, h₃⟩, hne⟩, heq⟩ := hall
  exact ⟨c, Run.init.injectEvents _ _ _ hc, fun h => h.differ 0 385 385 1 3 h₁ h₃ hne heq⟩

end Orchids
