import Orchids.Engine.Runs
import Orchids.Engine.SyncVal

/-!
# The values of the fields (`orchids_api.c`, `engine.c`)

`register_fields` makes the table `global_fields`, and `inject_event` keeps the values of the
current event in it, which `OP_PUSHFIELD` reads.

* `simulate_globalFields`, `evtLoop_globalFields`: a call does not change the values between its
  beginning and its end.
* `injectEventWith_congr`: the byte code is only evaluated on the values of the event, so that what
  it would do on other values does not matter.
* `fieldsExact_iff`: this holds for every call, with no value between two calls, if and only if the
  new entries of the table were `NULL` or belong to a field of the first event.
-/

namespace Orchids

variable {V : Type}

/-! ## Registration -/

/-- `field_t`: a field as a module declares it. -/
structure Field where
  name : String
  type : Int
  desc : String

/-- `field_record_t`. -/
structure FieldRecord (V : Type) where
  active : Bool
  name : String
  type : Int
  desc : String
  id : Nat
  val : Option V

/-- `DEFAULT_FIELD_ACTIVATION` -/
def defaultFieldActivation : Bool := true

/-- `register_fields`: the new entries, in memory whose `val` is `fresh`, and the place of the first
one (`first_field_pos`). -/
def registerFields (fieldTab : List Field) (fresh : Nat → Option V)
    (globalFields : List (FieldRecord V)) : Nat × List (FieldRecord V) :=
  (globalFields.length, globalFields ++ fieldTab.mapIdx fun i f =>
    { active := defaultFieldActivation, name := f.name, type := f.type, desc := f.desc
      id := globalFields.length + i, val := fresh i })

/-- Some modules register their fields, one after the other. -/
def registerAll (mods : List (List Field × (Nat → Option V))) : List (FieldRecord V) :=
  mods.foldl (fun globalFields mod => (registerFields mod.1 mod.2 globalFields).2) []

/-- The values in the table. -/
def fieldVals (globalFields : List (FieldRecord V)) : Env V :=
  fun f => globalFields[f]?.bind FieldRecord.val

/-- The engine behind the registration. -/
def Ctx.registered (globalFields : List (FieldRecord V)) : Ctx V :=
  { Ctx.init V with globalFields := fieldVals globalFields }

/-! ## Events -/

/-- The value of the field `f` in an event, where the last one counts. -/
def fieldValue : List (Nat × V) → Nat → Option V
  | [], _ => none
  | (g, v) :: event, f =>
    match fieldValue event f with
    | some w => some w
    | none => if f = g then some v else none

/-- The first `n` fields have these values. -/
def FieldsAre (n : Nat) (vals : Nat → Option V) (c : Ctx V) : Prop :=
  ∀ f < n, c.globalFields f = vals f

theorem FieldsAre.of_eq {n : Nat} {vals : Nat → Option V} {c c' : Ctx V} (h : FieldsAre n vals c)
    (heq : c'.globalFields = c.globalFields) : FieldsAre n vals c' := by
  unfold FieldsAre
  rw [heq]
  exact h

theorem foldl_set (event : List (Nat × V)) (fields : Env V) (f : Nat) :
    event.foldl (fun (fields : Env V) (p : Nat × V) => Function.update fields p.1 (some p.2))
      fields f = match fieldValue event f with
        | some w => some w
        | none => fields f := by
  induction event generalizing fields with
  | nil => rfl
  | cons p event ih =>
    rw [List.foldl_cons, ih, fieldValue]
    cases fieldValue event f with
    | some w => rfl
    | none =>
      by_cases hf : f = p.1
      · simp [hf]
      · simp [hf]

theorem foldl_reset (event : List (Nat × V)) (fields : Env V) (f : Nat) :
    event.foldl (fun (fields : Env V) (p : Nat × V) => Function.update fields p.1 none) fields f =
      if f ∈ event.map Prod.fst then none else fields f := by
  induction event generalizing fields with
  | nil => rfl
  | cons p event ih =>
    rw [List.foldl_cons, ih, List.map_cons]
    by_cases hf : f = p.1
    · simp [hf]
    · simp only [List.mem_cons, hf, false_or, Function.update_of_ne hf]

theorem fieldValue_isSome (event : List (Nat × V)) (f : Nat) :
    (fieldValue event f).isSome = true ↔ f ∈ event.map Prod.fst := by
  induction event with
  | nil => simp [fieldValue]
  | cons p event ih =>
    rw [fieldValue, List.map_cons, List.mem_cons]
    cases h : fieldValue event f with
    | some w =>
      rw [h] at ih
      exact ⟨fun _ => .inr (ih.mp rfl), fun _ => rfl⟩
    | none =>
      rw [h] at ih
      by_cases hf : f = p.1
      · simp [hf]
      · simp only [hf, false_or]
        exact ih

/-- At the beginning of a call an overwritten value does not matter. -/
theorem fieldsAre_beginEvent {n : Nat} {event : List (Nat × V)} {c : Ctx V}
    (h : ∀ f < n, c.globalFields f = none ∨ f ∈ event.map Prod.fst) :
    FieldsAre n (fieldValue event) (c.beginEvent event) := by
  intro f hf
  refine (foldl_set event c.globalFields f).trans ?_
  cases hv : fieldValue event f with
  | some w => rfl
  | none =>
    have hnot : f ∉ event.map Prod.fst := fun hmem => by
      rw [← fieldValue_isSome, hv] at hmem
      cases hmem
    exact (h f hf).resolve_right hnot

/-! ## Frames -/

@[simp] theorem globalFields_vmExec (vm : Vm V) (s : Nat) (code : List Nat) (c : Ctx V) :
    (c.vmExec vm s code).globalFields = c.globalFields := rfl

@[simp] theorem globalFields_execAction (rules : RuleSet) (call : Call V) (s : Nat) (c : Ctx V) :
    (c.execAction rules call s).globalFields = c.globalFields := by
  unfold Ctx.execAction
  cases (c.stateOf rules s).action <;> rfl

@[simp] theorem globalFields_execCond (call : Call V) (s : Nat) (tr : Trans) (c : Ctx V) :
    (c.execCond call s tr).globalFields = c.globalFields := by
  unfold Ctx.execCond
  cases tr.evalCode <;> rfl

@[simp] theorem globalFields_newThread (clock : Ctx V → Nat) (s : Nat) (onlyOnce : Bool)
    (tr : Trans) (c : Ctx V) : (c.newThread clock s onlyOnce tr).globalFields = c.globalFields := by
  unfold Ctx.newThread Ctx.pushNew
  cases c.newQt <;> rfl

@[simp] theorem globalFields_passState (e t : Nat) (c : Ctx V) :
    (c.passState e t).globalFields = c.globalFields := by
  unfold Ctx.passState Ctx.countPass
  simp only
  split <;> rfl

@[simp] theorem globalFields_bumpTail (q : Option Nat) (c : Ctx V) :
    (c.bumpTail q).globalFields = c.globalFields := by
  unfold Ctx.bumpTail
  cases q <;> rfl

@[simp] theorem globalFields_mergeQueues (c : Ctx V) :
    c.mergeQueues.globalFields = c.globalFields := by
  unfold Ctx.mergeQueues
  cases c.newQh <;> rfl

@[simp] theorem globalFields_commitAt (t : Nat) (c : Ctx V) :
    (c.commitAt t).globalFields = c.globalFields := by
  unfold Ctx.commitAt Ctx.commitNew
  simp only
  split
  · split
    · exact (globalFields_bumpTail _ _).trans (globalFields_bumpTail _ _)
    · exact globalFields_bumpTail _ _
  · rfl

@[simp] theorem globalFields_beginVisit (curTime t : Nat) (c : Ctx V) :
    (c.beginVisit curTime t).globalFields = c.globalFields := by
  unfold Ctx.beginVisit
  simp only
  split <;> rfl

/-! ## A call on other byte code -/

/-- `vm'` does the same as `vm` where the first `n` fields have the values `vals`. -/
def AgreeOn (n : Nat) (vals : Nat → Option V) (vm vm' : Vm V) : Prop :=
  ∀ c, FieldsAre n vals c → vm' c = vm c

theorem vmExec_congr {vm vm' : Vm V} {c : Ctx V} (h : vm' c = vm c) (s : Nat) (code : List Nat) :
    c.vmExec vm' s code = c.vmExec vm s code := by
  unfold Ctx.vmExec
  rw [h]

section

variable {rules : RuleSet} {call : Call V} {vm' : Vm V} {n : Nat} {vals : Nat → Option V}
  {onlyOnce : Bool}

theorem simulateTrans_globalFields {s : Nat} {sim : Nat → Ctx V → Option (Int × Ctx V)}
    (hsim : ∀ n c p, sim n c = some p → p.2.globalFields = c.globalFields) :
    ∀ (trs : List Trans) (created : Int) (c : Ctx V) (p : Int × Ctx V),
      simulateTrans call sim s onlyOnce trs created c = some p →
      p.2.globalFields = c.globalFields
  | [], _, _, _, h => by
    obtain rfl := Option.some.inj h
    rfl
  | tr :: trs, created, c, p, h => by
    unfold simulateTrans at h
    split at h
    · split at h
      · simp only at h
        cases hs : sim (c.execCond call s tr).si.size ((c.execCond call s tr).newState tr.dest s)
        with
        | none =>
          rw [hs] at h
          cases h
        | some q =>
          rw [hs] at h
          have hq : q.2.globalFields = c.globalFields :=
            (hsim _ _ _ hs).trans (globalFields_execCond call s tr c)
          simp only at h
          split at h
          · obtain rfl := Option.some.inj h
            exact hq
          · exact (simulateTrans_globalFields hsim trs _ _ p h).trans hq
      · exact (simulateTrans_globalFields hsim trs _ _ p h).trans (globalFields_execCond call s tr c)
    · exact (simulateTrans_globalFields hsim trs _ _ p h).trans (globalFields_newThread _ _ _ _ c)

theorem simulateTrans_congr (hvm : AgreeOn n vals call.vm vm') {s : Nat}
    {sim sim' : Nat → Ctx V → Option (Int × Ctx V)}
    (hsim : ∀ n c p, sim n c = some p → p.2.globalFields = c.globalFields)
    (heq : ∀ m c, FieldsAre n vals c → sim' m c = sim m c) :
    ∀ (trs : List Trans) (created : Int) (c : Ctx V), FieldsAre n vals c →
      simulateTrans { call with vm := vm' } sim' s onlyOnce trs created c =
        simulateTrans call sim s onlyOnce trs created c
  | [], _, _, _ => rfl
  | tr :: trs, created, c, hf => by
    have hret : c.condRet { call with vm := vm' } s tr = c.condRet call s tr := by
      unfold Ctx.condRet
      cases tr.evalCode with
      | none => rfl
      | some code => exact congrArg VmResult.ret (congrFun (congrFun (hvm c hf) s) code)
    have hexec : c.execCond { call with vm := vm' } s tr = c.execCond call s tr := by
      unfold Ctx.execCond Ctx.vmExec
      simp only [hvm c hf]
    have hf₁ : FieldsAre n vals (c.execCond call s tr) := hf.of_eq (globalFields_execCond ..)
    unfold simulateTrans
    have hbranch := heq (c.execCond call s tr).si.size
      ((c.execCond call s tr).newState tr.dest s) (hf₁.of_eq rfl)
    simp only [hret, hexec, hbranch]
    split
    · split
      · cases hs : sim (c.execCond call s tr).si.size ((c.execCond call s tr).newState tr.dest s)
        with
        | none => rfl
        | some q =>
          simp only
          split
          · rfl
          · have hq : q.2.globalFields = ((c.execCond call s tr).newState tr.dest s).globalFields :=
              hsim _ _ _ hs
            exact simulateTrans_congr hvm hsim heq trs _ _ (hf₁.of_eq hq)
      · exact simulateTrans_congr hvm hsim heq trs _ _ hf₁
    · exact simulateTrans_congr hvm hsim heq trs _ _ (hf.of_eq (globalFields_newThread ..))

variable [SyncValue V]

theorem globalFields_checkLock {onlyOnce : Bool} {s : Nat} {c c' : Ctx V}
    (h : c.checkLock rules s onlyOnce = some c') : c'.globalFields = c.globalFields := by
  rcases checkLock_some h with rfl | ⟨rfl, -⟩ <;> rfl

@[simp] theorem globalFields_freeRuleInstance (r : Nat) (c : Ctx V) :
    (c.freeRuleInstance rules r).globalFields = c.globalFields := by
  obtain ⟨ae, hd, tl, n, l, heq⟩ := freeRuleInstance_eq rules r c
  rw [heq]

@[simp] theorem globalFields_finishRuleInst (r : Nat) (ret : Int) (c : Ctx V) :
    (c.finishRuleInst rules r ret).globalFields = c.globalFields := by
  unfold Ctx.finishRuleInst Ctx.linkRuleInst
  split
  · exact globalFields_freeRuleInstance r c
  · exact globalFields_bumpTail _ _

@[simp] theorem globalFields_reapThread (t : Nat) (p : Option Nat) (c : Ctx V) :
    (c.reapThread rules t p).globalFields = c.globalFields := by
  change (c.dropThread rules t).globalFields = c.globalFields
  rcases dropThread_cases rules t c with ⟨_, heq⟩ | ⟨_, _, heq⟩ | ⟨_, _, heq⟩
  · rw [heq]
    rfl
  · rw [heq]
    rfl
  · rw [heq]
    exact globalFields_freeRuleInstance _ _

theorem simulate_globalFields :
    ∀ (fuel s : Nat) (c : Ctx V) (p : Int × Ctx V),
      simulate rules call fuel s onlyOnce c = some p → p.2.globalFields = c.globalFields
  | 0, _, _, _, h => by cases h
  | fuel + 1, s, c, p, h => by
    unfold simulate at h
    simp only at h
    split at h
    · obtain rfl := Option.some.inj h
      exact globalFields_execAction rules call s c
    · split at h
      · obtain rfl := Option.some.inj h
        exact globalFields_execAction rules call s c
      · rename_i hl
        exact (simulateTrans_globalFields (simulate_globalFields fuel) _ _ _ p h).trans
          ((globalFields_checkLock hl).trans (globalFields_execAction rules call s c))

theorem simulate_congr (hvm : AgreeOn n vals call.vm vm') :
    ∀ (fuel s : Nat) (c : Ctx V), FieldsAre n vals c →
      simulate rules { call with vm := vm' } fuel s onlyOnce c =
        simulate rules call fuel s onlyOnce c
  | 0, _, _, _ => rfl
  | fuel + 1, s, c, hf => by
    have hact : c.execAction rules { call with vm := vm' } s = c.execAction rules call s := by
      unfold Ctx.execAction Ctx.vmExec
      simp only [hvm c hf]
    have hf₁ : FieldsAre n vals (c.execAction rules call s) := hf.of_eq (globalFields_execAction ..)
    unfold simulate
    simp only [hact]
    split
    · rfl
    · split
      · rfl
      · rename_i hl
        exact simulateTrans_congr hvm (simulate_globalFields fuel)
          (fun m c hc => simulate_congr hvm fuel m c hc) _ _ _
          (hf₁.of_eq (globalFields_checkLock hl))

variable {prune : Nat → Ctx V → Bool} {fuel : Nat}

theorem startRule_globalFields {k : Nat} {c c' : Ctx V}
    (h : startRule rules call fuel k c = some c') : c'.globalFields = c.globalFields := by
  obtain ⟨ret, c₁, hs, rfl⟩ := startRule_some h
  exact (globalFields_finishRuleInst _ _ c₁).trans (simulate_globalFields _ _ _ _ hs)

theorem startRules_globalFields {ks : List Nat} {c c' : Ctx V}
    (h : startRules rules call fuel ks c = some c') : c'.globalFields = c.globalFields :=
  startRules_inv (I := fun d => d.globalFields = c.globalFields)
    (fun _ _ _ hd hs => (startRule_globalFields hs).trans hd) rfl h

theorem startRules_congr (hvm : AgreeOn n vals call.vm vm') :
    ∀ (ks : List Nat) (c : Ctx V), FieldsAre n vals c →
      startRules rules { call with vm := vm' } fuel ks c = startRules rules call fuel ks c
  | [], _, _ => rfl
  | k :: ks, c, hf => by
    have hrule : startRule rules { call with vm := vm' } fuel k c =
        startRule rules call fuel k c := by
      have hnew : FieldsAre n vals (c.newRuleInst k) := hf.of_eq rfl
      unfold startRule
      rw [simulate_congr hvm fuel _ _ hnew]
    unfold startRules
    rw [hrule]
    cases hs : startRule rules call fuel k c with
    | none => rfl
    | some c₁ => exact startRules_congr hvm ks c₁ (hf.of_eq (startRule_globalFields hs))

theorem evaluated_globalFields {e t : Nat} {c c' : Ctx V}
    (h : Evaluated rules prune call fuel e t c c') : c'.globalFields = c.globalFields := by
  cases h with
  | fail code _ _ => rfl
  | pass code c₁ c₂ ret _ _ hc₁ hsim =>
    have hpass : c₂.globalFields = c.globalFields :=
      (simulate_globalFields _ _ _ _ hsim).trans (hc₁ ▸ globalFields_passState _ _ _)
    split
    · exact hpass
    · exact hpass

theorem evtStep_globalFields {curTime e t : Nat} {next : Option Nat} {c c' : Ctx V}
    (h : evtStep rules prune call fuel curTime e t next c = some c') :
    c'.globalFields = c.globalFields := by
  rcases evtStep_cases h with ⟨_, rfl⟩ | ⟨_, c₁, he, hcases⟩
  · simp
  · have h₁ : c₁.globalFields = c.globalFields :=
      (evaluated_globalFields he).trans (globalFields_beginVisit curTime t c)
    rcases hcases with ⟨_, rfl⟩ | ⟨_, rfl⟩
    · rw [globalFields_reapThread, globalFields_commitAt]
      exact h₁
    · rw [globalFields_commitAt]
      exact h₁

theorem evtStep_congr (hvm : AgreeOn n vals call.vm vm') {curTime e t : Nat} {next : Option Nat}
    {c : Ctx V} (hf : FieldsAre n vals c) :
    evtStep rules prune { call with vm := vm' } fuel curTime e t next c =
      evtStep rules prune call fuel curTime e t next c := by
  have hf₁ : FieldsAre n vals (c.beginVisit curTime t) := hf.of_eq (globalFields_beginVisit ..)
  have heval : evalThread rules prune { call with vm := vm' } fuel e t (c.beginVisit curTime t) =
      evalThread rules prune call fuel e t (c.beginVisit curTime t) := by
    have hpass : ∀ c : Ctx V, FieldsAre n vals c →
        passThread rules prune { call with vm := vm' } fuel e t c =
          passThread rules prune call fuel e t c := fun c hc => by
      have hnew : FieldsAre n vals (c.passState e t) := hc.of_eq (globalFields_passState e t c)
      unfold passThread
      rw [simulate_congr hvm fuel _ _ hnew]
    have hexec : ∀ s code, FieldsAre n vals ((c.beginVisit curTime t).vmExec call.vm s code) :=
      fun _ _ => hf₁.of_eq rfl
    unfold evalThread
    simp only [hvm _ hf₁, vmExec_congr (hvm _ hf₁)]
    rw [hpass _ (hexec _ _)]
  unfold evtStep
  simp only [heval]

theorem evtLoop_globalFields {curTime e : Nat} :
    ∀ {m : Nat} {p : Option Nat} {c c' : Ctx V} {visits : List (Nat × Ctx V)},
      evtLoop rules prune call fuel curTime e m p c = some (visits, c') →
      c'.globalFields = c.globalFields
  | _, none, c, c', visits, h => by
    unfold evtLoop at h
    obtain ⟨rfl, rfl⟩ := Prod.mk.inj (Option.some.inj h)
    rfl
  | 0, some _, _, _, _, h => by cases h
  | m + 1, some t, c, c', visits, h => by
    unfold evtLoop at h
    simp only at h
    cases hs : evtStep rules prune call fuel curTime e t (c.next t) c with
    | none =>
      rw [hs] at h
      cases h
    | some c₁ =>
      rw [hs] at h
      simp only at h
      cases hl : evtLoop rules prune call fuel curTime e m (c.next t) c₁ with
      | none =>
        rw [hl] at h
        cases h
      | some q =>
        rw [hl] at h
        obtain ⟨rfl, rfl⟩ := Prod.mk.inj (Option.some.inj h)
        exact (evtLoop_globalFields hl).trans (evtStep_globalFields hs)

theorem evtLoop_congr (hvm : AgreeOn n vals call.vm vm') {curTime e : Nat} :
    ∀ (m : Nat) (p : Option Nat) (c : Ctx V), FieldsAre n vals c →
      evtLoop rules prune { call with vm := vm' } fuel curTime e m p c =
        evtLoop rules prune call fuel curTime e m p c
  | _, none, _, _ => by
    unfold evtLoop
    rfl
  | 0, some _, _, _ => rfl
  | m + 1, some t, c, hf => by
    unfold evtLoop
    simp only [evtStep_congr hvm hf]
    cases hs : evtStep rules prune call fuel curTime e t (c.next t) c with
    | none => rfl
    | some c₁ =>
      simp only
      rw [evtLoop_congr hvm m (c.next t) c₁ (hf.of_eq (evtStep_globalFields hs))]

/-- A call evaluates byte code only where the first `n` fields have the values of the event, if
they have them at its beginning. -/
theorem injectEventWith_congr (hvm : AgreeOn n vals call.vm vm') {c : Ctx V}
    (hf : FieldsAre n vals (c.beginEvent call.event)) :
    injectEventWith rules prune { call with vm := vm' } fuel c =
      injectEventWith rules prune call fuel c := by
  unfold injectEventWith createRuleInitialThreads
  simp only [startRules_congr hvm _ _ hf]
  cases hs : startRules rules call fuel (List.range rules.length) (c.beginEvent call.event) with
  | none => rfl
  | some c₁ =>
    simp only [Option.map_some]
    have hf₁ : FieldsAre n vals c₁.mergeQueues :=
      hf.of_eq ((globalFields_mergeQueues c₁).trans (startRules_globalFields hs))
    rw [evtLoop_congr hvm _ _ _ hf₁]

/-- What a call leaves in the table. -/
theorem globalFields_injectEventWith {c c' : Ctx V} {visits : List (Nat × Ctx V)}
    (h : injectEventWith rules prune call fuel c = some (visits, c')) (f : Nat) :
    c'.globalFields f = if f ∈ call.event.map Prod.fst then none else c.globalFields f := by
  obtain ⟨c₁, c₂, hs, hl, rfl⟩ := injectEventWith_some h
  have hend : (c₂.endEvent call.event c.ae.size).globalFields =
      call.event.foldl (fun (fields : Env V) (p : Nat × V) => Function.update fields p.1 none)
        c₂.globalFields := by
    unfold Ctx.endEvent
    simp only
    split
    · rfl
    · split <;> rfl
  have hc₂ : c₂.globalFields = (c.beginEvent call.event).globalFields :=
    (evtLoop_globalFields hl).trans ((globalFields_mergeQueues c₁).trans (startRules_globalFields hs))
  rw [hend, foldl_reset, hc₂]
  split
  · rfl
  · rename_i hf
    rw [← fieldValue_isSome, Bool.not_eq_true, Option.isSome_eq_false_iff,
      Option.isNone_iff_eq_none] at hf
    refine (foldl_set call.event c.globalFields f).trans ?_
    rw [hf]

/-! ## Calls one after the other -/

variable (rules prune fuel)

/-- In each call byte code is only evaluated where the first `n` fields have the values of its
event, and behind each call these fields have no value. -/
def FieldsExact (n : Nat) : List (Call V) → Ctx V → Prop
  | [], _ => True
  | call :: calls, c =>
    (∀ vm', AgreeOn n (fieldValue call.event) call.vm vm' →
      injectEventWith rules prune { call with vm := vm' } fuel c =
        injectEventWith rules prune call fuel c) ∧
    ∀ visits c', injectEventWith rules prune call fuel c = some (visits, c') →
      FieldsAre n (fun _ => none) c' ∧ FieldsExact n calls c'

variable {rules prune fuel}

/-- A call from a table whose values are all overwritten by its event. -/
theorem fieldsExact_cons {calls : List (Call V)} {c : Ctx V}
    (h : ∀ f < n, c.globalFields f = none ∨ f ∈ call.event.map Prod.fst)
    (hrest : ∀ c', FieldsAre n (fun _ => none) c' → FieldsExact rules prune fuel n calls c') :
    FieldsExact rules prune fuel n (call :: calls) c := by
  refine ⟨fun vm' hvm => injectEventWith_congr hvm (fieldsAre_beginEvent h), fun visits c' hc => ?_⟩
  have hnone : FieldsAre n (fun _ => none) c' := by
    intro f hf
    rw [globalFields_injectEventWith hc f]
    split
    · rfl
    · rename_i hnot
      exact (h f hf).resolve_right hnot
  exact ⟨hnone, hrest c' hnone⟩

theorem fieldsExact_of_none :
    ∀ (calls : List (Call V)) {c : Ctx V}, FieldsAre n (fun _ => none) c →
      FieldsExact rules prune fuel n calls c
  | [], _, _ => trivial
  | _ :: calls, _, h =>
    fieldsExact_cons (fun f hf => .inl (h f hf)) fun _ hc' => fieldsExact_of_none calls hc'

/-- The fields are exact in every call behind the registration if and only if each entry of the
table was left with `NULL`, or is of a field of the first event. -/
theorem fieldsExact_iff (mods : List (List Field × (Nat → Option V))) (call : Call V)
    (calls : List (Call V)) {visits : List (Nat × Ctx V)} {c' : Ctx V}
    (h : injectEventWith rules prune call fuel (Ctx.registered (registerAll mods)) =
      some (visits, c')) :
    FieldsExact rules prune fuel (registerAll mods).length (call :: calls)
        (Ctx.registered (registerAll mods)) ↔
      ∀ f < (registerAll mods).length,
        fieldVals (registerAll mods) f = none ∨ f ∈ call.event.map Prod.fst := by
  constructor
  · intro hexact f hf
    have hnone := (hexact.2 visits c' h).1 f hf
    rw [globalFields_injectEventWith h f] at hnone
    split at hnone
    · rename_i hmem
      exact .inr hmem
    · exact .inl hnone
  · intro hnone
    exact fieldsExact_cons hnone fun c'' hc'' => fieldsExact_of_none calls hc''

end

/-- A rule that waits for the field 1. -/
def fieldRule : RuleSet :=
  [{ states := [
      { action := none, trans := [⟨1, some [0], 1⟩], havePushfield := false },
      { action := none, trans := [], havePushfield := false }]
     syncVars := [], syncLock := false }]

/-- An event with the field 0, at which the condition is that the field 1 has a value. -/
def reading : Call Val where
  event := [(0, .int 1)]
  vm c _ _ :=
    { ret := if (c.globalFields 1).isSome then 0 else 1, env := fun _ => none
      kills := fun _ => false }
  clock _ := 0

/-- The fields of one module, in memory that holds `val` everywhere. -/
def twoFields (val : Option Val) : List (FieldRecord Val) :=
  registerAll [([⟨".test.a", 1, "first"⟩, ⟨".test.b", 1, "second"⟩], fun _ => val)]

theorem fieldsExact_iff_twoFields :
    FieldsExact fieldRule (backtrackIsNotNeeded fieldRule) 3 2 [reading, reading]
      (Ctx.registered (twoFields none)) := by
  have hrun : (injectEventWith fieldRule (backtrackIsNotNeeded fieldRule) reading 3
      (Ctx.registered (twoFields none))).isSome = true := by
    decide +kernel
  obtain ⟨⟨visits, c'⟩, h⟩ := Option.isSome_iff_exists.mp hrun
  exact (fieldsExact_iff _ reading [reading] h).mpr (by decide)

/-- In memory that held something else, the field 1 keeps its value behind the first event. -/
theorem not_fieldsExact :
    ¬ FieldsExact fieldRule (backtrackIsNotNeeded fieldRule) 3 2 [reading, reading]
      (Ctx.registered (twoFields (some (.int 7)))) := by
  have hrun : (injectEventWith fieldRule (backtrackIsNotNeeded fieldRule) reading 3
      (Ctx.registered (twoFields (some (.int 7))))).isSome = true := by
    decide +kernel
  obtain ⟨⟨visits, c'⟩, h⟩ := Option.isSome_iff_exists.mp hrun
  intro hexact
  have hnone := (hexact.2 visits c' h).1 1 (by decide)
  rw [globalFields_injectEventWith h 1] at hnone
  cases hnone

end Orchids
