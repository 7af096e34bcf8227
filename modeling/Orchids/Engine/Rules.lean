import Orchids.Engine.Inject

/-!
# Rules for the simulation

How a property of the engine's state is carried through
`simulate_state_and_create_threads`: once for every recursion and every loop in it.

* `Grows`: records are only added, and each keeps what it was created with.
* `Of c r s`: the state instance `s` belongs to the rule instance `r`.
* `SimRules`: what each primitive step of the simulation has to keep; `simulate_rules`: then the
  simulation keeps it.
-/

namespace Orchids

variable {V : Type}

/-! ## Growth -/

/-- The part of a thread that does not change. -/
def WaitThread.fixed (t : WaitThread) : Trans × Nat × Bool × Nat :=
  (t.trans, t.stateInstance, t.onlyOnce, t.timeout)

/-- The part of a state instance that does not change. -/
def StateInst.fixed (s : StateInst V) : Nat × Nat := (s.state, s.ruleInstance)

/-- Records are only added, and each keeps what it was created with. -/
structure Grows (c c' : Ctx V) : Prop where
  thr : c.thr.Grows WaitThread.fixed c'.thr
  si : c.si.Grows StateInst.fixed c'.si
  ri : c.ri.Grows RuleInst.rule c'.ri

namespace Grows

variable {c c' c'' : Ctx V}

theorem refl (c : Ctx V) : Grows c c := ⟨.refl _, .refl _, .refl _⟩

theorem trans (h : Grows c c') (h' : Grows c' c'') : Grows c c'' :=
  ⟨h.thr.trans h'.thr, h.si.trans h'.si, h.ri.trans h'.ri⟩

theorem state (h : Grows c c') {s : Nat} (hs : s < c.si.size) :
    (c'.si.cell s).state = (c.si.cell s).state :=
  (Prod.mk.inj (h.si.cell s hs)).1

theorem ruleInstance (h : Grows c c') {s : Nat} (hs : s < c.si.size) :
    (c'.si.cell s).ruleInstance = (c.si.cell s).ruleInstance :=
  (Prod.mk.inj (h.si.cell s hs)).2

theorem stateInstance (h : Grows c c') {t : Nat} (ht : t < c.thr.size) :
    (c'.thr.cell t).stateInstance = (c.thr.cell t).stateInstance :=
  (Prod.mk.inj (Prod.mk.inj (h.thr.cell t ht)).2).1

theorem onlyOnce (h : Grows c c') {t : Nat} (ht : t < c.thr.size) :
    (c'.thr.cell t).onlyOnce = (c.thr.cell t).onlyOnce :=
  (Prod.mk.inj (Prod.mk.inj (Prod.mk.inj (h.thr.cell t ht)).2).2).1

theorem timeout (h : Grows c c') {t : Nat} (ht : t < c.thr.size) :
    (c'.thr.cell t).timeout = (c.thr.cell t).timeout :=
  (Prod.mk.inj (Prod.mk.inj (Prod.mk.inj (h.thr.cell t ht)).2).2).2

end Grows

theorem grows_vmExec (vm : Vm V) (s : Nat) (code : List Nat) (c : Ctx V) :
    Grows c (c.vmExec vm s code) := by
  unfold Ctx.vmExec
  exact ⟨.map _ _ fun _ _ => rfl, .modify _ _ _ rfl, .refl _⟩

theorem grows_markDeadRule (r : Nat) (c : Ctx V) : Grows c (c.markDeadRule r) := by
  unfold Ctx.markDeadRule
  exact ⟨.map _ _ fun _ _ => rfl, .refl _, .modify _ _ _ rfl⟩

theorem grows_newState (dest s : Nat) (c : Ctx V) : Grows c (c.newState dest s) := by
  unfold Ctx.newState
  exact ⟨.refl _, .alloc _ _, .modify _ _ _ rfl⟩

theorem grows_pushNew (a : Nat) (c : Ctx V) : Grows c (c.pushNew a) := by
  unfold Ctx.pushNew
  cases c.newQt with
  | none => exact ⟨.refl _, .refl _, .refl _⟩
  | some q => exact ⟨.modify _ _ _ rfl, .refl _, .refl _⟩

theorem grows_newThread (clock : Ctx V → Nat) (s : Nat) (onlyOnce : Bool) (tr : Trans)
    (c : Ctx V) : Grows c (c.newThread clock s onlyOnce tr) := by
  unfold Ctx.newThread
  refine Grows.trans ⟨.alloc _ _, ?_, .modify _ _ _ rfl⟩ (grows_pushNew _ _)
  cases onlyOnce
  · exact .modify _ _ _ rfl
  · exact .refl _

/-- What the new thread is created with. -/
theorem fixed_newThread (clock : Ctx V → Nat) (s : Nat) (onlyOnce : Bool) (tr : Trans) (c : Ctx V) :
    ((c.newThread clock s onlyOnce tr).thr.cell c.thr.size).fixed =
      (tr, s, onlyOnce, clock c + Ctx.defaultTimeout) := by
  unfold Ctx.newThread
  refine ((grows_pushNew _ _).thr.cell c.thr.size ?_).trans ?_
  · exact lt_of_lt_of_eq (Nat.lt_succ_self _) (c.thr.size_alloc _).symm
  · exact congrArg _ (c.thr.cell_alloc_self _)

section

variable [SyncValue V] (rules : RuleSet)

theorem grows_addLock (s : Nat) (c : Ctx V) : Grows c (c.addLock rules s) := by
  unfold Ctx.addLock
  exact ⟨.refl _, .refl _, .modify _ _ _ rfl⟩

end

theorem grows_execAction (rules : RuleSet) (call : Call V) (s : Nat) (c : Ctx V) :
    Grows c (c.execAction rules call s) := by
  unfold Ctx.execAction
  cases (c.stateOf rules s).action with
  | none => exact .refl _
  | some code => exact grows_vmExec _ _ _ _

theorem grows_execCond (call : Call V) (s : Nat) (tr : Trans) (c : Ctx V) :
    Grows c (c.execCond call s tr) := by
  unfold Ctx.execCond
  cases tr.evalCode with
  | none => exact .refl _
  | some code => exact grows_vmExec _ _ _ _

/-! ## Numbers of records -/

@[simp] theorem si_size_vmExec (vm : Vm V) (s : Nat) (code : List Nat) (c : Ctx V) :
    (c.vmExec vm s code).si.size = c.si.size := by
  simp [Ctx.vmExec]

@[simp] theorem thr_size_vmExec (vm : Vm V) (s : Nat) (code : List Nat) (c : Ctx V) :
    (c.vmExec vm s code).thr.size = c.thr.size := by
  simp [Ctx.vmExec]

@[simp] theorem thr_size_newState (dest s : Nat) (c : Ctx V) :
    (c.newState dest s).thr.size = c.thr.size := rfl

@[simp] theorem thr_size_pushNew (a : Nat) (c : Ctx V) :
    (c.pushNew a).thr.size = c.thr.size := by
  unfold Ctx.pushNew
  cases c.newQt <;> simp

@[simp] theorem thr_size_newThread (clock : Ctx V → Nat) (s : Nat) (onlyOnce : Bool) (tr : Trans)
    (c : Ctx V) : (c.newThread clock s onlyOnce tr).thr.size = c.thr.size + 1 := by
  simp [Ctx.newThread]

@[simp] theorem thr_size_execAction (rules : RuleSet) (call : Call V) (s : Nat) (c : Ctx V) :
    (c.execAction rules call s).thr.size = c.thr.size := by
  unfold Ctx.execAction
  cases (c.stateOf rules s).action <;> simp

@[simp] theorem thr_size_execCond (call : Call V) (s : Nat) (tr : Trans) (c : Ctx V) :
    (c.execCond call s tr).thr.size = c.thr.size := by
  unfold Ctx.execCond
  cases tr.evalCode <;> simp

@[simp] theorem si_size_newThread (clock : Ctx V → Nat) (s : Nat) (onlyOnce : Bool) (tr : Trans)
    (c : Ctx V) : (c.newThread clock s onlyOnce tr).si.size = c.si.size := by
  unfold Ctx.newThread Ctx.pushNew
  cases c.newQt <;> cases onlyOnce <;> simp

@[simp] theorem si_size_execAction (rules : RuleSet) (call : Call V) (s : Nat) (c : Ctx V) :
    (c.execAction rules call s).si.size = c.si.size := by
  unfold Ctx.execAction
  cases (c.stateOf rules s).action <;> simp

@[simp] theorem si_size_execCond (call : Call V) (s : Nat) (tr : Trans) (c : Ctx V) :
    (c.execCond call s tr).si.size = c.si.size := by
  unfold Ctx.execCond
  cases tr.evalCode <;> simp

/-! ## State instances of a rule instance -/

/-- The state instance `s` belongs to the rule instance `r`. -/
structure Of (c : Ctx V) (r s : Nat) : Prop where
  lt : s < c.si.size
  ruleInstance : (c.si.cell s).ruleInstance = r
  rule_lt : r < c.ri.size

theorem Of.grows {c c' : Ctx V} {r s : Nat} (h : Of c r s) (hg : Grows c c') : Of c' r s :=
  ⟨lt_of_lt_of_le h.lt hg.si.size_le, (hg.ruleInstance h.lt).trans h.ruleInstance,
    lt_of_lt_of_le h.rule_lt hg.ri.size_le⟩

theorem Of.newState {c : Ctx V} {r s : Nat} (h : Of c r s) (dest : Nat) :
    Of (c.newState dest s) r c.si.size := by
  refine ⟨?_, ?_, ?_⟩
  · simp [Ctx.newState]
  · simpa [Ctx.newState] using h.ruleInstance
  · simpa [Ctx.newState] using h.rule_lt

theorem Of.newRuleInst (k : Nat) (c : Ctx V) : Of (c.newRuleInst k) c.ri.size c.si.size := by
  refine ⟨?_, ?_, ?_⟩
  · simp [Ctx.newRuleInst]
  · simp [Ctx.newRuleInst]
  · simp [Ctx.newRuleInst]

theorem ruleOf_grows {c c' : Ctx V} {r : Nat} (rules : RuleSet) (hr : r < c.ri.size)
    (hg : Grows c c') : c'.ruleOf rules r = c.ruleOf rules r := by
  unfold Ctx.ruleOf
  rw [hg.ri.cell r hr]

theorem stateOf_grows {c c' : Ctx V} {r s : Nat} (rules : RuleSet) (h : Of c r s)
    (hg : Grows c c') : c'.stateOf rules s = c.stateOf rules s := by
  unfold Ctx.stateOf
  rw [hg.state h.lt, hg.ruleInstance h.lt, h.ruleInstance, ruleOf_grows rules h.rule_lt hg]

/-! ## The rule of the simulation -/

section

variable [SyncValue V] (rules : RuleSet) (call : Call V)

/-- What the steps of a simulation for the rule instance `r` keep: `P s` while the state instance
`s` is new, `I` from its lock test on, and `J` where the simulation ends with a negative code. -/
structure SimRules (r : Nat) (onlyOnce : Bool) (P : Nat → Ctx V → Prop) (I J : Ctx V → Prop) :
    Prop where
  action : ∀ c s code, Of c r s → P s c → (c.stateOf rules s).action = some code →
    P s (c.vmExec call.vm s code)
  dead : ∀ c s, Of c r s → P s c → (c.stateOf rules s).trans = [] → J (c.markDeadRule r)
  pruned : ∀ c s, Of c r s → P s c → (c.stateOf rules s).trans ≠ [] →
    c.checkLock rules s onlyOnce = none → J c
  enter : ∀ c s, Of c r s → P s c → (c.stateOf rules s).trans ≠ [] → I c
  lock : ∀ c s, Of c r s → P s c → (c.stateOf rules s).trans ≠ [] → onlyOnce = false →
    (c.ruleOf rules r).syncLock = true → c.syncVarEnvIsDefined rules s = true →
    c.objhashGet rules (c.ri.cell r).rule s = none → I (c.addLock rules s)
  cond : ∀ c s code tr, Of c r s → I c → tr ∈ (c.stateOf rules s).trans →
    tr.evalCode = some code → I (c.vmExec call.vm s code)
  state : ∀ c s tr, Of c r s → I c → tr ∈ (c.stateOf rules s).trans → tr.requiredFieldsNb = 0 →
    P c.si.size (c.newState tr.dest s)
  thread : ∀ c s tr, Of c r s → I c → tr ∈ (c.stateOf rules s).trans → tr.requiredFieldsNb ≠ 0 →
    I (c.newThread call.clock s onlyOnce tr)

/-- An invariant of every step. -/
theorem SimRules.of_inv {rules : RuleSet} {call : Call V} {r : Nat} {onlyOnce : Bool}
    {I : Ctx V → Prop}
    (vm : ∀ c s code, Of c r s → I c → I (c.vmExec call.vm s code))
    (dead : ∀ c, I c → I (c.markDeadRule r))
    (lock : ∀ c s, Of c r s → I c → I (c.addLock rules s))
    (state : ∀ c s dest, Of c r s → I c → I (c.newState dest s))
    (thread : ∀ c s tr, Of c r s → I c → I (c.newThread call.clock s onlyOnce tr)) :
    SimRules rules call r onlyOnce (fun _ => I) I I where
  action c s code ho h _ := vm c s code ho h
  dead c _ _ h _ := dead c h
  pruned _ _ _ h _ _ := h
  enter _ _ _ h _ := h
  lock c s ho h _ _ _ _ _ := lock c s ho h
  cond c s code _ ho h _ _ := vm c s code ho h
  state c s tr ho h _ _ := state c s tr.dest ho h
  thread c s tr ho h _ _ := thread c s tr ho h

/-- The end of a simulation: with the count `ret` of the threads that were added to `n`, or with a
negative code. -/
def SimPost (I J : Ctx V → Prop) (n ret : Int) (c : Ctx V) : Prop :=
  (0 ≤ ret ∧ I c ∧ (c.thr.size : Int) = n + ret) ∨ (ret < 0 ∧ J c)

variable {rules call} {r : Nat} {onlyOnce : Bool} {P : Nat → Ctx V → Prop} {I J : Ctx V → Prop}

theorem grows_checkLock {s : Nat} {c c' : Ctx V} (h : c.checkLock rules s onlyOnce = some c') :
    Grows c c' := by
  unfold Ctx.checkLock at h
  simp only at h
  split at h
  · split at h
    · split at h
      · cases h
      · cases h
        exact .refl _
    · split at h
      · cases h
        exact .refl _
      · cases h
        exact grows_addLock rules s c
  · cases h
    exact .refl _

/-- The lock test lets the simulation go on with the state as it was, or with a new lock. -/
theorem checkLock_some {s : Nat} {c c' : Ctx V} (h : c.checkLock rules s onlyOnce = some c') :
    c' = c ∨ (c' = c.addLock rules s ∧ onlyOnce = false ∧
      (c.ruleOf rules (c.si.cell s).ruleInstance).syncLock = true ∧
      c.syncVarEnvIsDefined rules s = true ∧
      c.objhashGet rules (c.ri.cell (c.si.cell s).ruleInstance).rule s = none) := by
  unfold Ctx.checkLock at h
  simp only at h
  split at h
  · rename_i hd
    rw [Bool.and_eq_true] at hd
    split at h
    · split at h
      · cases h
      · cases h
        exact .inl rfl
    · rename_i hg
      split at h
      · cases h
        exact .inl rfl
      · rename_i ho
        cases h
        exact .inr ⟨rfl, by simpa using ho, hd.1, hd.2, hg⟩
  · cases h
    exact .inl rfl

theorem thr_size_checkLock {s : Nat} {c c' : Ctx V} (h : c.checkLock rules s onlyOnce = some c') :
    c'.thr.size = c.thr.size := by
  rcases checkLock_some h with rfl | ⟨rfl, -⟩ <;> rfl

theorem si_size_checkLock {s : Nat} {c c' : Ctx V} (h : c.checkLock rules s onlyOnce = some c') :
    c'.si.size = c.si.size := by
  rcases checkLock_some h with rfl | ⟨rfl, -⟩ <;> rfl

/-- The loop over the transitions: a step lemma for the simulation. -/
theorem simulateTrans_rules (h : SimRules rules call r onlyOnce P I J) {s : Nat}
    {sim : Nat → Ctx V → Option (Int × Ctx V)}
    (hsim : ∀ n c ret c', Of c r n → P n c → sim n c = some (ret, c') →
      Grows c c' ∧ SimPost I J c.thr.size ret c') :
    ∀ (trs : List Trans) (created ret : Int) (c c' : Ctx V), 0 ≤ created → Of c r s → I c →
      (∀ tr ∈ trs, tr ∈ (c.stateOf rules s).trans) →
      simulateTrans call sim s onlyOnce trs created c = some (ret, c') →
      Grows c c' ∧ SimPost I J (c.thr.size - created) ret c'
  | [], created, ret, c, c', h0, _, hi, _, heq => by
    obtain ⟨rfl, rfl⟩ := Prod.mk.inj (Option.some.inj heq)
    exact ⟨.refl _, .inl ⟨h0, hi, by omega⟩⟩
  | tr :: trs, created, ret, c, c', h0, ho, hi, hmem, heq => by
    have hin := hmem tr List.mem_cons_self
    unfold simulateTrans at heq
    by_cases hreq : tr.requiredFieldsNb = 0
    · rw [if_pos hreq] at heq
      have hg₁ := grows_execCond call s tr c
      have hi₁ : I (c.execCond call s tr) := by
        unfold Ctx.execCond
        cases hcode : tr.evalCode with
        | none => exact hi
        | some code => exact h.cond c s code tr ho hi hin hcode
      have ho₁ := ho.grows hg₁
      have hst₁ := stateOf_grows rules ho hg₁
      have hsz₁ := thr_size_execCond call s tr c
      by_cases hret : c.condRet call s tr = 0
      · rw [if_pos hret] at heq
        simp only at heq
        generalize c.execCond call s tr = c₁ at heq hg₁ hi₁ ho₁ hst₁ hsz₁
        have ho₂ := ho₁.newState tr.dest
        have hp := h.state c₁ s tr ho₁ hi₁ (hst₁ ▸ hin) hreq
        cases hs : sim c₁.si.size (c₁.newState tr.dest s) with
        | none =>
          rw [hs] at heq
          cases heq
        | some p =>
          obtain ⟨simulRet, c₂⟩ := p
          rw [hs] at heq
          simp only at heq
          obtain ⟨hg₂, hpost⟩ := hsim _ _ _ _ ho₂ hp hs
          have hg := (hg₁.trans (grows_newState tr.dest s c₁)).trans hg₂
          rcases hpost with ⟨hnn, hi₂, hsz₂⟩ | ⟨hneg, hj⟩
          · rw [if_neg (Int.not_lt.mpr hnn)] at heq
            rw [thr_size_newState, hsz₁] at hsz₂
            have hst₂ := stateOf_grows rules ho hg
            obtain ⟨hg', hpost'⟩ := simulateTrans_rules h hsim trs _ _ c₂ c' (by omega)
              (ho.grows hg) hi₂ (fun tr' htr' => hst₂ ▸ hmem tr' (List.mem_cons_of_mem _ htr')) heq
            rw [hsz₂, show (c.thr.size : Int) + simulRet - (created + simulRet) =
              c.thr.size - created by omega] at hpost'
            exact ⟨hg.trans hg', hpost'⟩
          · rw [if_pos hneg] at heq
            obtain ⟨rfl, rfl⟩ := Prod.mk.inj (Option.some.inj heq)
            exact ⟨hg, .inr ⟨by omega, hj⟩⟩
      · rw [if_neg hret] at heq
        obtain ⟨hg', hpost'⟩ := simulateTrans_rules h hsim trs _ _ _ c' h0 ho₁ hi₁
          (fun tr' htr' => hst₁ ▸ hmem tr' (List.mem_cons_of_mem _ htr')) heq
        rw [hsz₁] at hpost'
        exact ⟨hg₁.trans hg', hpost'⟩
    · rw [if_neg hreq] at heq
      have hg₁ := grows_newThread call.clock s onlyOnce tr c
      have hst₁ := stateOf_grows rules ho hg₁
      obtain ⟨hg', hpost'⟩ := simulateTrans_rules h hsim trs _ _ _ c' (by omega) (ho.grows hg₁)
        (h.thread c s tr ho hi hin hreq)
        (fun tr' htr' => hst₁ ▸ hmem tr' (List.mem_cons_of_mem _ htr')) heq
      rw [thr_size_newThread, show ((c.thr.size + 1 : Nat) : Int) - (created + 1) =
        c.thr.size - created by omega] at hpost'
      exact ⟨hg₁.trans hg', hpost'⟩

/-- What every step of the simulation keeps, the simulation keeps. -/
theorem simulate_rules (h : SimRules rules call r onlyOnce P I J) :
    ∀ (fuel s : Nat) (c : Ctx V) (ret : Int) (c' : Ctx V), Of c r s → P s c →
      simulate rules call fuel s onlyOnce c = some (ret, c') →
      Grows c c' ∧ SimPost I J c.thr.size ret c'
  | 0, _, _, _, _, _, _, heq => by cases heq
  | fuel + 1, s, c, ret, c', ho, hp, heq => by
    unfold simulate at heq
    simp only at heq
    have hg₁ : Grows c (c.execAction rules call s) := grows_execAction rules call s c
    have hst₁ := stateOf_grows rules ho hg₁
    have hsz₁ := thr_size_execAction rules call s c
    have hp₁ : P s (c.execAction rules call s) := by
      unfold Ctx.execAction
      cases hact : (c.stateOf rules s).action with
      | none => exact hp
      | some code => exact h.action c s code ho hp hact
    generalize c.execAction rules call s = c₁ at heq hg₁ hst₁ hsz₁ hp₁
    have ho₁ := ho.grows hg₁
    by_cases hterm : (c₁.stateOf rules s).trans = []
    · rw [if_pos hterm] at heq
      obtain ⟨rfl, rfl⟩ := Prod.mk.inj (Option.some.inj heq)
      rw [ho₁.ruleInstance]
      exact ⟨hg₁.trans (grows_markDeadRule r c₁), .inr ⟨by decide, h.dead c₁ s ho₁ hp₁ hterm⟩⟩
    · rw [if_neg hterm] at heq
      cases hl : c₁.checkLock rules s onlyOnce with
      | none =>
        rw [hl] at heq
        obtain ⟨rfl, rfl⟩ := Prod.mk.inj (Option.some.inj heq)
        exact ⟨hg₁, .inr ⟨by decide, h.pruned c₁ s ho₁ hp₁ hterm hl⟩⟩
      | some c₂ =>
        rw [hl] at heq
        simp only at heq
        have hg₂ := grows_checkLock hl
        have hi₂ : I c₂ := by
          rcases checkLock_some hl with rfl | ⟨rfl, hoo, hsync, hdef, hget⟩
          · exact h.enter c₂ s ho₁ hp₁ hterm
          · rw [ho₁.ruleInstance] at hsync hget
            exact h.lock c₁ s ho₁ hp₁ hterm hoo hsync hdef hget
        obtain ⟨hg', hpost⟩ := simulateTrans_rules h
          (fun n c ret c' hof hpn hn => simulate_rules h fuel n c ret c' hof hpn hn) _ 0 ret c₂ c'
          (Int.le_refl 0) (ho₁.grows hg₂) hi₂ (fun _ => id) heq
        rw [thr_size_checkLock hl, hsz₁, Int.sub_zero] at hpost
        exact ⟨(hg₁.trans hg₂).trans hg', hpost⟩

/-- What every step of the simulation keeps is there at its end. -/
theorem simulate_inv (h : SimRules rules call r onlyOnce (fun _ => I) I I) {fuel s : Nat}
    {c c' : Ctx V} {ret : Int} (ho : Of c r s) (hi : I c)
    (heq : simulate rules call fuel s onlyOnce c = some (ret, c')) : Grows c c' ∧ I c' := by
  obtain ⟨hg, ⟨_, hi', _⟩ | ⟨_, hi'⟩⟩ := simulate_rules h fuel s c ret c' ho hi heq
  · exact ⟨hg, hi'⟩
  · exact ⟨hg, hi'⟩

end

end Orchids
