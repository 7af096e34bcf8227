import Mathlib.Tactic.IntervalCases
import Orchids.Compiler.RuleCompiler
import Orchids.Engine.Rules
import Orchids.Engine.SyncVal

/-!
# When a simulation ends

The recursion of `simulate_state_and_create_threads` follows the transitions without fields.
Neither the compiler nor the engine looks for cycles of them.

* `Rule.Enters`: the states that the recursion can enter from a state. A transition without
  condition is always taken, so that what is behind it is only reached if its branch returns.
* `simulate_terminates`: if no infinite sequence of entries begins at the state, there is a depth
  that suffices, for any behaviour of the conditions.
* `not_simulate_terminates`: a rule that the compiler accepts, without such a depth.
-/

namespace Orchids

variable {V : Type}

/-! ## Entries -/

/-- The simulation of the state `i` may return without a negative code: it has transitions, and so
may every state that an unconditional transition leads to. -/
inductive Rule.Returns (r : Rule) : Nat → Prop
  | intro (i : Nat) : (r.state i).trans ≠ [] →
      (∀ tr ∈ (r.state i).trans, tr.requiredFieldsNb = 0 → tr.evalCode = none →
        r.Returns tr.dest) → r.Returns i

/-- The simulation of the state `i` may enter the state `d`: through a transition without fields,
behind which it comes when the unconditional ones in front of it have returned. -/
def Rule.Enters (r : Rule) (i d : Nat) : Prop :=
  ∃ pre tr post, (r.state i).trans = pre ++ tr :: post ∧ tr.requiredFieldsNb = 0 ∧ tr.dest = d ∧
    ∀ tr' ∈ pre, tr'.requiredFieldsNb = 0 → tr'.evalCode = none → r.Returns tr'.dest

/-- No infinite sequence of entries begins at the state `i`. -/
def Rule.NoEpsilonCycle (r : Rule) (i : Nat) : Prop := Acc (fun d i => r.Enters i d) i

theorem Ctx.state_newState (dest s : Nat) (c : Ctx V) :
    ((c.newState dest s).si.cell c.si.size).state = dest := by
  simp [Ctx.newState]

theorem Ctx.ruleOf_newRuleInst (rules : RuleSet) (k : Nat) (c : Ctx V) :
    (c.newRuleInst k).ruleOf rules c.ri.size = rules.rule k := by
  simp [Ctx.newRuleInst, Ctx.ruleOf]

section

variable {rules : RuleSet} {call : Call V} {r : Nat} {onlyOnce : Bool}

/-! ## More depth -/

theorem simulateTrans_mono {s : Nat} {sim sim' : Nat → Ctx V → Option (Int × Ctx V)}
    (hsim : ∀ n c p, sim n c = some p → sim' n c = some p) :
    ∀ (trs : List Trans) (created : Int) (c : Ctx V) (p : Int × Ctx V),
      simulateTrans call sim s onlyOnce trs created c = some p →
      simulateTrans call sim' s onlyOnce trs created c = some p
  | [], _, _, _, h => h
  | tr :: trs, created, c, p, h => by
    unfold simulateTrans at h ⊢
    by_cases hreq : tr.requiredFieldsNb = 0
    · rw [if_pos hreq] at h ⊢
      by_cases hret : c.condRet call s tr = 0
      · rw [if_pos hret] at h ⊢
        simp only at h ⊢
        cases hs : sim (c.execCond call s tr).si.size ((c.execCond call s tr).newState tr.dest s)
        with
        | none =>
          rw [hs] at h
          cases h
        | some q =>
          rw [hs] at h
          rw [hsim _ _ _ hs]
          simp only at h ⊢
          by_cases hneg : q.1 < 0
          · rw [if_pos hneg] at h ⊢
            exact h
          · rw [if_neg hneg] at h ⊢
            exact simulateTrans_mono hsim trs _ _ p h
      · rw [if_neg hret] at h ⊢
        exact simulateTrans_mono hsim trs _ _ p h
    · rw [if_neg hreq] at h ⊢
      exact simulateTrans_mono hsim trs _ _ p h

/-! ## Simulations that return -/

/-- Behind the unconditional transitions that the loop has passed are states that return. -/
theorem simulateTrans_returns {s : Nat} {sim : Nat → Ctx V → Option (Int × Ctx V)} {R : Rule}
    (hsim : ∀ n c ret c', Of c r n → c.ruleOf rules r = R → sim n c = some (ret, c') →
      Grows c c' ∧ (0 ≤ ret → R.Returns (c.si.cell n).state)) :
    ∀ (trs : List Trans) (created ret : Int) (c c' : Ctx V), 0 ≤ created → Of c r s →
      c.ruleOf rules r = R →
      simulateTrans call sim s onlyOnce trs created c = some (ret, c') → 0 ≤ ret →
      ∀ tr ∈ trs, tr.requiredFieldsNb = 0 → tr.evalCode = none → R.Returns tr.dest
  | [], _, _, _, _, _, _, _, _, _, tr, htr, _, _ => (List.not_mem_nil htr).elim
  | tr :: trs, created, ret, c, c', h0, ho, hR, heq, hret, tr', htr', hreq', hcode' => by
    unfold simulateTrans at heq
    by_cases hreq : tr.requiredFieldsNb = 0
    · rw [if_pos hreq] at heq
      have hg₁ := grows_execCond call s tr c
      have ho₁ := ho.grows hg₁
      by_cases hcond : c.condRet call s tr = 0
      · rw [if_pos hcond] at heq
        simp only at heq
        cases hs : sim (c.execCond call s tr).si.size ((c.execCond call s tr).newState tr.dest s)
        with
        | none =>
          rw [hs] at heq
          cases heq
        | some q =>
          rw [hs] at heq
          simp only at heq
          have hg₂ := hg₁.trans (grows_newState tr.dest s _)
          obtain ⟨hg₃, hsub⟩ := hsim _ _ _ _ (ho₁.newState tr.dest)
            ((ruleOf_grows rules ho.rule_lt hg₂).trans hR) hs
          rw [Ctx.state_newState] at hsub
          have hg := hg₂.trans hg₃
          by_cases hneg : q.1 < 0
          · rw [if_pos hneg] at heq
            obtain ⟨rfl, rfl⟩ := Prod.mk.inj (Option.some.inj heq)
            omega
          · rw [if_neg hneg] at heq
            rcases List.mem_cons.mp htr' with rfl | htr'
            · exact hsub (by omega)
            · exact simulateTrans_returns hsim trs _ ret q.2 c' (by omega) (ho.grows hg)
                ((ruleOf_grows rules ho.rule_lt hg).trans hR) heq hret tr' htr' hreq' hcode'
      · rw [if_neg hcond] at heq
        rcases List.mem_cons.mp htr' with rfl | htr'
        · exact absurd (by simp [Ctx.condRet, hcode']) hcond
        · exact simulateTrans_returns hsim trs _ ret _ c' h0 ho₁
            ((ruleOf_grows rules ho.rule_lt hg₁).trans hR) heq hret tr' htr' hreq' hcode'
    · rw [if_neg hreq] at heq
      have hg₁ := grows_newThread call.clock s onlyOnce tr c
      rcases List.mem_cons.mp htr' with rfl | htr'
      · exact absurd hreq' hreq
      · exact simulateTrans_returns hsim trs _ ret _ c' (by omega) (ho.grows hg₁)
          ((ruleOf_grows rules ho.rule_lt hg₁).trans hR) heq hret tr' htr' hreq' hcode'

variable [SyncValue V]

theorem grows_simulate {fuel s : Nat} {c c' : Ctx V} {ret : Int} (ho : Of c r s)
    (h : simulate rules call fuel s onlyOnce c = some (ret, c')) : Grows c c' := by
  have hany : SimRules rules call r onlyOnce (fun _ _ => True) (fun _ => True) (fun _ => True) :=
    .of_inv (fun _ _ _ _ _ => trivial) (fun _ _ => trivial) (fun _ _ _ _ => trivial)
      (fun _ _ _ _ _ => trivial) (fun _ _ _ _ _ => trivial)
  exact (simulate_inv hany ho trivial h).1

/-- A simulation that ended does the same with more depth. -/
theorem simulate_mono {s : Nat} {c : Ctx V} {p : Int × Ctx V} :
    ∀ {fuel fuel' : Nat}, fuel ≤ fuel' → simulate rules call fuel s onlyOnce c = some p →
      simulate rules call fuel' s onlyOnce c = some p := by
  intro fuel
  induction fuel generalizing s c p with
  | zero =>
    intro fuel' _ h
    cases h
  | succ fuel ih =>
    intro fuel' hle h
    obtain ⟨k, rfl⟩ : ∃ k, fuel' = k + 1 := ⟨fuel' - 1, by omega⟩
    unfold simulate at h ⊢
    simp only at h ⊢
    split
    · rename_i hterm
      rw [if_pos hterm] at h
      exact h
    · rename_i hterm
      rw [if_neg hterm] at h
      cases hl : (c.execAction rules call s).checkLock rules s onlyOnce with
      | none =>
        rw [hl] at h
        exact h
      | some c₁ =>
        rw [hl] at h
        exact simulateTrans_mono (fun n c p hn => ih (by omega) hn) _ _ _ _ h

/-- A simulation without a negative code was one of a state that returns. -/
theorem simulate_returns {R : Rule} :
    ∀ (fuel s : Nat) (c : Ctx V) (ret : Int) (c' : Ctx V), Of c r s → c.ruleOf rules r = R →
      simulate rules call fuel s onlyOnce c = some (ret, c') → 0 ≤ ret →
      R.Returns (c.si.cell s).state
  | 0, _, _, _, _, _, _, h, _ => by cases h
  | fuel + 1, s, c, ret, c', ho, hR, h, hret => by
    unfold simulate at h
    simp only at h
    have hg₁ := grows_execAction rules call s c
    have hst : c.stateOf rules s = R.state (c.si.cell s).state := by
      unfold Ctx.stateOf
      rw [ho.ruleInstance, hR]
    by_cases hterm : ((c.execAction rules call s).stateOf rules s).trans = []
    · rw [if_pos hterm] at h
      obtain ⟨rfl, rfl⟩ := Prod.mk.inj (Option.some.inj h)
      omega
    · rw [if_neg hterm] at h
      rw [stateOf_grows rules ho hg₁, hst] at hterm
      cases hl : (c.execAction rules call s).checkLock rules s onlyOnce with
      | none =>
        rw [hl] at h
        obtain ⟨rfl, rfl⟩ := Prod.mk.inj (Option.some.inj h)
        omega
      | some c₁ =>
        rw [hl] at h
        simp only at h
        have hg₂ := hg₁.trans (grows_checkLock hl)
        rw [stateOf_grows rules ho hg₂, hst] at h
        exact .intro _ hterm (simulateTrans_returns
          (fun n c ret c' hn hRn hs =>
            ⟨grows_simulate hn hs, simulate_returns fuel n c ret c' hn hRn hs⟩) _ 0 ret c₁ c'
          (Int.le_refl 0) (ho.grows hg₂) ((ruleOf_grows rules ho.rule_lt hg₂).trans hR) h hret)

/-! ## Simulations that end -/

/-- The loop over the transitions behind `pre`, if the simulation of what it can enter ends. -/
theorem simulateTrans_terminates {s i : Nat} {R : Rule}
    (hsub : ∀ n c, Of c r n → c.ruleOf rules r = R → R.Enters i (c.si.cell n).state →
      ∃ fuel p, simulate rules call fuel n onlyOnce c = some p) :
    ∀ (trs pre : List Trans) (created : Int) (c : Ctx V), (R.state i).trans = pre ++ trs →
      (∀ tr ∈ pre, tr.requiredFieldsNb = 0 → tr.evalCode = none → R.Returns tr.dest) →
      Of c r s → c.ruleOf rules r = R →
      ∃ fuel p, simulateTrans call (fun n => simulate rules call fuel n onlyOnce) s onlyOnce trs
        created c = some p
  | [], _, _, _, _, _, _, _ => ⟨0, _, rfl⟩
  | tr :: trs, pre, created, c, htrans, hpre, ho, hR => by
    have hsplit : (R.state i).trans = (pre ++ [tr]) ++ trs := by
      rw [htrans, List.append_assoc, List.singleton_append]
    have hcons : (tr.requiredFieldsNb = 0 → tr.evalCode = none → R.Returns tr.dest) →
        ∀ tr' ∈ pre ++ [tr], tr'.requiredFieldsNb = 0 → tr'.evalCode = none →
          R.Returns tr'.dest := by
      intro htr tr' hmem
      rcases List.mem_append.mp hmem with hmem | hmem
      · exact hpre tr' hmem
      · exact List.mem_singleton.mp hmem ▸ htr
    unfold simulateTrans
    by_cases hreq : tr.requiredFieldsNb = 0
    · simp only [if_pos hreq]
      have hg₁ := grows_execCond call s tr c
      have ho₁ := ho.grows hg₁
      by_cases hcond : c.condRet call s tr = 0
      · simp only [if_pos hcond]
        have hg₂ := hg₁.trans (grows_newState tr.dest s _)
        have hR₂ := (ruleOf_grows rules ho.rule_lt hg₂).trans hR
        -- the branch
        obtain ⟨fuel₁, ⟨simulRet, c₁⟩, h₁⟩ := hsub _ _ (ho₁.newState tr.dest) hR₂
          ⟨pre, tr, trs, htrans, hreq, (Ctx.state_newState ..).symm, hpre⟩
        have hg := hg₂.trans (grows_simulate (ho₁.newState tr.dest) h₁)
        by_cases hneg : simulRet < 0
        · exact ⟨fuel₁, (-created + simulRet, c₁), by rw [h₁]; exact if_pos hneg⟩
        · -- the transitions behind it
          have hret := simulate_returns fuel₁ _ _ simulRet c₁ (ho₁.newState tr.dest) hR₂ h₁
            (by omega)
          rw [Ctx.state_newState] at hret
          obtain ⟨fuel₂, p, h₂⟩ := simulateTrans_terminates hsub trs (pre ++ [tr])
            (created + simulRet) c₁ hsplit (hcons fun _ _ => hret) (ho.grows hg)
            ((ruleOf_grows rules ho.rule_lt hg).trans hR)
          refine ⟨max fuel₁ fuel₂, p, ?_⟩
          rw [simulate_mono (le_max_left _ _) h₁]
          simp only [if_neg hneg]
          exact simulateTrans_mono (fun n c p hn => simulate_mono (le_max_right _ _) hn) _ _ _ _ h₂
      · simp only [if_neg hcond]
        refine simulateTrans_terminates hsub trs (pre ++ [tr]) created _ hsplit ?_ ho₁
          ((ruleOf_grows rules ho.rule_lt hg₁).trans hR)
        exact hcons fun _ hcode => absurd (by simp [Ctx.condRet, hcode]) hcond
    · simp only [if_neg hreq]
      have hg₁ := grows_newThread call.clock s onlyOnce tr c
      exact simulateTrans_terminates hsub trs (pre ++ [tr]) (created + 1) _ hsplit
        (hcons fun h => absurd h hreq) (ho.grows hg₁)
        ((ruleOf_grows rules ho.rule_lt hg₁).trans hR)

/-- The simulation ends where no infinite sequence of entries begins. -/
theorem simulate_ends {R : Rule} {i : Nat} (hacc : R.NoEpsilonCycle i) :
    ∀ (s : Nat) (c : Ctx V), Of c r s → c.ruleOf rules r = R → (c.si.cell s).state = i →
      ∃ fuel p, simulate rules call fuel s onlyOnce c = some p := by
  induction hacc with
  | intro i _ ih =>
    rintro s c ho hR rfl
    have hg₁ := grows_execAction rules call s c
    have hst : c.stateOf rules s = R.state (c.si.cell s).state := by
      unfold Ctx.stateOf
      rw [ho.ruleInstance, hR]
    by_cases hterm : ((c.execAction rules call s).stateOf rules s).trans = []
    · exact ⟨1, _, by unfold simulate; exact if_pos hterm⟩
    · cases hl : (c.execAction rules call s).checkLock rules s onlyOnce with
      | none => exact ⟨1, (-1, c.execAction rules call s), by
          unfold simulate
          simp only [if_neg hterm, hl]⟩
      | some c₁ =>
        have hg₂ := hg₁.trans (grows_checkLock hl)
        have hloop : ∃ fuel p, simulateTrans call (fun n => simulate rules call fuel n onlyOnce) s
            onlyOnce (R.state (c.si.cell s).state).trans 0 c₁ = some p :=
          simulateTrans_terminates (fun n c hn hRn he => ih _ he n c hn hRn rfl) _ [] 0 c₁ rfl
            (fun _ htr => (List.not_mem_nil htr).elim) (ho.grows hg₂)
            ((ruleOf_grows rules ho.rule_lt hg₂).trans hR)
        obtain ⟨fuel, p, h⟩ := hloop
        refine ⟨fuel + 1, p, ?_⟩
        unfold simulate
        simp only [if_neg hterm, hl]
        rw [stateOf_grows rules ho hg₂, hst]
        exact h

/-- For a rule instance whose rule has no cycle of transitions without fields that the recursion can
enter from the state of `s`, the simulation of `s` ends. -/
theorem simulate_terminates {s : Nat} {c : Ctx V} (ho : Of c r s)
    (hacc : (c.ruleOf rules r).NoEpsilonCycle (c.si.cell s).state) :
    ∃ fuel ret c', simulate rules call fuel s onlyOnce c = some (ret, c') := by
  obtain ⟨fuel, ⟨ret, c'⟩, h⟩ := simulate_ends hacc s c ho rfl rfl
  exact ⟨fuel, ret, c', h⟩

end

/-! ## Rules with and without a cycle -/

theorem Rule.Enters.exists_trans {R : Rule} {i d : Nat} (h : R.Enters i d) :
    ∃ tr ∈ (R.state i).trans, tr.requiredFieldsNb = 0 ∧ tr.dest = d := by
  obtain ⟨pre, tr, post, htrans, hreq, hdest, -⟩ := h
  exact ⟨tr, htrans ▸ List.mem_append_right _ List.mem_cons_self, hreq, hdest⟩

/-- A rank that goes down along the transitions without fields. -/
theorem Rule.noEpsilonCycle_of_rank {R : Rule} (rank : Nat → Nat)
    (h : ∀ i, ∀ tr ∈ (R.state i).trans, tr.requiredFieldsNb = 0 → rank tr.dest < rank i) (i : Nat) :
    R.NoEpsilonCycle i := by
  refine Subrelation.accessible ?_ (InvImage.accessible rank (Nat.lt_wfRel.wf.apply (rank i)))
  intro d i henter
  obtain ⟨tr, htr, hreq, rfl⟩ := henter.exists_trans
  exact h i tr htr hreq

/-- A rule that goes on from its initial state at once, and then waits for a field. -/
def gotoWait : RuleNode where
  name := "wait"
  init := { name := "init", actionlist := [], translist := [.direct none "wait"] }
  statelist :=
    [{ name := "wait", actionlist := [], translist := [.direct (some (.field 0)) "done"] },
      { name := "done", actionlist := [], translist := [] }]
  syncVars := none

theorem simulate_terminates_gotoWait :
    ∃ c R, compileAndAddRuleAst emptyCompiler gotoWait = .ok c ∧ c.load = some R ∧
      ∀ call : Call Val, ∃ fuel ret c',
        simulate [R] call fuel 0 true ((Ctx.init Val).newRuleInst 0) = some (ret, c') := by
  refine ⟨_, _, rfl, rfl, fun call => simulate_terminates (.newRuleInst 0 (Ctx.init Val)) ?_⟩
  rw [Ctx.ruleOf_newRuleInst]
  refine Rule.noEpsilonCycle_of_rank (fun i => 1 - i) (fun i tr htr hreq => ?_) _
  rcases i with _ | _ | _ | i
  · obtain rfl := List.mem_singleton.mp htr
    decide
  · obtain rfl := List.mem_singleton.mp htr
    cases hreq
  · cases htr
  · cases htr

/-- A rule whose initial state goes to a state that goes to itself. -/
def gotoSelf : RuleNode where
  name := "loop"
  init := { name := "init", actionlist := [], translist := [.direct none "again"] }
  statelist := [{ name := "again", actionlist := [], translist := [.direct none "again"] }]
  syncVars := none

/-- Both states of the rule are entered without end. -/
theorem simulate_gotoSelf [SyncValue V] {rules : RuleSet} {call : Call V} {r : Nat}
    {onlyOnce : Bool} :
    ∀ (fuel s : Nat) (c : Ctx V), Of c r s →
      c.ruleOf rules r = ⟨[⟨none, [⟨0, none, 1⟩], false⟩, ⟨none, [⟨0, none, 1⟩], false⟩], [], false⟩ →
      (c.si.cell s).state < 2 → simulate rules call fuel s onlyOnce c = none
  | 0, _, _, _, _, _ => rfl
  | fuel + 1, s, c, ho, hR, hs => by
    have hst : c.stateOf rules s = ⟨none, [⟨0, none, 1⟩], false⟩ := by
      unfold Ctx.stateOf
      rw [ho.ruleInstance, hR]
      interval_cases (c.si.cell s).state <;> rfl
    have hact : c.execAction rules call s = c := by
      unfold Ctx.execAction
      rw [hst]
    have hlock : c.checkLock rules s onlyOnce = some c := by
      unfold Ctx.checkLock
      simp only [ho.ruleInstance, hR, Bool.false_and, Bool.false_eq_true, if_false]
    have hg := grows_newState 1 s c
    unfold simulate
    simp only [hact, hst, hlock]
    unfold simulateTrans
    simp only [Ctx.condRet, Ctx.execCond, if_pos]
    rw [simulate_gotoSelf fuel c.si.size (c.newState 1 s) (ho.newState 1)
      ((ruleOf_grows rules ho.rule_lt hg).trans hR) (by rw [Ctx.state_newState]; decide)]
    rfl

/-- Its simulation at the creation of an initial instance is deeper than any depth. -/
theorem not_simulate_terminates :
    ∃ c R, compileAndAddRuleAst emptyCompiler gotoSelf = .ok c ∧ c.load = some R ∧
      ∀ (call : Call Val) (fuel : Nat),
        simulate [R] call fuel 0 true ((Ctx.init Val).newRuleInst 0) = none := by
  refine ⟨_, _, rfl, rfl, fun call fuel => ?_⟩
  exact simulate_gotoSelf fuel 0 _ (.newRuleInst 0 (Ctx.init Val)) (Ctx.ruleOf_newRuleInst ..)
    (by decide +kernel)

end Orchids
