import Orchids.Engine.Rules
import Orchids.Engine.SyncVal

/-!
# The branches of a simulation

`simulate_state_and_create_threads` has one negative code both for a state instance that the lock
test refuses and for a terminal state, and its loop returns at any negative code.

* `Explores`: what the simulation is for, as a relation: only a terminal state ends the loops, and
  a refused state instance ends its own branch. The log has the threads and the branches in their
  order.
* `simulate_follows`: the code takes the steps of the log up to the first refused state instance.
* `explored_iff`: it creates every thread and every branch if and only if none comes after a
  refused state instance.
-/

namespace Orchids

variable {V : Type}

/-! ## Explorations -/

/-- A step of an exploration: a thread for the transition `tr`, a new state instance through it, or
the refused state instance `s`. -/
inductive Step where
  | thread (s : Nat) (tr : Trans)
  | branch (s : Nat) (tr : Trans)
  | pruned (s : Nat)
  deriving DecidableEq

/-- The threads of a log: state instances with blocking transitions. -/
def Step.threads (log : List Step) : List (Nat × Trans) :=
  log.filterMap fun
    | .thread s tr => some (s, tr)
    | _ => none

/-- The branches of a log: the states that the transitions lead to. -/
def Step.branches (log : List Step) : List Nat :=
  log.filterMap fun
    | .branch _ tr => some tr.dest
    | _ => none

theorem Step.threads_append (log log' : List Step) :
    threads (log ++ log') = threads log ++ threads log' := List.filterMap_append ..

theorem Step.branches_append (log log' : List Step) :
    branches (log ++ log') = branches log ++ branches log' := List.filterMap_append ..

section

variable [SyncValue V] (rules : RuleSet) (call : Call V) (onlyOnce : Bool)

mutual

/-- The exploration of the state instance `s`, which says if it came to a terminal state. -/
inductive Explores : Nat → Ctx V → Bool → List Step → Ctx V → Prop
  | dead {s : Nat} {c : Ctx V} :
      ((c.execAction rules call s).stateOf rules s).trans = [] →
      Explores s c true [] ((c.execAction rules call s).markDeadRule
        ((c.execAction rules call s).si.cell s).ruleInstance)
  | pruned {s : Nat} {c : Ctx V} :
      ((c.execAction rules call s).stateOf rules s).trans ≠ [] →
      (c.execAction rules call s).checkLock rules s onlyOnce = none →
      Explores s c false [.pruned s] (c.execAction rules call s)
  | loop {s : Nat} {c c₁ c' : Ctx V} {dead : Bool} {log : List Step} :
      ((c.execAction rules call s).stateOf rules s).trans ≠ [] →
      (c.execAction rules call s).checkLock rules s onlyOnce = some c₁ →
      ExploresTrans s (c₁.stateOf rules s).trans c₁ dead log c' → Explores s c dead log c'

/-- The exploration of some transitions of the state instance `s`. -/
inductive ExploresTrans : Nat → List Trans → Ctx V → Bool → List Step → Ctx V → Prop
  | nil {s : Nat} {c : Ctx V} : ExploresTrans s [] c false [] c
  | thread {s : Nat} {tr : Trans} {trs : List Trans} {c c' : Ctx V} {dead : Bool}
      {log : List Step} :
      tr.requiredFieldsNb ≠ 0 →
      ExploresTrans s trs (c.newThread call.clock s onlyOnce tr) dead log c' →
      ExploresTrans s (tr :: trs) c dead (.thread s tr :: log) c'
  | skip {s : Nat} {tr : Trans} {trs : List Trans} {c c' : Ctx V} {dead : Bool}
      {log : List Step} :
      tr.requiredFieldsNb = 0 → c.condRet call s tr ≠ 0 →
      ExploresTrans s trs (c.execCond call s tr) dead log c' →
      ExploresTrans s (tr :: trs) c dead log c'
  | dead {s : Nat} {tr : Trans} {trs : List Trans} {c c' : Ctx V} {log : List Step} :
      tr.requiredFieldsNb = 0 → c.condRet call s tr = 0 →
      Explores (c.execCond call s tr).si.size ((c.execCond call s tr).newState tr.dest s) true
        log c' →
      ExploresTrans s (tr :: trs) c true (.branch s tr :: log) c'
  | branch {s : Nat} {tr : Trans} {trs : List Trans} {c c₁ c' : Ctx V} {dead : Bool}
      {log log' : List Step} :
      tr.requiredFieldsNb = 0 → c.condRet call s tr = 0 →
      Explores (c.execCond call s tr).si.size ((c.execCond call s tr).newState tr.dest s) false
        log c₁ →
      ExploresTrans s trs c₁ dead log' c' →
      ExploresTrans s (tr :: trs) c dead (.branch s tr :: (log ++ log')) c'

end

end

/-- Without a terminal state every transition that waits has its thread. -/
theorem ExploresTrans.mem_threads [SyncValue V] {rules : RuleSet} {call : Call V} {onlyOnce : Bool}
    {s : Nat} : ∀ {trs : List Trans} {c c' : Ctx V} {log : List Step},
      ExploresTrans rules call onlyOnce s trs c false log c' →
      ∀ tr ∈ trs, tr.requiredFieldsNb ≠ 0 → (s, tr) ∈ Step.threads log
  | [], _, _, _, _, _, htr, _ => (List.not_mem_nil htr).elim
  | _ :: _, _, _, _, h, tr, htr, hreq => by
    cases h with
    | thread _ h =>
      rcases List.mem_cons.mp htr with rfl | htr
      · exact List.mem_cons_self
      · exact List.mem_cons_of_mem _ (h.mem_threads tr htr hreq)
    | skip h0 _ h =>
      rcases List.mem_cons.mp htr with rfl | htr
      · exact absurd h0 hreq
      · exact h.mem_threads tr htr hreq
    | branch h0 _ _ h =>
      rcases List.mem_cons.mp htr with rfl | htr
      · exact absurd h0 hreq
      · rw [← List.cons_append, Step.threads_append]
        exact List.mem_append_right _ (h.mem_threads tr htr hreq)

/-! ## What a simulation adds -/

/-- The threads that `c'` has more than `c`. -/
def newThreads (c c' : Ctx V) : List (Nat × Trans) :=
  Heap.news (fun t => (t.stateInstance, t.trans)) c.thr c'.thr

/-- The states of the state instances that `c'` has more than `c`. -/
def newStates (c c' : Ctx V) : List Nat := Heap.news StateInst.state c.si c'.si

/-- From `c` to `c'` the threads and branches of the log were created. -/
structure Created (c : Ctx V) (log : List Step) (c' : Ctx V) : Prop where
  grows : Grows c c'
  threads : newThreads c c' = Step.threads log
  branches : newStates c c' = Step.branches log

namespace Created

variable {c c' c'' : Ctx V} {log log' : List Step}

theorem of_sizes (hg : Grows c c') (ht : c'.thr.size = c.thr.size)
    (hs : c'.si.size = c.si.size) : Created c [] c' :=
  ⟨hg, Heap.news_eq_nil ht, Heap.news_eq_nil hs⟩

theorem append (h : Created c log c') (h' : Created c' log' c'') :
    Created c (log ++ log') c'' := by
  refine ⟨h.grows.trans h'.grows, ?_, ?_⟩
  · have hg : c'.thr.Grows (fun t => (t.stateInstance, t.trans)) c''.thr :=
      h'.grows.thr.comp fun x => (x.2.1, x.1)
    have hsplit := Heap.news_append h.grows.thr.size_le hg
    rw [newThreads, hsplit, Step.threads_append]
    exact congrArg₂ _ h.threads h'.threads
  · have hg : c'.si.Grows StateInst.state c''.si := h'.grows.si.comp Prod.fst
    have hsplit := Heap.news_append h.grows.si.size_le hg
    rw [newStates, hsplit, Step.branches_append]
    exact congrArg₂ _ h.branches h'.branches

theorem execCond (call : Call V) (s : Nat) (tr : Trans) (c : Ctx V) :
    Created c [] (c.execCond call s tr) :=
  of_sizes (grows_execCond call s tr c) (by simp) (by simp)

theorem newThread (clock : Ctx V → Nat) (s : Nat) (onlyOnce : Bool) (tr : Trans) (c : Ctx V) :
    Created c [.thread s tr] (c.newThread clock s onlyOnce tr) := by
  have hsize := thr_size_newThread clock s onlyOnce tr c
  have hcell := fixed_newThread clock s onlyOnce tr c
  refine ⟨grows_newThread clock s onlyOnce tr c, ?_, 
    Heap.news_eq_nil (si_size_newThread clock s onlyOnce tr c)⟩
  rw [newThreads, Heap.news_eq_singleton hsize]
  exact congrArg (fun x => [(x.2.1, x.1)]) hcell

theorem newState (s : Nat) (tr : Trans) (c : Ctx V) :
    Created c [.branch s tr] (c.newState tr.dest s) := by
  refine ⟨grows_newState tr.dest s c, Heap.news_eq_nil rfl, ?_⟩
  have hsize : (c.newState tr.dest s).si.size = c.si.size + 1 := by simp [Ctx.newState]
  rw [newStates, Heap.news_eq_singleton hsize]
  simp [Ctx.newState, Step.branches]

end Created

/-! ## The code and the explorations -/

/-- A simulation from `c` to `c'` with the result `ret` took the steps `log`, without a refused
state instance: these are all steps of the exploration `E`, or a refused one is next in it. -/
def Follows (E : Bool → List Step → Ctx V → Prop) (c : Ctx V) (ret : Int) (c' : Ctx V) : Prop :=
  ∃ log, Created c log c' ∧ (∀ n, Step.pruned n ∉ log) ∧
    ((E (decide (ret < 0)) log c' ∧
        ∀ dead log' c₁, E dead log' c₁ → dead = decide (ret < 0) ∧ log' = log ∧ c₁ = c') ∨
      (ret < 0 ∧ ∀ dead log' c₁, E dead log' c₁ → ∃ n rest, log' = log ++ .pruned n :: rest))

/-- Some steps in front of what is followed. -/
theorem Follows.prepend {E E₀ : Bool → List Step → Ctx V → Prop} {log₀ : List Step}
    {c c₀ c' : Ctx V} {ret : Int} (h : Follows E₀ c₀ ret c') (hcr : Created c log₀ c₀)
    (hnp : ∀ n, Step.pruned n ∉ log₀)
    (hE : ∀ dead log c₁, E₀ dead log c₁ → E dead (log₀ ++ log) c₁)
    (hinv : ∀ dead log' c₁, E dead log' c₁ → ∃ log, log' = log₀ ++ log ∧ E₀ dead log c₁) :
    Follows E c ret c' := by
  obtain ⟨log, hcr', hnp', hcases⟩ := h
  refine ⟨log₀ ++ log, hcr.append hcr', fun n hn => ?_, ?_⟩
  · exact (List.mem_append.mp hn).elim (hnp n) (hnp' n)
  · rcases hcases with ⟨hall, hdet⟩ | ⟨hneg, hlost⟩
    · refine .inl ⟨hE _ _ _ hall, fun dead log' c₁ h => ?_⟩
      obtain ⟨log'', rfl, h₀⟩ := hinv _ _ _ h
      obtain ⟨hd, rfl, hc⟩ := hdet dead log'' c₁ h₀
      exact ⟨hd, rfl, hc⟩
    · refine .inr ⟨hneg, fun dead log' c₁ h => ?_⟩
      obtain ⟨log'', rfl, h₀⟩ := hinv _ _ _ h
      obtain ⟨n, rest, rfl⟩ := hlost dead log'' c₁ h₀
      exact ⟨n, rest, (List.append_assoc ..).symm⟩

section

variable [SyncValue V] {rules : RuleSet} {call : Call V} {onlyOnce : Bool}

/-- The loop over the transitions: a step lemma for the simulation. -/
theorem simulateTrans_follows {s : Nat} {sim : Nat → Ctx V → Option (Int × Ctx V)}
    (hsim : ∀ n c ret c', sim n c = some (ret, c') →
      Follows (Explores rules call onlyOnce n c) c ret c') :
    ∀ (trs : List Trans) (created ret : Int) (c c' : Ctx V), 0 ≤ created →
      simulateTrans call sim s onlyOnce trs created c = some (ret, c') →
      Follows (ExploresTrans rules call onlyOnce s trs c) c ret c'
  | [], created, ret, c, c', h0, heq => by
    obtain ⟨rfl, rfl⟩ := Prod.mk.inj (Option.some.inj heq)
    have hret : decide (created < 0) = false := decide_eq_false (by omega)
    refine ⟨[], .of_sizes (.refl _) rfl rfl, fun n hn => (List.not_mem_nil hn).elim, .inl ?_⟩
    rw [hret]
    refine ⟨.nil, fun dead log' c₁ h => ?_⟩
    cases h
    exact ⟨rfl, rfl, rfl⟩
  | tr :: trs, created, ret, c, c', h0, heq => by
    unfold simulateTrans at heq
    by_cases hreq : tr.requiredFieldsNb = 0
    · rw [if_pos hreq] at heq
      by_cases hret : c.condRet call s tr = 0
      · rw [if_pos hret] at heq
        simp only at heq
        cases hs : sim (c.execCond call s tr).si.size ((c.execCond call s tr).newState tr.dest s)
        with
        | none =>
          rw [hs] at heq
          cases heq
        | some p =>
          obtain ⟨simulRet, c₁⟩ := p
          rw [hs] at heq
          simp only at heq
          obtain ⟨log₁, hcr₁, hnp₁, hE₁⟩ := hsim _ _ _ _ hs
          have hcr : Created c (.branch s tr :: log₁) c₁ :=
            ((Created.execCond call s tr c).append (.newState s tr _)).append hcr₁
          have hnp : ∀ n, Step.pruned n ∉ Step.branch s tr :: log₁ := fun n hn =>
            (List.mem_cons.mp hn).elim nofun (hnp₁ n)
          by_cases hneg : simulRet < 0
          · rw [if_pos hneg] at heq
            obtain ⟨rfl, rfl⟩ := Prod.mk.inj (Option.some.inj heq)
            have hret' : -created + simulRet < 0 := by omega
            rw [decide_eq_true hneg] at hE₁
            refine ⟨_, hcr, hnp, ?_⟩
            rw [decide_eq_true hret']
            rcases hE₁ with ⟨hall, hdet⟩ | ⟨-, hlost⟩
            · -- a terminal state in the branch
              refine .inl ⟨.dead hreq hret hall, fun dead log' c₂ h => ?_⟩
              cases h with
              | thread h => exact absurd hreq h
              | skip _ h => exact absurd hret h
              | dead _ _ h =>
                obtain ⟨-, rfl, rfl⟩ := hdet _ _ _ h
                exact ⟨rfl, rfl, rfl⟩
              | branch _ _ h => cases (hdet _ _ _ h).1
            · -- a refused state instance in the branch
              refine .inr ⟨hret', fun dead log' c₂ h => ?_⟩
              cases h with
              | thread h => exact absurd hreq h
              | skip _ h => exact absurd hret h
              | dead _ _ h =>
                obtain ⟨n, rest, rfl⟩ := hlost _ _ _ h
                exact ⟨n, rest, rfl⟩
              | branch _ _ h =>
                obtain ⟨n, rest, rfl⟩ := hlost _ _ _ h
                exact ⟨n, _, congrArg (List.cons _) (List.append_assoc ..)⟩
          · rw [if_neg hneg] at heq
            rcases hE₁ with ⟨hall, hdet⟩ | ⟨hneg', -⟩
            · rw [decide_eq_false hneg] at hall hdet
              refine (simulateTrans_follows hsim trs _ _ _ _ (by omega) heq).prepend hcr hnp
                (fun dead log c₂ h => .branch hreq hret hall h) fun dead log' c₂ h => ?_
              cases h with
              | thread h => exact absurd hreq h
              | skip _ h => exact absurd hret h
              | dead _ _ h => cases (hdet _ _ _ h).1
              | branch _ _ h h' =>
                obtain ⟨-, rfl, rfl⟩ := hdet _ _ _ h
                exact ⟨_, rfl, h'⟩
            · exact absurd hneg' hneg
      · rw [if_neg hret] at heq
        refine (simulateTrans_follows hsim trs _ _ _ _ h0 heq).prepend
          (.execCond call s tr c) (fun _ => List.not_mem_nil)
          (fun dead log c₁ h => .skip hreq hret h) fun dead log' c₁ h => ?_
        cases h with
        | thread h => exact absurd hreq h
        | skip _ _ h => exact ⟨_, rfl, h⟩
        | dead _ h => exact absurd h hret
        | branch _ h => exact absurd h hret
    · rw [if_neg hreq] at heq
      refine (simulateTrans_follows hsim trs _ _ _ _ (by omega) heq).prepend
        (.newThread _ _ _ _ _) (fun n hn => nomatch List.mem_singleton.mp hn)
        (fun dead log c₁ h => .thread hreq h) fun dead log' c₁ h => ?_
      cases h with
      | thread _ h => exact ⟨_, rfl, h⟩
      | skip h => exact absurd h hreq
      | dead h => exact absurd h hreq
      | branch h => exact absurd h hreq

/-- The code takes the steps of the exploration up to the first refused state instance. -/
theorem simulate_follows :
    ∀ (fuel s : Nat) (c : Ctx V) (ret : Int) (c' : Ctx V),
      simulate rules call fuel s onlyOnce c = some (ret, c') →
      Follows (Explores rules call onlyOnce s c) c ret c'
  | 0, _, _, _, _, heq => by cases heq
  | fuel + 1, s, c, ret, c', heq => by
    unfold simulate at heq
    simp only at heq
    have hact : Created c [] (c.execAction rules call s) :=
      .of_sizes (grows_execAction rules call s c) (by simp) (by simp)
    by_cases hterm : ((c.execAction rules call s).stateOf rules s).trans = []
    · rw [if_pos hterm] at heq
      obtain ⟨rfl, rfl⟩ := Prod.mk.inj (Option.some.inj heq)
      have hdead : Created (c.execAction rules call s) [] ((c.execAction rules call s).markDeadRule
          ((c.execAction rules call s).si.cell s).ruleInstance) :=
        .of_sizes (grows_markDeadRule _ _) (by simp [Ctx.markDeadRule]) rfl
      refine ⟨[], hact.append hdead, fun _ => List.not_mem_nil, .inl ⟨.dead hterm, ?_⟩⟩
      intro dead log' c₁ h
      cases h with
      | dead h => exact ⟨rfl, rfl, rfl⟩
      | pruned h => exact absurd hterm h
      | loop h => exact absurd hterm h
    · rw [if_neg hterm] at heq
      cases hl : (c.execAction rules call s).checkLock rules s onlyOnce with
      | none =>
        rw [hl] at heq
        obtain ⟨rfl, rfl⟩ := Prod.mk.inj (Option.some.inj heq)
        refine ⟨[], hact, fun _ => List.not_mem_nil, .inr ⟨by decide, ?_⟩⟩
        intro dead log' c₁ h
        cases h with
        | dead h => exact absurd h hterm
        | pruned _ h => exact ⟨s, [], rfl⟩
        | loop _ h =>
          rw [hl] at h
          cases h
      | some c₁ =>
        rw [hl] at heq
        simp only at heq
        have hlock : Created (c.execAction rules call s) [] c₁ :=
          .of_sizes (grows_checkLock hl) (thr_size_checkLock hl) (si_size_checkLock hl)
        refine (simulateTrans_follows (simulate_follows fuel) _ 0 ret c₁ c' (Int.le_refl 0)
          heq).prepend (hact.append hlock) (fun _ => List.not_mem_nil)
          (fun dead log c₂ h => .loop hterm hl h) fun dead log' c₂ h => ?_
        cases h with
        | dead h => exact absurd h hterm
        | pruned _ h =>
          rw [hl] at h
          cases h
        | loop _ h h' =>
          obtain rfl := Option.some.inj (hl.symm.trans h)
          exact ⟨_, rfl, h'⟩

/-! ## Lost threads and branches -/

/-- What begins with an element that is not in the first part is behind it. -/
theorem suffix_of_not_mem {α : Type} {x : α} {l l' l₁ l₂ : List α} (h : l₁ ++ x :: l₂ = l ++ l')
    (hx : x ∉ l) : x :: l₂ <:+ l' := by
  rcases List.append_eq_append_iff.mp h with ⟨as, rfl, has⟩ | ⟨bs, rfl, hbs⟩
  · cases as with
    | nil => exact ⟨[], has⟩
    | cons a as =>
      obtain ⟨rfl, -⟩ := List.cons.inj has
      exact absurd (List.mem_append_right _ List.mem_cons_self) hx
  · exact ⟨bs, hbs.symm⟩

variable (rules call onlyOnce)

/-- The simulation of `s` from `c` to `c'` created the threads and the branches of an exploration. -/
def Explored (s : Nat) (c c' : Ctx V) : Prop :=
  ∃ dead log c₁, Explores rules call onlyOnce s c dead log c₁ ∧
    newThreads c c' = Step.threads log ∧ newStates c c' = Step.branches log

/-- In an exploration of `s` from `c` there is no thread and no branch after a refused state
instance. -/
def NothingLost (s : Nat) (c : Ctx V) : Prop :=
  ∃ dead log c₁, Explores rules call onlyOnce s c dead log c₁ ∧
    ∀ log₁ n log₂, log = log₁ ++ .pruned n :: log₂ →
      Step.threads log₂ = [] ∧ Step.branches log₂ = []

variable {rules call onlyOnce} {fuel s : Nat} {c c' : Ctx V} {ret : Int}

/-- The simulation creates a thread for every blocking transition and explores every transition
without fields whose condition holds, if and only if none of them comes after a refused state
instance. -/
theorem explored_iff (h : simulate rules call fuel s onlyOnce c = some (ret, c')) :
    Explored rules call onlyOnce s c c' ↔ NothingLost rules call onlyOnce s c := by
  obtain ⟨log, hcr, hnp, hE⟩ := simulate_follows fuel s c ret c' h
  constructor
  · rintro ⟨dead, log', c₁, hx, hthreads, hbranches⟩
    refine ⟨dead, log', c₁, hx, fun log₁ n log₂ hlog => ?_⟩
    rcases hE with ⟨-, hdet⟩ | ⟨-, hlost⟩
    · obtain ⟨-, rfl, -⟩ := hdet _ _ _ hx
      exact absurd (hlog ▸ List.mem_append_right _ List.mem_cons_self) (hnp n)
    · obtain ⟨m, rest, rfl⟩ := hlost _ _ _ hx
      obtain ⟨skipped, hsuffix⟩ := suffix_of_not_mem hlog.symm (hnp n)
      -- the steps of the code are all threads and branches, so that `rest` has none
      rw [hcr.threads, Step.threads_append, List.self_eq_append_right, ← hsuffix, Step.threads_append,
        List.append_eq_nil_iff] at hthreads
      rw [hcr.branches, Step.branches_append, List.self_eq_append_right, ← hsuffix,
        Step.branches_append, List.append_eq_nil_iff] at hbranches
      exact ⟨hthreads.2, hbranches.2⟩
  · rintro ⟨dead, log', c₁, hx, hnone⟩
    refine ⟨dead, log', c₁, hx, ?_⟩
    rcases hE with ⟨-, hdet⟩ | ⟨-, hlost⟩
    · obtain ⟨-, rfl, -⟩ := hdet _ _ _ hx
      exact ⟨hcr.threads, hcr.branches⟩
    · obtain ⟨n, rest, rfl⟩ := hlost _ _ _ hx
      obtain ⟨ht, hb⟩ := hnone log n rest rfl
      rw [Step.threads_append, Step.branches_append, hcr.threads, hcr.branches]
      exact ⟨List.self_eq_append_right.mpr ht, List.self_eq_append_right.mpr hb⟩

/-- A simulation that ends without a negative code has no refused state instance in it. -/
theorem nothingLost_of_nonneg (h : simulate rules call fuel s onlyOnce c = some (ret, c'))
    (hret : 0 ≤ ret) : NothingLost rules call onlyOnce s c := by
  obtain ⟨log, -, hnp, ⟨hall, -⟩ | ⟨hneg, -⟩⟩ := simulate_follows fuel s c ret c' h
  · exact ⟨_, log, c', hall, fun log₁ n log₂ hlog =>
      absurd (hlog ▸ List.mem_append_right _ List.mem_cons_self) (hnp n)⟩
  · exact absurd hret (Int.not_le.mpr hneg)

end

/-! ## A branch in front of a transition -/

/-- A rule with one instance for each value of its variable 0: the state after the first event has
an `e`-transition to a state that assigns the variable, and then a transition that waits. -/
def forkedRule : RuleSet :=
  [{ states := [
      { action := none, trans := [⟨1, some [0], 1⟩], havePushfield := false },
      { action := none, trans := [⟨0, none, 2⟩, ⟨1, some [1], 3⟩], havePushfield := false },
      { action := some [2], trans := [⟨1, some [1], 3⟩], havePushfield := true },
      { action := none, trans := [], havePushfield := false }]
     syncVars := [0], syncLock := true }]

/-- An event for the first transition only. -/
def forking : Call Val where
  event := [(0, .int 1)]
  vm c s code :=
    let env := (c.si.cell s).currentEnv
    { ret := if code = [1] then 1 else 0
      env := if code = [2] then Function.update env 0 (some (.int 1)) else env
      kills := fun _ => false }
  clock _ := 0

/-- The engine at the simulation for the thread `t`, whose transition passes at the event `e`; `c`
is the state in which the event loop comes to `t`. -/
def Ctx.atPass (call : Call V) (e t : Nat) (c : Ctx V) : Ctx V :=
  ((c.beginVisit (call.clock c) t).vmExec call.vm (c.thr.cell t).stateInstance
    ((c.thr.cell t).trans.evalCode.getD [])).passState e t

/-- The first event of `forkedRule`: both transitions get their threads. -/
theorem explored_iff_forkedRule :
    ∃ visits c₁, injectEventWith forkedRule (backtrackIsNotNeeded forkedRule) forking 4
        (Ctx.init Val) = some (visits, c₁) ∧
      ∃ c c', (0, c) ∈ visits ∧
        simulate forkedRule forking 4 c.si.size false (c.atPass forking 0 0) = some (2, c') ∧
        Explored forkedRule forking false c.si.size (c.atPass forking 0 0) c' := by
  have hrun : ((injectEventWith forkedRule (backtrackIsNotNeeded forkedRule) forking 4
      (Ctx.init Val)).any fun q => q.1.any fun v => v.1 == 0 &&
        (simulate forkedRule forking 4 v.2.si.size false (v.2.atPass forking 0 0)).any fun p =>
          p.1 == 2) = true := by
    decide +kernel
  obtain ⟨⟨visits, c₁⟩, hq, hvisit⟩ := (Option.any_eq_true _ _).mp hrun
  obtain ⟨⟨t, c⟩, hmem, hv⟩ := List.any_eq_true.mp hvisit
  obtain ⟨ht, hsim⟩ := Bool.and_eq_true_iff.mp hv
  obtain rfl := beq_iff_eq.mp ht
  obtain ⟨⟨ret, c'⟩, h, hret⟩ := (Option.any_eq_true _ _).mp hsim
  obtain rfl := beq_iff_eq.mp hret
  exact ⟨visits, c₁, hq, c, c', hmem, h, (explored_iff h).mpr (nothingLost_of_nonneg h (by decide))⟩

/-- The state instance `s` of the state 1 of `forkedRule` whose branch is refused. -/
def Ctx.forkRefused (s : Nat) (c : Ctx Val) : Bool :=
  let c₁ := c.execAction forkedRule forking s
  (c₁.stateOf forkedRule s).trans == [⟨0, none, 2⟩, ⟨1, some [1], 3⟩] &&
    (c₁.checkLock forkedRule s false).any fun c₂ =>
      let c₃ := (c₂.newState 2 s).execAction forkedRule forking c₂.si.size
      (c₂.stateOf forkedRule s).trans == [⟨0, none, 2⟩, ⟨1, some [1], 3⟩] &&
        !(c₃.stateOf forkedRule c₂.si.size).trans.isEmpty &&
        (c₃.checkLock forkedRule c₂.si.size false).isNone

/-- Its exploration has the thread of the second transition. -/
theorem threads_of_forkRefused {s : Nat} {c c' : Ctx Val} {dead : Bool} {log : List Step}
    (hf : c.forkRefused s = true) (hx : Explores forkedRule forking false s c dead log c') :
    Step.threads log = [(s, ⟨1, some [1], 3⟩)] := by
  simp only [Ctx.forkRefused, Bool.and_eq_true, beq_iff_eq, Option.any_eq_true] at hf
  obtain ⟨htrans, c₂, hl, ⟨htrans₂, hne⟩, hnone⟩ := hf
  rw [Bool.not_eq_true', List.isEmpty_eq_false_iff] at hne
  rw [Option.isNone_iff_eq_none] at hnone
  cases hx with
  | dead h =>
    rw [htrans] at h
    cases h
  | pruned _ h =>
    rw [hl] at h
    cases h
  | loop _ h hx =>
    obtain rfl := Option.some.inj (hl.symm.trans h)
    rw [htrans₂] at hx
    cases hx with
    | thread h => exact absurd rfl h
    | skip _ h => exact absurd rfl h
    | dead _ _ hb =>
      cases hb with
      | dead h => exact absurd h hne
      | loop _ h => cases hnone.symm.trans h
    | branch _ _ hb hx =>
      cases hb with
      | pruned _ _ =>
        cases hx with
        | thread _ hx =>
          cases hx
          rfl
        | skip h => cases h
        | dead h => cases h
        | branch h => cases h
      | loop _ h => cases hnone.symm.trans h

/-- At the second event the branch is refused, since the first rule instance has the lock, and the
transition behind it gets no thread. -/
theorem not_explored :
    ∃ c₀ visits c₁, Reach forkedRule (backtrackIsNotNeeded forkedRule) c₀ ∧
      injectEventWith forkedRule (backtrackIsNotNeeded forkedRule) forking 4 c₀ =
        some (visits, c₁) ∧
      ∃ c c' ret, (3, c) ∈ visits ∧
        simulate forkedRule forking 4 c.si.size false (c.atPass forking 1 3) = some (ret, c') ∧
        ¬ Explored forkedRule forking false c.si.size (c.atPass forking 1 3) c' := by
  have hrun : ((injectEvents forkedRule (backtrackIsNotNeeded forkedRule) 4 [forking]
      (Ctx.init Val)).any fun c₀ =>
        (injectEventWith forkedRule (backtrackIsNotNeeded forkedRule) forking 4 c₀).any fun q =>
          q.1.any fun v => v.1 == 3 && (v.2.atPass forking 1 3).forkRefused v.2.si.size &&
            (simulate forkedRule forking 4 v.2.si.size false (v.2.atPass forking 1 3)).any fun p =>
              newThreads (v.2.atPass forking 1 3) p.2 == []) = true := by
    decide +kernel
  obtain ⟨c₀, hc₀, hrun⟩ := (Option.any_eq_true _ _).mp hrun
  obtain ⟨⟨visits, c₁⟩, hq, hvisit⟩ := (Option.any_eq_true _ _).mp hrun
  obtain ⟨⟨t, c⟩, hmem, hv⟩ := List.any_eq_true.mp hvisit
  simp only [Bool.and_eq_true, beq_iff_eq] at hv
  obtain ⟨⟨rfl, hf⟩, hsim⟩ := hv
  obtain ⟨⟨ret, c'⟩, h, hnone⟩ := (Option.any_eq_true _ _).mp hsim
  refine ⟨c₀, visits, c₁, Run.init.injectEvents _ _ _ hc₀, hq, c, c', ret, hmem, h, ?_⟩
  rintro ⟨dead, log, c₁, hx, hthreads, -⟩
  rw [threads_of_forkRefused hf hx, beq_iff_eq.mp hnone] at hthreads
  cases hthreads

end Orchids
