import Orchids.Engine.Accounts

/-!
# Rule instances that reached a terminal state

`mark_dead_rule` marks the threads of its rule instance in three queues, and only reports those
that are in the new queue ("Forgotten thread ?").

* `DeadInv`: a state instance in a terminal state has a killed rule instance, and a killed rule
  instance has only killed threads.
* `dead_of_noForgotten`: in a run that forgets no thread, the threads of a rule instance that has
  reached a terminal state are only reaped.
* `not_dead`: a run in which such a thread is evaluated.
-/

namespace Orchids

variable {V : Type}

/-! ## What is kept of the marks -/

/-- No record is added, no thread comes back, and no mark is taken away. -/
structure Keeps (c c' : Ctx V) : Prop where
  grows : Grows c c'
  states : c'.si.size = c.si.size
  live : ∀ t, c'.thr.live t = true → c.thr.live t = true
  killed : ∀ t, (c.thr.cell t).killed = true → (c'.thr.cell t).killed = true
  ruleKilled : ∀ r, (c'.ri.cell r).killed = (c.ri.cell r).killed
  forgotten : c'.forgotten = c.forgotten

namespace Keeps

variable {c c' c'' : Ctx V}

theorem refl (c : Ctx V) : Keeps c c :=
  ⟨.refl c, rfl, fun _ => id, fun _ => id, fun _ => rfl, rfl⟩

/-- Only the queues change. -/
theorem of_eq (ht : c'.thr = c.thr) (hs : c'.si = c.si) (hr : c'.ri = c.ri)
    (hf : c'.forgotten = c.forgotten) : Keeps c c' := by
  refine ⟨⟨?_, ?_, ?_⟩, by rw [hs], fun t => by rw [ht]; exact id, fun t => by rw [ht]; exact id,
    fun r => by rw [hr], hf⟩
  · rw [ht]
    exact .refl _
  · rw [hs]
    exact .refl _
  · rw [hr]
    exact .refl _

theorem trans (h : Keeps c c') (h' : Keeps c' c'') : Keeps c c'' :=
  ⟨h.grows.trans h'.grows, h'.states.trans h.states, fun t ht => h.live t (h'.live t ht),
    fun t ht => h'.killed t (h.killed t ht), fun r => (h'.ruleKilled r).trans (h.ruleKilled r),
    h'.forgotten.trans h.forgotten⟩

end Keeps

theorem keeps_vmExec (vm : Vm V) (s : Nat) (code : List Nat) (c : Ctx V) :
    Keeps c (c.vmExec vm s code) := by
  refine ⟨grows_vmExec vm s code c, si_size_vmExec vm s code c, fun t ht => ?_, fun t ht => ?_,
    fun _ => rfl, rfl⟩
  · simpa [Ctx.vmExec] using ht
  · simp [Ctx.vmExec, ht]

theorem keeps_killThread (t : Nat) (c : Ctx V) : Keeps c (c.killThread t) := by
  refine ⟨grows_killThread t c, rfl, fun b hb => ?_, fun b hb => ?_, fun _ => rfl, rfl⟩
  · simpa [Ctx.killThread] using hb
  · unfold Ctx.killThread
    rw [Heap.cell_modify]
    split
    · rfl
    · exact hb

theorem keeps_beginVisit (curTime t : Nat) (c : Ctx V) : Keeps c (c.beginVisit curTime t) := by
  have hcur : Keeps c { c with currentTail := some t } := .of_eq rfl rfl rfl rfl
  unfold Ctx.beginVisit
  simp only
  split
  · exact hcur.trans (keeps_killThread t _)
  · exact hcur

theorem keeps_bumpTail (q : Option Nat) (c : Ctx V) : Keeps c (c.bumpTail q) := by
  unfold Ctx.bumpTail
  cases q with
  | none => exact .refl c
  | some q =>
    refine ⟨⟨.modify _ _ _ rfl, .refl _, .refl _⟩, rfl, fun b hb => ?_, fun b hb => ?_,
      fun _ => rfl, rfl⟩
    · simpa using hb
    · rwa [c.thr.proj_modify q b _ WaitThread.killed rfl]

/-- A change of one link. -/
theorem keeps_setNext (a : Nat) (p : Option Nat) (c : Ctx V) :
    Keeps c { c with thr := c.thr.modify a fun t => { t with next := p } } := by
  refine ⟨⟨.modify _ _ _ rfl, .refl _, .refl _⟩, rfl, fun b hb => ?_, fun b hb => ?_,
    fun _ => rfl, rfl⟩
  · simpa using hb
  · rwa [c.thr.proj_modify a b _ WaitThread.killed rfl]

theorem keeps_mergeQueues (c : Ctx V) : Keeps c c.mergeQueues := by
  unfold Ctx.mergeQueues
  cases c.newQh with
  | none => exact .of_eq rfl rfl rfl rfl
  | some p =>
    cases c.newQt with
    | none => exact .of_eq rfl rfl rfl rfl
    | some q => exact (keeps_setNext q c.retrigQh c).trans (.of_eq rfl rfl rfl rfl)

theorem keeps_commitAt (t : Nat) (c : Ctx V) : Keeps c (c.commitAt t) := by
  unfold Ctx.commitAt
  split
  · unfold Ctx.commitNew
    simp only
    have hb := keeps_bumpTail c.retrigQt c
    generalize c.bumpTail c.retrigQt = c₁ at hb
    split
    · have hb' := hb.trans (keeps_bumpTail c₁.newQt c₁)
      generalize c₁.bumpTail c₁.newQt = c₂ at hb'
      refine hb'.trans ?_
      split
      · exact (keeps_setNext _ c₂.retrigQh c₂).trans (.of_eq rfl rfl rfl rfl)
      · exact .of_eq rfl rfl rfl rfl
    · exact hb.trans (.of_eq rfl rfl rfl rfl)
  · exact .refl c

theorem keeps_requeue (t : Nat) (c : Ctx V) : Keeps c (c.requeue t) := by
  unfold Ctx.requeue
  simp only
  split
  · rename_i q _ _
    refine (keeps_setNext q (some t) c).trans ((keeps_setNext t none _).trans ?_)
    exact .of_eq rfl rfl rfl rfl
  · exact (keeps_setNext t none c).trans (.of_eq rfl rfl rfl rfl)

theorem keeps_linkRuleInst (r : Nat) (ret : Int) (c : Ctx V) : Keeps c (c.linkRuleInst r ret) := by
  unfold Ctx.linkRuleInst
  refine Keeps.trans ?_ (keeps_bumpTail _ _)
  refine ⟨⟨.refl _, .refl _, .modify _ _ _ rfl⟩, rfl, fun _ => id, fun _ => id, fun b => ?_, rfl⟩
  exact c.ri.proj_modify r b _ RuleInst.killed rfl

section

variable [SyncValue V] (rules : RuleSet)

theorem keeps_addLock (s : Nat) (c : Ctx V) : Keeps c (c.addLock rules s) := by
  refine ⟨grows_addLock rules s c, rfl, fun _ => id, fun _ => id, fun b => ?_, rfl⟩
  exact c.ri.proj_modify _ b _ RuleInst.killed rfl

theorem keeps_freeRuleInstance (r : Nat) (c : Ctx V) : Keeps c (c.freeRuleInstance rules r) := by
  have hg := grows_freeRuleInstance rules r c
  obtain ⟨ae, hd, tl, n, l, heq⟩ := freeRuleInstance_eq rules r c
  rw [heq] at hg ⊢
  exact ⟨hg, Heap.size_foldl_free _ _, fun _ => id, fun _ => id,
    fun b => by rw [Heap.cell_free], rfl⟩

/-- The end of a thread adds a mark to its rule instance if it was the last thread. -/
theorem dropThread_killed (t : Nat) (c : Ctx V) (r : Nat) :
    ((c.dropThread rules t).ri.cell r).killed = true ↔
      (c.ri.cell r).killed = true ∨ r = c.ruleInstOf t ∧ (c.ri.cell r).threads = 1 := by
  have hdown : ((c.countDown (c.ruleInstOf t)).ri.cell r).killed = (c.ri.cell r).killed :=
    c.ri.proj_modify _ r _ RuleInst.killed rfl
  have hkill : (((c.countDown (c.ruleInstOf t)).killRuleInst (c.ruleInstOf t)).ri.cell r).killed =
      true ↔ (c.ri.cell r).killed = true ∨ r = c.ruleInstOf t := by
    unfold Ctx.killRuleInst
    rw [Heap.cell_modify]
    by_cases hr : r = c.ruleInstOf t
    · simp [hr]
    · simp [hr, hdown]
  rcases dropThread_cases rules t c with ⟨hone, heq⟩ | ⟨hone, _, heq⟩ | ⟨hone, _, heq⟩
  · rw [heq]
    refine (Bool.eq_iff_iff.mp hdown).trans ⟨.inl, fun hr => hr.resolve_right ?_⟩
    rintro ⟨rfl, hr⟩
    exact hone hr
  · rw [heq, hkill]
    refine or_congr_right ⟨fun hr => ⟨hr, hr ▸ hone⟩, And.left⟩
  · rw [heq]
    obtain ⟨ae, hd, tl, n, l, heq⟩ := freeRuleInstance_eq rules (c.ruleInstOf t)
      (((c.countDown (c.ruleInstOf t)).killRuleInst (c.ruleInstOf t)).unlinkRuleInst
        (c.ruleInstOf t))
    rw [heq, Heap.cell_free]
    exact hkill.trans (or_congr_right ⟨fun hr => ⟨hr, hr ▸ hone⟩, And.left⟩)

theorem reapThread_forgotten (t : Nat) (p : Option Nat) (c : Ctx V) :
    (c.reapThread rules t p).forgotten = c.forgotten := (dropThread_thr rules t c).2

theorem keeps_finishRuleInst (r : Nat) (ret : Int) (c : Ctx V) :
    Keeps c (c.finishRuleInst rules r ret) := by
  unfold Ctx.finishRuleInst
  split
  · exact keeps_freeRuleInstance rules r c
  · exact keeps_linkRuleInst r ret c

end

theorem keeps_countPass (t : Nat) (c : Ctx V) : Keeps c (c.countPass t) := by
  have hcount : Keeps c { c with thr := c.thr.modify t fun x => { x with pass := x.pass + 1 } } := by
    refine ⟨⟨.modify _ _ _ rfl, .refl _, .refl _⟩, rfl, fun b hb => ?_, fun b hb => ?_,
      fun _ => rfl, rfl⟩
    · simpa using hb
    · rwa [c.thr.proj_modify t b _ WaitThread.killed rfl]
  have hdate : ∀ (r : Nat) (c : Ctx V), Keeps c (c.setCreationDate r) := by
    intro r c
    unfold Ctx.setCreationDate
    refine ⟨⟨.refl _, .refl _, .modify _ _ _ rfl⟩, rfl, fun _ => id, fun _ => id, fun a => ?_, rfl⟩
    exact c.ri.proj_modify r a _ RuleInst.killed rfl
  unfold Ctx.countPass
  simp only
  split
  · exact hcount.trans (hdate _ _)
  · exact hcount

theorem keeps_bindEvent (e s : Nat) (c : Ctx V) : Keeps c (c.bindEvent e s) :=
  ⟨grows_bindEvent e s c, by simp [Ctx.bindEvent], fun _ => id, fun _ => id, fun _ => rfl, rfl⟩

theorem keeps_beginEvent (event : List (Nat × V)) (c : Ctx V) : Keeps c (c.beginEvent event) :=
  .of_eq rfl rfl rfl rfl

theorem keeps_endEvent (event : List (Nat × V)) (e : Nat) (c : Ctx V) :
    Keeps c (c.endEvent event e) := by
  unfold Ctx.endEvent
  simp only
  split
  · exact .of_eq rfl rfl rfl rfl
  · split <;> exact .of_eq rfl rfl rfl rfl

/-! ## Terminal states and marks -/

/-- A state instance in a terminal state has a killed rule instance, but for one that is being
created, and a killed rule instance has only killed threads. -/
structure DeadInv (rules : RuleSet) (pending : Option Nat) (c : Ctx V) : Prop where
  lt : ∀ t, c.thr.live t = true → t < c.thr.size
  states : ∀ s, s < c.si.size → pending ≠ some s → (c.stateOf rules s).trans = [] →
    (c.ri.cell (c.si.cell s).ruleInstance).killed = true
  threads : ∀ t, c.thr.live t = true → (c.ri.cell (c.ruleInstOf t)).killed = true →
    (c.thr.cell t).killed = true

namespace DeadInv

variable {rules : RuleSet} {p cr : Option Nat} {c c' : Ctx V} {r s : Nat}

theorem keeps (h : DeadInv rules p c) (hw : Wf c.records cr) (hk : Keeps c c') :
    DeadInv rules p c' := by
  refine ⟨fun t ht => lt_of_lt_of_le (h.lt t (hk.live t ht)) hk.grows.thr.size_le,
    fun s hs hp hterm => ?_, fun t ht hr => ?_⟩
  · rw [hk.states] at hs
    have ho := hw.state_of hs
    rw [hk.grows.ruleInstance hs, hk.ruleKilled]
    exact h.states s hs hp (stateOf_grows rules ho hk.grows ▸ hterm)
  · have hl := hk.live t ht
    rw [hk.grows.ruleInstOf hw (h.lt t hl), hk.ruleKilled] at hr
    exact hk.killed t (h.threads t hl hr)

/-- A state instance that is not in a terminal state is not an exception. -/
theorem enter (h : DeadInv rules (some s) c) (hs : (c.stateOf rules s).trans ≠ []) :
    DeadInv rules none c := by
  refine ⟨h.lt, fun b hb _ hterm => h.states b hb ?_ hterm, h.threads⟩
  rintro heq
  obtain rfl := Option.some.inj heq
  exact hs hterm

theorem newState (h : DeadInv rules none c) (hw : Wf c.records cr) (dest s : Nat) :
    DeadInv rules (some c.si.size) (c.newState dest s) := by
  have hg := grows_newState dest s c
  have hkilled : ∀ b, ((c.newState dest s).ri.cell b).killed = (c.ri.cell b).killed := fun b =>
    c.ri.proj_modify _ b _ RuleInst.killed rfl
  refine ⟨h.lt, fun b hb hp hterm => ?_, fun t ht hr => ?_⟩
  · have hb' : b < c.si.size := by
      have hlt : b < c.si.size + 1 := by simpa [Ctx.newState] using hb
      have hne : b ≠ c.si.size := fun heq => hp (congrArg some heq.symm)
      omega
    rw [hg.ruleInstance hb', hkilled]
    exact h.states b hb' (fun heq => by cases heq)
      (stateOf_grows rules (hw.state_of hb') hg ▸ hterm)
  · rw [hg.ruleInstOf hw (h.lt t ht), hkilled] at hr
    exact h.threads t ht hr

theorem newRuleInst (h : DeadInv rules none c) (hw : Wf c.records none) (k : Nat) :
    DeadInv rules (some c.si.size) (c.newRuleInst k) := by
  have hg := grows_newRuleInst k c
  have hkilled : ∀ b, b < c.ri.size →
      ((c.newRuleInst k).ri.cell b).killed = (c.ri.cell b).killed := fun b hb =>
    congrArg RuleInst.killed (c.ri.cell_alloc_of_lt _ hb)
  refine ⟨h.lt, fun b hb hp hterm => ?_, fun t ht hr => ?_⟩
  · have hb' : b < c.si.size := by
      have hlt : b < c.si.size + 1 := by simpa [Ctx.newRuleInst] using hb
      have hne : b ≠ c.si.size := fun heq => hp (congrArg some heq.symm)
      omega
    have ho := hw.state_of hb'
    rw [hg.ruleInstance hb', hkilled _ ho.rule_lt]
    exact h.states b hb' (fun heq => by cases heq) (stateOf_grows rules ho hg ▸ hterm)
  · have ho := hw.thread_of (h.lt t ht)
    rw [hg.ruleInstOf hw (h.lt t ht), hkilled _ ho.rule_lt] at hr
    exact h.threads t ht hr

/-- A new thread of a rule instance that is not killed. -/
theorem newThread (h : DeadInv rules none c) (hw : Wf c.records cr) (ho : Of c r s)
    (hr : (c.ri.cell r).killed = false) (clock : Ctx V → Nat) (onlyOnce : Bool) (tr : Trans) :
    DeadInv rules none (c.newThread clock s onlyOnce tr) := by
  have hg := grows_newThread clock s onlyOnce tr c
  have hacc := congrArg AccountView.live (accounts_newThread clock s onlyOnce tr c)
  have hlive : ∀ t, (c.newThread clock s onlyOnce tr).thr.live t = true →
      t = c.thr.size ∨ c.thr.live t = true := by
    intro t ht
    by_cases htt : t = c.thr.size
    · exact .inl htt
    · exact .inr (((congrFun hacc t).trans (Function.update_of_ne htt _ _)).symm.trans ht)
  have hsz := congrArg RecordView.states (records_newThread clock s onlyOnce tr c)
  have hkilled : ∀ b, ((c.newThread clock s onlyOnce tr).ri.cell b).killed =
      (c.ri.cell b).killed := by
    intro b
    unfold Ctx.newThread Ctx.pushNew
    cases c.newQt <;> exact c.ri.proj_modify _ b _ RuleInst.killed rfl
  have hthr : ∀ t, t < c.thr.size → ((c.newThread clock s onlyOnce tr).thr.cell t).killed =
      (c.thr.cell t).killed := by
    intro t ht
    unfold Ctx.newThread Ctx.pushNew
    cases c.newQt with
    | none => exact congrArg WaitThread.killed (c.thr.cell_alloc_of_lt _ ht)
    | some q =>
      refine (Heap.proj_modify _ q t _ WaitThread.killed rfl).trans ?_
      exact congrArg WaitThread.killed (c.thr.cell_alloc_of_lt _ ht)
  refine ⟨fun t ht => ?_, fun b hb _ hterm => ?_, fun t ht hk => ?_⟩
  · rw [thr_size_newThread]
    rcases hlive t ht with rfl | hl
    · exact Nat.lt_succ_self _
    · exact (h.lt t hl).trans (Nat.lt_succ_self _)
  · have hb' : b < c.si.size := lt_of_lt_of_eq hb hsz
    rw [hg.ruleInstance hb', hkilled]
    exact h.states b hb' (fun heq => by cases heq)
      (stateOf_grows rules (hw.state_of hb') hg ▸ hterm)
  · rw [hkilled] at hk
    rcases hlive t ht with rfl | hl
    · have hrec := records_newThread clock s onlyOnce tr c
      have howner : (c.newThread clock s onlyOnce tr).ruleInstOf c.thr.size = r := by
        refine (congrArg (fun q => RecordView.ownerOf q c.thr.size) hrec).trans ?_
        refine Eq.trans ?_ ho.ruleInstance
        exact congrArg c.records.ruleInstance (Function.update_self ..)
      rw [howner, hr] at hk
      cases hk
    · rw [hg.ruleInstOf hw (h.lt t hl)] at hk
      rw [hthr t (h.lt t hl)]
      exact h.threads t hl hk

/-- The rule instance of a terminal state is marked, and so are its threads in the retrigger queue
and in the rest of the current queue; there was no message about a thread of the new queue. -/
theorem markDeadRule {new retrig rest : List Nat} (h : DeadInv rules (some s) c)
    (hw : Wf c.records cr) (ho : Of c r s) (hq : Queues c.queues new retrig rest)
    (hcur : rest = [] ∨ c.currentTail = rest.head?)
    (hf : (c.markDeadRule r).forgotten = 0) : DeadInv rules none (c.markDeadRule r) := by
  have hg := grows_markDeadRule r c
  obtain ⟨hnew, hretrig, hrest⟩ := hq.threadsFrom_eq
  have hkilled : ∀ b, ((c.markDeadRule r).ri.cell b).killed = true ↔
      b = r ∨ (c.ri.cell b).killed = true := by
    intro b
    unfold Ctx.markDeadRule
    rw [Heap.cell_modify]
    by_cases hb : b = r <;> simp [hb]
  have hthr : ∀ t, ((c.markDeadRule r).thr.cell t).killed =
      ((c.thr.cell t).killed || decide (t ∈ c.markedThreads r)) := by
    intro t
    simp [Ctx.markDeadRule]
  have hlive : (c.markDeadRule r).thr.live = c.thr.live := by
    simp [Ctx.markDeadRule]
  have hnone : c.forgottenThreads r = [] := by
    have hsum : c.forgotten + (c.forgottenThreads r).length = 0 := hf
    exact List.length_eq_zero_iff.mp (by omega)
  refine ⟨fun t ht => ?_, fun b hb _ hterm => ?_, fun t ht hk => ?_⟩
  · exact lt_of_lt_of_le (h.lt t (hlive ▸ ht)) hg.thr.size_le
  · have hb' : b < c.si.size := hb
    rw [hg.ruleInstance hb', hkilled]
    by_cases hbs : b = s
    · rw [hbs]
      exact .inl ho.ruleInstance
    · refine .inr (h.states b hb' (fun heq => hbs (Option.some.inj heq).symm) ?_)
      exact stateOf_grows rules (hw.state_of hb') hg ▸ hterm
  · rw [hlive] at ht
    have hlt := h.lt t ht
    rw [hg.ruleInstOf hw hlt, hkilled] at hk
    rw [hthr, Bool.or_eq_true, decide_eq_true_iff]
    by_cases hold : (c.thr.cell t).killed = true
    · exact .inl hold
    · have howner : c.ruleInstOf t = r := hk.resolve_right fun hr => hold (h.threads t ht hr)
      refine .inr ?_
      have hmark : t ∈ retrig ∨ t ∈ rest → t ∈ c.markedThreads r := by
        intro hm
        refine List.mem_filter.mpr ⟨?_, by simpa using howner⟩
        rcases hm with hm | hm
        · simp [hretrig, hm]
        · rcases hcur with rfl | hcur
          · cases hm
          · simp [hcur, hrest, hm]
      have hmem := (hq.live t).mp ht
      simp only [List.mem_append] at hmem
      rcases hmem with hm | hm
      · -- in the new queue: marked, or there had been a message
        by_contra hnot
        have hmem : t ∈ c.forgottenThreads r := by
          refine List.mem_filter.mpr ⟨hnew ▸ hm, ?_⟩
          simpa [howner, hnot] using hold
        rw [hnone] at hmem
        cases hmem
      · exact hmark hm

/-- The end of a thread; a rule instance that ends with it has no other thread. -/
theorem reapThread [SyncValue V] {t : Nat} (h : DeadInv rules none c) (hv : Visiting t c)
    (hc : Counted c.records c.accounts) (q : Option Nat) :
    DeadInv rules none (c.reapThread rules t q) := by
  have hg := grows_reapThread rules t q c
  have hacc := accounts_reapThread rules t q c
  have hlive : (c.reapThread rules t q).thr.live = Function.update c.thr.live t false :=
    congrArg AccountView.live hacc
  have hother : ∀ b, (c.reapThread rules t q).thr.live b = true → b ≠ t ∧ c.thr.live b = true := by
    intro b hb
    rw [hlive] at hb
    by_cases hbt : b = t
    · simp [hbt] at hb
    · exact ⟨hbt, (Function.update_of_ne hbt _ _).symm.trans hb⟩
  have hri : ∀ b, ((c.reapThread rules t q).ri.cell b).killed = true ↔
      (c.ri.cell b).killed = true ∨ b = c.ruleInstOf t ∧ (c.ri.cell b).threads = 1 :=
    dropThread_killed rules t c
  have hkilled : ∀ b, ((c.reapThread rules t q).thr.cell b).killed = (c.thr.cell b).killed := by
    intro b
    have hfree : ∀ d : Ctx V, ((d.freeThread t q).thr.cell b).killed = (d.thr.cell b).killed := by
      intro d
      unfold Ctx.freeThread
      cases d.curRetrigQt with
      | none => exact congrArg (fun f => WaitThread.killed (f b)) (d.thr.cell_free t)
      | some p =>
        refine (congrArg (fun f => WaitThread.killed (f b)) (Heap.cell_free _ t)).trans ?_
        exact Heap.proj_modify _ p b _ WaitThread.killed rfl
    exact (hfree _).trans (by rw [(dropThread_thr rules t c).1])
  have hsz : (c.reapThread rules t q).si.size = c.si.size := by
    unfold Ctx.reapThread
    refine (congrArg RecordView.states (records_freeThread t q (c.dropThread rules t))).trans ?_
    rcases records_dropThread rules t c with heq | ⟨_, _, heq⟩ <;>
      exact congrArg RecordView.states heq
  -- what is marked now was marked, or has no thread any more
  have hmark : ∀ b, (c.reapThread rules t q).thr.live b = true →
      ((c.reapThread rules t q).ri.cell (c.ruleInstOf b)).killed = true →
      (c.ri.cell (c.ruleInstOf b)).killed = true := by
    intro b hl hr
    refine ((hri _).mp hr).resolve_right ?_
    rintro ⟨hbt, hone⟩
    have hdown : Counted c.records (c.accounts.down (c.ruleInstOf t) t) := hc.reap hv.lt hv.live
    refine hdown.not_live (hv.wf.thread_of hv.lt).rule_lt ?_ b (h.lt b (hother b hl).2)
      ((congrFun hlive b).symm.trans hl) hbt
    refine (Function.update_self ..).trans ?_
    show (c.ri.cell (c.ruleInstOf t)).threads - 1 = 0
    rw [← hbt]
    omega
  refine ⟨fun b hb => lt_of_lt_of_le (h.lt b (hother b hb).2) hg.thr.size_le,
    fun b hb hp hterm => ?_, fun b hb hr => ?_⟩
  · rw [hsz] at hb
    rw [hg.ruleInstance hb]
    exact (hri _).mpr (.inl
      (h.states b hb hp (stateOf_grows rules (hv.wf.state_of hb) hg ▸ hterm)))
  · obtain ⟨hbt, hl⟩ := hother b hb
    rw [hg.ruleInstOf hv.wf (h.lt b hl)] at hr
    rw [hkilled]
    exact h.threads b hl (hmark b hb hr)

end DeadInv

/-! ## The steps of the engine -/

section

variable {rules : RuleSet} {r s : Nat} {cr p : Option Nat} {c c' : Ctx V} {retrig rest : List Nat}

/-- A simulation for the rule instance `r` that has not come to a terminal state, while the event
loop is at the head of `rest`. -/
structure Marking (rules : RuleSet) (cr : Option Nat) (r : Nat) (retrig rest : List Nat)
    (p : Option Nat) (c : Ctx V) : Prop where
  wf : Wf c.records cr
  queues : ∃ new, Queues c.queues new retrig rest
  current : rest = [] ∨ c.queues.currentTail = rest.head?
  dead : c.forgotten = 0 → DeadInv rules p c ∧ (c.ri.cell r).killed = false

theorem Marking.keeps (h : Marking rules cr r retrig rest p c) (hk : Keeps c c')
    (hr : c'.records = c.records) (hq : c'.queues = c.queues) :
    Marking rules cr r retrig rest p c' := by
  refine ⟨by rw [hr]; exact h.wf, by rw [hq]; exact h.queues, by rw [hq]; exact h.current, ?_⟩
  intro hf
  rw [hk.forgotten] at hf
  exact ⟨(h.dead hf).1.keeps h.wf hk, by rw [hk.ruleKilled]; exact (h.dead hf).2⟩

theorem Marking.newState (h : Marking rules cr r retrig rest none c) (ho : Of c r s) (dest : Nat) :
    Marking rules cr r retrig rest (some c.si.size) (c.newState dest s) := by
  refine ⟨?_, h.queues, h.current, fun hf => ⟨(h.dead hf).1.newState h.wf dest s, ?_⟩⟩
  · rw [records_newState, ho.ruleInstance]
    exact h.wf.addState ho.rule_lt
  · exact (c.ri.proj_modify _ r _ RuleInst.killed rfl).trans (h.dead hf).2

theorem Marking.newThread (h : Marking rules cr r retrig rest none c) (ho : Of c r s)
    (clock : Ctx V → Nat) (onlyOnce : Bool) (tr : Trans) :
    Marking rules cr r retrig rest none (c.newThread clock s onlyOnce tr) := by
  obtain ⟨new, hq⟩ := h.queues
  have hpush := queues_newThread clock s onlyOnce tr hq.newPtr
  have hsame : (c.newThread clock s onlyOnce tr).forgotten = c.forgotten ∧
      ∀ b, ((c.newThread clock s onlyOnce tr).ri.cell b).killed = (c.ri.cell b).killed := by
    unfold Ctx.newThread Ctx.pushNew
    cases c.newQt <;> exact ⟨rfl, fun b => c.ri.proj_modify _ b _ RuleInst.killed rfl⟩
  refine ⟨?_, ⟨_, by rw [hpush]; exact hq.push⟩, by rw [hpush]; exact h.current, fun hf => ?_⟩
  · rw [records_newThread]
    exact h.wf.addThread ho.lt
  · rw [hsame.1] at hf
    obtain ⟨hd, hr⟩ := h.dead hf
    exact ⟨hd.newThread h.wf ho hr clock onlyOnce tr, (hsame.2 r).trans hr⟩

/-- A state instance that has transitions. -/
theorem Marking.enter (h : Marking rules cr r retrig rest (some s) c)
    (hterm : (c.stateOf rules s).trans ≠ []) : Marking rules cr r retrig rest none c :=
  { h with dead := fun hf => (h.dead hf).imp_left fun hd => hd.enter hterm }

end

section

variable [SyncValue V] {rules : RuleSet} {prune : Nat → Ctx V → Bool} {call : Call V}
  {fuel r s e t : Nat} {onlyOnce : Bool} {cr p : Option Nat} {c c' : Ctx V}
  {new retrig rest : List Nat}

/-- A simulation keeps the marks: it ends where it comes to a terminal state. -/
theorem simulate_dead (ho : Of c r s) (h : Marking rules cr r retrig rest (some s) c) {ret : Int}
    (heq : simulate rules call fuel s onlyOnce c = some (ret, c')) :
    c'.forgotten = 0 → DeadInv rules none c' := by
  have hinv : SimRules rules call r onlyOnce
      (fun s => Marking rules cr r retrig rest (some s)) (Marking rules cr r retrig rest none)
      (fun c => c.forgotten = 0 → DeadInv rules none c) := by
    constructor
    · intro c s code _ h _
      exact h.keeps (keeps_vmExec _ _ _ c) (records_vmExec ..) (queues_vmExec ..)
    · intro c s ho h _ hf
      obtain ⟨new, hq⟩ := h.queues
      have hsum : c.forgotten + (c.forgottenThreads r).length = 0 := hf
      exact (h.dead (by omega)).1.markDeadRule h.wf ho hq h.current hf
    · exact fun c s _ h hterm _ hf => ((h.enter hterm).dead hf).1
    · exact fun c s _ h hterm => h.enter hterm
    · intro c s _ h hterm _ _ _ _
      exact (h.enter hterm).keeps (keeps_addLock rules s c) (records_addLock rules s c) rfl
    · intro c s code tr _ h _ _
      exact h.keeps (keeps_vmExec _ _ _ c) (records_vmExec ..) (queues_vmExec ..)
    · exact fun c s tr ho h _ _ => h.newState ho tr.dest
    · exact fun c s tr ho h _ _ => h.newThread ho call.clock onlyOnce tr
  obtain ⟨-, ⟨_, hi, _⟩ | ⟨_, hj⟩⟩ := simulate_rules hinv fuel s c ret c' ho h heq
  · exact fun hf => (hi.dead hf).1
  · exact hj

theorem startRule_dead (hw : Wf c.records none) (hq : Queues c.queues new retrig [])
    (h : c.forgotten = 0 → DeadInv rules none c) {k : Nat}
    (heq : startRule rules call fuel k c = some c') : c'.forgotten = 0 → DeadInv rules none c' := by
  obtain ⟨ret, c₁, hs, rfl⟩ := startRule_some heq
  have ho := Of.newRuleInst k c
  have hw₀ : Wf (c.newRuleInst k).records (some c.ri.size) := by
    rw [records_newRuleInst]
    exact hw.addRule
  have h₀ : Marking rules (some c.ri.size) c.ri.size retrig [] (some c.si.size)
      (c.newRuleInst k) := by
    refine ⟨hw₀, ⟨new, hq⟩, .inl rfl, fun hf => ⟨(h hf).newRuleInst hw k, ?_⟩⟩
    simp [Ctx.newRuleInst]
  obtain ⟨-, hw₁⟩ := simulate_wf ho hw₀ hs
  have h₁ := simulate_dead ho h₀ hs
  have hk := keeps_finishRuleInst rules c.ri.size ret c₁
  exact fun hf => (h₁ (hk.forgotten.symm.trans hf)).keeps hw₁ hk

theorem evaluated_dead (hw : Wf c.records none) (ht : t < c.thr.size)
    (hq : Queues c.queues new retrig rest) (hcur : c.queues.currentTail = rest.head?)
    (h : c.forgotten = 0 → DeadInv rules none c ∧ (c.ri.cell (c.ruleInstOf t)).killed = false)
    (hev : Evaluated rules prune call fuel e t c c') :
    c'.forgotten = 0 → DeadInv rules none c' := by
  have hm : Marking rules none (c.ruleInstOf t) retrig rest none c :=
    ⟨hw, ⟨new, hq⟩, .inr hcur, h⟩
  cases hev with
  | fail code hcode hret =>
    intro hf
    exact (hm.keeps (keeps_vmExec _ _ _ c) (records_vmExec ..) (queues_vmExec ..)).dead hf |>.1
  | pass code c₁ c₂ ret hcode hret hc₁ hs =>
    have hm₀ := hm.keeps (keeps_vmExec call.vm (c.thr.cell t).stateInstance code c)
      (records_vmExec ..) (queues_vmExec ..)
    have howner := (grows_vmExec call.vm (c.thr.cell t).stateInstance code c).ruleInstOf hw ht
    have hsz := si_size_vmExec call.vm (c.thr.cell t).stateInstance code c
    have hth := thr_size_vmExec call.vm (c.thr.cell t).stateInstance code c
    generalize c.vmExec call.vm (c.thr.cell t).stateInstance code = c₀ at hm₀ howner hsz hth hc₁
    have ho : Of (c₀.countPass t) (c.ruleInstOf t) (c₀.thr.cell t).stateInstance := by
      have ho₀ := (hm₀.wf.thread_of (hth ▸ ht)).grows (grows_countPass t c₀)
      rwa [howner] at ho₀
    have hm₁ := (hm₀.keeps (keeps_countPass t c₀) (records_countPass t c₀)
      (queues_countPass t c₀)).newState ho (c₀.thr.cell t).trans.dest
    rw [si_countPass] at hm₁
    have hm₂ : Marking rules none (c.ruleInstOf t) retrig rest (some c₀.si.size) c₁ := by
      rw [hc₁]
      exact hm₁.keeps (keeps_bindEvent e c₀.si.size _) (records_bindEvent e c₀.si.size _) rfl
    have ho₁ : Of c₁ (c.ruleInstOf t) c₀.si.size := by
      rw [hc₁, ← howner]
      exact hm₀.wf.passState_of (hth ▸ ht) e
    rw [← hsz] at hs
    have h₂ := simulate_dead ho₁ hm₂ hs
    obtain ⟨-, hw₂⟩ := simulate_wf ho₁ hm₂.wf hs
    split
    · have hk := keeps_killThread t c₂
      exact fun hf => (h₂ (hk.forgotten.symm.trans hf)).keeps hw₂ hk
    · exact h₂

/-- One turn of the event loop. -/
theorem evtStep_dead {curTime : Nat} (hb : base.during e (some t) c)
    (hc : Counted c.records c.accounts) (h : c.forgotten = 0 → DeadInv rules none c)
    (heq : evtStep rules prune call fuel curTime e t (c.next t) c = some c') :
    c'.forgotten = 0 → DeadInv rules none c' := by
  obtain ⟨hv, hcase⟩ := evtStep_visiting hb heq
  have hk₀ := keeps_beginVisit curTime t c
  have hc₀ : Counted (c.beginVisit curTime t).records (c.beginVisit curTime t).accounts := by
    simpa using hc
  have h₀ : (c.beginVisit curTime t).forgotten = 0 → DeadInv rules none (c.beginVisit curTime t) :=
    fun hf => (h (hk₀.forgotten.symm.trans hf)).keeps hb.1 hk₀
  obtain ⟨hw, new, retrig, rest, hq, hp⟩ := hb
  obtain ⟨rest', rfl⟩ := List.head?_eq_some_iff.mp hp
  have hq₀ := beginVisit_queues curTime hq
  have hcur : (c.beginVisit curTime t).queues.currentTail = (t :: rest').head? := by
    unfold Ctx.beginVisit
    simp only
    split <;> rfl
  rcases hcase with ⟨_, rfl⟩ | ⟨hk, c₁, hev, hv₁, hcase⟩
  · exact fun hf => (h₀ ((reapThread_forgotten rules t _ _).symm.trans hf)).reapThread hv hc₀ _
  · have h₁ : c₁.forgotten = 0 → DeadInv rules none c₁ := by
      refine evaluated_dead hv.wf hv.lt hq₀ hcur (fun hf => ⟨h₀ hf, ?_⟩) hev
      -- a thread that is evaluated is not killed, and so its rule instance is not
      by_contra hr
      rw [(h₀ hf).threads t hv.live (by simpa using hr)] at hk
      cases hk
    rcases hcase with ⟨_, hv₂, rfl⟩ | ⟨_, rfl⟩
    · have hk₂ := (keeps_killThread t c₁).trans (keeps_commitAt t _)
      have hc₂ : Counted ((c₁.killThread t).commitAt t).records
          ((c₁.killThread t).commitAt t).accounts := by
        simpa using evaluated_counted hv hc₀ hev
      intro hf
      rw [reapThread_forgotten] at hf
      exact ((h₁ (hk₂.forgotten.symm.trans hf)).keeps hv₁.wf hk₂).reapThread hv₂ hc₂ _
    · have hk₂ := (keeps_requeue t c₁).trans (keeps_commitAt t _)
      exact fun hf => (h₁ (hk₂.forgotten.symm.trans hf)).keeps hv₁.wf hk₂

/-- The marks are right as long as there was no message. -/
def dead (rules : RuleSet) : EngineInv V where
  between c := c.forgotten = 0 → DeadInv rules none c
  during _ _ c := c.forgotten = 0 → DeadInv rules none c

theorem dead_rules : EngineRules rules prune (fun _ => True) (fun _ _ _ _ => True)
    (base.and counted) (dead (V := V) rules) where
  init _ := by
    constructor <;> simp [Ctx.init]
  beginEvent event c hb h hf := (h hf).keeps hb.1.1 (keeps_beginEvent event c)
  startRule := by
    rintro call fuel e k c c' - - ⟨⟨hw, new, retrig, rest, hq, hp⟩, -⟩ h heq
    obtain rfl := List.head?_eq_none_iff.mp hp
    exact startRule_dead hw hq h heq
  mergeQueues e c hb h hf := by
    have hk := keeps_mergeQueues c
    exact (h (hk.forgotten.symm.trans hf)).keeps hb.1.1 hk
  evtStep call fuel curTime e t c c' _ hb h heq := evtStep_dead hb.1 hb.2 h heq
  endEvent event e c hb h hf := by
    have hk := keeps_endEvent event e c
    exact (h (hk.forgotten.symm.trans hf)).keeps hb.1.1 hk

/-- The rule instance `r` has a state instance in a state without transitions. -/
def Terminated (rules : RuleSet) (r : Nat) (c : Ctx V) : Prop :=
  ∃ s, s < c.si.size ∧ (c.si.cell s).ruleInstance = r ∧ (c.stateOf rules s).trans = []

instance (r : Nat) (c : Ctx V) : Decidable (Terminated rules r c) :=
  inferInstanceAs (Decidable (∃ s, s < _ ∧ _))

/-- The turn of the event loop at the thread `t` only reaps it, at any time. -/
def OnlyReaped (rules : RuleSet) (prune : Nat → Ctx V → Bool) (call : Call V) (fuel e t : Nat)
    (c : Ctx V) : Prop :=
  ∀ curTime, evtStep rules prune call fuel curTime e t (c.next t) c =
    some ((c.beginVisit curTime t).reapThread rules t (c.next t))

/-- In a run in which `mark_dead_rule` finds no thread in the new queue that is not killed, the
threads of a rule instance that has come to a terminal state are only reaped. -/
theorem dead_of_noForgotten {visits : List (Nat × Ctx V)} (hr : Reach rules prune c)
    (heq : injectEventWith rules prune call fuel c = some (visits, c')) :
    ∀ v ∈ visits, v.2.forgotten = 0 → Terminated rules (v.2.ruleInstOf v.1) v.2 →
      OnlyReaped rules prune call fuel c.ae.size v.1 v.2 := by
  have hdead : EngineRules rules prune (fun _ => True) (fun _ _ _ _ => True) (base.and counted)
    (dead (V := V) rules) := dead_rules
  have hrules := (base_rules.and counted_rules).and hdead
  have hi := hrules.run hr (fun _ _ _ _ => trivial) fun call fuel c _ => callOk_true call fuel c
  intro v hv hf ⟨s, hs, howner, hterm⟩
  obtain ⟨⟨⟨hw, new, retrig, rest, hq, hp⟩, -⟩, hd⟩ :=
    (hrules.inject trivial (callOk_true call fuel c) hi heq).2 v hv
  have hmem : v.1 ∈ new ++ (retrig ++ rest) := by
    simp [List.mem_of_head? hp]
  have hkilled : (v.2.thr.cell v.1).killed = true := by
    refine (hd hf).threads v.1 ((hq.live v.1).mpr hmem) ?_
    rw [← howner]
    exact (hd hf).states s hs (fun heq => by cases heq) hterm
  intro curTime
  unfold evtStep
  exact if_pos ((keeps_beginVisit curTime v.1 v.2).killed v.1 hkilled)

end

theorem dead_of_noForgotten_twoEvents :
    ∃ (c c' d : Ctx Val) (visits : List (Nat × Ctx Val)) (t : Nat),
      Reach twoEvents (backtrackIsNotNeeded twoEvents) c ∧
      injectEventWith twoEvents (backtrackIsNotNeeded twoEvents) passing 3 c = some (visits, c') ∧
      (t, d) ∈ visits ∧ Terminated twoEvents (d.ruleInstOf t) d ∧
      OnlyReaped twoEvents (backtrackIsNotNeeded twoEvents) passing 3 c.ae.size t d := by
  have hrun : ((injectEvents twoEvents (backtrackIsNotNeeded twoEvents) 3 [passing, passing]
      (Ctx.init Val)).any fun c =>
        (injectEventWith twoEvents (backtrackIsNotNeeded twoEvents) passing 3 c).any fun p =>
          p.1.any fun v => v.2.forgotten == 0 &&
            decide (Terminated twoEvents (v.2.ruleInstOf v.1) v.2)) = true := by
    decide +kernel
  obtain ⟨c, hc, hany⟩ := (Option.any_eq_true _ _).mp hrun
  obtain ⟨⟨visits, c'⟩, heq, hany⟩ := (Option.any_eq_true _ _).mp hany
  obtain ⟨⟨t, d⟩, hv, hvis⟩ := List.any_eq_true.mp hany
  rw [Bool.and_eq_true, beq_iff_eq, decide_eq_true_iff] at hvis
  have hr : Reach twoEvents (backtrackIsNotNeeded twoEvents) c := Run.init.injectEvents _ _ _ hc
  exact ⟨c, c', d, visits, t, hr, heq, hv, hvis.2, dead_of_noForgotten hr heq _ hv hvis.1 hvis.2⟩

/-- A rule with two ways to its end. -/
def twoWays : RuleSet :=
  [{ states := [
      { action := none, trans := [⟨1, some [0], 1⟩], havePushfield := false },
      { action := none, trans := [⟨1, some [1], 2⟩, ⟨1, some [2], 3⟩], havePushfield := true },
      { action := none, trans := [⟨1, some [3], 3⟩], havePushfield := true },
      { action := none, trans := [], havePushfield := false }]
     syncVars := [], syncLock := false }]

/-- At the third event a thread is evaluated whose rule instance came to its end at the second
one: it was in the new queue then. -/
theorem not_dead :
    ∃ (c c' d : Ctx Val) (visits : List (Nat × Ctx Val)) (t : Nat),
      Reach twoWays (backtrackIsNotNeeded twoWays) c ∧
      injectEventWith twoWays (backtrackIsNotNeeded twoWays) passing 3 c = some (visits, c') ∧
      (t, d) ∈ visits ∧ Terminated twoWays (d.ruleInstOf t) d ∧
      ¬ OnlyReaped twoWays (backtrackIsNotNeeded twoWays) passing 3 c.ae.size t d := by
  have hrun : ((injectEvents twoWays (backtrackIsNotNeeded twoWays) 3 [passing, passing]
      (Ctx.init Val)).any fun c =>
        (injectEventWith twoWays (backtrackIsNotNeeded twoWays) passing 3 c).any fun p =>
          p.1.any fun v => decide (Terminated twoWays (v.2.ruleInstOf v.1) v.2) &&
            (evtStep twoWays (backtrackIsNotNeeded twoWays) passing 3 0 c.ae.size v.1
              (v.2.next v.1) v.2).any fun d => d.thr.live v.1) = true := by
    decide +kernel
  obtain ⟨c, hc, hany⟩ := (Option.any_eq_true _ _).mp hrun
  obtain ⟨⟨visits, c'⟩, heq, hany⟩ := (Option.any_eq_true _ _).mp hany
  obtain ⟨⟨t, d⟩, hv, hvis⟩ := List.any_eq_true.mp hany
  rw [Bool.and_eq_true, decide_eq_true_iff] at hvis
  obtain ⟨d', hd', hl⟩ := (Option.any_eq_true _ _).mp hvis.2
  refine ⟨c, c', d, visits, t, Run.init.injectEvents _ _ _ hc, heq, hv, hvis.1, fun hreap => ?_⟩
  -- a thread that is only reaped is freed
  obtain rfl := Option.some.inj ((hreap 0).symm.trans hd')
  have hacc := accounts_reapThread twoWays t (d.next t) (d.beginVisit 0 t)
  have hfree := congrFun (congrArg AccountView.live hacc) t
  rw [show AccountView.live _ t = true from hl] at hfree
  simp [AccountView.down] at hfree

end Orchids
