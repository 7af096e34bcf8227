import Orchids.Engine.Core
import Orchids.Engine.Executions
import Orchids.Engine.Visits
import Orchids.Ovm.Lifetimes

/-!
# The variables of state instances

The state instances are scopes: `create_state_instance` copies the bindings that are visible in the
parent, `OP_POP` assigns in the current environment, and `OP_PUSH` reads the current environment and
then the copied one. A binding is a pointer to an object.

* `ScopeInv`: a property of the environments and the history that creations keep.
* `scoped_rules`: the steps of the engine keep it, if the executions do.
* `OfMachine`: what the byte code does is what the machine on objects does.
* `read_iff`: a read finds the value of the last assignment on the path to its state instance if and
  only if `NULL` was not assigned below a value, and the object is not released.
* `not_read`: `$x = 7 + 7; $y = $x; $x = 7`, and a read of `$y`.
-/

namespace Orchids

open Scopes ScopeEvent

variable {V : Type}

/-! ## The environments as scopes -/

/-- The environments of the state instances. -/
def Ctx.scopes (c : Ctx V) : Scopes Nat V where
  size := c.si.size
  own := fun s => (c.si.cell s).currentEnv
  copied := fun s => (c.si.cell s).inheritEnv

/-- A property of the environments and of the history. -/
abbrev ScopeProp (V : Type) := Scopes Nat V → List (ScopeEvent Nat V) → Prop

/-- It holds at the start, and creations of state instances keep it. -/
structure ScopeInv (J : ScopeProp V) : Prop where
  init : J (Ctx.init V).scopes []
  push : ∀ S h p, J S h → p < S.size → J (S.push p) (.create S.size (some p) :: h)
  pushRoot : ∀ S h, J S h → J S.pushRoot (.create S.size none :: h)

/-- Executions keep it. -/
def KeptBy (J : ScopeProp V) (vm : Vm V) : Prop :=
  ∀ c s code, s < c.si.size → J c.scopes c.history →
    J (c.scopes.setOwn s (vm c s code).env)
      (((vm c s code).accesses.map (.access s)).reverse ++ c.history)

variable {J : ScopeProp V}

/-- The environments and the history have the property. -/
def Scoped (J : ScopeProp V) (c : Ctx V) : Prop := J c.scopes c.history

theorem Scoped.stays {c c' : Ctx V} (h : Scoped J c) (hs : Stays c c')
    (hh : c'.history = c.history) : Scoped J c' := by
  have hview : c'.scopes = c.scopes := by
    unfold Ctx.scopes
    rw [hs.states, funext hs.current, funext hs.inherit]
  unfold Scoped
  rw [hview, hh]
  exact h

theorem scopes_vmExec (vm : Vm V) (s : Nat) (code : List Nat) (c : Ctx V) :
    (c.vmExec vm s code).scopes = c.scopes.setOwn s (vm c s code).env := by
  simp [Ctx.scopes, Ctx.vmExec, Scopes.setOwn, Heap.proj_modify_eq c.si _ _ StateInst.currentEnv,
    proj_modify_of_eq StateInst.inheritEnv]

theorem scopes_newState (dest s : Nat) (c : Ctx V) :
    (c.newState dest s).scopes = c.scopes.push s := by
  simp [Ctx.scopes, Ctx.newState, Scopes.push, Heap.proj_alloc_eq c.si _ StateInst.currentEnv,
    Heap.proj_alloc_eq c.si _ StateInst.inheritEnv]
  rfl

theorem scopes_newRuleInst (k : Nat) (c : Ctx V) : (c.newRuleInst k).scopes = c.scopes.pushRoot := by
  simp [Ctx.scopes, Ctx.newRuleInst, Scopes.pushRoot, Heap.proj_alloc_eq c.si _ StateInst.currentEnv,
    Heap.proj_alloc_eq c.si _ StateInst.inheritEnv]

theorem scopes_newThread (clock : Ctx V → Nat) (s : Nat) (onlyOnce : Bool) (tr : Trans) (c : Ctx V) :
    (c.newThread clock s onlyOnce tr).scopes = c.scopes := by
  obtain ⟨hcur, hinh, -⟩ := newThread_rest clock s onlyOnce tr c
  unfold Ctx.scopes
  rw [si_size_newThread, funext hcur, funext hinh]

theorem Scoped.vmExec {vm : Vm V} {c : Ctx V} (h : Scoped J c) (hvm : KeptBy J vm) {s : Nat}
    (hs : s < c.si.size) (code : List Nat) : Scoped J (c.vmExec vm s code) := by
  unfold Scoped
  rw [scopes_vmExec]
  exact hvm c s code hs h

theorem Scoped.newState (hJ : ScopeInv J) {c : Ctx V} (h : Scoped J c) {s : Nat}
    (hs : s < c.si.size) (dest : Nat) : Scoped J (c.newState dest s) := by
  unfold Scoped
  rw [scopes_newState]
  exact hJ.push _ _ s h hs

theorem Scoped.newRuleInst (hJ : ScopeInv J) {c : Ctx V} (h : Scoped J c) (k : Nat) :
    Scoped J (c.newRuleInst k) := by
  unfold Scoped
  rw [scopes_newRuleInst]
  exact hJ.pushRoot _ _ h

/-! ## What leaves the history alone -/

theorem history_pushNew (a : Nat) (c : Ctx V) : (c.pushNew a).history = c.history := by
  unfold Ctx.pushNew
  cases c.newQt <;> rfl

theorem history_bumpTail (q : Option Nat) (c : Ctx V) : (c.bumpTail q).history = c.history := by
  unfold Ctx.bumpTail
  cases q <;> rfl

theorem history_mergeQueues (c : Ctx V) : c.mergeQueues.history = c.history := by
  unfold Ctx.mergeQueues
  cases c.newQh <;> rfl

theorem history_commitAt (t : Nat) (c : Ctx V) : (c.commitAt t).history = c.history := by
  unfold Ctx.commitAt Ctx.commitNew
  simp only
  split
  · split
    · exact (history_bumpTail _ _).trans (history_bumpTail _ _)
    · exact history_bumpTail _ _
  · rfl

theorem history_beginVisit (curTime t : Nat) (c : Ctx V) :
    (c.beginVisit curTime t).history = c.history := by
  unfold Ctx.beginVisit
  simp only
  split <;> rfl

theorem history_countPass (t : Nat) (c : Ctx V) : (c.countPass t).history = c.history := by
  unfold Ctx.countPass
  simp only
  split <;> rfl

theorem history_endEvent (event : List (Nat × V)) (e : Nat) (c : Ctx V) :
    (c.endEvent event e).history = c.history := by
  unfold Ctx.endEvent
  simp only
  split
  · rfl
  · split <;> rfl

theorem Scoped.newThread {c : Ctx V} (h : Scoped J c) (clock : Ctx V → Nat) (s : Nat) (onlyOnce : Bool)
    (tr : Trans) : Scoped J (c.newThread clock s onlyOnce tr) := by
  unfold Scoped
  rw [scopes_newThread, show (c.newThread clock s onlyOnce tr).history = c.history from
    history_pushNew _ _]
  exact h

section

variable [SyncValue V] {rules : RuleSet}

theorem Scoped.freeRuleInstance {c : Ctx V} (h : Scoped J c) (r : Nat) :
    Scoped J (c.freeRuleInstance rules r) := by
  obtain ⟨ae, hd, tl, n, l, heq⟩ := freeRuleInstance_eq rules r c
  have hview : (c.freeRuleInstance rules r).scopes = c.scopes := by
    rw [heq]
    unfold Ctx.scopes
    simp only [Heap.size_foldl_free, Heap.cell_foldl_free]
  unfold Scoped
  rw [hview, heq]
  exact h

theorem Scoped.reapThread {c : Ctx V} (h : Scoped J c) (t : Nat) (p : Option Nat) :
    Scoped J (c.reapThread rules t p) := by
  have hdown := h.stays (stays_countDown (c.ruleInstOf t) c) rfl
  have hkill := hdown.stays (stays_killRuleInst (c.ruleInstOf t) _) rfl
  have hdrop : Scoped J (c.dropThread rules t) := by
    rcases dropThread_cases rules t c with ⟨_, heq⟩ | ⟨_, _, heq⟩ | ⟨_, _, heq⟩
    · rw [heq]
      exact hdown.stays (stays_unlinkThread t _) rfl
    · rw [heq]
      exact hkill
    · rw [heq]
      exact Scoped.freeRuleInstance (hkill.stays (stays_unlinkRuleInst _ _) rfl) _
  exact hdrop.stays (stays_freeThread t p _) rfl

/-! ## The steps of the engine -/

variable {prune : Nat → Ctx V → Bool} {call : Call V} {fuel r s e t : Nat}
  {onlyOnce : Bool} {c c' : Ctx V}

theorem simulate_scoped (hJ : ScopeInv J) (hvm : KeptBy J call.vm) (ho : Of c r s) (h : Scoped J c)
    {ret : Int} (heq : simulate rules call fuel s onlyOnce c = some (ret, c')) : Scoped J c' := by
  refine (simulate_inv (I := Scoped J) (.of_inv ?_ ?_ ?_ ?_ ?_) ho h heq).2
  · intro d s code ho h
    exact h.vmExec hvm ho.lt code
  · intro d h
    exact h.stays (stays_markDeadRule r d) rfl
  · intro d s ho h
    exact h
  · intro d s dest ho h
    exact h.newState hJ ho.lt dest
  · intro d s tr ho h
    exact h.newThread call.clock s onlyOnce tr

theorem startRule_scoped (hJ : ScopeInv J) (hvm : KeptBy J call.vm) {k : Nat} (h : Scoped J c)
    (heq : startRule rules call fuel k c = some c') : Scoped J c' := by
  obtain ⟨ret, c₁, hs, rfl⟩ := startRule_some heq
  have h₁ := simulate_scoped hJ hvm (.newRuleInst k c) (h.newRuleInst hJ k) hs
  unfold Ctx.finishRuleInst
  split
  · exact h₁.freeRuleInstance c.ri.size
  · exact h₁.stays (stays_linkRuleInst c.ri.size ret c₁) (history_bumpTail _ _)

theorem evaluated_scoped (hJ : ScopeInv J) (hvm : KeptBy J call.vm) (hv : Visiting t c)
    (h : Scoped J c) (hev : Evaluated rules prune call fuel e t c c') : Scoped J c' := by
  refine evaluated_inv (A := Scoped J) (B := Scoped J) hv.wf hv.lt hev ?_ ?_ ?_ ?_
  · exact h.vmExec hvm (hv.wf.thread_of hv.lt).lt _
  · intro c₀ hw₀ ht₀ _ _ h₀
    have hcount := h₀.stays (stays_countPass t c₀) (history_countPass t c₀)
    have hlt : (c₀.thr.cell t).stateInstance < (c₀.countPass t).si.size := by
      rw [si_countPass]
      exact (hw₀.thread_of ht₀).lt
    exact (hcount.newState hJ hlt _).stays (stays_bindEvent e c₀.si.size _) rfl
  · intro r c₁ ret c₂ ho _ _ h₁ hs
    exact simulate_scoped hJ hvm ho h₁ hs
  · intro c₂ h₂
    exact h₂.stays (stays_killThread t c₂) rfl

variable (J) in
/-- The environments and the history have the property all the time. -/
def scopedInv : EngineInv V where
  between c := Scoped J c
  during _ _ c := Scoped J c

theorem scoped_rules (hJ : ScopeInv J) :
    EngineRules rules prune (fun call => KeptBy J call.vm) (fun _ _ _ _ => True) base
      (scopedInv J) where
  init := hJ.init
  beginEvent event c _ h := Scoped.stays h (stays_beginEvent event c) rfl
  startRule := by
    intro call fuel e k c c' hvm _ _ h heq
    exact startRule_scoped hJ hvm h heq
  mergeQueues e c _ h := Scoped.stays h (stays_mergeQueues c) (history_mergeQueues c)
  evtStep := by
    intro call fuel curTime e t c c' hvm hb h heq
    obtain ⟨hv, hcase⟩ := evtStep_visiting hb heq
    have h₀ : Scoped J (c.beginVisit curTime t) :=
      Scoped.stays h (stays_beginVisit curTime t c) (history_beginVisit curTime t c)
    rcases hcase with ⟨_, rfl⟩ | ⟨_, c₁, hev, _, ⟨_, _, rfl⟩ | ⟨_, rfl⟩⟩
    · exact h₀.reapThread t _
    · have h₁ := evaluated_scoped hJ hvm hv h₀ hev
      have hk := h₁.stays (stays_killThread t c₁) rfl
      exact (hk.stays (stays_commitAt t _) (history_commitAt t _)).reapThread t _
    · have h₁ := evaluated_scoped hJ hvm hv h₀ hev
      have hq := h₁.stays (stays_requeue t c₁) rfl
      exact hq.stays (stays_commitAt t _) (history_commitAt t _)
  endEvent event e c _ h := Scoped.stays h (stays_endEvent event e c) (history_endEvent event e c)

end

/-! ## Executions of the machine -/

section

variable [Issdl V] {H : Heaps V} {call : Call Nat}

/-- What the byte code does is what a run of the machine does in the environments of the state
instance, up to the first use of something released. -/
def OfMachine (H : Heaps V) (call : Call Nat) (x : VmCall Nat) : Prop :=
  H.intact x.ctx.history → ∃ (P : ObjFrame V) (M M' : ObjMachine V) (l l' : List (Access Nat Nat)),
    P.bytecode = x.code ∧ P.inheritObj = (x.ctx.si.cell x.stateInstance).inheritEnv ∧
      P.fieldObj = x.ctx.globalFields ∧
      M.ip = 0 ∧ M.store.env = (x.ctx.si.cell x.stateInstance).currentEnv ∧
      Heap.Ages VarObj.val (H.heapAt x.ctx.history) M.store.objs ∧
      P.Traces H x.stateInstance x.ctx.history M l M' ∧ (call.result x).accesses = l ++ l' ∧
      (H.intact (accessed x.stateInstance l x.ctx.history) →
        l' = [] ∧ (call.result x).env = M'.store.env)

/-- The environments are what the history makes them, up to the first use of something released. -/
def ObjScoped (H : Heaps V) : ScopeProp Nat := fun S h =>
  (H.intact h → S.Represents h ∧ H.Aged h) ∧ H.Kept h

namespace ObjScoped

omit [Issdl V] in
theorem of_represents {S : Scopes Nat Nat} {h : PtrHistory} (hS : S.Represents h) (ha : H.Aged h) :
    ObjScoped H S h := ⟨fun _ => ⟨hS, ha⟩, .of_aged ha hS.reads⟩

omit [Issdl V] in
/-- A new state instance. -/
theorem create {S S' : Scopes Nat Nat} {h : PtrHistory} {s : Nat} {p : Option Nat}
    (hJ : ObjScoped H S h) (hS : S.Represents h → S'.Represents (.create s p :: h)) :
    ObjScoped H S' (.create s p :: h) := by
  by_cases hi : H.intact h
  · obtain ⟨hr, ha⟩ := hJ.1 hi
    exact of_represents (hS hr) (ha.create s p)
  · exact ⟨fun hi' => (hi (H.intact_of_cons _ _ hi')).elim, hJ.2.append hi [.create s p]⟩

omit [Issdl V] in
theorem inv (H : Heaps V) : ScopeInv (ObjScoped H) where
  init := by
    refine of_represents ⟨fun s hs => absurd hs (Nat.not_lt_zero s), fun s hs =>
      absurd hs (Nat.not_lt_zero s), fun h₁ s x v h₂ heq => ?_⟩ trivial
    cases h₁ <;> cases heq
  push _ _ _ hJ hp := hJ.create fun hS => hS.push hp
  pushRoot _ _ hJ := hJ.create fun hS => hS.pushRoot

theorem keptBy_restrict (H : Heaps V) (call : Call Nat) :
    KeptBy (ObjScoped H) (call.vm.restrict (OfMachine H call)) := by
  intro c s code hs hJ
  by_cases hi : H.intact c.history
  · obtain ⟨hr, ha⟩ := hJ.1 hi
    rcases call.vm.restrict_cases (OfMachine H call) c s code with ⟨hm, heq⟩ | heq
    · obtain ⟨P, M, M', l, l', -, hinh, -, -, henv, hages, htr, hacc, hend⟩ := hm hi
      have hl := htr.replays
      rw [hinh, henv] at hl
      obtain ⟨haged, -⟩ := htr.aged ha hages
      have hrep := Scopes.Represents.accesses hr hs hl
      have hacc' : (call.vm c s code).accesses = l ++ l' := hacc
      rw [heq, hacc']
      show ObjScoped H _ (accessed s (l ++ l') c.history)
      by_cases hi' : H.intact (accessed s l c.history)
      · obtain ⟨rfl, hres⟩ := hend hi'
        have hres' : (call.vm c s code).env = M'.store.env := hres
        rw [List.append_nil, hres']
        exact of_represents hrep haged
      · -- what follows the first use of something released is arbitrary
        have hk : H.Kept (accessed s l c.history) := .of_aged haged hrep.reads
        rw [accessed_append]
        exact ⟨fun hi'' => (hi' (Heaps.intact_suffix hi'')).elim, hk.append hi' _⟩
    · rw [heq]
      exact of_represents (Scopes.Represents.accesses hr hs (l := []) rfl) ha
  · exact ⟨fun hi' => (hi (Heaps.intact_suffix hi')).elim, hJ.2.append hi _⟩

end ObjScoped

variable [SyncValue Nat] {rules : RuleSet} {prune : Nat → Ctx Nat → Bool} {c : Ctx Nat}

/-- In every run, a read of a variable before which nothing released is used finds the value of the
last assignment to it on the path to the state instance if and only if `NULL` was not assigned below
a value, and the object that was assigned is not released. -/
theorem read_iff (hr : Run rules prune (fun call fuel c =>
      ∀ x ∈ injectVmCalls rules prune call fuel c, OfMachine H call x) c)
    {later earlier : PtrHistory} {s x : Nat} {p : Option Nat}
    (h : c.history = later ++ .access s (.read x p) :: earlier) (hi : H.intact earlier) :
    H.look (.access s (.read x p) :: earlier) p = (lastAssigned x (H.values earlier) s).join ↔
      (lastAssigned x earlier s = some none → ∀ q ∈ pathValues x earlier s, q = none) ∧
        ∀ a, lastAssigned x earlier s = some (some a) →
          (H.heapAt (.access s (.read x p) :: earlier)).live a = true := by
  have hrules : EngineRules rules prune (fun call => KeptBy (ObjScoped H) call.vm)
      (fun _ _ _ _ => True) .trivial (base.and (scopedInv (ObjScoped H))) :=
    (base_rules.mono (fun _ _ => trivial) fun _ _ _ _ => id).and (scoped_rules (ObjScoped.inv H))
  have hr' : Run rules prune (fun call _ _ => KeptBy (ObjScoped H) call.vm) c :=
    hr.restrict (P := OfMachine H) (fun _ _ _ h => h) fun call _ _ _ _ =>
      ObjScoped.keptBy_restrict H call
  have hs : Scoped (ObjScoped H) c :=
    (hrules.run hr' (fun _ _ _ => id) fun call fuel c _ => callOk_true call fuel c).2
  obtain ⟨ha, hread⟩ := hs.2 later _ earlier h hi
  exact Heaps.look_eq_iff ha (hread s x p rfl)

end

/-! ## A released binding -/

/-- The pointers themselves, for a rule without synchronization variables. -/
instance : SyncValue Nat where
  hash _ := 0
  cmp p q := if p = q then 0 else 1

/-- `$0 = 7 + 7; $1 = $0; $0 = 7; $2 = $1` -/
def sharingCode : List Nat := [4, 5, 4, 5, 8, 3, 0, 2, 0, 3, 1, 4, 5, 3, 0, 2, 1, 3, 2, 0]

def sharing : RuleSet :=
  [{ states := [{ action := some sharingCode, trans := [], havePushfield := false }]
     syncVars := [], syncLock := false }]

/-- The frame of its action, with the constants at the first addresses. -/
def sharingFrame : ObjFrame Val where
  bytecode := sharingCode
  inheritEnv := fun _ => none
  staticEnv := valStaticEnv [.int 7]
  fields := fun _ => none
  argsNb := fun _ => 0
  builtin := fun _ _ => none
  inheritObj := fun _ => none
  staticObj n := if n < 6 then some n else none
  fieldObj := fun _ => none

/-- The accesses: the sum is the object 6, the constant the object 5. Behind the last one, the machine
uses the released sum. -/
def sharingAccesses : List (Access Nat Nat) :=
  [.assign 0 (some 6), .read 0 (some 6), .assign 1 (some 6), .assign 0 (some 5), .read 1 (some 6)]

/-- An event without fields. -/
def sharingCall : Call Nat where
  event := []
  vm _ _ _ :=
    { ret := 1, env := fun _ => none, kills := fun _ => false, accesses := sharingAccesses }
  clock _ := 0

/-- The store at the start, -/
def sharing₀ : Store Val := .constants [.int 1, .int 0, .null, .null, .null, .int 7]

/-- behind the first assignment, -/
def sharing₁ : Store Val := ObjFrame.bindVar 0 (some 6) (sharing₀.new (.int 14))

/-- the second -/
def sharing₂ : Store Val := ObjFrame.bindVar 1 (some 6) sharing₁

/-- and the third. -/
def sharing₃ : Store Val := ObjFrame.bindVar 0 (some 5) sharing₂

/-- The heaps, by the number of events. -/
def sharingStore : Nat → Store Val
  | 0 | 1 => sharing₀
  | 2 | 3 => sharing₁
  | 4 => sharing₂
  | _ => sharing₃

theorem sharing_ages : ∀ n, Heap.Ages VarObj.val (sharingStore n).objs (sharingStore (n + 1)).objs
  | 0 => .refl _
  | 1 => (Store.Stale.alloc sharing₀ _).ages.trans (ObjFrame.ages_bindVar 0 (some 6) _)
  | 2 => .refl _
  | 3 => ObjFrame.ages_bindVar 1 (some 6) sharing₁
  | 4 => ObjFrame.ages_bindVar 0 (some 5) sharing₂
  | _ + 5 => .refl _

theorem sharing_wf : ∀ n, (sharingStore n).objs.WF := by
  have h₀ : sharing₀.objs.WF := Store.wf_constants _
  have h₁ : sharing₁.objs.WF := ObjFrame.wf_bindVar 0 (some 6) (h₀.alloc _)
  have h₂ : sharing₂.objs.WF := ObjFrame.wf_bindVar 1 (some 6) h₁
  have h₃ : sharing₃.objs.WF := ObjFrame.wf_bindVar 0 (some 5) h₂
  intro n
  match n with
  | 0 | 1 => exact h₀
  | 2 | 3 => exact h₁
  | 4 => exact h₂
  | _ + 5 => exact h₃

/-- Something released is used behind the last access. -/
def sharingHeaps : Heaps Val where
  heapAt h := (sharingStore h.length).objs
  intact h := h.length ≤ 5
  wf h := sharing_wf h.length
  create _ _ h := sharing_ages h.length
  intact_of_cons _ _ hi := (Nat.le_succ _).trans hi

theorem sharing_traces :
    sharingFrame.Traces sharingHeaps 0 [.create 0 none] ⟨0, [], sharing₀⟩ sharingAccesses
      ⟨17, [some 6], sharing₃⟩ := by
  have h₁ : sharingFrame.Traces sharingHeaps 0 [.create 0 none] ⟨0, [], sharing₀⟩ []
      ⟨2, [some 5], sharing₀⟩ := .quiet .refl rfl (by with_unfolding_all rfl)
  have h₂ : sharingFrame.Traces sharingHeaps 0 [.create 0 none] ⟨0, [], sharing₀⟩ []
      ⟨4, [some 5, some 5], sharing₀⟩ := .quiet h₁ rfl (by with_unfolding_all rfl)
  have h₃ : sharingFrame.Traces sharingHeaps 0 [.create 0 none] ⟨0, [], sharing₀⟩ []
      ⟨5, [some 6], sharing₀.new (.int 14)⟩ := .quiet h₂ rfl (by with_unfolding_all rfl)
  have h₄ : sharingFrame.Traces sharingHeaps 0 [.create 0 none] ⟨0, [], sharing₀⟩ _
      ⟨7, [], sharing₁⟩ := .access (.assign 0 (some 6)) h₃ rfl (by with_unfolding_all rfl) rfl
  have h₅ : sharingFrame.Traces sharingHeaps 0 [.create 0 none] ⟨0, [], sharing₀⟩ _
      ⟨9, [some 6], sharing₁⟩ :=
    .access (.read 0 (some 6)) h₄ (by with_unfolding_all rfl) (by with_unfolding_all rfl) rfl
  have h₆ : sharingFrame.Traces sharingHeaps 0 [.create 0 none] ⟨0, [], sharing₀⟩ _
      ⟨11, [], sharing₂⟩ := .access (.assign 1 (some 6)) h₅ rfl (by with_unfolding_all rfl) rfl
  have h₇ : sharingFrame.Traces sharingHeaps 0 [.create 0 none] ⟨0, [], sharing₀⟩ _
      ⟨13, [some 5], sharing₂⟩ := .quiet h₆ rfl (by with_unfolding_all rfl)
  have h₈ : sharingFrame.Traces sharingHeaps 0 [.create 0 none] ⟨0, [], sharing₀⟩ _
      ⟨15, [], sharing₃⟩ := .access (.assign 0 (some 5)) h₇ rfl (by with_unfolding_all rfl) rfl
  exact .access (.read 1 (some 6)) h₈ (by with_unfolding_all rfl) (by with_unfolding_all rfl) rfl

theorem sharing_calls :
    injectVmCalls sharing (backtrackIsNotNeeded sharing) sharingCall 3 (Ctx.init Nat) =
      [⟨((Ctx.init Nat).beginEvent []).newRuleInst 0, 0, sharingCode⟩] := by
  with_unfolding_all rfl

theorem ofMachine_sharing : ∀ x ∈ injectVmCalls sharing (backtrackIsNotNeeded sharing) sharingCall 3
    (Ctx.init Nat), OfMachine sharingHeaps sharingCall x := by
  intro x hx
  rw [sharing_calls] at hx
  obtain rfl := List.mem_singleton.mp hx
  intro _
  refine ⟨sharingFrame, _, _, sharingAccesses, [], rfl, ?_, rfl, rfl, ?_, .refl _, sharing_traces, rfl,
    fun hi => ?_⟩
  · with_unfolding_all rfl
  · with_unfolding_all rfl
  · have hlen : 6 ≤ 5 := hi
    omega

/-- What happens before the read of `$0`. -/
def sharingStart : PtrHistory := [.access 0 (.assign 0 (some 6)), .create 0 none]

/-- The history after the event. -/
def sharingHistory : PtrHistory := accessed 0 sharingAccesses [.create 0 none]

/-- The executions of the call are those of the machine. -/
abbrev sharingOk (call : Call Nat) (fuel : Nat) (c : Ctx Nat) : Prop :=
  ∀ x ∈ injectVmCalls sharing (backtrackIsNotNeeded sharing) call fuel c, OfMachine sharingHeaps call x

theorem run_sharing : ∃ c : Ctx Nat, Run sharing (backtrackIsNotNeeded sharing) sharingOk c ∧
    c.history = sharingHistory := by
  have hrun : ((injectEventWith sharing (backtrackIsNotNeeded sharing) sharingCall 3
      (Ctx.init Nat)).any fun p => decide (p.2.history = sharingHistory)) = true := by
    decide +kernel
  obtain ⟨⟨visits, c⟩, heq, hh⟩ := (Option.any_eq_true _ _).mp hrun
  exact ⟨c, .inject sharingCall 3 .init ofMachine_sharing heq, of_decide_eq_true hh⟩

theorem read_iff_sharing :
    ∃ c : Ctx Nat, Run sharing (backtrackIsNotNeeded sharing) sharingOk c ∧
      c.history = sharingHistory ∧
        sharingHeaps.look (.access 0 (.read 0 (some 6)) :: sharingStart) (some 6) =
          (lastAssigned 0 (sharingHeaps.values sharingStart) 0).join := by
  obtain ⟨c, hr, hh⟩ := run_sharing
  have hread : c.history = [.access 0 (.read 1 (some 6)), .access 0 (.assign 0 (some 5)),
      .access 0 (.assign 1 (some 6))] ++ .access 0 (.read 0 (some 6)) :: sharingStart := hh
  have hi : sharingHeaps.intact sharingStart := (by decide : 2 ≤ 5)
  refine ⟨c, hr, hh, (read_iff hr hread hi).mpr ⟨by decide, fun a ha => ?_⟩⟩
  have hsix : lastAssigned 0 sharingStart 0 = some (some 6) := rfl
  cases hsix.symm.trans ha
  decide +kernel

/-- The read of `$1` finds the released sum. -/
theorem not_read :
    ∃ c : Ctx Nat, Run sharing (backtrackIsNotNeeded sharing) sharingOk c ∧
      ∃ later earlier s x p, c.history = later ++ .access s (.read x p) :: earlier ∧
        sharingHeaps.intact earlier ∧
        sharingHeaps.look (.access s (.read x p) :: earlier) p ≠
          (lastAssigned x (sharingHeaps.values earlier) s).join := by
  obtain ⟨c, hr, hh⟩ := run_sharing
  let earlier : PtrHistory := [.access 0 (.assign 0 (some 5)), .access 0 (.assign 1 (some 6)),
    .access 0 (.read 0 (some 6))] ++ sharingStart
  have hi : sharingHeaps.intact earlier := (by decide : 5 ≤ 5)
  exact ⟨c, hr, [], earlier, 0, 1, some 6, hh, hi, by decide +kernel⟩

end Orchids
