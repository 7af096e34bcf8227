import Mathlib.Data.List.Nodup
import Orchids.Lib.Siblings
import Orchids.Util.StringUtil

/-!
# The tree of state instances (`lang.c`, `graph_output.c`)

A new state instance is linked in front of the children of its parent. `issdl_cut` and the output of the
graph of a rule instance recur over `first_child` and `next_sibling`, also from where they begin.

* `cutLocal_iff`: when a cut keeps to the state instances below its destination.
* `graphBounded_iff`: when the output of a graph keeps to its limit.
-/

namespace Orchids

/-- `state_instance_t`, as far as the trees need it. -/
structure InstanceNode where
  name : CStr
  parent : Option Nat
  firstChild : Option Nat
  nextSibling : Option Nat
  threadList : List Nat

/-- The state instances of a rule instance. The links form a tree, and a thread is in one list only. -/
structure InstanceTree where
  inst : Nat → InstanceNode
  /-- `THREAD_ONLYONCE` -/
  onlyOnce : Nat → Bool
  root : Nat
  children : Forest
  laid : (Forest.node root children .nil).Laid (fun a => (inst a).parent)
    (fun a => (inst a).firstChild) (fun a => (inst a).nextSibling) none
  nodup : (Forest.node root children .nil).nodes.Nodup
  threads : ∀ a ∈ (Forest.node root children .nil).nodes,
    ∀ b ∈ (Forest.node root children .nil).nodes,
    ∀ t ∈ (inst a).threadList, t ∈ (inst b).threadList → a = b

namespace InstanceTree

variable (t : InstanceTree)

def forest : Forest := .node t.root t.children .nil

/-! ## Cuts -/

/-- The flags that a cut sets: `SF_PRUNED` of state instances and `THREAD_KILLED` of threads. -/
structure Marks where
  pruned : Nat → Bool
  killed : Nat → Bool

/-- The marks on one state instance and its threads. -/
def cutState (a : Nat) (m : Marks) : Marks where
  pruned := Function.update m.pruned a true
  killed x := m.killed x || (decide (x ∈ (t.inst a).threadList) && !t.onlyOnce x)

/-- `do_recursive_cut`, in at most `n` calls one within the other. -/
def doRecursiveCut (n a : Nat) (m : Marks) : Option Marks :=
  visitAll (fun a => (t.inst a).firstChild) (fun a => (t.inst a).nextSibling) t.cutState n a m

/-- The loop of `issdl_cut`. -/
def cutDest (str : CStr) : Nat → Nat → Option Nat
  | 0, _ => none
  | n + 1, si =>
    match (t.inst si).parent with
    | some p => if str ≠ (t.inst si).name then cutDest str n p else some si
    | none => some si

/-- `issdl_cut`; the loop and the recursion have a number of steps. -/
def issdlCut {F : Type} (n state : Nat) (str : OvmVar F) (m : Marks) : Option Marks :=
  match str with
  | .str text => (t.cutDest (text.bytes.takeWhile (· ≠ 0)) n state).bind fun si => t.doRecursiveCut n si m
  | _ => some m

/-- The nearest of the state instance and its ancestors that has the name. -/
def carrier (state : Nat) (name : CStr) : Option Nat :=
  (t.forest.up state).find? fun a => (t.inst a).name == name

/-- The state instances below one, and itself. -/
def subtree (a : Nat) : List Nat :=
  match t.forest.sub a with
  | .nil => []
  | .node b c _ => b :: c.nodes

/-- The siblings that are older, and the state instances below them. -/
def older (a : Nat) : List Nat :=
  match t.forest.sub a with
  | .nil => []
  | .node _ _ s => s.nodes

/-- The cut ends; it marks the state instances of the subtree and their threads but the initial ones,
and nothing else. -/
def CutLocal {F : Type} (state : Nat) (str : OvmVar F) (dest : Nat) (m : Marks) : Prop :=
  ∃ m', (∃ k, ∀ n ≥ k, t.issdlCut n state str m = some m') ∧
    (∀ b, m'.pruned b = true ↔ m.pruned b = true ∨ b ∈ t.subtree dest) ∧
    ∀ x, m'.killed x = true ↔ m.killed x = true ∨
      ∃ b ∈ t.subtree dest, x ∈ (t.inst b).threadList ∧ t.onlyOnce x = false

section

variable {t} {m : Marks}

theorem pruned_foldl (l : List Nat) (b : Nat) :
    (l.foldl (fun m a => t.cutState a m) m).pruned b = true ↔ m.pruned b = true ∨ b ∈ l := by
  induction l generalizing m with
  | nil => exact (or_iff_left List.not_mem_nil).symm
  | cons a l ih =>
    rw [List.foldl_cons, ih, List.mem_cons, ← or_assoc]
    refine or_congr_left ?_
    show Function.update m.pruned a true b = true ↔ _
    by_cases hb : b = a
    · rw [hb, Function.update_self]
      exact iff_of_true rfl (.inr rfl)
    · rw [Function.update_of_ne hb]
      exact (or_iff_left hb).symm

theorem killed_foldl (l : List Nat) (x : Nat) :
    (l.foldl (fun m a => t.cutState a m) m).killed x = true ↔ m.killed x = true ∨
      ∃ b ∈ l, x ∈ (t.inst b).threadList ∧ t.onlyOnce x = false := by
  induction l generalizing m with
  | nil =>
    refine (or_iff_left ?_).symm
    rintro ⟨b, hb, -⟩
    exact List.not_mem_nil hb
  | cons a l ih =>
    rw [List.foldl_cons, ih, List.exists_mem_cons_iff, ← or_assoc]
    refine or_congr_left ?_
    show (m.killed x || (decide (x ∈ (t.inst a).threadList) && !t.onlyOnce x)) = true ↔ _
    rw [Bool.or_eq_true, Bool.and_eq_true, decide_eq_true_iff, Bool.not_eq_true']

/-- The loop comes to the first state instance of the path that has the name. -/
theorem cutDest_eq {str : CStr} {l : List Nat} (hl : Linked (fun a => (t.inst a).parent) l)
    {d a n : Nat} (hd : l.find? (fun a => (t.inst a).name == str) = some d) (ha : l.head? = some a)
    (hn : l.length ≤ n) : t.cutDest str n a = some d := by
  induction l generalizing a n with
  | nil => cases ha
  | cons b l ih =>
    cases ha
    cases n with
    | zero => exact absurd hn (Nat.not_succ_le_zero _)
    | succ n =>
      rw [cutDest]
      by_cases hname : (t.inst b).name = str
      · simp only [List.find?_cons, beq_iff_eq.mpr hname, Option.some.injEq] at hd
        cases (t.inst b).parent with
        | none => exact congrArg some hd
        | some p => exact (if_neg (not_not.mpr hname.symm)).trans (congrArg some hd)
      · simp only [List.find?_cons, beq_false_of_ne hname] at hd
        cases l with
        | nil => cases hd
        | cons p l =>
          have hparent : (t.inst b).parent = some p := hl.1
          rw [hparent]
          exact (if_pos (Ne.symm hname)).trans (ih hl.2 hd rfl (Nat.le_of_succ_le_succ hn))

theorem mem_of_carrier {state d : Nat} {name : CStr} (hs : state ∈ t.forest.nodes)
    (hd : t.carrier state name = some d) : d ∈ t.forest.nodes :=
  (Forest.Laid.up t.laid hs).2.1 d (List.mem_of_find?_eq_some hd)

/-- A cut marks the state instances that the links lead to from its destination. -/
theorem issdlCut_eq {F : Type} {state d : Nat} {text : Text} (hs : state ∈ t.forest.nodes)
    (hd : t.carrier state (text.bytes.takeWhile (· ≠ 0)) = some d) :
    ∃ k, ∀ n ≥ k, t.issdlCut n state (.str text : OvmVar F) m =
      some ((t.subtree d ++ t.older d).foldl (fun m a => t.cutState a m) m) := by
  obtain ⟨q, c, s, hsub, hlaid, -⟩ := Forest.Laid.sub t.laid (mem_of_carrier hs hd)
  refine ⟨max (t.forest.up state).length (Forest.node d c s).height, fun n hn => ?_⟩
  have hdest := cutDest_eq (Forest.Laid.linked_up t.laid hs) hd (Forest.Laid.up t.laid hs).1
    (Nat.le_trans (Nat.le_max_left _ _) hn)
  have hvisit := @visitAll_eq Marks _ _ t.cutState _ _ _ _ m hlaid
    (Nat.le_trans (Nat.le_max_right _ _) hn)
  show (t.cutDest _ n state).bind _ = _
  rw [hdest, subtree, older, show t.forest.sub d = _ from hsub]
  exact hvisit

theorem subtree_older {d : Nat} (hd : d ∈ t.forest.nodes) :
    d ∈ t.subtree d ∧ (t.subtree d ++ t.older d).Sublist t.forest.nodes := by
  obtain ⟨q, c, s, hsub, -, hle⟩ := Forest.Laid.sub t.laid hd
  rw [subtree, older, show t.forest.sub d = _ from hsub]
  exact ⟨List.mem_cons_self, hle⟩

end

/-- A cut keeps to the state instances below its destination exactly when the older siblings of the
destination and the state instances below these, if there are any, were cut already. -/
theorem cutLocal_iff {F : Type} (t : InstanceTree) (m : Marks) (text : Text) {state d : Nat}
    (hs : state ∈ t.forest.nodes) (hd : t.carrier state (text.bytes.takeWhile (· ≠ 0)) = some d) :
    t.CutLocal state (.str text : OvmVar F) d m ↔ ∀ b ∈ t.older d, m.pruned b = true ∧
      ∀ x ∈ (t.inst b).threadList, t.onlyOnce x = false → m.killed x = true := by
  obtain ⟨k, hcut⟩ := @issdlCut_eq t m F _ _ _ hs hd
  obtain ⟨-, hle⟩ := subtree_older (mem_of_carrier hs hd)
  have hdisj := List.disjoint_of_nodup_append (t.nodup.sublist hle)
  constructor
  · rintro ⟨m', ⟨k', hrun⟩, hpruned, hkilled⟩ b hb
    obtain rfl := Option.some.inj ((hcut _ (Nat.le_max_left k k')).symm.trans
      (hrun _ (Nat.le_max_right k k')))
    have hvisited : b ∈ t.subtree d ++ t.older d := List.mem_append_right _ hb
    have hout : b ∉ t.subtree d := fun hin => hdisj hin hb
    refine ⟨?_, fun x hx honce => ?_⟩
    · exact ((hpruned b).mp ((pruned_foldl _ b).mpr (.inr hvisited))).resolve_right hout
    · refine ((hkilled x).mp ((killed_foldl _ x).mpr (.inr ⟨b, hvisited, hx, honce⟩))).resolve_right ?_
      rintro ⟨b', hb', hx', -⟩
      have heq := t.threads b (hle.subset hvisited) b'
        (hle.subset (List.mem_append_left _ hb')) x hx hx'
      exact hout (heq ▸ hb')
  · intro hall
    refine ⟨_, ⟨k, hcut⟩, fun b => ?_, fun x => ?_⟩
    · rw [pruned_foldl, List.mem_append]
      exact ⟨fun h => h.elim .inl (Or.rec .inr fun hb => .inl (hall b hb).1),
        fun h => h.imp_right .inl⟩
    · rw [killed_foldl]
      constructor
      · rintro (h | ⟨b, hb, hx, honce⟩)
        · exact .inl h
        · rcases List.mem_append.mp hb with hb | hb
          · exact .inr ⟨b, hb, hx, honce⟩
          · exact .inl ((hall b hb).2 x hx honce)
      · rintro (h | ⟨b, hb, hx, honce⟩)
        · exact .inl h
        · exact .inr ⟨b, List.mem_append_left _ hb, hx, honce⟩

/-- A state instance `a` with the children `b` and, older, `c`, which has a thread. -/
def siblings : InstanceTree where
  inst
    | 0 => ⟨ascii "a", none, some 1, none, []⟩
    | 1 => ⟨ascii "b", some 0, none, some 2, []⟩
    | _ => ⟨ascii "c", some 0, none, none, [0]⟩
  onlyOnce _ := false
  root := 0
  children := .node 1 .nil (.node 2 .nil .nil)
  laid := ⟨rfl, rfl, rfl, ⟨rfl, rfl, rfl, trivial, rfl, rfl, rfl, trivial, trivial⟩, trivial⟩
  nodup := by decide
  threads := by decide

/-- Nothing is cut. -/
def noMarks : Marks where
  pruned _ := false
  killed _ := false

theorem cutLocal_oldest : siblings.CutLocal 2
    (.str ⟨ascii "c", fun _ => 0⟩ : OvmVar Unit) 2 noMarks :=
  (cutLocal_iff siblings noMarks ⟨ascii "c", fun _ => 0⟩ (by decide) (by decide)).mpr
    fun _ hb => absurd hb List.not_mem_nil

/-- A cut to `b` also cuts `c`. -/
theorem not_cutLocal : ¬ siblings.CutLocal 1
    (.str ⟨ascii "b", fun _ => 0⟩ : OvmVar Unit) 1 noMarks := by
  rintro ⟨m', ⟨k, hrun⟩, hpruned, -⟩
  obtain ⟨k', hcut⟩ := @issdlCut_eq siblings noMarks Unit 1 1 ⟨ascii "b", fun _ => 0⟩ (by decide)
    (by decide)
  obtain rfl := Option.some.inj ((hcut _ (Nat.le_max_left k' k)).symm.trans
    (hrun _ (Nat.le_max_right k' k)))
  exact absurd ((hpruned 2).mp rfl) (by decide)

/-! ## Graphs -/

/-- What the output of a graph does. -/
inductive DotEvent where
  | label (a : Nat)
  /-- An integer is read, so many places before the counter. -/
  | read (place : Nat)
  | edge (parent a : Nat)
  /-- The state instance is counted, and its links are followed. -/
  | expand (a : Nat)
  deriving DecidableEq

/-- The edge from the parent. -/
def incoming (a : Nat) : List DotEvent :=
  match (t.inst a).parent with
  | some p => [.edge p a]
  | none => []

/-- `fprintf_state_instance_dot_sub`, in at most `n` calls one within the other. `(void) *limit--` moves
the pointer, so the calls within a call read the integer before. -/
def fprintfStateInstanceDotSub (mem : Nat → Int) : Nat → Nat → Nat → Option (List DotEvent)
  | 0, _, _ => none
  | n + 1, a, limit =>
    if mem limit = 0 then some [.label a, .read limit]
    else
      (match (t.inst a).firstChild with
        | some c => fprintfStateInstanceDotSub mem n c (limit + 1)
        | none => some []).bind fun below =>
      (match (t.inst a).nextSibling with
        | some s => fprintfStateInstanceDotSub mem n s (limit + 1)
        | none => some []).map fun beside =>
      .label a :: .read limit :: .expand a :: (t.incoming a ++ below ++ beside)

/-- The counter, and the memory before it. -/
def counter (limit : Nat) (before : Nat → Int) : Nat → Int
  | 0 => limit
  | k + 1 => before k

/-- `fprintf_state_instance_dot` -/
def fprintfStateInstanceDot (n : Nat) (before : Nat → Int) (limit : Nat) : Option (List DotEvent) :=
  t.fprintfStateInstanceDotSub (counter limit before) n t.root 0

/-- The state instances that are expanded. -/
def expanded (log : List DotEvent) : List Nat :=
  log.filterMap fun
    | .expand a => some a
    | _ => none

/-- An output that keeps to its limit. -/
structure Bounded (limit : Nat) (log : List DotEvent) : Prop where
  length_le : (expanded log).length ≤ limit
  nodup : (expanded log).Nodup
  reads : ∀ k, .read k ∈ log → k = 0
  whole : t.forest.nodes.length ≤ limit → ∀ a ∈ t.forest.nodes, log.count (.label a) = 1

/-- The output ends, and keeps to its limit. -/
def GraphBounded (before : Nat → Int) (limit : Nat) : Prop :=
  ∃ log, (∃ k, ∀ n ≥ k, t.fprintfStateInstanceDot n before limit = some log) ∧ t.Bounded limit log

section

variable {t} {mem : Nat → Int} {a n limit : Nat}

/-- Every call reads the integer that it is given. -/
theorem read_mem {log : List DotEvent}
    (h : t.fprintfStateInstanceDotSub mem n a limit = some log) : .read limit ∈ log := by
  cases n with
  | zero => cases h
  | succ n =>
    rw [fprintfStateInstanceDotSub] at h
    split at h
    · cases h
      exact List.mem_cons_of_mem _ List.mem_cons_self
    · obtain ⟨below, -, h⟩ := Option.bind_eq_some_iff.mp h
      obtain ⟨beside, -, rfl⟩ := Option.map_eq_some_iff.mp h
      exact List.mem_cons_of_mem _ List.mem_cons_self

/-- The first child is given the integer before. -/
theorem read_child_mem {log : List DotEvent} {c : Nat} (hmem : mem limit ≠ 0)
    (hc : (t.inst a).firstChild = some c)
    (h : t.fprintfStateInstanceDotSub mem n a limit = some log) : .read (limit + 1) ∈ log := by
  cases n with
  | zero => cases h
  | succ n =>
    rw [fprintfStateInstanceDotSub, if_neg hmem, hc] at h
    obtain ⟨below, hbelow, h⟩ := Option.bind_eq_some_iff.mp h
    obtain ⟨beside, -, rfl⟩ := Option.map_eq_some_iff.mp h
    simp only [List.mem_cons, List.mem_append, read_mem hbelow, or_true, true_or]

end

/-- The output of a graph keeps to its limit exactly when the limit is 0, or there is only one state
instance. -/
theorem graphBounded_iff (t : InstanceTree) (before : Nat → Int) (limit : Nat) :
    t.GraphBounded before limit ↔ limit = 0 ∨ t.children = .nil := by
  obtain ⟨hparent, hchild, hsibling, -, -⟩ := t.laid
  have hnext : (t.inst t.root).nextSibling = none := hsibling
  have htop : (t.inst t.root).parent = none := hparent
  by_cases hlimit : limit = 0
  · refine iff_of_true ⟨[.label t.root, .read 0], ⟨1, fun n hn => ?_⟩, ?_⟩ (.inl hlimit)
    · obtain ⟨n, rfl⟩ := Nat.exists_eq_add_of_le' hn
      exact if_pos (congrArg Int.ofNat hlimit)
    · refine ⟨Nat.zero_le _, List.nodup_nil, fun k hk => ?_, fun hle => ?_⟩
      · simpa using hk
      · rw [hlimit] at hle
        exact absurd hle (Nat.not_succ_le_zero _)
  · have hmem : counter limit before 0 ≠ 0 := fun h => hlimit (Int.ofNat.inj h)
    rw [or_iff_right hlimit]
    constructor
    · rintro ⟨log, ⟨k, hrun⟩, hb⟩
      cases hc : t.children with
      | nil => rfl
      | node c f s =>
        rw [hc] at hchild
        exact absurd (hb.reads 1 (read_child_mem hmem hchild (hrun k (Nat.le_refl k)))) nofun
    · intro hc
      rw [hc] at hchild
      have hnone : (t.inst t.root).firstChild = none := hchild
      have hnodes : t.forest.nodes = [t.root] := by rw [forest, hc]; rfl
      refine ⟨[.label t.root, .read 0, .expand t.root], ⟨1, fun n hn => ?_⟩, ?_⟩
      · obtain ⟨n, rfl⟩ := Nat.exists_eq_add_of_le' hn
        rw [fprintfStateInstanceDot, fprintfStateInstanceDotSub, if_neg hmem, hnone, hnext, incoming,
          htop]
        rfl
      · refine ⟨Nat.one_le_iff_ne_zero.mpr hlimit, List.nodup_singleton _, fun k hk => ?_,
          fun _ a ha => ?_⟩
        · simpa using hk
        · rw [hnodes] at ha
          rw [List.mem_singleton.mp ha]
          simp

/-- A limit of 1 for three state instances: the first child reads the integer before the counter. -/
theorem not_graphBounded : ¬ siblings.GraphBounded (fun _ => 0) 1 := fun h =>
  absurd ((graphBounded_iff siblings _ 1).mp h) (by
    rintro (h | h)
    · cases h
    · cases h)

end InstanceTree

end Orchids
