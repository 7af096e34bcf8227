import Mathlib.Data.List.Nodup
import Orchids.Lib.Linked

/-!
# Forests by first child and next sibling

Records with a link to a first child and one to a next sibling form a forest; a tree is a forest whose
first record has no sibling.

* `Forest.Laid`: the links are those of a forest.
* `Forest.up`: the path from a record to the top; `Laid.linked_up`: the links to the parents follow it.
* `Forest.sub`: what the links lead to from a record.
* `visitAll`: a recursion over both links; `visitAll_eq`: it comes to each record, in order.
-/

/-- The first tree of a forest, with its children, and the others. -/
inductive Forest where
  | nil
  | node (a : Nat) (children siblings : Forest)

namespace Forest

/-- The records, each before its children. -/
def nodes : Forest → List Nat
  | nil => []
  | node a c s => a :: (c.nodes ++ s.nodes)

def root : Forest → Option Nat
  | nil => none
  | node a _ _ => some a

/-- The longest path over the links of both kinds. -/
def height : Forest → Nat
  | nil => 0
  | node _ c s => max c.height s.height + 1

/-- The links are those of the forest, below a parent. -/
def Laid (parent child sibling : Nat → Option Nat) : Option Nat → Forest → Prop
  | _, nil => True
  | p, node a c s =>
    parent a = p ∧ child a = c.root ∧ sibling a = s.root ∧
      Laid parent child sibling (some a) c ∧ Laid parent child sibling p s

/-- The record and those above it. -/
def up (b : Nat) : Forest → List Nat
  | nil => []
  | node a c s => if b = a then [a] else if b ∈ c.nodes then c.up b ++ [a] else s.up b

/-- The forest that begins with the record. -/
def sub (b : Nat) : Forest → Forest
  | nil => nil
  | node a c s => if b = a then node a c s else if b ∈ c.nodes then c.sub b else s.sub b

variable {parent child sibling : Nat → Option Nat} {p : Option Nat} {f : Forest} {a b : Nat}

theorem mem_nodes {c s : Forest} : b ∈ (node a c s).nodes ↔ b = a ∨ b ∈ c.nodes ∨ b ∈ s.nodes := by
  rw [nodes, List.mem_cons, List.mem_append]

/-- The path is in the forest, it begins with its record, and the links to the parents follow it to
what is above. -/
theorem Laid.up (h : Laid parent child sibling p f) (hb : b ∈ f.nodes) :
    (f.up b).head? = some b ∧ (∀ x ∈ f.up b, x ∈ f.nodes) ∧
      ∀ rest, Linked parent rest → rest.head? = p → Linked parent (f.up b ++ rest) := by
  induction f generalizing p with
  | nil => exact absurd hb List.not_mem_nil
  | node a c s ihc ihs =>
    obtain ⟨hp, -, -, hc, hs⟩ := h
    rw [Forest.up]
    split
    · rename_i heq
      refine ⟨congrArg some heq.symm, fun x hx => ?_, fun rest hrest hhead => ?_⟩
      · exact mem_nodes.mpr (.inl (List.mem_singleton.mp hx))
      · exact ⟨hp.trans hhead.symm, hrest⟩
    · rename_i hne
      split
      · rename_i hbc
        obtain ⟨hhead, hmem, hlink⟩ := ihc hc hbc
        refine ⟨by rw [List.head?_append, hhead]; rfl, fun x hx => ?_, fun rest hrest hh => ?_⟩
        · rcases List.mem_append.mp hx with hx | hx
          · exact mem_nodes.mpr (.inr (.inl (hmem x hx)))
          · exact mem_nodes.mpr (.inl (List.mem_singleton.mp hx))
        · rw [List.append_assoc]
          exact hlink ([a] ++ rest) ⟨hp.trans hh.symm, hrest⟩ rfl
      · rename_i hbc
        have hbs : b ∈ s.nodes := ((mem_nodes.mp hb).resolve_left hne).resolve_left hbc
        obtain ⟨hhead, hmem, hlink⟩ := ihs hs hbs
        exact ⟨hhead, fun x hx => mem_nodes.mpr (.inr (.inr (hmem x hx))), hlink⟩

/-- The links to the parents follow the path, up to the top. -/
theorem Laid.linked_up (h : Laid parent child sibling none f) (hb : b ∈ f.nodes) :
    Linked parent (f.up b) := by
  have hlink := (h.up hb).2.2 [] trivial rfl
  rwa [List.append_nil] at hlink

/-- What begins with a record is laid as the forest is. -/
theorem Laid.sub (h : Laid parent child sibling p f) (hb : b ∈ f.nodes) :
    ∃ q c s, f.sub b = node b c s ∧ Laid parent child sibling q (node b c s) ∧
      (node b c s).nodes.Sublist f.nodes := by
  induction f generalizing p with
  | nil => exact absurd hb List.not_mem_nil
  | node a c s ihc ihs =>
    rw [Forest.sub]
    split
    · rename_i heq
      subst heq
      exact ⟨p, c, s, rfl, h, List.Sublist.refl _⟩
    · rename_i hne
      split
      · rename_i hbc
        obtain ⟨q, c', s', hsub, hlaid, hle⟩ := ihc h.2.2.2.1 hbc
        exact ⟨q, c', s', hsub, hlaid, (hle.trans (List.sublist_append_left _ _)).cons a⟩
      · rename_i hbc
        have hbs : b ∈ s.nodes := ((mem_nodes.mp hb).resolve_left hne).resolve_left hbc
        obtain ⟨q, c', s', hsub, hlaid, hle⟩ := ihs h.2.2.2.2 hbs
        exact ⟨q, c', s', hsub, hlaid, (hle.trans (List.sublist_append_right _ _)).cons a⟩

end Forest

/-! ## Recursion -/

variable {σ : Type} (child sibling : Nat → Option Nat) (visit : Nat → σ → σ)

/-- A visit of a record, then of its first child and what follows from there, then of its next sibling
and what follows. -/
def visitAll : Nat → Nat → σ → Option σ
  | 0, _, _ => none
  | n + 1, a, st =>
    (match child a with
      | some c => visitAll n c (visit a st)
      | none => some (visit a st)).bind fun st =>
    match sibling a with
      | some s => visitAll n s st
      | none => some st

variable {child sibling visit}

/-- With as many steps as the forest is high, each record is visited once, in order. -/
theorem visitAll_eq {parent : Nat → Option Nat} {p : Option Nat} {f : Forest} {n : Nat} (st : σ)
    (h : f.Laid parent child sibling p) (hn : f.height ≤ n) :
    (match f.root with
      | some a => visitAll child sibling visit n a st
      | none => some st) = some (f.nodes.foldl (fun st b => visit b st) st) := by
  induction f generalizing p n st with
  | nil => rfl
  | node a c s ihc ihs =>
    obtain ⟨-, hchild, hsibling, hc, hs⟩ := h
    cases n with
    | zero => exact absurd hn (Nat.not_succ_le_zero _)
    | succ n =>
      have hle := Nat.le_of_succ_le_succ hn
      show visitAll child sibling visit (n + 1) a st = _
      rw [visitAll, hchild, hsibling, Forest.nodes, List.foldl_cons, List.foldl_append,
        ihc _ hc (Nat.le_trans (Nat.le_max_left _ _) hle)]
      exact ihs _ hs (Nat.le_trans (Nat.le_max_right _ _) hle)
