import Mathlib.Data.List.Perm.Basic
import SymbolGraph.Proofs.Program.Outline

/-!
# Proofs — Program — the round of a tree

A walk leaves a node when it has left everything below it, so that it leaves what it comes to in
another order.  What it leaves below the root of a tree are the nodes whose topmost ancestor is that
root.

* `Program.postorder`: a node and what is below it, in the order in which a walk leaves them.
* `Program.postorder_perm`: a walk leaves the nodes that it comes to.
* `Program.topmost`: the topmost ancestor.  `Program.Forest.topmost_eq_iff`: it tells the tree.
* `Program.Forest.mem_postorder_root`: a walk from a root leaves the nodes of its tree.
-/

namespace SymbolGraph.Program

section Postorder

variable (p : Program)

/-- A node and what is below it in the order in which a walk leaves them, at most `fuel` levels. -/
def postorderWithin : (fuel : Nat) → NodeId → List NodeId
  | 0,        _    => []
  | fuel + 1, node => (p.children node).flatMap (postorderWithin fuel) ++ [node]

/-- A node and what is below it in the order in which a walk leaves them. -/
def postorder (node : NodeId) : List NodeId := p.postorderWithin (p.nodes.size + 1) node

/-- The topmost node at or above a node. -/
def topmost (node : NodeId) : NodeId := (p.ancestors node).getLast?.getD node

end Postorder

variable {p : Program} {node child other root : NodeId}

/-- A walk leaves the nodes that it comes to, each as often. -/
theorem postorderWithin_perm : ∀ (fuel : Nat) (node : NodeId),
    (p.postorderWithin fuel node).Perm (p.preorderWithin fuel node)
  | 0, _ => .refl _
  | fuel + 1, node => by
      have hbelow : ((p.children node).flatMap (p.postorderWithin fuel)).Perm
          ((p.children node).flatMap (p.preorderWithin fuel)) :=
        List.Perm.flatMap_left _ fun child _ => postorderWithin_perm fuel child
      exact (List.perm_append_singleton node _).trans (hbelow.cons node)

theorem postorder_perm (node : NodeId) : (p.postorder node).Perm (p.preorder node) :=
  postorderWithin_perm _ node

/-- A walk comes to all that is at or below a node. -/
theorem Forest.mem_preorder (h : p.Forest) : other ∈ p.preorder node ↔ p.Under node other := by
  refine ⟨under_of_mem_preorder, fun hunder => ?_⟩
  induction hunder using Relation.ReflTransGen.head_induction_on with
  | refl =>
      rw [h.preorder_eq]
      exact List.mem_cons_self
  | head hchild _ ih =>
      rw [h.preorder_eq]
      exact List.mem_cons_of_mem _ (List.mem_flatMap.mpr ⟨_, hchild, ih⟩)

/-! ### Topmost ancestors -/

theorem topmost_of_parent_eq_none (hparent : p.parent node = none) : p.topmost node = node := by
  rw [topmost, ancestors_eq_nil hparent]
  rfl

/-- A child is in the tree of its parent. -/
theorem Forest.topmost_child (h : p.Forest) (hchild : child ∈ p.children node) :
    p.topmost child = p.topmost node := by
  rw [topmost, topmost, h.ancestors_child hchild, List.getLast?_cons]
  rfl

theorem Forest.topmost_under (h : p.Forest) (hunder : p.Under node other) :
    p.topmost other = p.topmost node := by
  induction hunder with
  | refl => rfl
  | tail _ hchild ih => exact (h.topmost_child hchild).trans ih

/-- **Every node is at or below its topmost ancestor**, which is below nothing. -/
theorem Forest.under_topmost (h : p.Forest) (hlisted : p.Listed) (node : NodeId) :
    p.Under (p.topmost node) node ∧ p.parent (p.topmost node) = none := by
  -- Up the chain of parents, which have earlier handles.
  induction hindex : node.index using Nat.strongRecOn generalizing node with
  | ind index ih =>
      subst hindex
      cases hparent : p.parent node with
      | none =>
          rw [topmost_of_parent_eq_none hparent]
          exact ⟨.refl, hparent⟩
      | some parent =>
          have hchild := hlisted node parent hparent
          obtain ⟨hunder, hnone⟩ := ih _ (h.older node parent hparent) parent rfl
          rw [h.topmost_child hchild]
          exact ⟨hunder.tail hchild, hnone⟩

/-- **A node is in the tree of a root** if its topmost ancestor is that root. -/
theorem Forest.topmost_eq_iff (h : p.Forest) (hlisted : p.Listed) (hroot : p.parent root = none) :
    p.topmost node = root ↔ p.Under root node := by
  constructor
  · rintro rfl
    exact (h.under_topmost hlisted node).1
  · intro hunder
    rw [h.topmost_under hunder, topmost_of_parent_eq_none hroot]

/-- **A walk from a root leaves the nodes of its tree.** -/
theorem Forest.mem_postorder_root (h : p.Forest) (hlisted : p.Listed)
    (hroot : p.parent root = none) : node ∈ p.postorder root ↔ p.topmost node = root := by
  rw [(postorder_perm root).mem_iff, h.mem_preorder, h.topmost_eq_iff hlisted hroot]

end SymbolGraph.Program
