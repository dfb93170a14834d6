import Mathlib.Data.List.Forall2
import Mathlib.Data.List.Nodup
import SymbolGraph.Graph.Element
import SymbolGraph.Proofs.Program.Building

/-!
# Proofs — Program — outlines

Some nodes of a tree are *opened*, each for an element.  The outline of the tree shows these nodes and
no others: each stands inside its nearest opened ancestor, and those that share one stand in the order
in which a walk comes to them.

* `Program.preorder`: a node and what is below it, in the order of a walk.
* `Program.enclosing`: the nearest opened ancestor.
* `Program.Depicts`: a tree shows a node with everything that is opened inside it.
* `Program.outline`: the outline by recursion on the tree; `Program.outline_depicts`: it depicts.
-/

namespace SymbolGraph

/-- A forest put into a tree of its own, if there is something to put it into. -/
def SymbolTree.wrap : Option ElementId → List SymbolTree → List SymbolTree
  | some id, forest => [.node id forest]
  | none,    forest => forest

namespace Program

section Outline

variable (p : Program) (opened : NodeId → Option ElementId)

/-- A node and what is below it in the order of a walk, at most `fuel` levels. -/
def preorderWithin : (fuel : Nat) → NodeId → List NodeId
  | 0,        _    => []
  | fuel + 1, node => node :: (p.children node).flatMap (preorderWithin fuel)

/-- A node and what is below it in the order of a walk. -/
def preorder (node : NodeId) : List NodeId := p.preorderWithin (p.nodes.size + 1) node

/-- The nearest strict ancestor that is opened. -/
def enclosing (node : NodeId) : Option NodeId :=
  (p.ancestors node).find? fun above => (opened above).isSome

/-- The opened nodes of a tree whose nearest opened strict ancestor is the given one, in the order of a
walk. -/
def openedIn (root : NodeId) (outer : Option NodeId) : List NodeId :=
  (p.preorder root).filter fun node => (opened node).isSome ∧ p.enclosing opened node = outer

/-- A tree shows an opened node: it carries what the node was opened for, and its children show the
opened nodes that the node is the nearest opened ancestor of. -/
inductive Depicts : NodeId → SymbolTree → Prop
  | node {node : NodeId} {id : ElementId} {children : List SymbolTree} : opened node = some id →
      List.Forall₂ Depicts (p.openedIn opened node (some node)) children →
      Depicts node (.node id children)

/-- A forest shows the opened nodes of a tree. -/
def DepictsAll (root : NodeId) (forest : List SymbolTree) : Prop :=
  List.Forall₂ (p.Depicts opened) (p.openedIn opened root none) forest

/-- The outline at and below a node, at most `fuel` levels. -/
def outlineWithin : (fuel : Nat) → NodeId → List SymbolTree
  | 0,        _    => []
  | fuel + 1, node => SymbolTree.wrap (opened node) ((p.children node).flatMap (outlineWithin fuel))

/-- The outline at and below a node. -/
def outline (node : NodeId) : List SymbolTree := p.outlineWithin opened (p.nodes.size + 1) node

end Outline

variable {p : Program} {opened : NodeId → Option ElementId} {node child other : NodeId}

/-- A child is a node of the program. -/
theorem Forest.index_lt_child (h : p.Forest) (hchild : child ∈ p.children node) :
    child.index < p.nodes.size :=
  index_lt (.inl (by rw [h.child _ _ hchild]; simp))

/-- What shows one node is one tree. -/
theorem Depicts.eq_singleton {forest : List SymbolTree} {id : ElementId}
    (h : List.Forall₂ (p.Depicts opened) [node] forest) (hid : opened node = some id) :
    ∃ children, forest = [.node id children] ∧
      List.Forall₂ (p.Depicts opened) (p.openedIn opened node (some node)) children := by
  cases h with
  | cons htree hnone =>
      cases hnone
      cases htree with
      | node hid' hchildren =>
          cases hid.symm.trans hid'
          exact ⟨_, rfl, hchildren⟩

/-! ### The order of a walk -/

/-- A tree is no deeper than there are later handles. -/
theorem Forest.preorderWithin_add (h : p.Forest) (more : Nat) : ∀ (fuel : Nat) (node : NodeId),
    node.index < p.nodes.size → p.nodes.size ≤ fuel + node.index →
      p.preorderWithin (fuel + more) node = p.preorderWithin fuel node
  | 0, node, hlt, hle => by omega
  | fuel + 1, node, hlt, hle => by
      rw [Nat.add_right_comm]
      refine congrArg (node :: ·) (List.flatMap_congr fun child hchild => ?_)
      have holder := h.older _ _ (h.child _ _ hchild)
      exact h.preorderWithin_add more fuel child (h.index_lt_child hchild) (by omega)

/-- **The order of a walk** is the node and then its children, one after the other. -/
theorem Forest.preorder_eq (h : p.Forest) (node : NodeId) :
    p.preorder node = node :: (p.children node).flatMap p.preorder := by
  refine congrArg (node :: ·) (List.flatMap_congr fun child hchild => ?_)
  exact (h.preorderWithin_add 1 _ child (h.index_lt_child hchild) (by omega)).symm

theorem under_of_mem_preorderWithin : ∀ (fuel : Nat) {node : NodeId},
    other ∈ p.preorderWithin fuel node → p.Under node other
  | 0, _, hmem => nomatch hmem
  | fuel + 1, node, hmem => by
      rcases List.mem_cons.mp hmem with rfl | hmem
      · exact .refl
      · obtain ⟨child, hchild, hbelow⟩ := List.mem_flatMap.mp hmem
        exact .head hchild (under_of_mem_preorderWithin fuel hbelow)

theorem under_of_mem_preorder (hmem : other ∈ p.preorder node) : p.Under node other :=
  under_of_mem_preorderWithin _ hmem

/-- A walk comes to a node once. -/
theorem Forest.nodup_preorderWithin (h : p.Forest) (hsiblings : p.Siblings) :
    ∀ (fuel : Nat) (node : NodeId), (p.preorderWithin fuel node).Nodup
  | 0, _ => List.nodup_nil
  | fuel + 1, node => by
      refine List.nodup_cons.mpr ⟨fun hmem => ?_, List.nodup_flatMap.mpr
        ⟨fun child _ => h.nodup_preorderWithin hsiblings fuel child, ?_⟩⟩
      · obtain ⟨child, hchild, hbelow⟩ := List.mem_flatMap.mp hmem
        have hlt := h.index_lt_below ⟨child, hchild, under_of_mem_preorderWithin fuel hbelow⟩
        exact Nat.lt_irrefl _ hlt
      · refine (hsiblings node).pairwise_of_forall_ne fun child hchild sibling hsibling hne => ?_
        -- What is at or below two children makes one of them at or below the other.
        refine List.disjoint_left.mpr fun other hother hother' => hne ?_
        rcases h.under_total (under_of_mem_preorderWithin fuel hother)
          (under_of_mem_preorderWithin fuel hother') with hunder | hunder
        · exact h.eq_of_under hsibling hchild hunder
        · exact (h.eq_of_under hchild hsibling hunder).symm

theorem Forest.nodup_preorder (h : p.Forest) (hsiblings : p.Siblings) (node : NodeId) :
    (p.preorder node).Nodup :=
  h.nodup_preorderWithin hsiblings _ node

/-! ### The nearest opened ancestor -/

theorem ancestors_eq_nil (hparent : p.parent node = none) : p.ancestors node = [] := by
  unfold ancestors
  cases p.nodes.size with
  | zero => rfl
  | succ n =>
      unfold ancestorsWithin
      rw [hparent]

theorem Forest.ancestors_child (h : p.Forest) (hchild : child ∈ p.children node) :
    p.ancestors child = node :: p.ancestors node := by
  rw [← h.ancestorsWithin_of_le (Nat.le_succ _)]
  show p.ancestorsWithin (p.nodes.size + 1) child = _
  unfold ancestorsWithin
  rw [h.child _ _ hchild]
  rfl

/-- **The nearest opened ancestor of a child** is its parent, if that is opened, and otherwise that of
its parent. -/
theorem Forest.enclosing_child (h : p.Forest) (hchild : child ∈ p.children node) :
    p.enclosing opened child
      = if (opened node).isSome then some node else p.enclosing opened node := by
  unfold enclosing
  rw [h.ancestors_child hchild, List.find?_cons]
  cases (opened node).isSome <;> rfl

theorem Forest.index_lt_ancestorsWithin (h : p.Forest) : ∀ (fuel : Nat) (node : NodeId),
    ∀ above ∈ p.ancestorsWithin fuel node, above.index < node.index
  | 0, _, _, hmem => nomatch hmem
  | fuel + 1, node, above, hmem => by
      unfold ancestorsWithin at hmem
      split at hmem
      · cases hmem
      · rename_i parent hparent
        have holder := h.older node parent hparent
        rcases List.mem_cons.mp hmem with rfl | hmem
        · exact holder
        · exact Nat.lt_trans (h.index_lt_ancestorsWithin fuel parent above hmem) holder

theorem Forest.index_lt_enclosing (h : p.Forest) (henclosing : p.enclosing opened node = some other) :
    other.index < node.index :=
  h.index_lt_ancestorsWithin _ node other (List.mem_of_find?_eq_some henclosing)

/-- What is below an opened node is enclosed by that node or by one below it. -/
theorem Forest.enclosing_below (h : p.Forest) (hopened : (opened node).isSome)
    (hbelow : p.Below node other) :
    ∃ above, p.enclosing opened other = some above ∧ p.Under node above := by
  obtain ⟨child, hchild, hunder⟩ := hbelow
  induction hunder with
  | refl => exact ⟨node, by rw [h.enclosing_child hchild, if_pos hopened], .refl⟩
  | tail hunder hstep ih =>
      rename_i parent other
      rw [h.enclosing_child hstep]
      split
      · exact ⟨parent, rfl, .head hchild hunder⟩
      · exact ih

/-- What is below an opened node is not enclosed by what encloses the node. -/
theorem Forest.enclosing_ne (h : p.Forest) (hopened : (opened node).isSome)
    (hbelow : p.Below node other) : p.enclosing opened other ≠ p.enclosing opened node := by
  obtain ⟨above, habove, hunder⟩ := h.enclosing_below hopened hbelow
  intro heq
  have hlt := h.index_lt_enclosing (heq.symm.trans habove)
  have hle := h.index_le_under hunder
  omega

/-! ### The outline -/

theorem forall₂_flatMap {α β γ : Type} {r : β → γ → Prop} {f : α → List β} {g : α → List γ}
    {list : List α} (h : ∀ a ∈ list, List.Forall₂ r (f a) (g a)) :
    List.Forall₂ r (list.flatMap f) (list.flatMap g) := by
  induction list with
  | nil => exact .nil
  | cons a rest ih =>
      exact List.rel_append (h a List.mem_cons_self) (ih fun b hb => h b (List.mem_cons_of_mem _ hb))

/-- The outline at and below a node shows the opened nodes there that are enclosed by what encloses
the node. -/
theorem Forest.outlineWithin_depicts (h : p.Forest) : ∀ (fuel : Nat) (node : NodeId),
    node.index < p.nodes.size → p.nodes.size ≤ fuel + node.index →
      List.Forall₂ (p.Depicts opened) (p.openedIn opened node (p.enclosing opened node))
        (p.outlineWithin opened fuel node)
  | 0, node, hlt, hle => by omega
  | fuel + 1, node, hlt, hle => by
      -- Below a node that opens nothing, the outermost opened nodes are those of the children;
      -- below one that opens a symbol, they are enclosed by the node itself.
      have hinner {outer : Option NodeId}
          (houter : ∀ child ∈ p.children node, p.enclosing opened child = outer) :
          List.Forall₂ (p.Depicts opened)
            (((p.children node).flatMap p.preorder).filter fun below =>
              (opened below).isSome ∧ p.enclosing opened below = outer)
            ((p.children node).flatMap (p.outlineWithin opened fuel)) := by
        rw [List.filter_flatMap]
        refine forall₂_flatMap fun child hchild => ?_
        have holder := h.older _ _ (h.child _ _ hchild)
        rw [← houter child hchild]
        exact h.outlineWithin_depicts fuel child (h.index_lt_child hchild) (by omega)
      unfold openedIn outlineWithin
      rw [h.preorder_eq]
      cases hnode : opened node with
      | none =>
          rw [List.filter_cons_of_neg (by simp [hnode])]
          refine hinner fun child hchild => ?_
          rw [h.enclosing_child hchild, hnode]
          rfl
      | some id =>
          have hopened : (opened node).isSome := by rw [hnode]; rfl
          rw [List.filter_cons_of_pos (by simp [hnode]), List.filter_eq_nil_iff.mpr]
          · refine .cons (.node hnode ?_) .nil
            unfold openedIn
            rw [h.preorder_eq, List.filter_cons_of_neg]
            · refine hinner fun child hchild => ?_
              rw [h.enclosing_child hchild, if_pos hopened]
            · simp only [decide_eq_true_eq, not_and]
              intro _ hself
              exact Nat.lt_irrefl _ (h.index_lt_enclosing hself)
          -- The node encloses everything opened below it, so no other node is outermost.
          · intro below hmem
            obtain ⟨child, hchild, hbelow⟩ := List.mem_flatMap.mp hmem
            have hne := h.enclosing_ne hopened ⟨child, hchild, under_of_mem_preorder hbelow⟩
            simp [hne]

/-- **The outline shows the opened nodes**, each inside its nearest opened ancestor. -/
theorem Forest.outline_depicts (h : p.Forest) {root : NodeId} (hroot : root.index < p.nodes.size)
    (habove : p.parent root = none) : p.DepictsAll opened root (p.outline opened root) := by
  have hnone : p.enclosing opened root = none := by
    rw [enclosing, ancestors_eq_nil habove]
    rfl
  unfold DepictsAll
  rw [← hnone]
  exact h.outlineWithin_depicts _ root hroot (by omega)

end Program

end SymbolGraph
