import Mathlib.Logic.Relation
import SymbolGraph.Program.Basic

/-!
# Proofs — Program — the trees of a program

The nodes of a file hang below its root, each below its own parent, and all of them belong to the
file.

* `Program.Under`, `Program.Below`: a node at or below another, or strictly below.
* `Program.Forest`: children name their parents, and roots are roots.
* `Program.Listed`, `Program.Siblings`: parents list their children, each once.
-/

namespace SymbolGraph.Program

variable {p : Program} {node other : NodeId} {file : FileId}

/-- A node at or below another. -/
def Under (p : Program) : NodeId → NodeId → Prop :=
  Relation.ReflTransGen fun above below => below ∈ p.children above

/-- A node strictly below another. -/
def Below (p : Program) (above below : NodeId) : Prop :=
  ∃ child ∈ p.children above, p.Under child below

theorem under_iff : p.Under node other ↔ other = node ∨ p.Below node other := by
  constructor
  · intro h
    rcases h.cases_head with rfl | ⟨child, hchild, hunder⟩
    · exact .inl rfl
    · exact .inr ⟨child, hchild, hunder⟩
  · rintro (rfl | ⟨child, hchild, hunder⟩)
    · exact .refl
    · exact .head hchild hunder

theorem Below.under (h : p.Below node other) : p.Under node other := under_iff.mpr (.inr h)

/-- A node of a file that is below nothing. -/
def IsRoot (p : Program) (file : FileId) (node : NodeId) : Prop :=
  p.fileOf node = file ∧ p.kind node = .sourceFile ∧ p.parent node = none

/-- Parents and children agree, a node is of the file of its parent and has a later handle, and the
root of a file is of that file and below nothing. -/
structure Forest (p : Program) : Prop where
  child : ∀ node child, child ∈ p.children node → p.parent child = some node
  file  : ∀ node parent, p.parent node = some parent → p.fileOf node = p.fileOf parent
  older : ∀ node parent, p.parent node = some parent → parent.index < node.index
  root  : ∀ file ∈ p.sourceFiles, p.IsRoot file (p.root file)

/-- Every node is a child of its parent. -/
def Listed (p : Program) : Prop :=
  ∀ node parent, p.parent node = some parent → node ∈ p.children parent

/-- No node is a child of another twice. -/
def Siblings (p : Program) : Prop := ∀ node, (p.children node).Nodup

namespace Forest

theorem fileOf_under (h : p.Forest) (hunder : p.Under node other) :
    p.fileOf other = p.fileOf node := by
  induction hunder with
  | refl => rfl
  | tail _ hchild ih => exact (h.file _ _ (h.child _ _ hchild)).trans ih

theorem index_le_under (h : p.Forest) (hunder : p.Under node other) : node.index ≤ other.index := by
  induction hunder with
  | refl => exact Nat.le_refl _
  | tail _ hchild ih => exact Nat.le_trans ih (Nat.le_of_lt (h.older _ _ (h.child _ _ hchild)))

/-- What is strictly below a node has a later handle. -/
theorem index_lt_below (h : p.Forest) (hbelow : p.Below node other) : node.index < other.index := by
  obtain ⟨child, hchild, hunder⟩ := hbelow
  exact Nat.lt_of_lt_of_le (h.older _ _ (h.child _ _ hchild)) (h.index_le_under hunder)

/-- What is strictly below a node has a parent. -/
theorem parent_below (h : p.Forest) (hbelow : p.Below node other) : p.parent other ≠ none := by
  obtain ⟨child, hchild, hunder⟩ := hbelow
  rcases hunder.cases_tail with rfl | ⟨above, -, habove⟩
  · rw [h.child _ _ hchild]
    nofun
  · rw [h.child _ _ habove]
    nofun

/-- What is at or above a child is the child or is at or above its parent. -/
theorem under_child (h : p.Forest) {child : NodeId} (hchild : child ∈ p.children node)
    (hunder : p.Under other child) : other = child ∨ p.Under other node := by
  rcases hunder.cases_tail with heq | ⟨above, habove, hstep⟩
  · exact .inl heq.symm
  · have hparent := (h.child _ _ hstep).symm.trans (h.child _ _ hchild)
    exact .inr (Option.some.inj hparent ▸ habove)

/-- Nothing is at or below a node that it is strictly above. -/
theorem not_under_of_below (h : p.Forest) (hbelow : p.Below node other) : ¬ p.Under other node := by
  intro hunder
  have hlt := h.index_lt_below hbelow
  have hle := h.index_le_under hunder
  omega

/-- No child is at or below another one. -/
theorem eq_of_under (h : p.Forest) {child sibling : NodeId} (hchild : child ∈ p.children node)
    (hsibling : sibling ∈ p.children node) (hunder : p.Under sibling child) : sibling = child := by
  rcases h.under_child hchild hunder with heq | hunder
  · exact heq
  · exact absurd hunder (h.not_under_of_below ⟨sibling, hsibling, .refl⟩)

/-- Of two nodes above a third, one is above the other. -/
theorem under_total (h : p.Forest) {above : NodeId} (habove : p.Under above node)
    (hother : p.Under other node) : p.Under above other ∨ p.Under other above := by
  induction habove with
  | refl => exact .inr hother
  | tail hunder hchild ih =>
      rcases h.under_child hchild hother with rfl | hother
      · exact .inl (.tail hunder hchild)
      · exact ih hother

/-- Parents have earlier handles, so that a chain of them is no longer than a handle is late. -/
theorem ancestorsWithin_succ (h : p.Forest) (fuel : Nat) : ∀ node : NodeId,
    (p.parent node ≠ none → node.index ≤ fuel) →
      p.ancestorsWithin (fuel + 1) node = p.ancestorsWithin fuel node := by
  induction fuel with
  | zero =>
      intro node hfuel
      unfold ancestorsWithin
      cases hparent : p.parent node with
      | none => rfl
      | some parent =>
          have holder := h.older node parent hparent
          have hzero := hfuel (by rw [hparent]; nofun)
          omega
  | succ fuel ih =>
      intro node hfuel
      rw [ancestorsWithin.eq_def, ancestorsWithin.eq_def _ (fuel + 1)]
      dsimp only
      cases hparent : p.parent node with
      | none => rfl
      | some parent =>
          refine congrArg (parent :: ·) (ih parent fun _ => ?_)
          have holder := h.older node parent hparent
          have hle := hfuel (by rw [hparent]; nofun)
          omega

/-- **A chain of parents ends by itself.** -/
theorem ancestorsWithin_of_le (h : p.Forest) {fuel : Nat} (hfuel : p.nodes.size ≤ fuel) :
    p.ancestorsWithin fuel node = p.ancestors node := by
  induction hfuel with
  | refl => rfl
  | step hfuel ih =>
      refine (h.ancestorsWithin_succ _ node fun hparent => ?_).trans ih
      refine Nat.le_trans (Nat.le_of_lt (Nat.lt_of_not_le fun hge => hparent ?_)) hfuel
      simp [Program.parent, node?, hge]

theorem fileOf_ancestors (h : p.Forest) : ∀ (fuel : Nat) (node : NodeId),
    ∀ above ∈ p.ancestorsWithin fuel node, p.fileOf above = p.fileOf node
  | 0, _, _, hmem => nomatch hmem
  | fuel + 1, node, above, hmem => by
      unfold ancestorsWithin at hmem
      split at hmem
      · cases hmem
      · rename_i parent hparent
        rcases List.mem_cons.mp hmem with rfl | hmem
        · exact (h.file node above hparent).symm
        · exact (fileOf_ancestors h fuel parent above hmem).trans (h.file node parent hparent).symm

theorem fileOf_ancestor (h : p.Forest) (hmem : other ∈ p.ancestors node) :
    p.fileOf other = p.fileOf node :=
  h.fileOf_ancestors _ node other hmem

end Forest

end SymbolGraph.Program
