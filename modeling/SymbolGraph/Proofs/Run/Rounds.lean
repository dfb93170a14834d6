import SymbolGraph.Proofs.Run.Walked
import SymbolGraph.Proofs.Session.Rounds

/-!
# Proofs — Run — walking what was built

A program that is built is a forest in source order, so that the walk of a file ends and leaves each
node of the tree of the file once.

* `Run.visitFile_rounds`: the trees of a program, and the walks of them.
* `Run.registeredTwice_rounds`: the walk of a file that was registered again.
-/

namespace SymbolGraph.Run

open SymbolGraph.Action

variable {w : Setting}

/-- **The trees of a program that is built, and the walks of them.**  A node is a child of its parent
and of nothing else, and that once; it is of the same file as its parent and was made later; and
siblings stand in source order.  So the walk of a file ends by itself, leaves exactly the nodes whose
topmost ancestor is the root of the file, each once, and leaves no other nodes before it fails. -/
theorem visitFile_rounds (hbuilt : ∃ steps, Program.ofSteps steps = .ok w.program) :
    (∀ node child, child ∈ w.program.children node ↔ w.program.parent child = some node) ∧
    (∀ child parent, w.program.parent child = some parent → ∀ node,
      (w.program.children node).count child = if node = parent then 1 else 0) ∧
    (∀ child parent, w.program.parent child = some parent →
      w.program.fileOf child = w.program.fileOf parent ∧ parent.index < child.index) ∧
    (∀ node, (w.program.children node).Pairwise w.program.Precedes) ∧
    ∀ file ∈ w.program.sourceFiles,
      (∀ node, (w.program.postorder (w.program.root file)).count node
        = if w.program.topmost node = w.program.root file then 1 else 0) ∧
      (∀ more, Session.visitWithin w (w.program.nodes.size + 1 + more) (w.program.root file)
        = Session.visitFile w file) ∧
      ∀ s, Session.leaves w file s <+: w.program.postorder (w.program.root file) ∧
        ∀ t, Session.visitFile w file s = .ok () t →
          Session.leaves w file s = w.program.postorder (w.program.root file) := by
  obtain ⟨steps, hsteps⟩ := hbuilt
  have hforest := Program.ofSteps_forest hsteps
  have hlisted := Program.ofSteps_listed hsteps
  have hsiblings := Program.ofSteps_siblings hsteps
  have hchildren (node child : NodeId) :
      child ∈ w.program.children node ↔ w.program.parent child = some node :=
    ⟨hforest.child node child, hlisted child node⟩
  refine ⟨hchildren, fun child parent hparent node => ?_,
    fun child parent hparent => ⟨hforest.file _ _ hparent, hforest.older _ _ hparent⟩,
    Program.ofSteps_precedes hsteps, fun file hfile => ⟨fun node => ?_, fun more => ?_,
      Session.leaves_prefix w file⟩⟩
  · rw [(hsiblings node).count]
    refine if_congr ?_ rfl rfl
    rw [hchildren, hparent, Option.some.injEq, eq_comm]
  -- A postorder lists each node once, so counting is membership.
  · have hroot := (hforest.root file hfile).2.2
    have hnodup := (Program.postorder_perm _).nodup_iff.mpr
      (hforest.nodup_preorder hsiblings (w.program.root file))
    rw [hnodup.count]
    exact if_congr (hforest.mem_postorder_root hlisted hroot) rfl rfl
  · have hlt := Program.index_lt (.inr (.inl (hforest.root file hfile).2.1))
    exact Session.visitWithin_add hforest more _ _ hlt (by omega)

/-- A file is registered with a node, and registered again with others: one that ends later than one
that was made before it, with a node in it, and one at the same place as the first. -/
def registeredTwiceSteps : List Program.Step :=
  [.file ⟨"/p/a.ts"⟩ "a b", .node ⟨0⟩ .other 0 1, .file ⟨"/p/a.ts"⟩ "a b",
   .node ⟨2⟩ .other 0 1, .node ⟨2⟩ .block 0 3, .nodeAt ⟨4⟩ .identifier "b" 0, .node ⟨2⟩ .other 0 1]

def registeredTwice : Setting := plain registeredTwiceSteps

/-- The walk leaves the later tree, in source order, and nothing of the earlier one. -/
theorem registeredTwice_rounds : ∃ s t, Reached registeredTwice (fun _ => none) [] s ∧
    Session.visitFile registeredTwice ⟨0⟩ s = .ok () t ∧
    Session.leaves registeredTwice ⟨0⟩ s = [⟨5⟩, ⟨4⟩, ⟨3⟩, ⟨6⟩, ⟨2⟩] ∧
    registeredTwice.program.topmost ⟨1⟩ = ⟨0⟩ ∧ registeredTwice.program.topmost ⟨5⟩ = ⟨2⟩ := by
  have hfacts : (Program.ofSteps registeredTwiceSteps).isOk = true ∧
      ⟨0⟩ ∈ registeredTwice.program.sourceFiles ∧
      registeredTwice.program.postorder (registeredTwice.program.root ⟨0⟩)
        = [⟨5⟩, ⟨4⟩, ⟨3⟩, ⟨6⟩, ⟨2⟩] ∧
      registeredTwice.program.topmost ⟨1⟩ = ⟨0⟩ ∧ registeredTwice.program.topmost ⟨5⟩ = ⟨2⟩ := by
    decide +kernel
  have hrun : (reached? registeredTwice (fun _ => none) []).any (fun s =>
      (ending? (Session.visitFile registeredTwice ⟨0⟩) s).isSome) = true := by
    decide +kernel
  obtain ⟨hok, hfile, hpostorder, hearlier, hlater⟩ := hfacts
  obtain ⟨s, hs, hvisits⟩ := (Option.any_eq_true _ _).mp hrun
  obtain ⟨t, hend⟩ := Option.isSome_iff_exists.mp hvisits
  obtain ⟨_, hvisit⟩ := ending?_eq_some.mp hend
  obtain ⟨-, -, -, -, hrounds⟩ := visitFile_rounds (plain_built hok)
  obtain ⟨-, -, hleaves⟩ := hrounds ⟨0⟩ hfile
  exact ⟨s, t, hs, hvisit, hpostorder ▸ (hleaves s).2 t hvisit, hearlier, hlater⟩

end SymbolGraph.Run
