import SymbolGraph.Proofs.Program.Postorder
import SymbolGraph.Proofs.Session.Plan

/-!
# Proofs — Session — the round of a file

A walk leaves the nodes of a tree from the leaves to the root, siblings in source order.  Whatever
fails on the way, it leaves no node twice and none before its turn; and since a tree is no deeper than
a program has nodes, a walk that was allowed to go deeper would do the same.

* `Session.leaves`: the nodes that the walk of a file leaves.
* `Session.Plan.visitWithin_passes`: walking a tree comes to its milestones in their order.
* `Session.visitWithin_add`: a walk ends by itself.
-/

namespace SymbolGraph.Session

open SymbolGraph.Action SymbolGraph.Agenda

variable {α : Type} {w : Setting} {node : NodeId} {file : FileId}

/-! ### Milestones of a walk -/

namespace Plan

/-- A plan without milestones. -/
abbrev Unmarked (plan : Plan α) : Prop := plan.Passes []

section Unmarked

variable {find : Finder}

theorem take_unmarked {act : Running α} : (take act).Unmarked := passes_single

/-- By induction on the methods: no search for one of them passes a milestone. -/
theorem resolveBases_unmarked (h : ∀ symbol location, (find symbol location).Unmarked)
    (bases : List SymbolRef) : (resolveBases find bases).Unmarked := by
  induction bases with
  | nil => exact passes_pure
  | cons base bases ih =>
      refine (h base none).attempt.bind fun result => ?_
      cases result with
      | ok id => exact ih.bind fun _ => passes_pure
      | error fault =>
          cases fault with
          | cyclicResolution => exact ih
          | _ => exact passes_fail

/-- By induction on the types: no search for a property passes one. -/
theorem resolveProperties_unmarked (h : ∀ symbol location, (find symbol location).Unmarked)
    (name : String) (location : NodeId) (types : List TypeRef) : ∀ known,
      (resolveProperties w find name location known types).Unmarked := by
  induction types with
  | nil => exact fun _ => passes_pure
  | cons type types ih =>
      intro known
      unfold resolveProperties
      cases w.program.propertyOf type name with
      | none => exact ih known
      | some property => exact (h property _).bind fun _ => ih _

theorem methodKind_unmarked (h : ∀ symbol location, (find symbol location).Unmarked)
    (symbol : SymbolRef) (site : Option NodeId) (bases : List SymbolRef) :
    (methodKind w find symbol site bases).Unmarked := by
  cases site with
  | none => exact passes_pure
  | some node => exact (resolveBases_unmarked h _).bind fun _ => passes_pure

/-- By cases of the resolution: a kind passes none that its searches do not. -/
theorem recordKind_unmarked (h : ∀ symbol location, (find symbol location).Unmarked)
    (resolution : Resolution) (symbol : SymbolRef) (location : Option NodeId)
    (declarations : List NodeId) :
    (recordKind w find resolution symbol location declarations).Unmarked := by
  unfold recordKind
  cases resolution with
  | standard => exact passes_pure
  | typeAlias => exact passes_pure
  | transient => exact passes_pure
  | ofAlias =>
      dsimp only
      cases w.program.aliasedSymbol symbol with
      | none => exact passes_pure
      | some target => exact (h target none).bind fun _ => passes_pure
  | method =>
      dsimp only
      cases w.program.parentSymbol symbol with
      | none => exact methodKind_unmarked h symbol _ []
      | some parent => exact take_unmarked.bind fun _ => methodKind_unmarked h symbol _ _
  | composite =>
      dsimp only
      cases location with
      | none => exact passes_pure
      | some node => exact (resolveProperties_unmarked h _ _ _ _).bind fun _ => passes_pure

theorem emitDefinition_unmarked (resolution : Resolution) (id : RecordId) (symbol : SymbolRef)
    (declaration : NodeId) : (emitDefinition w resolution id symbol declaration).Unmarked := by
  unfold emitDefinition
  dsimp only
  cases resolution.identifierOf w.program symbol declaration with
  | none => exact passes_pure
  | some found =>
      refine take_unmarked.bind fun known => ?_
      cases known with
      | true => exact passes_pure
      | false =>
          exact take_unmarked.bind fun _ => take_unmarked.bind fun _ => take_unmarked.bind fun _ =>
            take_unmarked.bind fun _ => take_unmarked.bind fun _ => take_unmarked.bind fun _ =>
            take_unmarked

/-- The definition ranges of declarations pass none. -/
theorem emitDefinitions_unmarked (resolution : Resolution) (id : RecordId) (symbol : SymbolRef)
    (declarations : List NodeId) :
    (emitDefinitions w resolution id symbol declarations).Unmarked := by
  refine take_unmarked.bind fun record => ?_
  split
  · exact .forM_nil _ (emitDefinition_unmarked resolution id symbol)
  · exact passes_pure

theorem emitHover_unmarked (id : RecordId) (declarations : List NodeId) :
    (emitHover w id declarations).Unmarked := by
  unfold emitHover
  cases hoverText w.program declarations with
  | none => exact passes_pure
  | some contents => exact take_unmarked.bind fun _ => take_unmarked

theorem emitMonikers_unmarked (id : RecordId) (files : List FileId) (kind : LocationKind)
    (exportPath : String) : (emitMonikers w id files kind exportPath).Unmarked := by
  refine take_unmarked.bind fun moniker => ?_
  cases w.linker with
  | none => exact take_unmarked
  | some linker =>
      dsimp only
      cases linker.link _ with
      | none => exact take_unmarked
      | some linked => exact take_unmarked.bind fun _ => take_unmarked.bind fun _ => take_unmarked

theorem emitExported_unmarked (resolution : Resolution) (id : RecordId)
    (declarations : List NodeId) (exportPath : Option String) :
    (emitExported w resolution id declarations exportPath).Unmarked := by
  unfold emitExported
  dsimp only
  split
  · split
    · exact emitMonikers_unmarked id _ _ _
    · exact passes_pure
  · exact passes_pure

/-- What is known of a record besides its definitions passes none. -/
theorem emitExtras_unmarked (resolution : Resolution) (id : RecordId) (declarations : List NodeId)
    (exportPath : Option String) :
    (emitExtras w resolution id declarations exportPath).Unmarked := by
  unfold emitExtras
  dsimp only
  split
  · exact (emitHover_unmarked id declarations).bind fun _ => emitExported_unmarked _ _ _ _
  · exact emitExported_unmarked _ _ _ _

theorem describe_unmarked (resolution : Resolution) (id : RecordId) (symbol : SymbolRef)
    (declarations : List NodeId) (exportPath : Option String) :
    (describe w resolution id symbol declarations exportPath).Unmarked :=
  (emitDefinitions_unmarked _ _ _ _).bind fun _ => emitExtras_unmarked _ _ _ _

theorem announce_unmarked (resolution : Resolution) (id : RecordId) (symbol : SymbolRef)
    (declarations : List NodeId) (scope : Option NodeId) (exportPath : Option String) :
    (announce w resolution id symbol declarations scope exportPath).Unmarked := by
  cases scope with
  | none => exact describe_unmarked _ _ _ _ _
  | some node => exact take_unmarked.bind fun _ => describe_unmarked _ _ _ _ _

/-- Making a record passes none that looking for others does not. -/
theorem create_unmarked (h : ∀ symbol location, (find symbol location).Unmarked)
    (symbol : SymbolRef) (location : Option NodeId) :
    (create w find symbol location).Unmarked :=
  passes_halt.bind fun _ => take_unmarked.bind fun _ =>
    (recordKind_unmarked h _ _ _ _).bind fun _ => take_unmarked.bind fun _ =>
      (announce_unmarked _ _ _ _ _ _).bind fun _ => passes_pure

/-- By induction on the depth: looking for a record passes no milestone. -/
theorem resolveWithin_unmarked (fuel : Nat) : ∀ symbol location,
    (resolveWithin w fuel symbol location).Unmarked := by
  induction fuel with
  | zero => exact fun _ _ => passes_fail
  | succ fuel ih =>
      intro symbol location
      refine take_unmarked.bind fun found => ?_
      cases found with
      | some id => exact passes_pure
      | none =>
          exact take_unmarked.bind fun _ => (create_unmarked ih symbol location).onFailure take_unmarked

theorem resolve_unmarked (symbol : SymbolRef) (location : Option NodeId) :
    (resolve w symbol location).Unmarked :=
  resolveWithin_unmarked _ symbol location

theorem visitIdentifier_unmarked : (visitIdentifier w node).Unmarked := by
  unfold visitIdentifier
  dsimp only
  cases w.program.symbolAt node with
  | none => exact passes_pure
  | some symbol =>
      refine (resolve_unmarked symbol _).bind fun id => take_unmarked.bind fun known => ?_
      cases known with
      | true => exact passes_pure
      | false =>
          exact take_unmarked.bind fun _ => take_unmarked.bind fun _ => take_unmarked.bind fun _ =>
            take_unmarked.bind fun _ => take_unmarked.bind fun _ => take_unmarked

end Unmarked

/-! ### Walking -/

variable {walk : Plan Unit} {milestones : List Milestone}

/-- Overrides are released without a milestone. -/
theorem underOverrides_passes (overrides : List Override) (h : walk.Passes milestones) :
    (underOverrides overrides walk).Passes milestones :=
  h.andThen (.forM_nil _ fun _ => take_unmarked)

/-- A file passes what the walk below it passes. -/
theorem insideSourceFile_passes (root : NodeId) (h : walk.Passes milestones) :
    (insideSourceFile w root walk).Passes milestones := by
  refine take_unmarked.bind fun _ => ?_
  cases w.program.fileSymbol (w.program.fileOf root) with
  | none => exact h
  | some module =>
      refine take_unmarked.bind fun overrides => underOverrides_passes overrides ?_
      exact (resolve_unmarked module _).discard.bind fun _ => h

/-- A container passes what the walk inside it passes. -/
theorem insideNamed_passes (name : NodeId) (file : FileId) (h : walk.Passes milestones) :
    (insideNamed w file name walk).Passes milestones := by
  refine take_unmarked.bind fun found => ?_
  cases found with
  | none => exact h
  | some range => exact take_unmarked.bind fun _ => h.andThen take_unmarked

/-- A declaration passes what the walk below it passes. -/
theorem insideDocumentSymbol_passes (declaration : NodeId) (h : walk.Passes milestones) :
    (insideDocumentSymbol w declaration walk).Passes milestones := by
  unfold insideDocumentSymbol
  cases w.program.nameOf declaration with
  | none => exact h
  | some name =>
      dsimp only
      cases w.program.symbolAt name with
      | none => exact insideNamed_passes name _ h
      | some symbol =>
          exact (resolve_unmarked symbol _).discard.bind fun _ => insideNamed_passes name _ h

/-- The milestones of coming to a node. -/
def arrivals (w : Setting) (node : NodeId) : List Milestone :=
  if w.program.kind node = .identifier then [.identifier node] else []

/-- What is passed inside a node is its arrival and what is passed below it. -/
theorem inside_passes (h : walk.Passes milestones) :
    (inside w node walk).Passes (arrivals w node ++ milestones) := by
  unfold inside arrivals
  cases w.program.kind node with
  | sourceFile => exact insideSourceFile_passes node h
  | identifier => exact passes_single.bind fun _ => visitIdentifier_unmarked.bind fun _ => h
  | typeAliasDeclaration =>
      exact take_unmarked.bind fun overrides =>
        underOverrides_passes overrides (insideDocumentSymbol_passes node h)
  | _ =>
      dsimp only
      split
      · exact insideDocumentSymbol_passes node h
      · exact h

/-- The milestones of leaving a node. -/
def departures (w : Setting) (node : NodeId) : List Milestone :=
  .node node :: if w.program.kind node = .sourceFile then [.file (w.program.fileOf node)] else []

/-- Leaving a node passes the node, and its file if it is a root. -/
theorem leave_passes (node : NodeId) : (leave w node).Passes (departures w node) := by
  have hfile : (do
      if w.program.kind node = .sourceFile then
        single (some (.file (w.program.fileOf node)))
          (Store.endDocument w (w.program.fileOf node) : Running Unit)
        take (fileProcessed w (w.program.fileOf node)) : Plan Unit).Passes
      (if w.program.kind node = .sourceFile then [.file (w.program.fileOf node)] else []) := by
    split
    · exact passes_single.bind fun _ => take_unmarked
    · exact passes_pure
  exact passes_single.bind fun _ => hfile

/-- The milestones of walking a tree, at most `fuel` levels down. -/
def round (w : Setting) : (fuel : Nat) → NodeId → List Milestone
  | 0,        _    => []
  | fuel + 1, node =>
      arrivals w node ++ (w.program.children node).flatMap (round w fuel) ++ departures w node

/-- Walking a tree comes to its milestones in their order. -/
theorem visitWithin_passes (fuel : Nat) : ∀ node, (visitWithin w fuel node).Passes
    (round w fuel node) := by
  induction fuel with
  | zero => exact fun _ => passes_fail
  | succ fuel ih =>
      exact fun node => (inside_passes (.forM fun child _ => ih child)).bind fun _ => leave_passes node

end Plan

/-! ### The round of a file -/

/-- The nodes that the walk of a file leaves, one after the other. -/
def leaves (w : Setting) (file : FileId) (s : Session) : List NodeId :=
  ((Plan.visitFile w file).passed s).filterMap Milestone.node?

/-- The nodes that are left on a round are those of the tree in postorder. -/
theorem filterMap_round (fuel : Nat) : ∀ node,
    (Plan.round w fuel node).filterMap Milestone.node? = w.program.postorderWithin fuel node := by
  induction fuel with
  | zero => exact fun _ => rfl
  | succ fuel ih =>
      intro node
      have harrivals : (Plan.arrivals w node).filterMap Milestone.node? = [] := by
        unfold Plan.arrivals
        split <;> rfl
      have hdepartures : (Plan.departures w node).filterMap Milestone.node? = [node] := by
        unfold Plan.departures
        split <;> rfl
      unfold Plan.round Program.postorderWithin
      rw [List.filterMap_append, List.filterMap_append, harrivals, hdepartures, List.nil_append,
        List.filterMap_flatMap]
      simp only [ih]

/-- **The walk of a file leaves its nodes in postorder**, and all of them if it ends well. -/
theorem leaves_prefix (w : Setting) (file : FileId) (s : Session) :
    leaves w file s <+: w.program.postorder (w.program.root file) ∧
      ∀ t, visitFile w file s = .ok () t →
        leaves w file s = w.program.postorder (w.program.root file) := by
  obtain ⟨hpassed, hall⟩ := Plan.visitWithin_passes (w.program.nodes.size + 1)
    (w.program.root file) s
  have hnodes : (Plan.round w (w.program.nodes.size + 1) (w.program.root file)).filterMap
      Milestone.node? = w.program.postorder (w.program.root file) := filterMap_round _ _
  refine ⟨hnodes ▸ hpassed.filterMap _, fun t ht => ?_⟩
  rw [Plan.run_visitWithin] at hall
  exact (congrArg _ (hall () t ht)).trans hnodes

/-- **A walk ends by itself**: one that may go deeper than there are later nodes does the same. -/
theorem visitWithin_add (h : w.program.Forest) (more : Nat) : ∀ (fuel : Nat) (node : NodeId),
    node.index < w.program.nodes.size → w.program.nodes.size ≤ fuel + node.index →
      visitWithin w (fuel + more) node = visitWithin w fuel node
  | 0, node, hlt, hle => by omega
  | fuel + 1, node, hlt, hle => by
      rw [Nat.add_right_comm]
      unfold visitWithin
      have hbelow : (w.program.children node).forM (visitWithin w (fuel + more))
          = (w.program.children node).forM (visitWithin w fuel) := by
        refine forM_congr fun child hchild => ?_
        have holder := h.older _ _ (h.child _ _ hchild)
        exact visitWithin_add h more fuel child (h.index_lt_child hchild) (by omega)
      rw [hbelow]

end SymbolGraph.Session
