import SymbolGraph.Proofs.Symbol.Paths
import SymbolGraph.Proofs.Table
import SymbolGraph.Session.Walk

/-!
# Proofs — Symbol — where the chains of a run lead

The export path of a symbol is that of its parent with a name, or of what it is forwarded to.  In the
course of a run other parents are asserted and released, and so are forwards; but all of them come
from the program: a file asserts its own symbol as the parent of what it exports, and a type alias
forwards its type literals to itself.  Both are asserted by key, so they count for every symbol with
that key.

* `Program.Leads`: the path of one symbol may hang on that of another, at some time of a run.
* `Program.ascends_of_circle`: where the symbols of files are declared by source files, only parents and
  type aliases close a circle.
* `Overrides.Asserted`: overrides that come from the program.
* `Overrides.Asserted.acyclic`: where nothing leads back to itself, no chain runs in a circle.
-/

namespace SymbolGraph

namespace Program

/-- A file asserts its symbol as the parent of what has a key. -/
def Adopts (p : Program) (key : SymbolKey) (module : SymbolRef) : Prop :=
  ∃ root target, p.kind root = .sourceFile ∧ p.fileSymbol (p.fileOf root) = some module ∧
    target ∈ p.exportTargets root ∧ p.key target = key

/-- The type literals of a type alias. -/
def aliasLiterals (p : Program) (declaration name : NodeId) : List NodeId :=
  (((p.children declaration).filter fun child => child ≠ name).map
    (p.typeLiteralsWithin (p.nodes.size + 1))).flatMap Prod.fst

/-- A type alias forwards what has a key to itself. -/
def Forwards (p : Program) (key : SymbolKey) (target : SymbolRef) : Prop :=
  ∃ declaration name literal symbol, p.kind declaration = .typeAliasDeclaration ∧
    p.nameOf declaration = some name ∧ p.symbolAt name = some target ∧
    literal ∈ p.aliasLiterals declaration name ∧ p.symbolAt literal = some symbol ∧
    p.key symbol = key

/-- The export path of one symbol may hang on that of another, at some time of a run: that of its
parent, of a file that exports it, or, where it has no parent, of a type alias. -/
inductive Leads (p : Program) (a b : SymbolRef) : Prop
  | parent : p.isSourceFileSymbol a = false → p.parentSymbol a = some b → Leads p a b
  | adopted : p.isSourceFileSymbol a = false → p.Adopts (p.key a) b → Leads p a b
  | forwarded : p.isSourceFileSymbol a = false → p.parentSymbol a = none →
      p.Forwards (p.key a) b → Leads p a b

/-! ### Chains without the overrides of files -/

/-- The export path of one symbol hangs on that of another as the program stands: on that of its parent
or, where it has none, of a type alias. -/
inductive Ascends (p : Program) (a b : SymbolRef) : Prop
  | parent : p.isSourceFileSymbol a = false → p.parentSymbol a = some b → Ascends p a b
  | forwarded : p.isSourceFileSymbol a = false → p.parentSymbol a = none →
      p.Forwards (p.key a) b → Ascends p a b

/-- The symbols of files are declared by source files. -/
def FilesStand (p : Program) : Prop :=
  ∀ file module, p.fileSymbol file = some module → p.isSourceFileSymbol module = true

section Ascends

variable {p : Program} {a b : SymbolRef}

/-- No chain goes on from the symbol of a source file. -/
theorem Leads.isSourceFileSymbol_eq (h : p.Leads a b) : p.isSourceFileSymbol a = false := by
  cases h with
  | parent hfile => exact hfile
  | adopted hfile => exact hfile
  | forwarded hfile => exact hfile

/-- What files assert leads to where the chain ends. -/
theorem Leads.ascends_or (hfiles : p.FilesStand) (h : p.Leads a b) :
    p.Ascends a b ∨ p.isSourceFileSymbol b = true := by
  cases h with
  | parent hfile hparent => exact .inl (.parent hfile hparent)
  | adopted _ hadopts =>
      obtain ⟨root, -, -, hmodule, -⟩ := hadopts
      exact .inr (hfiles _ b hmodule)
  | forwarded hfile hparent hforwards => exact .inl (.forwarded hfile hparent hforwards)

/-- **No circle is closed by what files assert**: a chain that comes back to itself only goes through
parents and type aliases. -/
theorem ascends_of_circle (hfiles : p.FilesStand) (h : Relation.TransGen p.Leads a a) :
    Relation.TransGen p.Ascends a a := by
  -- By induction on the chain: it goes on from where it has come to, so that is no source file.
  have hgoes {c d : SymbolRef} (hchain : Relation.TransGen p.Leads a c) (hnext : p.Leads c d) :
      Relation.TransGen p.Ascends a c := by
    induction hchain generalizing d with
    | single hstep =>
        refine .single ((hstep.ascends_or hfiles).resolve_right fun hfile => ?_)
        cases hfile.symm.trans hnext.isSourceFileSymbol_eq
    | tail _ hstep ih =>
        refine (ih hstep).tail ((hstep.ascends_or hfiles).resolve_right fun hfile => ?_)
        cases hfile.symm.trans hnext.isSourceFileSymbol_eq
  obtain ⟨b, hnext, -⟩ := Relation.TransGen.head'_iff.mp h
  exact hgoes h hnext

end Ascends

end Program

namespace Overrides

variable {p : Program} {o : Overrides} {kind : Option LocationKind} {key : SymbolKey}
  {a b : SymbolRef}

/-- Overrides that come from the program. -/
structure Asserted (p : Program) (o : Overrides) : Prop where
  parents  : ∀ key parent, o.parents.get? key = some parent → p.Adopts key parent
  forwards : ∀ key forward, o.forwards.get? key = some forward → p.Forwards key forward.target

namespace Asserted

/-- A parent is asserted by key, so it counts for every symbol with that key. -/
theorem addParent (h : o.Asserted p) (hadopts : p.Adopts key b) :
    (o.addParent key b).Asserted p := by
  refine ⟨fun other parent hparent => ?_, h.forwards⟩
  change (o.parents.insert key b).get? other = _ at hparent
  rw [Table.get?_insert] at hparent
  split at hparent
  · rename_i heq
    cases hparent
    exact heq ▸ hadopts
  · exact h.parents other parent hparent

/-- Exports say whose parent is overridden, and lead nowhere by themselves. -/
theorem addExport (h : o.Asserted p) {child : SymbolKey} : (o.addExport key child).Asserted p := by
  unfold Overrides.addExport
  split
  · exact h
  · exact ⟨h.parents, h.forwards⟩

/-- A forward to a type alias leads where the program says. -/
theorem addForward (h : o.Asserted p) {forward : Forward}
    (hforwards : p.Forwards key forward.target) : (o.addForward key forward).Asserted p := by
  refine ⟨h.parents, fun other known hknown => ?_⟩
  change (o.forwards.insert key forward).get? other = _ at hknown
  rw [Table.get?_insert] at hknown
  split at hknown
  · rename_i heq
    cases hknown
    exact heq ▸ hforwards
  · exact h.forwards other known hknown

/-- What is released leaves overrides that were asserted before, all of them from the program. -/
theorem release (h : o.Asserted p) (override : Override) : (o.release override).Asserted p := by
  have herase {β : Type} {table : Table SymbolKey β} {key other : SymbolKey} {b : β}
      (hget : (table.erase key).get? other = some b) : table.get? other = some b := by
    rw [Table.get?_erase] at hget
    split at hget
    · cases hget
    · exact hget
  unfold Overrides.release
  split
  · split
    · exact ⟨fun other parent hparent => h.parents other parent (herase hparent), h.forwards⟩
    · exact h
  · exact ⟨h.parents, h.forwards⟩
  · split
    · exact ⟨h.parents, fun other forward hforward => h.forwards other forward (herase hforward)⟩
    · exact h

/-- What comes next in a chain is where the symbol leads. -/
theorem leads (h : o.Asserted p) (hnext : o.next? p kind a = some b) : p.Leads a b := by
  unfold next? parentOf at hnext
  split at hnext
  · cases hnext
  · rename_i hfile
    replace hfile : p.isSourceFileSymbol a = false := by simpa using hfile
    cases hgiven : o.parents.get? (p.key a) with
    | some parent =>
        rw [hgiven] at hnext
        cases hnext
        exact .adopted hfile (h.parents _ b hgiven)
    | none =>
        rw [hgiven, Option.none_or] at hnext
        cases hparent : p.parentSymbol a with
        | some parent =>
            rw [hparent] at hnext
            cases hnext
            exact .parent hfile hparent
        | none =>
            rw [hparent] at hnext
            dsimp only at hnext
            split at hnext
            · cases hnext
            · obtain ⟨forward, hforward, rfl⟩ := Option.map_eq_some_iff.mp hnext
              exact .forwarded hfile hparent (h.forwards _ forward hforward)

/-- **Where nothing leads back to itself, no chain runs in a circle.** -/
theorem acyclic (h : o.Asserted p) (hleads : ∀ a, ¬ Relation.TransGen p.Leads a a) :
    o.Acyclic p kind Set.univ :=
  fun a _ hcircle => hleads a (hcircle.lift id fun _ _ => h.leads)

end Asserted

end Overrides

end SymbolGraph
