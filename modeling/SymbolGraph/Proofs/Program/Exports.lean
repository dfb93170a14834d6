import SymbolGraph.Proofs.Program.Tree
import SymbolGraph.Session.Walk

/-!
# Proofs — Program — what a file exports

A file exports symbols by statements below its root: by assignment, or by specifiers.  Of the
specifiers only those count that keep the name of what they export.

* `Program.Exports`: what the statements of a file export.
* `Program.exports_of_specifier`: a specifier right below an export statement.
* `Program.mem_exportTargets`: in a forest, what a file exports and declares is among the symbols that
  are asserted when the file is walked.
-/

namespace SymbolGraph.Program

variable {p : Program} {kind : NodeKind} {root node : NodeId} {target : SymbolRef}

/-- What the statements below a root export: what the name in an assignment denotes, and what
specifiers denote that keep the name, in each case behind aliases. -/
inductive Exports (p : Program) (root : NodeId) : SymbolRef → Prop
  | assigned {statement name : NodeId} {symbol : SymbolRef} : statement ∈ p.children root →
      p.kind statement = .exportAssignment →
      (p.children statement).find? (fun child => p.kind child = .identifier) = some name →
      p.symbolAt name = some symbol → Exports p root (p.behindAlias symbol)
  | specified {statement specifier : NodeId} {symbol : SymbolRef} : statement ∈ p.children root →
      p.kind statement = .exportDeclaration → p.Below statement specifier →
      p.kind specifier = .exportSpecifier →
      (∀ between, p.Below statement between → p.Below between specifier →
        p.kind between ≠ .exportSpecifier) →
      p.symbolAt specifier = some symbol →
      p.symbolName (p.behindAlias symbol) = p.symbolName symbol →
      Exports p root (p.behindAlias symbol)

/-- A specifier directly below a statement exports what it denotes behind aliases, if that has its
name. -/
theorem exports_of_specifier (hp : p.Forest) {statement specifier : NodeId} {symbol : SymbolRef}
    (hstatement : statement ∈ p.children root) (hkind : p.kind statement = .exportDeclaration)
    (hspecifier : specifier ∈ p.children statement) (hspecifies : p.kind specifier = .exportSpecifier)
    (hdenotes : p.symbolAt specifier = some symbol) (htarget : p.behindAlias symbol = target)
    (hname : p.symbolName target = p.symbolName symbol) : p.Exports root target := by
  subst htarget
  refine .specified hstatement hkind ⟨specifier, hspecifier, .refl⟩ hspecifies ?_ hdenotes hname
  -- Nothing is between a node and its child.
  intro between habove hbelow
  rcases hp.under_child hspecifier hbelow.under with rfl | hunder
  · exact absurd (hp.index_lt_below hbelow) (Nat.lt_irrefl _)
  · exact absurd hunder (hp.not_under_of_below habove)

/-- The nodes of a kind are found where there is fuel for all later handles. -/
theorem mem_nodesOfKindWithin (hp : p.Forest) {found : NodeId} (hkind : p.kind found = kind) :
    ∀ (fuel : Nat) (node : NodeId), p.nodes.size ≤ node.index + fuel → p.Below node found →
      (∀ between, p.Below node between → p.Below between found → p.kind between ≠ kind) →
      found ∈ p.nodesOfKindWithin kind fuel node
  | 0, node, hfuel, ⟨child, hchild, _⟩, _ => by
      have hnone : p.node? node = none := Array.getElem?_eq_none hfuel
      rw [children, hnone] at hchild
      cases hchild
  | fuel + 1, node, hfuel, ⟨child, hchild, hunder⟩, hbetween => by
      refine List.mem_flatMap.mpr ⟨child, hchild, ?_⟩
      rcases under_iff.mp hunder with rfl | hbelow
      · rw [if_pos hkind]
        exact List.mem_singleton_self _
      · have hself : p.Below node child := ⟨child, hchild, .refl⟩
        have holder := hp.older child node (hp.child node child hchild)
        rw [if_neg (hbetween child hself hbelow)]
        refine mem_nodesOfKindWithin hp hkind fuel child (by omega) hbelow fun between habove => ?_
        exact hbetween between ⟨child, hchild, habove.under⟩

theorem mem_dropRepeats : ∀ {symbols : List SymbolRef}, target ∈ symbols → target ∈ dropRepeats symbols
  | [], hmem => nomatch hmem
  | [_], hmem => hmem
  | a :: b :: rest, hmem => by
      unfold dropRepeats
      rcases List.mem_cons.mp hmem with rfl | hmem
      · split
        · rename_i heq
          exact mem_dropRepeats (heq ▸ List.mem_cons_self)
        · exact List.mem_cons_self
      · split
        · exact mem_dropRepeats hmem
        · exact List.mem_cons_of_mem _ (mem_dropRepeats hmem)

/-- **What a file exports and declares is asserted.** -/
theorem mem_exportTargets (hp : p.Forest) (h : p.Exports root target)
    (hdeclared : ∃ declaration ∈ p.declarations target, p.fileOf declaration = p.fileOf root) :
    target ∈ p.exportTargets root := by
  obtain ⟨declaration, hmem, hfile⟩ := hdeclared
  refine mem_dropRepeats (List.mem_filter.mpr ⟨List.mem_flatMap.mpr ?_,
    List.any_eq_true.mpr ⟨declaration, hmem, decide_eq_true hfile⟩⟩)
  cases h with
  | @assigned statement name symbol hstatement hkind hname hsymbol =>
      refine ⟨statement, hstatement, ?_⟩
      simp [exportedBy, hkind, hname, hsymbol]
  | @specified statement specifier symbol hstatement hkind hbelow hspecifier hbetween hsymbol hsame =>
      refine ⟨statement, hstatement, ?_⟩
      have hfound := mem_nodesOfKindWithin hp hspecifier (p.nodes.size + 1) statement (by omega)
        hbelow hbetween
      have hdenoted := List.mem_filterMap.mpr ⟨specifier, hfound, hsymbol⟩
      simp only [exportedBy, hkind]
      exact List.mem_filterMap.mpr ⟨symbol, hdenoted, if_pos hsame⟩

end SymbolGraph.Program
