import Mathlib.Data.List.Nodup
import Mathlib.Data.List.Perm.Subperm
import Mathlib.Logic.Relation
import SymbolGraph.Symbol.ExportPath

/-!
# Proofs — Symbol — export paths from nothing

The export path of a symbol as the program and the overrides define it, with nothing remembered
from earlier questions.  It is a recursion along parents and forwards, which need not end; so it is
a relation, and has one answer where the chain that is followed ends.

* `Overrides.PathOf`: the recursion.  `Overrides.PathOf.unique`: it has at most one answer.
* `Overrides.next?`, `Overrides.Ends`: the chain that is followed, and that it is short.
  `Overrides.ends_of_acyclic`: a chain without a circle is no longer than there are symbols.
* `Symbols.Derives`: what one round of `Symbols.deriveExportPath` can do, case by case.
-/

namespace SymbolGraph

namespace Program

/-- The symbols that are in play: the parents of such symbols are, and no two have the same key. -/
structure Distinguishes (p : Program) (play : Set SymbolRef) : Prop where
  parent : ∀ a ∈ play, ∀ b, p.parentSymbol a = some b → b ∈ play
  inj    : ∀ a ∈ play, ∀ b ∈ play, p.key a = p.key b → a = b

/-- Whether a parent owns its members or exports a child. -/
def admits (p : Program) (parent child : SymbolRef) : Bool :=
  (p.symbolFlags parent).ownsMembers || child ∈ p.exportsOf parent

theorem key_of_missing {p : Program} {a : SymbolRef} (h : p.symbols.size ≤ a.index) :
    p.key a = .undeclared := by
  have hnone : p.symbol? a = none := by simp [symbol?, h]
  simp [key, declarations, isUnknown, isUndefined, hnone]

/-- All symbols in play that do not exist are one, so there are few symbols in play. -/
theorem Distinguishes.length_le {p : Program} {play : Set SymbolRef} (h : p.Distinguishes play)
    {list : List SymbolRef} (hnodup : list.Nodup) (hplay : ∀ a ∈ list, a ∈ play) :
    list.length ≤ p.symbols.size + 1 := by
  have hmap : (list.map fun a => min a.index p.symbols.size).Nodup := by
    refine hnodup.map_on fun a ha b hb heq => ?_
    by_cases hlt : a.index < p.symbols.size
    · obtain ⟨a⟩ := a
      obtain ⟨b⟩ := b
      have hab : a = b := by simp only at heq hlt; omega
      rw [hab]
    · have hsize : p.symbols.size ≤ a.index ∧ p.symbols.size ≤ b.index := by omega
      exact h.inj a (hplay a ha) b (hplay b hb)
        ((key_of_missing hsize.1).trans (key_of_missing hsize.2).symm)
  have hsub : (list.map fun a => min a.index p.symbols.size) ⊆ List.range (p.symbols.size + 1) := by
    intro n hn
    obtain ⟨a, -, rfl⟩ := List.mem_map.mp hn
    exact List.mem_range.mpr (by omega)
  simpa using (List.subperm_of_subset hmap hsub).length_le

end Program

namespace Overrides

variable {p : Program} {kind : Option LocationKind} {o o' : Overrides} {a b : SymbolRef}
  {path path' : Option String} {play : Set SymbolRef}

/-- The parent of a symbol: one that was asserted comes before its own. -/
def parentOf (o : Overrides) (p : Program) (symbol : SymbolRef) : Option SymbolRef :=
  (o.parents.get? (p.key symbol)).or (p.parentSymbol symbol)

/-- Whether a parent lets a child be reached, or is asserted to. -/
def admits (o : Overrides) (p : Program) (parent child : SymbolRef) : Bool :=
  p.admits parent child || o.exports (p.key parent) (p.key child)

/-- The export path of a symbol, worked out from the program and the overrides alone. -/
inductive PathOf (p : Program) (kind : Option LocationKind) (o : Overrides) :
    SymbolRef → Option String → Prop where
  | file {a : SymbolRef} (hfile : p.isSourceFileSymbol a = true) : PathOf p kind o a (some "")
  | bare {a : SymbolRef} (hfile : p.isSourceFileSymbol a = false) (hparent : o.parentOf p a = none)
      (hbare : p.isExportedBare kind a = true) : PathOf p kind o a (some (p.symbolName a))
  | hidden {a : SymbolRef} (hfile : p.isSourceFileSymbol a = false)
      (hparent : o.parentOf p a = none) (hbare : p.isExportedBare kind a = false)
      (hforward : o.forwards.get? (p.key a) = none) : PathOf p kind o a none
  | forwarded {a : SymbolRef} {forward : Forward} {path : Option String}
      (hfile : p.isSourceFileSymbol a = false) (hparent : o.parentOf p a = none)
      (hbare : p.isExportedBare kind a = false)
      (hforward : o.forwards.get? (p.key a) = some forward)
      (hbeside : PathOf p kind o forward.target path) :
      PathOf p kind o a (path.map fun path => replaceLastSegment path forward.name)
  | child {a parent : SymbolRef} {path : Option String} (hfile : p.isSourceFileSymbol a = false)
      (hparent : o.parentOf p a = some parent) (habove : PathOf p kind o parent path) :
      PathOf p kind o a
        (if o.admits p parent a then path.map fun path => extendPath path (p.symbolName a)
         else none)

/-- The recursion has at most one answer. -/
theorem PathOf.unique (h : o.PathOf p kind a path) (h' : o.PathOf p kind a path') :
    path = path' := by
  -- The five rules exclude each other by their premises.
  induction h generalizing path' with
  | file hfile =>
      cases h' with
      | file => rfl
      | bare hfile' | hidden hfile' | forwarded hfile' | child hfile' => simp_all
  | bare hfile hparent hbare =>
      cases h' with
      | bare => rfl
      | file hfile' => simp_all
      | hidden _ _ hbare' | forwarded _ _ hbare' => simp_all
      | child _ hparent' => simp_all
  | hidden hfile hparent hbare hforward =>
      cases h' with
      | hidden => rfl
      | file hfile' => simp_all
      | bare _ _ hbare' => simp_all
      | forwarded _ _ _ hforward' => simp_all
      | child _ hparent' => simp_all
  | forwarded hfile hparent hbare hforward _ ih =>
      cases h' with
      | forwarded _ _ _ hforward' hbeside' =>
          cases hforward.symm.trans hforward'
          rw [ih hbeside']
      | file hfile' => simp_all
      | bare _ _ hbare' => simp_all
      | hidden _ _ _ hforward' => simp_all
      | child _ hparent' => simp_all
  | child hfile hparent _ ih =>
      cases h' with
      | child _ hparent' habove' =>
          cases hparent.symm.trans hparent'
          rw [ih habove']
      | file hfile' => simp_all
      | bare _ hparent' | hidden _ hparent' | forwarded _ hparent' => simp_all

/-! ### The chain that is followed -/

/-- The symbol whose path decides that of another: the parent, or what it is forwarded to. -/
def next? (o : Overrides) (p : Program) (kind : Option LocationKind) (symbol : SymbolRef) :
    Option SymbolRef :=
  if p.isSourceFileSymbol symbol then none
  else match o.parentOf p symbol with
    | some parent => some parent
    | none        =>
        if p.isExportedBare kind symbol then none
        else (o.forwards.get? (p.key symbol)).map Forward.target

theorem next?_of_parent {parent : SymbolRef} (hfile : p.isSourceFileSymbol a = false)
    (hparent : o.parentOf p a = some parent) : o.next? p kind a = some parent := by
  simp [next?, hfile, hparent]

theorem next?_of_forward {forward : Forward} (hfile : p.isSourceFileSymbol a = false)
    (hparent : o.parentOf p a = none) (hbare : p.isExportedBare kind a = false)
    (hforward : o.forwards.get? (p.key a) = some forward) :
    o.next? p kind a = some forward.target := by
  simp [next?, hfile, hparent, hbare, hforward]

/-- No symbol in play comes after itself, following parents and forwards. -/
def Acyclic (p : Program) (kind : Option LocationKind) (play : Set SymbolRef) (o : Overrides) :
    Prop :=
  ∀ a ∈ play, ¬ Relation.TransGen (fun a b => o.next? p kind a = some b) a a

/-- The chain from a symbol ends within `fuel` symbols. -/
def Ends (p : Program) (kind : Option LocationKind) (o : Overrides) : (fuel : Nat) → SymbolRef → Prop
  | 0,        _ => False
  | fuel + 1, a => ∀ b, o.next? p kind a = some b → Ends p kind o fuel b

/-- What is asserted is about symbols in play. -/
structure Within (o : Overrides) (play : Set SymbolRef) : Prop where
  parents  : ∀ key parent, o.parents.get? key = some parent → parent ∈ play
  forwards : ∀ key forward, o.forwards.get? key = some forward → forward.target ∈ play

theorem Within.parentOf (h : o.Within play) (hplay : p.Distinguishes play) (ha : a ∈ play)
    (hparent : o.parentOf p a = some b) : b ∈ play := by
  rcases Option.or_eq_some_iff.mp hparent with hgiven | ⟨-, hown⟩
  · exact h.parents _ b hgiven
  · exact hplay.parent a ha b hown

theorem Within.next? (h : o.Within play) (hplay : p.Distinguishes play) (ha : a ∈ play)
    (hnext : o.next? p kind a = some b) : b ∈ play := by
  unfold Overrides.next? at hnext
  split at hnext
  · cases hnext
  · split at hnext
    · rename_i hparent
      cases hnext
      exact h.parentOf hplay ha hparent
    · split at hnext
      · cases hnext
      · obtain ⟨forward, hforward, rfl⟩ := Option.map_eq_some_iff.mp hnext
        exact h.forwards _ forward hforward

/-- By the symbols that were passed on the way: none of them comes again, and there are only so
many. -/
theorem ends_of_passed (hplay : p.Distinguishes play) (hwithin : o.Within play)
    (hacyclic : o.Acyclic p kind play) (fuel : Nat) (a : SymbolRef) (passed : List SymbolRef)
    (ha : a ∈ play) (hnodup : passed.Nodup)
    (hpassed : ∀ b ∈ passed,
      b ∈ play ∧ Relation.TransGen (fun a b => o.next? p kind a = some b) b a)
    (hfuel : p.symbols.size + 2 ≤ passed.length + fuel) : o.Ends p kind fuel a := by
  induction fuel generalizing a passed with
  | zero =>
      have := hplay.length_le hnodup fun b hb => (hpassed b hb).1
      omega
  | succ fuel ih =>
      intro b hnext
      have hnew : a ∉ passed := fun hmem => hacyclic a ha (hpassed a hmem).2
      refine ih b (a :: passed) (hwithin.next? hplay ha hnext) (hnodup.cons hnew) ?_
        (by simp only [List.length_cons]; omega)
      intro c hc
      rcases List.mem_cons.mp hc with rfl | hc
      · exact ⟨ha, .single hnext⟩
      · exact ⟨(hpassed c hc).1, (hpassed c hc).2.tail hnext⟩

/-- A chain without a circle is no longer than there are symbols. -/
theorem ends_of_acyclic (hplay : p.Distinguishes play) (hwithin : o.Within play)
    (hacyclic : o.Acyclic p kind play) (ha : a ∈ play) : o.Ends p kind (p.symbols.size + 3) a :=
  ends_of_passed hplay hwithin hacyclic _ a [] ha .nil (by simp) (by simp)

end Overrides

/-! ### One round -/

namespace Symbols

/-- What one round of the recursion answers, and the state it leaves. -/
inductive Derives (p : Program) (kind : Option LocationKind)
    (ask : SymbolRef → StateM Symbols ExportAnswer) (a : SymbolRef) (s : Symbols) :
    ExportAnswer × Symbols → Prop where
  | file (hfile : p.isSourceFileSymbol a = true) : Derives p kind ask a s (⟨some "", false⟩, s)
  | bare (hfile : p.isSourceFileSymbol a = false) (hparent : s.overrides.parentOf p a = none)
      (hbare : p.isExportedBare kind a = true) :
      Derives p kind ask a s (⟨some (p.symbolName a), false⟩, s)
  | hidden (hfile : p.isSourceFileSymbol a = false) (hparent : s.overrides.parentOf p a = none)
      (hbare : p.isExportedBare kind a = false)
      (hforward : s.overrides.forwards.get? (p.key a) = none) :
      Derives p kind ask a s (⟨none, false⟩, s)
  | forwarded (forward : Forward) (hfile : p.isSourceFileSymbol a = false)
      (hparent : s.overrides.parentOf p a = none) (hbare : p.isExportedBare kind a = false)
      (hforward : s.overrides.forwards.get? (p.key a) = some forward) :
      Derives p kind ask a s
        (⟨(ask forward.target s).1.path.map fun path => replaceLastSegment path forward.name, true⟩,
         (ask forward.target s).2)
  | child (parent : SymbolRef) (hfile : p.isSourceFileSymbol a = false)
      (hparent : s.overrides.parentOf p a = some parent) :
      Derives p kind ask a s
        (⟨if s.overrides.admits p parent a then
            (ask parent s).1.path.map fun path => extendPath path (p.symbolName a)
          else none,
          (s.overrides.parents.get? (p.key a)).isSome || (ask parent s).1.consulted
            || ((ask parent s).1.path.isSome && !p.admits parent a
              && s.overrides.exports (p.key parent) (p.key a))⟩,
         (ask parent s).2)

theorem deriveExportPath_derives (p : Program) (kind : Option LocationKind)
    (ask : SymbolRef → StateM Symbols ExportAnswer) (a : SymbolRef) (s : Symbols) :
    Derives p kind ask a s (deriveExportPath p kind ask a s) := by
  unfold deriveExportPath
  by_cases hfile : p.isSourceFileSymbol a = true
  · rw [if_pos hfile]
    exact .file hfile
  rw [if_neg hfile]
  replace hfile : p.isSourceFileSymbol a = false := by simpa using hfile
  simp only [get, getThe, MonadStateOf.get, bind, StateT.bind, StateT.get, pure]
  cases hparent : s.overrides.parentOf p a with
  | none =>
      rw [Overrides.parentOf] at hparent
      by_cases hbare : p.isExportedBare kind a = true
      · simp only [hparent, hbare, if_true]
        exact .bare hfile hparent hbare
      · replace hbare : p.isExportedBare kind a = false := by simpa using hbare
        cases hforward : s.overrides.forwards.get? (p.key a) with
        | none =>
            simp only [hparent, hbare]
            exact .hidden hfile hparent hbare hforward
        | some forward =>
            simp only [hparent, hbare]
            exact .forwarded forward hfile hparent hbare hforward
  -- `hchild` is the rule for a given parent with the answer still to be computed; the cases below
  -- bring its statement and the code to the same form.
  | some parent =>
      have hchild : Derives p kind ask a s _ := .child parent hfile hparent
      rw [Overrides.parentOf] at hparent
      rcases hask : ask parent s with ⟨⟨path, consulted⟩, t⟩
      simp only [hparent, StateT.bind, hask, bind, Overrides.admits] at hchild ⊢
      cases path with
      | none =>
          simp only [Option.map_none, ite_self, Option.isSome_none, Bool.false_and, Bool.or_false]
            at hchild
          exact hchild
      | some path =>
          by_cases hadmits : p.admits parent a = true
          · have hown := hadmits
            rw [Program.admits] at hown
            simp only [hadmits, Bool.true_or, if_true, Option.map_some, Bool.not_true, Bool.and_false,
              Bool.false_and, Bool.or_false] at hchild
            simp only [hown, if_true]
            exact hchild
          · have hown := hadmits
            rw [Program.admits] at hown
            simp only [hown]
            by_cases hexports : s.overrides.exports (p.key parent) (p.key a) = true
            · simp only [hexports, Bool.or_true, if_true, Option.map_some, Option.isSome_some,
                hadmits, Bool.not_false, Bool.and_true] at hchild
              simp only [hexports, if_true]
              exact hchild
            · simp only [hadmits, hexports, Bool.or_false, Bool.and_false] at hchild
              simp only [hexports]
              exact hchild

/-! ### Remembering an answer -/

/-- The tables with an answer remembered, unless an override was consulted for it. -/
def noting (s : Symbols) (key : SymbolKey) (answer : ExportAnswer) : Symbols :=
  if answer.consulted then s
  else { s with exportPaths := s.exportPaths.insert key answer.path }

@[simp] theorem noting_overrides (s : Symbols) (key : SymbolKey) (answer : ExportAnswer) :
    (s.noting key answer).overrides = s.overrides := by
  unfold noting
  split <;> rfl

section Within

variable {p : Program} {kind : Option LocationKind} {fuel : Nat} {a : SymbolRef} {s : Symbols}

/-- What is remembered is the answer. -/
theorem exportPathWithin_of_some {path : Option String}
    (h : s.exportPaths.get? (p.key a) = some path) :
    exportPathWithin p kind (fuel + 1) a s = (⟨path, false⟩, s) := by
  simp only [exportPathWithin, seekPath, get, getThe, MonadStateOf.get, bind, StateT.bind, StateT.get, pure, h]
  rfl

/-- What is not remembered is derived. -/
theorem exportPathWithin_of_none (h : s.exportPaths.get? (p.key a) = none) :
    exportPathWithin p kind (fuel + 1) a s =
      ((deriveExportPath p kind (exportPathWithin p kind fuel) a s).1,
       (deriveExportPath p kind (exportPathWithin p kind fuel) a s).2.noting (p.key a)
         (deriveExportPath p kind (exportPathWithin p kind fuel) a s).1) := by
  simp only [exportPathWithin, seekPath, remember, get, getThe, MonadStateOf.get, bind, StateT.bind, StateT.get, pure, h]
  rcases deriveExportPath p kind (exportPathWithin p kind fuel) a s with ⟨⟨path, consulted⟩, t⟩
  cases consulted with
  | false => rfl
  | true => rfl

end Within

end Symbols

end SymbolGraph
