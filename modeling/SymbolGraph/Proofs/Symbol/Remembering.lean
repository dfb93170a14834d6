import Mathlib.Data.List.Induction
import Mathlib.Data.Set.Insert
import SymbolGraph.Program.Build
import SymbolGraph.Proofs.Symbol.Paths
import SymbolGraph.Proofs.Table

/-!
# Proofs — Symbol — remembering under overrides

Export paths are remembered, overrides come and go, and only asserting one forgets what is
remembered.  That is enough: a path is remembered only when no override was consulted for it, and
such a path stays right whichever overrides are taken away.

* `Overrides.Under`: overrides of which some were taken away.  `Overrides.Lasting`: a path that
  taking away cannot change.
* `Symbols.Remembers`: all that is remembered is lasting.
* `Symbols.Answered`: what a question does and answers.  `Symbols.exportPathWithin_answered`.
* `Symbols.exportPath_after`: after any calls, an answer is that of the recursion without memory.
-/

namespace SymbolGraph

variable {p : Program} {kind : Option LocationKind} {o o' o'' : Overrides} {a b : SymbolRef}
  {path : Option String} {play : Set SymbolRef}

namespace Overrides

/-- Every override of the first is one of the second. -/
structure Under (o' o : Overrides) : Prop where
  parents  : ∀ key parent, o'.parents.get? key = some parent → o.parents.get? key = some parent
  exports  : ∀ parent child, o'.exports parent child = true → o.exports parent child = true
  forwards : ∀ key forward, o'.forwards.get? key = some forward → o.forwards.get? key = some forward

theorem Under.refl (o : Overrides) : o.Under o := ⟨fun _ _ h => h, fun _ _ h => h, fun _ _ h => h⟩

theorem Under.trans (h : o''.Under o') (h' : o'.Under o) : o''.Under o where
  parents key parent hparent := h'.parents key parent (h.parents key parent hparent)
  exports parent child hexports := h'.exports parent child (h.exports parent child hexports)
  forwards key forward hforward := h'.forwards key forward (h.forwards key forward hforward)

theorem Under.within (h : o'.Under o) (ho : o.Within play) : o'.Within play where
  parents key parent hparent := ho.parents key parent (h.parents key parent hparent)
  forwards key forward hforward := ho.forwards key forward (h.forwards key forward hforward)

theorem Within.addParent (h : o.Within play) {key : SymbolKey} (ha : a ∈ play) :
    (o.addParent key a).Within play :=
  ⟨Table.forall_get?_insert h.parents ha, h.forwards⟩

theorem Within.addForward (h : o.Within play) {key : SymbolKey} {forward : Forward}
    (ha : forward.target ∈ play) : (o.addForward key forward).Within play :=
  ⟨h.parents, Table.forall_get?_insert h.forwards ha⟩

theorem Within.addExport (h : o.Within play) {parent child : SymbolKey} :
    (o.addExport parent child).Within play := by
  unfold Overrides.addExport
  split
  · exact h
  · exact ⟨h.parents, h.forwards⟩

/-- Releasing only takes away, whatever is released. -/
theorem release_under (o : Overrides) (override : Override) : (o.release override).Under o := by
  have herase {α : Type} {t : Table SymbolKey α} {key other : SymbolKey} {value : α}
      (h : (t.erase key).get? other = some value) : t.get? other = some value := by
    rw [Table.get?_erase] at h
    by_cases heq : other = key
    · simp [heq] at h
    · simpa [heq] using h
  cases override with
  | parent symbol parent =>
      by_cases hheld : o.parents.get? symbol = some parent
      · simp only [release, if_pos hheld]
        exact ⟨fun _ _ h => herase h, fun _ _ h => h, fun _ _ h => h⟩
      · simp only [release, if_neg hheld]
        exact .refl o
  | exported parent child =>
      refine ⟨fun _ _ h => h, fun above below h => ?_, fun _ _ h => h⟩
      simp only [release, exports, decide_eq_true_eq, List.mem_filter] at h ⊢
      exact h.1
  | forwarded symbol name =>
      by_cases hheld : ((o.forwards.get? symbol).any fun forward => forward.name = name) = true
      · simp only [release, if_pos hheld]
        exact ⟨fun _ _ h => h, fun _ _ h => h, fun _ _ h => herase h⟩
      · simp only [release, if_neg hheld]
        exact .refl o

theorem Under.parents_none (h : o'.Under o) {key : SymbolKey} (hnone : o.parents.get? key = none) :
    o'.parents.get? key = none := by
  cases hparent : o'.parents.get? key with
  | none => rfl
  | some parent => simp [h.parents key parent hparent] at hnone

theorem Under.forwards_none (h : o'.Under o) {key : SymbolKey}
    (hnone : o.forwards.get? key = none) : o'.forwards.get? key = none := by
  cases hforward : o'.forwards.get? key with
  | none => rfl
  | some forward => simp [h.forwards key forward hforward] at hnone

/-- Where no parent was asserted, none is afterwards. -/
theorem Under.parentOf_eq (h : o'.Under o) (hnone : o.parents.get? (p.key a) = none) :
    o'.parentOf p a = o.parentOf p a := by
  simp only [parentOf, hnone, h.parents_none hnone]

/-- Where no asserted export was consulted, none has to be. -/
theorem Under.reached_eq (h : o'.Under o) {parent : SymbolRef} {name : String}
    (hplain : (path.isSome && !p.admits parent a && o.exports (p.key parent) (p.key a)) = false) :
    (if o'.admits p parent a then path.map fun path => extendPath path name else none)
      = if o.admits p parent a then path.map fun path => extendPath path name else none := by
  cases path with
  | none => simp
  | some path =>
      by_cases hadmits : p.admits parent a = true
      · simp [admits, hadmits]
      · have hnot : o.exports (p.key parent) (p.key a) = false := by simpa [hadmits] using hplain
        have hnot' : o'.exports (p.key parent) (p.key a) = false := by
          by_contra hexports
          simp [h.exports _ _ (by simpa using hexports)] at hnot
        simp [admits, hadmits, hnot, hnot']

/-- A path that is right, and stays right when overrides are taken away. -/
def Lasting (p : Program) (kind : Option LocationKind) (o : Overrides) (a : SymbolRef)
    (path : Option String) : Prop :=
  ∀ o' : Overrides, o'.Under o → o'.PathOf p kind a path

end Overrides

namespace Symbols

variable {s : Symbols} {fuel : Nat}

/-- What is asserted is about symbols in play, and what is remembered of them is lasting. -/
structure Remembers (p : Program) (kind : Option LocationKind) (play : Set SymbolRef) (s : Symbols) :
    Prop where
  within  : s.overrides.Within play
  lasting : ∀ a ∈ play, ∀ path, s.exportPaths.get? (p.key a) = some path →
    s.overrides.Lasting p kind a path

theorem remembers_empty (p : Program) (kind : Option LocationKind) (play : Set SymbolRef) :
    ({} : Symbols).Remembers p kind play :=
  ⟨⟨by simp, by simp⟩, by simp⟩

/-- Asserting forgets all that is remembered. -/
theorem remembers_override (change : Overrides → Overrides)
    (h : (change s.overrides).Within play) : (s.override change).Remembers p kind play :=
  ⟨h, by simp [override]⟩

theorem Remembers.release (h : s.Remembers p kind play) (override : Override) :
    (Symbols.release override s).2.Remembers p kind play where
  within := (s.overrides.release_under override).within h.within
  lasting a ha path hpath o ho :=
    h.lasting a ha path hpath o (ho.trans (s.overrides.release_under override))

/-! ### Asking -/

/-- What a question with some fuel does and answers.  The fuel matters to the answer alone: an answer
that was cut short counts as one that consulted an override. -/
structure Answered (p : Program) (kind : Option LocationKind) (play : Set SymbolRef) (s : Symbols)
    (fuel : Nat) (a : SymbolRef) (r : ExportAnswer × Symbols) : Prop where
  overrides : r.2.overrides = s.overrides
  remembers : r.2.Remembers p kind play
  lasting   : r.1.consulted = false → s.overrides.Lasting p kind a r.1.path
  right     : s.overrides.Ends p kind fuel a → s.overrides.PathOf p kind a r.1.path

/-- An answer that holds without asking further. -/
theorem Remembers.answered (h : s.Remembers p kind play)
    (hpath : s.overrides.Lasting p kind a path) :
    Answered p kind play s fuel a (⟨path, false⟩, s) :=
  ⟨rfl, h, fun _ => hpath, fun _ => hpath _ (.refl _)⟩

/-- One round: an answer that consulted nothing is lasting, because what it was derived from is. -/
theorem deriveExportPath_answered {ask : SymbolRef → StateM Symbols ExportAnswer}
    (hplay : p.Distinguishes play) (h : s.Remembers p kind play) (ha : a ∈ play)
    (hask : ∀ b ∈ play, Answered p kind play s fuel b (ask b s)) :
    Answered p kind play s (fuel + 1) a (deriveExportPath p kind ask a s) := by
  generalize hr : deriveExportPath p kind ask a s = r
  have hderives := deriveExportPath_derives p kind ask a s
  rw [hr] at hderives
  cases hderives with
  | file hfile => exact h.answered fun o' _ => .file hfile
  | bare hfile hparent hbare =>
      refine h.answered fun o' ho' => .bare hfile ?_ hbare
      rwa [ho'.parentOf_eq (Option.or_eq_none_iff.mp hparent).1]
  | hidden hfile hparent hbare hforward =>
      refine h.answered fun o' ho' => .hidden hfile ?_ hbare (ho'.forwards_none hforward)
      rwa [ho'.parentOf_eq (Option.or_eq_none_iff.mp hparent).1]
  | forwarded forward hfile hparent hbare hforward =>
      have hbeside := hask forward.target (h.within.forwards _ _ hforward)
      refine ⟨hbeside.overrides, hbeside.remembers, by simp, fun hends => ?_⟩
      exact .forwarded hfile hparent hbare hforward
        (hbeside.right (hends _ (Overrides.next?_of_forward hfile hparent hbare hforward)))
  -- A child's answer lasts if no override had a part in it: not its parent, not the answer above
  -- and not an export.
  | child parent hfile hparent =>
      have habove := hask parent (h.within.parentOf hplay ha hparent)
      refine ⟨habove.overrides, habove.remembers, fun hconsulted o' ho' => ?_, fun hends => ?_⟩
      · simp only [Bool.or_eq_false_iff, Option.isSome_eq_false_iff, Option.isNone_iff_eq_none]
          at hconsulted
        obtain ⟨⟨hgiven, hunconsulted⟩, hplain⟩ := hconsulted
        have hchild := Overrides.PathOf.child hfile ((ho'.parentOf_eq hgiven).trans hparent)
          (habove.lasting hunconsulted o' ho')
        rwa [ho'.reached_eq hplain] at hchild
      · exact .child hfile hparent (habove.right (hends _ (Overrides.next?_of_parent hfile hparent)))

/-- A lasting answer may be remembered, since no other symbol has the key. -/
theorem Remembers.noting {t : Symbols} (hplay : p.Distinguishes play) (h : t.Remembers p kind play)
    (ha : a ∈ play) {answer : ExportAnswer}
    (hlasting : answer.consulted = false → t.overrides.Lasting p kind a answer.path) :
    (t.noting (p.key a) answer).Remembers p kind play := by
  unfold Symbols.noting
  by_cases hconsulted : answer.consulted = true
  · rwa [if_pos hconsulted]
  · rw [if_neg hconsulted]
    refine ⟨h.within, fun b hb path hpath => ?_⟩
    simp only [Table.get?_insert] at hpath
    by_cases hkey : p.key b = p.key a
    · rw [if_pos hkey] at hpath
      cases hpath
      rw [hplay.inj b hb a ha hkey]
      exact hlasting (by simpa using hconsulted)
    · rw [if_neg hkey] at hpath
      exact h.lasting b hb path hpath

theorem exportPathWithin_answered (hplay : p.Distinguishes play) (fuel : Nat) :
    ∀ a s, s.Remembers p kind play → a ∈ play →
      Answered p kind play s fuel a (exportPathWithin p kind fuel a s) := by
  induction fuel with
  | zero =>
      intro a s h ha
      refine ⟨rfl, h, fun hconsulted => ?_, fun hends => hends.elim⟩
      cases (show true = false from hconsulted)
  | succ fuel ih =>
      intro a s h ha
      cases hkept : s.exportPaths.get? (p.key a) with
      | some path =>
          rw [exportPathWithin_of_some hkept]
          exact h.answered (h.lasting a ha path hkept)
      | none =>
          have hround := deriveExportPath_answered hplay h ha fun b hb => ih b s h hb
          rw [exportPathWithin_of_none hkept]
          refine ⟨by simp [hround.overrides], hround.remembers.noting hplay ha ?_,
            hround.lasting, hround.right⟩
          rw [hround.overrides]
          exact hround.lasting

/-! ### All calls -/

/-- The calls on the tables that have to do with export paths.  Any override may be released, be it
in effect or not. -/
inductive Call where
  | addParent (symbol parent : SymbolRef)
  | addExport (parent child : SymbolRef)
  | addForward (symbol target : SymbolRef) (name : String)
  | release (override : Override)
  | exportPath (symbol : SymbolRef)

/-- The tables after a call.  All questions are about one location kind. -/
def Call.apply (p : Program) (kind : Option LocationKind) (s : Symbols) : Call → Symbols
  | .addParent symbol parent       => (Symbols.addParent p symbol parent s).2
  | .addExport parent child        => (Symbols.addExport p parent child s).2
  | .addForward symbol target name => (Symbols.addForward p symbol target name s).2
  | .release override              => (Symbols.release override s).2
  | .exportPath symbol             => (Symbols.exportPath p symbol kind s).2

/-- The tables after some calls, from the beginning. -/
def after (p : Program) (kind : Option LocationKind) (calls : List Call) : Symbols :=
  calls.foldl (Call.apply p kind) {}

/-- The symbols whose path a call may come to need are in play. -/
def Call.IsWithin (play : Set SymbolRef) : Call → Prop
  | .addParent _ parent    => parent ∈ play
  | .addForward _ target _ => target ∈ play
  | .exportPath symbol     => symbol ∈ play
  | .addExport _ _         => True
  | .release _             => True

theorem exportPath_fst (p : Program) (a : SymbolRef) (kind : Option LocationKind) (s : Symbols) :
    (exportPath p a kind s).1 = (exportPathWithin p kind (p.symbols.size + 3) a s).1.path := rfl

theorem Remembers.apply (hplay : p.Distinguishes play) (h : s.Remembers p kind play) {call : Call}
    (hcall : call.IsWithin play) : (call.apply p kind s).Remembers p kind play := by
  cases call with
  | addParent symbol parent =>
      exact remembers_override (fun o => o.addParent (p.key symbol) parent)
        (h.within.addParent hcall)
  | addExport parent child =>
      exact remembers_override (fun o => o.addExport (p.key parent) (p.key child)) h.within.addExport
  | addForward symbol target name =>
      exact remembers_override (fun o => o.addForward (p.key symbol) { target, name })
        (h.within.addForward hcall)
  | release override => exact h.release override
  | exportPath symbol =>
      have hanswered := exportPathWithin_answered hplay (p.symbols.size + 3) symbol s h hcall
      exact hanswered.remembers

theorem after_remembers (hplay : p.Distinguishes play) {calls : List Call}
    (hcalls : ∀ call ∈ calls, call.IsWithin play) : (after p kind calls).Remembers p kind play := by
  induction calls using List.reverseRecOn with
  | nil => exact remembers_empty p kind play
  | append_singleton calls call ih =>
      rw [after, List.foldl_concat]
      exact (ih fun c hc => hcalls c (List.mem_append_left _ hc)).apply hplay
        (hcalls call (by simp))

/-- After any calls, the answer to a question is the answer of the recursion without memory, on the
overrides as they are then, if following parents and forwards does not lead in a circle. -/
theorem exportPath_after (hplay : p.Distinguishes play) {calls : List Call}
    (hcalls : ∀ call ∈ calls, call.IsWithin play) (ha : a ∈ play)
    (hacyclic : (after p kind calls).overrides.Acyclic p kind play) :
    (exportPath p a kind (after p kind calls)).1 = path ↔
      (after p kind calls).overrides.PathOf p kind a path := by
  have hremembers : (after p kind calls).Remembers p kind play := after_remembers hplay hcalls
  have hright := (exportPathWithin_answered hplay _ a _ hremembers ha).right
    (Overrides.ends_of_acyclic hplay hremembers.within hacyclic ha)
  rw [exportPath_fst]
  constructor
  · rintro rfl
    exact hright
  · exact hright.unique

/-- A module with a variable that has no parent. -/
def ownVariable : Program :=
  (Program.ofSteps [.file ⟨"/p/m.ts"⟩ "const a = 1;", .module ⟨0⟩,
    .declaration ⟨0⟩ .variableDeclaration "a = 1" "a", .symbol "a" .blockScopedVariable,
    .declare ⟨1⟩ ⟨1⟩]).toOption.getD .empty

/-- The variable is asked for, and the module is asserted to export it. -/
def assertsOwn : List Call := [.exportPath ⟨1⟩, .addParent ⟨1⟩ ⟨0⟩, .addExport ⟨0⟩ ⟨1⟩]

/-- The variable is asked for again, and the parent is released. -/
def releasesOwn : List Call :=
  assertsOwn ++ [.exportPath ⟨1⟩, .release (.parent (ownVariable.key ⟨1⟩) ⟨0⟩)]

theorem ownVariable_distinguishes : ownVariable.Distinguishes {⟨0⟩, ⟨1⟩} := by
  have hfacts : ownVariable.key ⟨0⟩ ≠ ownVariable.key ⟨1⟩ ∧
      ownVariable.parentSymbol ⟨0⟩ = none ∧ ownVariable.parentSymbol ⟨1⟩ = none := by
    decide +kernel
  obtain ⟨hkeys, hzero, hone⟩ := hfacts
  constructor
  · rintro a (rfl | rfl) b hb <;> simp_all
  · rintro a (rfl | rfl) b (rfl | rfl) hkey <;> simp_all [eq_comm]

/-- The module is a file, so that no chain goes on from it. -/
theorem ownVariable_acyclic (o : Overrides)
    (hparent : ∀ b, o.next? ownVariable (some .module) ⟨1⟩ = some b → b = ⟨0⟩) :
    o.Acyclic ownVariable (some .module) {⟨0⟩, ⟨1⟩} := by
  have hfile : ownVariable.isSourceFileSymbol ⟨0⟩ = true := by decide +kernel
  have hlast (b : SymbolRef) : o.next? ownVariable (some .module) ⟨0⟩ ≠ some b := by
    simp [Overrides.next?, hfile]
  intro a ha hcircle
  obtain ⟨b, hab, hba⟩ := Relation.TransGen.head'_iff.mp hcircle
  rcases ha with rfl | rfl
  · exact hlast b hab
  · obtain rfl := hparent b hab
    rcases hba.cases_head with heq | ⟨c, hc, -⟩
    · cases heq
    · exact hlast c hc

/-- The variable has a path while its export is asserted, and none once the parent is released. -/
theorem ownVariable_scoped :
    (exportPath ownVariable ⟨1⟩ (some .module) (after ownVariable (some .module) assertsOwn)).1
      = some "a" ∧
    (exportPath ownVariable ⟨1⟩ (some .module) (after ownVariable (some .module) releasesOwn)).1
      = none := by
  have hplain : ownVariable.isSourceFileSymbol ⟨0⟩ = true ∧
      ownVariable.isSourceFileSymbol ⟨1⟩ = false ∧ ownVariable.symbolName ⟨1⟩ = "a" ∧
      ownVariable.isExportedBare (some .module) ⟨1⟩ = false := by
    decide +kernel
  obtain ⟨hfile, hnot, hname, hbare⟩ := hplain
  constructor
  · have hasserted : (after ownVariable (some .module) assertsOwn).overrides.parentOf ownVariable ⟨1⟩
          = some ⟨0⟩ ∧
        (after ownVariable (some .module) assertsOwn).overrides.admits ownVariable ⟨0⟩ ⟨1⟩ = true := by
      decide +kernel
    obtain ⟨hparent, hadmits⟩ := hasserted
    refine (exportPath_after ownVariable_distinguishes ?_ (.inr rfl)
      (ownVariable_acyclic _ ?_)).mpr ?_
    · simp [assertsOwn, Call.IsWithin]
    · simp [Overrides.next?, hnot, hparent, eq_comm]
    · have hpath : Overrides.PathOf ownVariable (some .module) _ ⟨1⟩ _ :=
        .child hnot hparent (.file hfile)
      rw [hadmits, if_pos rfl, hname] at hpath
      exact hpath
  · have hreleased : (after ownVariable (some .module) releasesOwn).overrides.parentOf ownVariable
          ⟨1⟩ = none ∧
        (after ownVariable (some .module) releasesOwn).overrides.forwards.get? (ownVariable.key ⟨1⟩)
          = none := by
      decide +kernel
    obtain ⟨hparent, hforward⟩ := hreleased
    refine (exportPath_after ownVariable_distinguishes ?_ (.inr rfl)
      (ownVariable_acyclic _ ?_)).mpr (.hidden hnot hparent hbare hforward)
    · simp [releasesOwn, assertsOwn, Call.IsWithin]
    · simp [Overrides.next?, hnot, hparent, hbare, hforward]

end Symbols

end SymbolGraph
