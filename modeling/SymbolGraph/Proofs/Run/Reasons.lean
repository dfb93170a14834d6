import SymbolGraph.Proofs.Program.Building
import SymbolGraph.Proofs.Run.Walked
import SymbolGraph.Proofs.Session.Calm

/-!
# Proofs — Run — why a run fails

A run that fails has a reason: something has ended or has not begun, the sink refused an element, a
symbol is met again after its scope, or the program asks for a record that cannot be made.  Nothing
else is left, over any sink: no record is begun twice, no edge leaves a vertex of the wrong label,
and every container that is opened is closed.

* `Run.start_calm`, `Run.walkAll_keeps`: a run keeps calm from its start on.
* `Run.index_accounts`: every fault of a run has a reason.
* `Run.visits_calm`: where a run visits an identifier, no scope that was left is above it.
* `Run.defences_hold`: the faults that no program brings about.
* `Run.untangled_never_cyclic`: where no symbol needs one with its own key, and none that is needed
  has to be met somewhere, every record can be made.
* `Run.not_forall_acyclic_never_cyclic`: it is not enough that no symbol needs itself.
-/

namespace SymbolGraph

open SymbolGraph.Action SymbolGraph.Agenda

theorem Program.branching_of_built {p : Program}
    (hbuilt : ∃ steps, Program.ofSteps steps = .ok p) : p.Branching := by
  obtain ⟨steps, hsteps⟩ := hbuilt
  exact ⟨ofSteps_forest hsteps, ofSteps_siblings hsteps⟩

/-- One symbol depends on another: on what it is an alias of, on a member that it overrides, or on a
property behind a shared one. -/
inductive Program.Depends (p : Program) (a b : SymbolRef) : Prop
  | target : p.aliasedSymbol a = some b → Depends p a b
  | overridden {parent : SymbolRef} : p.parentSymbol a = some parent →
      p.Overridden (p.symbolName a) (p.key parent) b → Depends p a b
  | property {node : NodeId} {type : TypeRef} : type ∈ (p.receiverConstituents node).getD [] →
      p.propertyOf type (p.symbolName a) = some b → Depends p a b

/-- A symbol depends on what its record needs. -/
theorem Program.Needs.depends {p : Program} {x y : Request} (h : p.Needs x y) :
    p.Depends x.symbol y.symbol := by
  cases h with
  | target _ htarget => exact .target htarget
  | overridden _ hparent hoverridden => exact .overridden hparent hoverridden
  | property _ htype hproperty => exact .property htype hproperty

namespace Run

open SymbolGraph.Session SymbolGraph.Session.Plan

variable {w : Setting} {s : Session} {sink : Sink}

/-- **A run starts calm**, without containers. -/
theorem start_calm (g : Graph) : Ensures (start w) g
    (fun s _ => s.Calm w.program (fun _ => False) ∧ ∀ file, s.store.depth file = 0)
    fun fault _ => fault.IsOrdinary := by
  refine ensures_bind.mpr (ensures_bind.mpr (ensures_discard.mpr ((Graph.vertex_labels _ g).mono
    (fun _ g' _ => ?_) fun _ _ hfault => hfault.isOrdinary)))
  refine ensures_bind.mpr ((Graph.vertex_labels _ g').mono (fun project g'' hlabel => ?_)
    fun _ _ hfault => hfault.isOrdinary)
  refine ensures_pure.mpr (ensures_bind.mpr (ensures_get.mpr (ensures_pure.mpr
    ⟨⟨⟨⟨hlabel, nofun, fun i r hr => ?_, fun i r hr => ?_⟩, nofun, fun i r hr => ?_,
      ⟨nofun, nofun, nofun, nofun⟩⟩, nofun, nofun⟩, fun _ => rfl⟩)))
  all_goals
    change (#[] : Array Record)[i]? = some r at hr
    rw [Array.getElem?_empty] at hr
    cases hr

/-- **A run keeps calm**, from a session without containers. -/
theorem walkAll_keeps (hs : s.Calm w.program fun _ => False)
    (hclosed : ∀ file, s.store.depth file = 0) :
    Keeps w.program (Plan.walkAll w) s fun _ => True := by
  -- Files that were walked may have been left with all that is below their roots.
  have hfiles : Keeps w.program ((walkedFiles w.program).forM (Plan.visitFile w)) s fun t =>
      ∃ left, Paces w.program left s t := by
    refine (Obeys.forM (fun rest t => ∃ before, before ++ rest = walkedFiles w.program ∧
      Paces w.program (fun gone => ∃ file ∈ before,
        w.program.Under (w.program.root file) gone) s t) (fun file rest t ht => ?_)
      ⟨[], rfl, hs.paces.mono nofun⟩).mono (fun _ t ht => ⟨_, ht.choose_spec.2⟩)
      fun _ _ hfault => hfault
    obtain ⟨before, hwalked, hpaces⟩ := ht
    have hsource (other : FileId) (hother : other ∈ before ++ file :: rest) :
        other ∈ w.program.sourceFiles := mem_sourceFiles_of_walked (hwalked ▸ hother)
    have hnew : file ∉ before := by
      have hnodup := nodup_walkedFiles w.program
      rw [← hwalked] at hnodup
      exact fun hbefore => (List.disjoint_of_nodup_append hnodup) hbefore List.mem_cons_self
    refine (Plan.visitWithin_keeps _ _ _ t hpaces.calm
      (fun hbranches => hbranches.away_file
        (hsource file (List.mem_append_right _ List.mem_cons_self))
        (fun other hother => hsource other (List.mem_append_left _ hother)) hnew)
      fun htidy _ other => (hpaces.depth htidy other).trans (hclosed other)).mono fun u hu => ?_
    refine ⟨before ++ [file], by rw [← hwalked, List.append_assoc]; rfl,
      (hpaces.trans hu).mono ?_⟩
    rintro gone (⟨other, hother, hgone⟩ | hgone)
    · exact ⟨other, List.mem_append_left _ hother, hgone⟩
    · exact ⟨file, List.mem_append_right _ (List.mem_singleton_self _), hgone⟩
  refine obeys_bind.mpr (Obeys.mono hfiles (fun _ t ht => ?_) fun _ _ hfault => hfault)
  obtain ⟨left, ht⟩ := ht
  have hproject : Keeps w.program (single (some .project) (Store.projectProcessed w)) t
      fun _ => True := by
    refine keeps_single nofun (ensures_onPart.mpr ((Store.projectProcessed_concludes
      ht.calm.sturdy.store).mono (fun _ _ _ => trivial) fun fault _ hfault => ?_))
    rcases hfault.2 with hfault | ⟨⟨file, hopen⟩, hfault⟩
    · exact .ordinary hfault
    · exact .untidy (fun htidy => hopen ((ht.depth htidy file).trans (hclosed file))) hfault
  have hflush (u : Session) : Keeps w.program (take (emit Graph.flush)) u fun _ => True :=
    keeps_take (ensures_onPart.mpr (ensures_onPart.mpr ((Graph.flush_faults _).mono
      (fun _ _ _ => trivial) fun _ _ hfault => .ordinary hfault.isOrdinary)))
  refine obeys_bind.mpr (Obeys.mono hproject (fun _ u _ => ?_) fun _ _ hfault => hfault)
  refine obeys_bind.mpr (Obeys.mono (hflush u) (fun _ v _ => ?_) fun _ _ hfault => hfault)
  exact obeys_bind.mpr (keeps_take (ensures_get.mpr trivial))

/-- **Every fault of a run has a reason**, over any sink. -/
theorem index_accounts {fault : Fault} (h : (index w sink).1 = .error fault) :
    w.program.Accounts fault := by
  unfold index at h
  cases hstart : start w (Graph.ofSink sink) with
  | error fault' graph =>
      rw [hstart] at h
      cases h
      exact .ordinary ((start_calm _).of_error hstart)
  | ok session graph =>
      rw [hstart] at h
      obtain ⟨hcalm, hclosed⟩ := (start_calm _).of_ok hstart
      have hwalk := (walkAll_keeps hcalm hclosed).ensures
      rw [Plan.run_walkAll] at hwalk
      dsimp only at h
      cases hrun : walkAll w session with
      | ok summary t =>
          rw [hrun] at h
          cases h
      | error fault' t =>
          rw [hrun] at h
          cases h
          exact hwalk.of_error hrun

/-- **Where a run visits an identifier**, no scope that was left is above it. -/
theorem visits_calm : ∀ visit ∈ visits w sink, visit.2.CalmAt w.program visit.1 := by
  unfold visits
  cases hstart : start w (Graph.ofSink sink) with
  | error fault graph => exact nofun
  | ok session graph =>
      obtain ⟨hcalm, hclosed⟩ := (start_calm _).of_ok hstart
      have hbegins := (walkAll_keeps hcalm hclosed).begins
        (fun milestone s => ∀ x, milestone = .identifier x → s.CalmAt w.program x)
        fun _ _ _ h x hx => h x (congrArg some hx)
      rintro ⟨x, t⟩ hvisit
      obtain ⟨⟨milestone, u⟩, hmem, heq⟩ := List.mem_filterMap.mp hvisit
      cases milestone with
      | identifier name =>
          cases heq
          exact hbegins _ hmem x rfl
      | _ => cases heq

/-! ### What no program brings about -/

/-- **The defences hold.**  For a program whose source files are only the roots of its files, and over
any sink, no run begins a record twice, lets an edge leave a vertex of the wrong label, or leaves a
container open. -/
theorem defences_hold (sink : Sink) (hbuilt : ∃ steps, Program.ofSteps steps = .ok w.program)
    (hroots : ∀ node, w.program.kind node = .sourceFile →
      ∃ file ∈ w.program.sourceFiles, node = w.program.root file) :
    (∀ key, (index w sink).1 ≠ .error (.alreadyBegun key)) ∧
    (∀ edge label, (index w sink).1 ≠ .error (.unexpectedVertex edge label)) ∧
    ∀ path, (index w sink).1 ≠ .error (.unbalancedContainers path) := by
  have htidy : w.program.Tidy := ⟨Program.branching_of_built hbuilt, hroots⟩
  refine ⟨fun key h => ?_, fun edge label h => ?_, fun path h => ?_⟩
  all_goals
    cases index_accounts h with
    | ordinary hfault => exact hfault
    | untidy hnot => exact hnot htidy

/-- The steps for a class with a method, whose name is mentioned inside it. -/
def nestingSteps : List Program.Step :=
  [.file ⟨"/p/a.ts"⟩ "class C \x7b m() \x7b C \x7d \x7d;", .module ⟨0⟩,
   .declaration ⟨0⟩ .classDeclaration "class C \x7b m() \x7b C \x7d \x7d" "C",
   .declaration ⟨1⟩ .methodDeclaration "m() \x7b C \x7d" "m", .symbol "C" .ofClass,
   .symbol "m" .method, .declare ⟨1⟩ ⟨1⟩, .declare ⟨2⟩ ⟨3⟩, .member ⟨1⟩ ⟨2⟩,
   .identifier ⟨3⟩ "C" 0 ⟨1⟩]

def nesting : Setting := plain nestingSteps

/-- A memory that refuses one element. -/
def refusing (n : Nat) : Sink := .memory (fun m => if m = n then some (.io "full") else none) 0 #[]

/-- The sink refuses the mention of the class, when the containers of the class and of the method are
open; still the fault is that of the sink, and no container is left open. -/
theorem nesting_defences_hold :
    ((visits nesting (refusing 12)).any fun visit =>
      visit.1 = ⟨5⟩ ∧ visit.2.store.depth ⟨0⟩ = 2) = true ∧
    (index nesting (refusing 12)).1 = .error (.sink (.io "full")) ∧
    ∀ path, (index nesting (refusing 12)).1 ≠ .error (.unbalancedContainers path) := by
  have hfacts : (Program.ofSteps nestingSteps).isOk = true ∧
      ∀ i < nesting.program.nodes.size, nesting.program.kind ⟨i⟩ = .sourceFile →
        ∃ file ∈ nesting.program.sourceFiles, ⟨i⟩ = nesting.program.root file := by
    decide +kernel
  have hrun : ((visits nesting (refusing 12)).any fun visit =>
      visit.1 = ⟨5⟩ ∧ visit.2.store.depth ⟨0⟩ = 2) = true ∧
      (index nesting (refusing 12)).1 = .error (.sink (.io "full")) := by
    decide +kernel
  obtain ⟨hok, hroots⟩ := hfacts
  refine ⟨hrun.1, hrun.2, (defences_hold _ (plain_built hok) fun node hnode => ?_).2.2⟩
  exact hroots node.index (Program.index_lt (.inr (.inl hnode))) hnode

/-! ### What a symbol needs -/

/-- **Where nothing is entangled every record can be made.**  If no symbol needs one with its own key,
directly or through others, and none that is needed by another has to be met somewhere, no run over
any sink is in want of a record that is being made, or of the place where a symbol was met. -/
theorem untangled_never_cyclic (sink : Sink)
    (hkeys : ∀ x y, Relation.TransGen w.program.Needs x y →
      w.program.key y.symbol ≠ w.program.key x.symbol)
    (hmet : ∀ x y, w.program.Needs x y → y.location = none →
      (w.program.resolution y.symbol none).requiresLocation = false) :
    (∀ key, (index w sink).1 ≠ .error (.cyclicResolution key)) ∧
    ∀ resolution, (index w sink).1 ≠ .error (.missingLocation resolution) := by
  refine ⟨fun key h => ?_, fun resolution h => ?_⟩
  · cases index_accounts h with
    | ordinary hfault => exact hfault
    | circular hneeds hkey => exact hkeys _ _ hneeds hkey
    | untidy _ hfault => exact hfault
  · cases index_accounts h with
    | ordinary hfault => exact hfault
    | placeless hneeds hnone hrequires =>
        cases (hmet _ _ hneeds hnone).symm.trans hrequires
    | untidy _ hfault => exact hfault

/-! ### An alias of a symbol that may be known to nobody -/

/-- The steps for an alias of a variable.  What is declared, and what the variable is, is left
open. -/
def importing (flags : SymbolFlags) (declared : List Program.Step) : List Program.Step :=
  [.file ⟨"/p/a.ts"⟩ "x; y; x", .declaration ⟨0⟩ .importSpecifier "x" "x",
   .declaration ⟨0⟩ .variableDeclaration "y" "y", .symbol "x" .ofAlias, .symbol "y" flags,
   .aliased ⟨0⟩ ⟨1⟩] ++ declared ++ [.identifier ⟨0⟩ "x" 1 ⟨0⟩]

/-- The alias and the variable are declared. -/
def importsVariable : Setting :=
  plain (importing .blockScopedVariable [.declare ⟨0⟩ ⟨1⟩, .declare ⟨1⟩ ⟨3⟩])

/-- Neither of them is, so that they have one key. -/
def importsUndeclared : Setting := plain (importing .blockScopedVariable [])

/-- The alias is declared, and what it stands for was made by the checker. -/
def importsTransient : Setting := plain (importing .transient [.declare ⟨0⟩ ⟨1⟩])

/-- In all of them the alias depends on the variable, and nothing else on anything. -/
theorem importing_depends {p : Program} {a b : SymbolRef}
    (hp : p = importsVariable.program ∨ p = importsUndeclared.program ∨
      p = importsTransient.program) (h : p.Depends a b) : a = ⟨0⟩ ∧ b = ⟨1⟩ := by
  have hfacts : p.types.size = 0 ∧ ∀ i < p.symbols.size,
      p.parentSymbol ⟨i⟩ = none ∧ p.aliasedSymbol ⟨i⟩ = if i = 0 then some ⟨1⟩ else none := by
    rcases hp with rfl | rfl | rfl
    all_goals decide +kernel
  obtain ⟨htypes, hsymbols⟩ := hfacts
  cases h with
  | target htarget =>
      have hlt : a.index < p.symbols.size := Nat.lt_of_not_le fun hge => by
        simp [Program.aliasedSymbol, Program.symbol?, hge] at htarget
      rw [(hsymbols a.index hlt).2] at htarget
      split at htarget
      · rename_i hzero
        exact ⟨congrArg SymbolRef.mk hzero, (Option.some.inj htarget).symm⟩
      · cases htarget
  | overridden hparent =>
      have hlt : a.index < p.symbols.size := Nat.lt_of_not_le fun hge => by
        simp [Program.parentSymbol, Program.symbol?, hge] at hparent
      cases (hsymbols a.index hlt).1.symm.trans hparent
  | property _ hproperty => simp [Program.propertyOf, Program.type?, htypes] at hproperty

theorem importing_chain {p : Program} {a b : SymbolRef}
    (hp : p = importsVariable.program ∨ p = importsUndeclared.program ∨
      p = importsTransient.program) (h : Relation.TransGen p.Depends a b) :
    a = ⟨0⟩ ∧ b = ⟨1⟩ := by
  obtain ⟨c, hfirst, -⟩ := Relation.TransGen.head'_iff.mp h
  obtain ⟨d, -, hlast⟩ := Relation.TransGen.tail'_iff.mp h
  exact ⟨(importing_depends hp hfirst).1, (importing_depends hp hlast).2⟩

/-- The record of the alias needs that of the variable, and both can be made. -/
theorem importsVariable_never_cyclic :
    importsVariable.program.Needs ⟨⟨0⟩, some ⟨5⟩⟩ ⟨⟨1⟩, none⟩ ∧
    (∀ key, (index importsVariable .inMemory).1 ≠ .error (.cyclicResolution key)) ∧
    ∀ resolution, (index importsVariable .inMemory).1 ≠ .error (.missingLocation resolution) := by
  have hfacts : importsVariable.program.resolution ⟨0⟩ (some ⟨5⟩) = .ofAlias ∧
      importsVariable.program.aliasedSymbol ⟨0⟩ = some ⟨1⟩ ∧
      importsVariable.program.key ⟨1⟩ ≠ importsVariable.program.key ⟨0⟩ ∧
      (importsVariable.program.resolution ⟨1⟩ none).requiresLocation = false := by
    decide +kernel
  obtain ⟨hresolution, htarget, hkeys, hmet⟩ := hfacts
  refine ⟨.target hresolution htarget, untangled_never_cyclic .inMemory (fun x y h => ?_)
    fun x y h _ => ?_⟩
  · obtain ⟨hx, hy⟩ := importing_chain (.inl rfl)
      (h.lift Request.symbol fun _ _ hneeds => hneeds.depends)
    rw [hx, hy]
    exact hkeys
  · rw [(importing_depends (.inl rfl) h.depends).2]
    exact hmet

/-- **It is not enough that no symbol depends on itself.**  An alias and its target that are not
declared anywhere have one key, so that the alias seems to need itself; and the target of an alias is
looked for without the place where the alias was met, which it may need. -/
theorem not_forall_acyclic_never_cyclic :
    (¬ ∀ w : Setting, (∃ steps, Program.ofSteps steps = .ok w.program) →
      (∀ a, ¬ Relation.TransGen w.program.Depends a a) →
      ∀ key, (index w .inMemory).1 ≠ .error (.cyclicResolution key)) ∧
    ¬ ∀ w : Setting, (∃ steps, Program.ofSteps steps = .ok w.program) →
      (∀ a, ¬ Relation.TransGen w.program.Depends a a) →
      ∀ resolution, (index w .inMemory).1 ≠ .error (.missingLocation resolution) := by
  have hacyclic {p : Program} (hp : p = importsVariable.program ∨ p = importsUndeclared.program ∨
      p = importsTransient.program) (a : SymbolRef) : ¬ Relation.TransGen p.Depends a a := by
    intro h
    obtain ⟨hzero, hone⟩ := importing_chain hp h
    cases hzero.symm.trans hone
  have hfacts : (Program.ofSteps (importing .blockScopedVariable [])).isOk = true ∧
      (Program.ofSteps (importing .transient [.declare ⟨0⟩ ⟨1⟩])).isOk = true ∧
      (index importsUndeclared .inMemory).1 = .error (.cyclicResolution .undeclared) ∧
      (index importsTransient .inMemory).1 = .error (.missingLocation .transient) := by
    decide +kernel
  obtain ⟨hundeclared, htransient, hcyclic, hmissing⟩ := hfacts
  constructor
  · intro hall
    exact hall importsUndeclared (plain_built hundeclared) (hacyclic (.inr (.inl rfl))) _ hcyclic
  · intro hall
    exact hall importsTransient (plain_built htransient) (hacyclic (.inr (.inr rfl))) _ hmissing

end Run

end SymbolGraph
