import SymbolGraph.Proofs.Run.Calls
import SymbolGraph.Proofs.Run.Reasons
import SymbolGraph.Proofs.Session.Descending
import SymbolGraph.Proofs.Session.Standing

/-!
# Proofs — Run — the guard against circles

While a record is being made its key is reserved, and looking for it again is a fault.  So however
aliases, heritage and unions run in circles, looking for a record ends; and whether it is found, made
or not, the keys that were reserved before are reserved after, and no others.  Only the chains of
parents and forwards have no such guard.

* `Run.stops_sturdy`: every session that a run passes through is sturdy, also in the middle of the
  making of a record.
* `Session.Terminates`: looking for the record of a symbol ends by itself.
* `Run.Reaches`: the sessions that calls pass through, however those before them ended.
* `Run.resolve_guarded`: it does at every stop of a run and between and within any calls, and leaves
  the same keys reserved.
* `Run.resolve_guarded_of_ascends`: the same, by a condition on parents and type aliases alone.
-/

namespace SymbolGraph

open SymbolGraph.Action SymbolGraph.Agenda

namespace Session

variable {w : Setting} {s : Session}

/-- Looking for the record of a symbol ends by itself: nothing that it does ever comes to the bound
on its depth, so that what would be done there makes no difference. -/
structure Terminates (w : Setting) (s : Session) (symbol : SymbolRef) (location : Option NodeId) :
    Prop where
  /-- The search goes from symbols to those that they need. -/
  search    : ∀ deeper, (seek w)^[w.program.symbols.size + 3] deeper ⟨symbol, location⟩ s
    = resolve w symbol location s
  /-- The export path of any symbol, as long as the overrides are those of the session. -/
  paths     : ∀ (known : Symbols) kind a deeper, known.overrides = s.symbols.overrides →
    (Symbols.seekPath w.program kind)^[w.program.symbols.size + 3] deeper a known
      = Symbols.exportPathWithin w.program kind (w.program.symbols.size + 3) a known
  /-- The overrides are those of the session until the end. -/
  overrides : (final (resolve w symbol location s)).symbols.overrides = s.symbols.overrides
  /-- The members along the supertypes of any symbol. -/
  members   : ∀ (known : Symbols) name a deeper,
    (Symbols.seekMembers w.program name)^[w.program.symbols.size + 2] deeper a known
      = Symbols.findBaseMembers w.program a name known
  /-- The nodes around any node. -/
  ancestors : ∀ node fuel, w.program.nodes.size ≤ fuel →
    w.program.ancestorsWithin fuel node = w.program.ancestors node
  /-- No search and no chain of records is given up as endless. -/
  records   : ∀ t, resolve w symbol location s ≠ .error .endlessChain t

/-- **Looking for a record ends**, and leaves the same keys reserved, however it ends. -/
theorem Sturdy.terminates (hs : s.Sturdy w.program) (hforest : w.program.Forest)
    (hchains : ∀ a, ¬ Relation.TransGen w.program.Leads a a) (symbol : SymbolRef)
    (location : Option NodeId) : Terminates w s symbol location ∧
      Abides w.program s (final (resolve w symbol location s)) := by
  have hexplained := resolve_explained hs symbol location
  have habides : Abides w.program s (final (resolve w symbol location s)) :=
    (hexplained.mono (fun _ _ ht => ht.1) fun _ _ hfault => hfault.1).final
  refine ⟨⟨fun deeper => ?_, fun known kind a deeper hknown => ?_, habides.overrides,
    fun known name a deeper => ?_, fun node fuel hfuel => hforest.ancestorsWithin_of_le hfuel,
    fun t hrun => ?_⟩, habides⟩
  · have hends := resolve_ends (x := ⟨symbol, location⟩) hs
    exact (hends deeper _).trans (congrFun (resolveWithin_eq_iterate _ ⟨symbol, location⟩) s).symm
  · have hacyclic : known.overrides.Acyclic w.program kind Set.univ := by
      rw [hknown]
      exact hs.symbols.overrides.acyclic hchains
    rw [Symbols.exportPathWithin_eq_iterate]
    exact Symbols.exportPath_ends hacyclic deeper _
  · rw [Symbols.findBaseMembers, Symbols.findBaseMembersWithin_eq_iterate]
    exact Symbols.findBaseMembers_ends deeper _
  · cases (hexplained.of_error hrun).2 with
    | ordinary hfault => exact hfault

/-! ### Calls -/

/-- The operations of a call. -/
def Call.plan (w : Setting) : Call → Plan Unit
  | .resolve symbol location => discard (Plan.resolve w symbol location)
  | .visitFile file          => Plan.visitFile w file
  | .nodeProcessed node      => Plan.take (Store.nodeProcessed w node : Running Unit)
  | .endDocument file        => Plan.take (Store.endDocument w file : Running Unit)
  | .projectProcessed        => Plan.take (Store.projectProcessed w : Running Unit)

/-- The plan of a call is the call. -/
theorem Call.run_plan (call : Call) : (call.plan w).run = call.act w := by
  cases call with
  | resolve symbol location =>
      exact (Agenda.run_discard _).trans (congrArg discard (Plan.run_resolve symbol location))
  | visitFile file => exact Plan.run_visitWithin _ _
  | nodeProcessed node => exact Agenda.run_single _ _
  | endDocument file => exact Agenda.run_single _ _
  | projectProcessed => exact Agenda.run_single _ _

theorem Call.plan_stands (call : Call) : Plan.Stands w.program (call.plan w) s fun _ _ => True := by
  cases call with
  | resolve symbol location =>
      exact (Plan.resolve_stands.mono fun _ _ _ => trivial).discard
  | visitFile file => exact Plan.visitWithin_stands _ _ s
  | nodeProcessed node => exact Plan.nodeProcessed_stands
  | endDocument file =>
      exact Plan.stands_maintains fun hs => (Store.endDocument_concludes hs).mono
        (fun _ _ ht => ht.1.1) fun _ _ hfault => hfault.1
  | projectProcessed =>
      exact Plan.stands_maintains fun hs => (Store.projectProcessed_concludes hs).mono
        (fun _ _ ht => ht.1.1) fun _ _ hfault => hfault.1

end Session

namespace Run

open SymbolGraph.Session

variable {w : Setting} {sink : Sink} {s : Session}

/-- **Every session that a run passes through is sturdy.** -/
theorem stops_sturdy : ∀ stop ∈ stops w sink, stop.2.Sturdy w.program := by
  unfold stops
  cases hstart : start w (Graph.ofSink sink) with
  | error fault graph => exact nofun
  | ok session graph =>
      obtain ⟨hcalm, -⟩ := (start_calm _).of_ok hstart
      exact (Plan.walkAll_stands hcalm.sturdy).stops (fun _ t => t.Sturdy w.program)
        (fun _ _ _ _ ht _ => ht) hcalm.sturdy

/-- A session that calls can bring about, also in the middle of a call, whichever of them fail. -/
inductive Reaches (w : Setting) (sink : Sink) : Session → Prop where
  | start {s : Session} {g : Graph} (hstart : start w (Graph.ofSink sink) = .ok s g) :
      Reaches w sink s
  | call {s : Session} {stop : List Milestone × Session} (call : Call) (h : Reaches w sink s)
      (hstop : stop ∈ (call.plan w).stops [] s) : Reaches w sink stop.2
  /-- What is only kept for the walk of a file comes and goes. -/
  | aside {s : Session} (h : Reaches w sink s) (lineIndexes : Table FileId LineIndex)
      (definitions : Table NodeId VertexRef) :
      Reaches w sink { s with lineIndexes, definitions }

theorem Reaches.sturdy (h : Reaches w sink s) : s.Sturdy w.program := by
  induction h with
  | start hstart => exact ((start_calm _).of_ok hstart).1.sturdy
  | call call h hstop ih =>
      exact (call.plan_stands ih).stops (fun _ t => t.Sturdy w.program)
        (fun _ _ _ _ ht _ => ht) ih _ hstop
  | aside h lineIndexes definitions ih => exact ⟨ih.store, ih.cached, ih.locals, ih.symbols⟩

/-- Calls reach what they leave. -/
theorem Reaches.after (h : Reaches w sink s) (calls : List Call) :
    Reaches w sink (s.after w calls) := by
  induction calls generalizing s with
  | nil => exact h
  | cons call calls ih =>
      obtain ⟨stop, hstop, hend⟩ := (call.plan w).ended_mem_stops [] s
      have hleft : stop.2 = left (call.act w) s := by
        rw [hend, call.run_plan, Action.ended, left]
        cases call.act w s with
        | ok a t => rfl
        | error fault t => rfl
      have hreached := Reaches.call call h hstop
      rw [hleft] at hreached
      exact ih hreached

/-- A session that a run or any calls have brought about is sturdy. -/
theorem sturdy_of_stops_or_reaches (hs : (∃ past, (past, s) ∈ stops w sink) ∨ Reaches w sink s) :
    s.Sturdy w.program := by
  rcases hs with ⟨past, hstop⟩ | hreaches
  · exact stops_sturdy _ hstop
  · exact hreaches.sturdy

/-- **The guard against circles ends every search and leaks nothing.**  For a program in which no
chain of parents and forwards comes back to itself, and over any sink, whatever a run has done so far
or whatever calls were made, whichever of them failed, and whichever records are being made: looking
for the record of any symbol, met anywhere or nowhere, ends by itself, and the keys that are reserved
after it are those that were reserved before, whether it succeeds or fails. -/
theorem resolve_guarded (sink : Sink) (hbuilt : ∃ steps, Program.ofSteps steps = .ok w.program)
    (hchains : ∀ a, ¬ Relation.TransGen w.program.Leads a a)
    (hs : (∃ past, (past, s) ∈ stops w sink) ∨ Reaches w sink s) (symbol : SymbolRef)
    (location : Option NodeId) : Terminates w s symbol location ∧
      ∀ key, (final (resolve w symbol location s)).store.cache.get? key = some .resolving ↔
        s.store.cache.get? key = some .resolving := by
  have hforest := (Program.branching_of_built hbuilt).forest
  obtain ⟨hends, habides⟩ :=
    (sturdy_of_stops_or_reaches hs).terminates hforest hchains symbol location
  exact ⟨hends, fun key => habides.resolving key id⟩

/-- The same where the symbols of files are declared by source files, of chains of parents and type
aliases alone: what files assert in the place of a parent ends a chain. -/
theorem resolve_guarded_of_ascends (sink : Sink)
    (hbuilt : ∃ steps, Program.ofSteps steps = .ok w.program) (hfiles : w.program.FilesStand)
    (hchains : ∀ a, ¬ Relation.TransGen w.program.Ascends a a)
    (hs : (∃ past, (past, s) ∈ stops w sink) ∨ Reaches w sink s) (symbol : SymbolRef)
    (location : Option NodeId) : Terminates w s symbol location ∧
      ∀ key, (final (resolve w symbol location s)).store.cache.get? key = some .resolving ↔
        s.store.cache.get? key = some .resolving := by
  have hforest := (Program.branching_of_built hbuilt).forest
  obtain ⟨hends, habides⟩ := (sturdy_of_stops_or_reaches hs).terminates hforest
    (fun a hcircle => hchains a (Program.ascends_of_circle hfiles hcircle)) symbol location
  exact ⟨hends, fun key => habides.resolving key id⟩

/-! ### Two classes that extend each other -/

/-- The steps for two classes that extend each other and have a method of the same name; the text is
only as long as the names need. -/
def mutualSteps : List Program.Step :=
  [.file ⟨"/p/a.ts"⟩ "A:B.m B:A.m", .symbol "A" .ofClass, .symbol "B" .ofClass,
   .symbol "m" .method, .symbol "m" .method,
   .declaration ⟨0⟩ .classDeclaration "A:B.m" "A", .nodeAt ⟨1⟩ .heritageClause "B" 0,
   .identifier ⟨3⟩ "B" 0 ⟨1⟩, .declaration ⟨1⟩ .methodDeclaration "m" "m",
   .declaration ⟨0⟩ .classDeclaration "B:A.m" "B", .nodeAt ⟨7⟩ .heritageClause "A" 0,
   .identifier ⟨9⟩ "A" 0 ⟨0⟩, .declaration ⟨7⟩ .methodDeclaration "m" "m",
   .declare ⟨0⟩ ⟨1⟩, .declare ⟨1⟩ ⟨7⟩, .declare ⟨2⟩ ⟨5⟩, .declare ⟨3⟩ ⟨11⟩,
   .member ⟨0⟩ ⟨2⟩, .member ⟨1⟩ ⟨3⟩]

def mutuals : Setting := plain mutualSteps

/-- Methods lead to classes, and classes lead nowhere. -/
theorem mutuals_leads {a b : SymbolRef} (h : mutuals.program.Leads a b) :
    2 ≤ a.index ∧ b.index < 2 := by
  have hfacts : (∀ i < mutuals.program.symbols.size,
        (mutuals.program.parentSymbol ⟨i⟩).all fun b => 2 ≤ i ∧ b.index < 2) ∧
      (∀ i < mutuals.program.fileInfos.size, mutuals.program.fileSymbol ⟨i⟩ = none) ∧
      ∀ i < mutuals.program.nodes.size, mutuals.program.kind ⟨i⟩ ≠ .typeAliasDeclaration := by
    decide +kernel
  obtain ⟨hparents, hfiles, hkinds⟩ := hfacts
  cases h with
  | parent _ hparent =>
      have hlt : a.index < mutuals.program.symbols.size := Nat.lt_of_not_le fun hge => by
        simp [Program.parentSymbol, Program.symbol?, hge] at hparent
      simpa [hparent] using hparents a.index hlt
  | adopted _ hadopts =>
      obtain ⟨root, -, -, hmodule, -⟩ := hadopts
      have hlt : (mutuals.program.fileOf root).index < mutuals.program.fileInfos.size :=
        Nat.lt_of_not_le fun hge => by simp [Program.fileSymbol, hge] at hmodule
      cases (hfiles _ hlt).symm.trans hmodule
  | forwarded _ _ hforwards =>
      obtain ⟨declaration, name, -, -, hkind, hname, -⟩ := hforwards
      have hnamed : mutuals.program.nameOf declaration ≠ none := by
        rw [hname]
        exact Option.some_ne_none name
      exact absurd hkind (hkinds declaration.index (Program.index_lt (.inr (.inr hnamed))))

/-- While the record of one method is made, that of the other is looked for, so that two keys are
reserved; at every stop, also there, looking for the first method leaves them as they are. -/
theorem mutuals_guarded :
    ((stops mutuals .inMemory).any fun stop =>
      (stop.2.store.cache.entries.filter fun entry => entry.2 = .resolving).length = 2) = true ∧
    ∀ stop ∈ stops mutuals .inMemory, ∀ key,
      (final (resolve mutuals ⟨2⟩ none stop.2)).store.cache.get? key = some .resolving ↔
        stop.2.store.cache.get? key = some .resolving := by
  have hrun : (Program.ofSteps mutualSteps).isOk = true ∧
      ((stops mutuals .inMemory).any fun stop =>
        (stop.2.store.cache.entries.filter fun entry => entry.2 = .resolving).length = 2)
        = true := by
    decide +kernel
  obtain ⟨hok, hstops⟩ := hrun
  refine ⟨hstops, fun stop hstop key => ?_⟩
  refine (resolve_guarded .inMemory (plain_built hok) (fun a hcircle => ?_)
    (.inl ⟨stop.1, hstop⟩) ⟨2⟩ none).2 key
  obtain ⟨b, hfirst, -⟩ := Relation.TransGen.head'_iff.mp hcircle
  obtain ⟨c, -, hlast⟩ := Relation.TransGen.tail'_iff.mp hcircle
  exact absurd (mutuals_leads hlast).2 (Nat.not_lt.mpr (mutuals_leads hfirst).1)

end Run

end SymbolGraph
