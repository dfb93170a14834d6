import SymbolGraph.Program.Build
import SymbolGraph.Proofs.Graph.Tallies
import SymbolGraph.Proofs.Run.Calls

/-!
# Proofs — Run — a run that ended well

At the end of a run all that was collected stands in the graph.  What the books say about records
can then be read off the edges.

* `Run.Ended`: the session at the end of a run.
* `Store.Settled`: its books balance, and nothing is left to be written.
* `Store.Owns`: a range that belongs to a document and to a record, by the edges that say so.
* `Store.Settled.exists_owner`, `Store.Settled.owner_unique`: a tagged range belongs to one record.
* `Run.Ended.settled`: a run that ended well is settled.
-/

namespace SymbolGraph

open SymbolGraph.Action

variable {faults : Nat → Option SinkFault} {w : Setting}

/-! ### Settled books -/

namespace Store

/-- The books balance and nothing is left to be written. -/
structure Settled (faults : Nat → Option SinkFault) (s : Store) : Prop where
  sound    : s.Sound faults
  balanced : s.Balanced
  finished : s.Finished

/-- A range of a document that leads to the result set of a record. -/
def Owns (s : Store) (a : RecordId) (document range : ElementId) (tag : RangeTag) : Prop :=
  Tagged s.elements range tag ∧ Contained s.elements document range ∧
    ∃ v, s.hub? a = some v ∧ Linked s.elements .next range v.id

namespace Settled

variable {s : Store} (h : s.Settled faults) {a : RecordId} {document x : ElementId}

include h

theorem contained_iff : s.Holds (.contained document x) ↔ Contained s.elements document x := by
  refine or_iff_right ?_
  rintro ⟨file, known, hknown, -⟩
  exact h.finished.documents file known hknown

theorem filed_iff {tag : RangeTag} : s.Filed a document x tag ↔ s.Owns a document x tag := by
  unfold Filed Owns
  rw [h.contained_iff]
  rfl

/-- A tagged range belongs to a record. -/
theorem exists_owner {tag : RangeTag} (htag : Tagged s.elements x tag) :
    ∃ a d, s.Owns a d x tag := by
  obtain ⟨a, d, hfiled⟩ := h.balanced.filed x tag htag
  exact ⟨a, d, h.filed_iff.mp hfiled⟩

/-- A range belongs to one record. -/
theorem owner_unique {b : RecordId} {d d' : ElementId} {tag tag' : RangeTag}
    (ha : s.Owns a d x tag) (hb : s.Owns b d' x tag') : a = b := by
  obtain ⟨-, -, v, hv, hnext⟩ := ha
  obtain ⟨-, -, v', hv', hnext'⟩ := hb
  exact hub?_inj h.sound hv hv' (h.balanced.single x v.id v'.id hnext hnext')

/-- A record keeps nothing any more. -/
theorem not_keeps {i : Nat} {r : Record} (hr : s.records[i]? = some r)
    (list : Partition → List ElementId) : ¬ r.Keeps list document x := by
  rintro ⟨file, p, hp, -⟩
  rw [h.finished.partitions i r hr] at hp
  cases hp

theorem cited_iff {property : ItemProperty} : s.Holds (.cited a property document x) ↔
    ∃ v, s.citing? a = some v ∧ Listed s.elements v.id (some property) document x := by
  constructor
  · rintro ⟨r, hr, hkeeps | ⟨v, hv, hlisted⟩⟩
    · exact absurd hkeeps (h.not_keeps hr _)
    · exact ⟨v, Option.bind_eq_some_iff.mpr ⟨r, hr, hv⟩, hlisted⟩
  · rintro ⟨v, hv, hlisted⟩
    obtain ⟨r, hr, hv⟩ := Option.bind_eq_some_iff.mp hv
    exact ⟨r, hr, .inr ⟨v, hv, hlisted⟩⟩

theorem defined_iff : s.Holds (.defined a document x) ↔
    ∃ v, s.defining? a = some v ∧ Listed s.elements v.id none document x := by
  constructor
  · rintro ⟨r, hr, hkeeps | ⟨v, hv, hlisted⟩⟩
    · exact absurd hkeeps (h.not_keeps hr _)
    · exact ⟨v, Option.bind_eq_some_iff.mpr ⟨r, hr, hv⟩, hlisted⟩
  · rintro ⟨v, hv, hlisted⟩
    obtain ⟨r, hr, hv⟩ := Option.bind_eq_some_iff.mp hv
    exact ⟨r, hr, .inr ⟨v, hv, hlisted⟩⟩

/-- The reference result of a record is what its result set is linked to. -/
theorem linked_references {v : VertexRef} (hv : s.hub? a = some v) :
    Linked s.elements .references v.id x ↔ ∃ u, s.citing? a = some u ∧ u.id = x := by
  obtain ⟨r, hr, hhub⟩ := Option.bind_eq_some_iff.mp hv
  rw [(h.sound.records _ r hr).references v hhub]
  unfold citing?
  rw [hr]
  rfl

/-- The definition result of a record is what its result set is linked to. -/
theorem linked_definition {v : VertexRef} (hv : s.hub? a = some v) :
    Linked s.elements .definition v.id x ↔ ∃ u, s.defining? a = some u ∧ u.id = x := by
  obtain ⟨r, hr, hhub⟩ := Option.bind_eq_some_iff.mp hv
  rw [(h.sound.records _ r hr).definition v hhub]
  unfold defining?
  rw [hr]
  rfl

/-- A record with a reference result has a result set. -/
theorem hub_of_citing {u : VertexRef} (hu : s.citing? a = some u) : ∃ v, s.hub? a = some v := by
  obtain ⟨r, hr, -⟩ := Option.bind_eq_some_iff.mp hu
  obtain ⟨v, hv⟩ := h.finished.begun _ r hr
  exact ⟨v, Option.bind_eq_some_iff.mpr ⟨r, hr, hv⟩⟩

end Settled

end Store

/-! ### The end of a run -/

namespace Run

/-- The session at the end of a run over a memory, if the run ends well. -/
def last? (w : Setting) (faults : Nat → Option SinkFault) : Option Session :=
  match start w (Graph.ofSink (.memory faults 0 #[])) with
  | .error _ _   => none
  | .ok first _  =>
      match walkAll w first with
      | .error _ _ => none
      | .ok _ s    => some s

/-- A run over a memory ended well with this session. -/
def Ended (w : Setting) (faults : Nat → Option SinkFault) (s : Session) : Prop :=
  last? w faults = some s

/-- These are the runs that give a summary. -/
theorem exists_ended_iff {g : Graph} : (∃ s, Ended w faults s ∧ s.graph = g) ↔
    ∃ summary, index w (.memory faults 0 #[]) = (.ok summary, g) := by
  unfold Ended last? index
  cases start w (Graph.ofSink (.memory faults 0 #[])) with
  | error fault graph => simp
  | ok first graph =>
      dsimp only
      cases walkAll w first with
      | error fault s => simp
      | ok summary s => simp

/-- At the end of a run the flush leaves the session as it is. -/
theorem flush_ensures {s : Session} (hs : s.store.graph.IsMemory) :
    Ensures (Session.emit Graph.flush) s (fun _ t => t = s) fun _ _ => False := by
  refine ensures_onPart.mpr (ensures_onPart.mpr (Ensures.mono (Graph.flush_unchanged hs) ?_
    fun _ _ hfalse => hfalse))
  rintro _ g rfl
  rfl

theorem walkAll_ensures {s : Session} (hs : s.Sound faults) (ho : s.InOrder) :
    Ensures (walkAll w) s (fun _ t => t.store.Settled faults) fun _ _ => True := by
  unfold walkAll
  refine ensures_bind.mpr (Ensures.mono (Session.walks_forM hs fun file t ht =>
    Session.visitFile_walks ht) ?_ fun _ _ _ => trivial)
  intro _ t hkeeps
  refine ensures_bind.mpr (Ensures.mono (Session.projectProcessed_ends hkeeps.sound) ?_
    fun _ _ _ => trivial)
  rintro _ u ⟨hleads, hend⟩
  obtain ⟨hbalanced, hfinished⟩ := hend (hkeeps.order ho)
  refine ensures_bind.mpr (Ensures.mono (flush_ensures hleads.sound.store.graph.isMemory) ?_
    fun _ _ _ => trivial)
  rintro _ _ rfl
  exact ensures_bind.mpr (ensures_get.mpr (ensures_pure.mpr
    ⟨hleads.sound.store, hbalanced, hfinished⟩))

/-- **A run that ended well is settled.** -/
theorem Ended.settled {s : Session} (h : Ended w faults s) : s.store.Settled faults := by
  unfold Ended last? at h
  split at h
  · cases h
  · rename_i first graph hstart
    obtain ⟨hsound, horder⟩ := start_ensures.of_ok hstart
    split at h
    · cases h
    · rename_i summary s' hwalk
      cases h
      exact (walkAll_ensures hsound horder).of_ok hwalk

/-! ### A small run -/

/-- An interface, another one that extends it and overrides its method, and a mention of the
overriding method. -/
def overriding : Setting :=
  .ofOptions (match Program.ofSteps
      [.file ⟨"/p/a.ts"⟩ "interface A { m() } interface B extends A { m() } b.m",
       .declaration ⟨0⟩ .interfaceDeclaration "interface A { m() }" "A",
       .declaration ⟨1⟩ .methodSignature "m()" "m",
       .declaration ⟨0⟩ .interfaceDeclaration "interface B extends A { m() }" "B",
       .declaration ⟨5⟩ .methodSignature "m()" "m",
       .symbol "A" .ofInterface, .symbol "m" .method,
       .declare ⟨0⟩ ⟨1⟩, .declare ⟨1⟩ ⟨3⟩, .member ⟨0⟩ ⟨1⟩,
       .symbol "B" .ofInterface, .symbol "m" .method,
       .declare ⟨2⟩ ⟨5⟩, .declare ⟨3⟩ ⟨7⟩, .member ⟨2⟩ ⟨3⟩,
       .objectType (some ⟨0⟩), .objectType (some ⟨2⟩), .declaredType ⟨2⟩ ⟨1⟩, .baseType ⟨1⟩ ⟨0⟩,
       .identifier ⟨0⟩ "m" 2 ⟨3⟩] with
    | .ok p    => p
    | .error _ => .empty)
    { projectRoot := ⟨"/p"⟩, hover := false, monikers := false, documentSymbols := false }

/-- The run over it ends well.  The two methods are the second and the last record, and the mention
leads to the last one. -/
theorem overriding_ended : ∃ s, Ended overriding (fun _ => none) s ∧
    s.store.kind? ⟨1⟩ = some (.method [] ⟨0⟩) ∧ s.store.kind? ⟨3⟩ = some (.method [⟨1⟩] ⟨0⟩) ∧
    s.store.hub? ⟨3⟩ = some ⟨⟨13⟩, .resultSet⟩ ∧
    Tagged s.graph.elements ⟨18⟩ (.reference "m") ∧ Linked s.graph.elements .next ⟨18⟩ ⟨13⟩ ∧
    Query.definitions s.graph.elements ⟨18⟩ = [⟨16⟩] ∧
    Query.references s.graph.elements ⟨18⟩ = [] := by
  have hrun : (last? overriding fun _ => none).any (fun s =>
      s.store.kind? ⟨1⟩ = some (.method [] ⟨0⟩) ∧ s.store.kind? ⟨3⟩ = some (.method [⟨1⟩] ⟨0⟩) ∧
      s.store.hub? ⟨3⟩ = some ⟨⟨13⟩, .resultSet⟩ ∧
      Query.range? s.graph.elements ⟨18⟩ = some (⟨⟨0, 52⟩, ⟨0, 53⟩⟩, some (.reference "m")) ∧
      Query.firstTarget s.graph.elements ⟨18⟩ .next = some ⟨13⟩ ∧
      Query.definitions s.graph.elements ⟨18⟩ = [⟨16⟩] ∧
      Query.references s.graph.elements ⟨18⟩ = []) = true := by
    decide +kernel
  obtain ⟨s, hs, hfacts⟩ := (Option.any_eq_true _ _).mp hrun
  obtain ⟨hbase, hoverrides, hhub, hrange, hnext, hrest⟩ := of_decide_eq_true hfacts
  exact ⟨s, hs, hbase, hoverrides, hhub, Query.tagged_of_range? hrange,
    Query.linked_of_firstTarget hnext, hrest⟩

end Run

end SymbolGraph
