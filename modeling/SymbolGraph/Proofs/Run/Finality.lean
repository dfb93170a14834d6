import SymbolGraph.Proofs.Run.Conservation
import SymbolGraph.Proofs.Store.Sealing

/-!
# Proofs — Run — closed is final

Operations on a store may come in any order, and a caller may go on after one that failed.  Whatever
comes, a record that is closed stays closed and without partitions, nothing is listed for it any
more, and whoever writes to it is refused or ignored, by the kind of the record.

* `Store.Operation`, `Store.after`: operations one after the other, however each ends.
* `Store.after_upholds`: operations honour what was closed.
* `Store.closed_is_final`: what becomes of a closed record.
-/

namespace SymbolGraph.Store

open SymbolGraph.Action

/-- An operation on a store. -/
inductive Operation where
  | insert (key : SymbolKey) (kind : RecordKind) (scope : Option NodeId)
  | addDefinition (id : RecordId) (file : FileId) (range : ElementId) (asReference : Bool)
  | addReference (id : RecordId) (file : FileId) (reference : Reference) (role : ReferenceRole)
  | addHover (id : RecordId) (hover : ElementId)
  | addMoniker (id : RecordId) (moniker : ElementId)
  | addInfo (id : RecordId) (info : DefinitionInfo)
  | reserve (key : SymbolKey)
  | abandon (key : SymbolKey)
  | document (file : FileId)
  | addRange (file : FileId) (range : ElementId)
  | beginContainer (file : FileId) (range : ElementId)
  | endContainer (file : FileId)
  | vertex (v : Vertex)
  | link (kind : LinkKind) (source target : ElementId)
  | watch (node : NodeId) (id : RecordId)
  | nodeProcessed (node : NodeId)
  | endDocument (file : FileId)
  | projectProcessed

namespace Operation

/-- What an operation does. -/
def act (w : Setting) : Operation → Storing Unit
  | .insert key kind scope                   => discard (Store.insert w { key, kind, scope })
  | .addDefinition id file range asReference => Store.addDefinition w id file range asReference
  | .addReference id file reference role     => Store.addReference w id file reference role
  | .addHover id hover                       => Store.addHover id hover
  | .addMoniker id moniker                   => Store.addMoniker id moniker
  | .addInfo id info                         => Store.addInfo id info
  | .reserve key                             => Store.reserve key
  | .abandon key                             => Store.abandon key
  | .document file                           => discard (Store.document w file)
  | .addRange file range                     => Store.addRange w file range
  | .beginContainer file range               => Store.beginContainer w file range
  | .endContainer file                       => Store.endContainer w file
  | .vertex v                                => discard (Graph.vertex v : Storing VertexRef)
  | .link kind source target                 =>
      discard (Graph.link kind source target : Storing ElementId)
  | .watch node id                           => Store.watch node id
  | .nodeProcessed node                      => Store.nodeProcessed w node
  | .endDocument file                        => Store.endDocument w file
  | .projectProcessed                        => Store.projectProcessed w

/-- The record that an operation writes to. -/
def target? : Operation → Option RecordId
  | .addDefinition id _ _ _ | .addReference id _ _ _ | .addHover id _ | .addMoniker id _ => some id
  | _ => none

end Operation

/-- The store after operations, each of them done however those before it ended. -/
def after (w : Setting) (operations : List Operation) (s : Store) : Store :=
  operations.foldl (fun s operation => final (operation.act w s)) s

/-- A store to which operations have led from the start of a run, over any sink. -/
def Reachable (w : Setting) (s : Store) : Prop :=
  ∃ sink project graph operations,
    start w.projectRoot (Graph.ofSink sink) = .ok project graph ∧
    s = after w operations { graph, project }

variable {w : Setting} {s t : Store} {id : RecordId}

/-- An operation honours what was closed, however it ends. -/
theorem Operation.act_upholds (operation : Operation) : Stays Upholds (operation.act w) := by
  have hedits {α : Type} {act : Storing α} {post : Store → α → Store → Prop}
      (h : ∀ s, Handles w act s (post s)) : Stays Upholds act :=
    (stays_of_handles h).mono fun _ _ => Edited.upholds
  cases operation with
  | insert key kind scope => exact (insert_upholds key kind scope).discard
  | addDefinition => exact hedits fun _ => addDefinition_handles
  | addReference => exact hedits fun _ => addReference_handles
  | addHover => exact hedits fun _ => addHover_handles
  | addMoniker => exact hedits fun _ => addMoniker_handles
  | addInfo => exact hedits fun _ => addInfo_handles
  | reserve => exact stays_modify fun _ => upholds_cache
  | abandon =>
      refine stays_modify fun s => ?_
      split
      · exact upholds_cache
      · exact refl_of Upholds s
  | document => exact Stays.discard (hedits fun _ => document_handles)
  | addRange => exact hedits fun _ => addRange_handles
  | beginContainer => exact hedits fun _ => beginContainer_handles
  | endContainer => exact hedits fun _ => endContainer_handles
  | vertex => exact Stays.discard (hedits fun _ => emission_handles (Graph.vertex_stays _))
  | link => exact hedits fun _ => link_handles
  | watch => exact hedits fun _ => watch_handles
  | nodeProcessed node => exact nodeProcessed_upholds node
  | endDocument => exact hedits fun _ => endDocument_handles
  | projectProcessed => exact projectProcessed_departs.mono fun _ _ => Departed.upholds

/-- Operations honour what was closed. -/
theorem after_upholds (operations : List Operation) : s.Upholds (after w operations s) := by
  induction operations generalizing s with
  | nil => exact refl_of Upholds s
  | cons operation operations ih =>
      have hfirst : s.Upholds (final (operation.act w s)) := (operation.act_upholds s).final
      exact trans_of Upholds hfirst ih

/-- What an operation says when it finds a record closed. -/
def refusal (r : Record) (s : Store) : EStateM.Result Fault Store Unit :=
  if r.kind.isStrict then .error (.recordClosed r.key) s else .ok () s

/-- Whoever asks first whether a record is open leaves a closed one alone. -/
theorem whenOpen_closed {r : Record} (hr : s.records[id.index]? = some r)
    (hclosed : r.state = .closed) (act : Record → Storing Unit) :
    whenOpen id act s = refusal r s := by
  have hknown : record id s = .ok r s := by
    show (record id).run s = .ok r s
    simp [record, hr]
  have hopen : r.isOpen = if r.kind.isStrict then .error (.recordClosed r.key) else .ok false := by
    unfold Record.isOpen
    rw [hclosed]
  unfold whenOpen
  simp only [bind, EStateM.bind, hknown, hopen, refusal]
  cases r.kind.isStrict with
  | true => rfl
  | false => rfl

/-- A closed record refuses whatever is written to it, or takes no notice. -/
theorem Operation.act_closed {operation : Operation} {r : Record}
    (htarget : operation.target? = some id) (hr : s.records[id.index]? = some r)
    (hclosed : r.state = .closed) : operation.act w s = refusal r s := by
  cases operation with
  | addDefinition =>
      cases htarget
      exact whenOpen_closed hr hclosed _
  | addReference =>
      cases htarget
      exact whenOpen_closed hr hclosed _
  | addHover =>
      cases htarget
      exact whenOpen_closed hr hclosed _
  | addMoniker =>
      cases htarget
      exact whenOpen_closed hr hclosed _
  | _ => cases htarget

theorem Reachable.sealed (h : s.Reachable w) : s.Sealed := by
  obtain ⟨_, project, graph, operations, -, rfl⟩ := h
  exact (after_upholds operations sealed_fresh).2

/-- **Closed is final.**  In a store that any operations have led to, over any sink and however each
of them ended, a record that is closed has no partitions; and after any further operations it is
still closed, still has none, and no listing among the elements written since leaves one of its
results.  An operation that writes to it changes nothing: it fails if the kind of the record is
strict, and otherwise ends well. -/
theorem closed_is_final (hs : s.Reachable w) {r : Record} (hr : s.records[id.index]? = some r)
    (hclosed : r.state = .closed) (later : List Operation) :
    r.partitions = ∅ ∧
    ∃ r', (after w later s).records[id.index]? = some r' ∧
      r'.state = .closed ∧ r'.partitions = ∅ ∧ r'.key = r.key ∧ r'.kind = r.kind ∧
      (∃ written, (after w later s).graph.elements = s.graph.elements ++ written ∧
        ∀ e ∈ written, ∀ source, e.lister? = some source →
          ¬ r.HasResult source ∧ ¬ r'.HasResult source) ∧
      ∀ operation : Operation, operation.target? = some id →
        operation.act w (after w later s) =
          if r.kind.isStrict then .error (.recordClosed r.key) (after w later s)
          else .ok () (after w later s) := by
  have hsealed := hs.sealed
  obtain ⟨hhonours, hsealed'⟩ := after_upholds (w := w) later hsealed
  obtain ⟨r', hr', hlasts⟩ := hhonours.records id.index r hr
  have hclosed' := hlasts.closed hclosed
  obtain ⟨written, helements, hlisted⟩ := hhonours.elements
  -- A listing leaves a result of a record that was not closed, and so not one of this record.
  have hspared (e : Element) (he : e ∈ written) (source : ElementId)
      (hsource : e.lister? = some source) : ¬ r'.HasResult source := by
    intro hresult
    obtain ⟨i, hgives, hopen⟩ := hlisted e he source hsource
    have hi : i = id.index := hsealed'.unique i id.index source hgives ⟨r', hr', hresult⟩
    exact hopen ⟨r, hi ▸ hr, hclosed⟩
  refine ⟨hsealed.vacant _ r hr hclosed, r', hr', hclosed', hsealed'.vacant _ r' hr' hclosed',
    hlasts.key, hlasts.kind, ⟨written, helements, fun e he source hsource => ?_⟩,
    fun operation htarget => ?_⟩
  · have hnot := hspared e he source hsource
    exact ⟨fun hresult => hnot (hlasts.results source hresult), hnot⟩
  · rw [Operation.act_closed htarget hr' hclosed', refusal, hlasts.kind, hlasts.key]

/-- A record local to the root of a file is given a definition, and the walk leaves the root. -/
def localClosed : List Operation :=
  [.insert ⟨"local"⟩ .standard (some ⟨0⟩), .watch ⟨0⟩ ⟨0⟩, .addDefinition ⟨0⟩ ⟨0⟩ ⟨100⟩ false,
    .nodeProcessed ⟨0⟩]

/-- A shared property asks the closed record for its reference result and passes a reference on to
it, and the project ends. -/
def citedLater : List Operation :=
  [.insert ⟨"shared"⟩ (.composite [⟨0⟩] ⟨1⟩) none, .addReference ⟨1⟩ ⟨1⟩ (.range ⟨101⟩) .references,
    .projectProcessed]

/-- The record is given a reference result after its end, but nothing is listed from it. -/
theorem localClosed_stays_closed : ∃ s r r', s.Reachable twoFiles ∧ s.records[0]? = some r ∧
    r.state = .closed ∧ r.referenceResult = none ∧
    (after twoFiles citedLater s).records[0]? = some r' ∧ r'.referenceResult.isSome ∧
    r'.state = .closed ∧ r'.partitions = ∅ ∧
    (∃ written, (after twoFiles citedLater s).graph.elements = s.graph.elements ++ written ∧
      ∀ e ∈ written, ∀ source, e.lister? = some source → ¬ r'.HasResult source) ∧
    addHover ⟨0⟩ ⟨200⟩ (after twoFiles citedLater s)
      = .error (.recordClosed ⟨"local"⟩) (after twoFiles citedLater s) := by
  have hrun : (outcome? (start twoFiles.projectRoot) (Graph.ofSink .inMemory)).any (fun first =>
      (after twoFiles localClosed { graph := first.2, project := first.1 }).records[0]?.any
        (fun r => r.state = .closed ∧ r.referenceResult.isNone ∧ r.key = ⟨"local"⟩ ∧
          r.kind.isStrict) ∧
      (after twoFiles citedLater (after twoFiles localClosed
        { graph := first.2, project := first.1 })).records[0]?.any
          fun r => r.referenceResult.isSome) = true := by
    decide +kernel
  obtain ⟨⟨project, g⟩, hfirst, hrun⟩ := (Option.any_eq_true _ _).mp hrun
  obtain ⟨hclosed, hcited⟩ := of_decide_eq_true hrun
  obtain ⟨r, hr, hclosed⟩ := (Option.any_eq_true _ _).mp hclosed
  obtain ⟨hstate, hnone, hkey, hstrict⟩ := of_decide_eq_true hclosed
  obtain ⟨r'', hr'', hsome⟩ := (Option.any_eq_true _ _).mp hcited
  have hreachable : Reachable twoFiles (after twoFiles localClosed { graph := g, project }) :=
    ⟨_, project, g, localClosed, outcome?_eq_some.mp hfirst, rfl⟩
  have hfound : (after twoFiles localClosed { graph := g, project }).records[
      (⟨0⟩ : RecordId).index]? = some r := hr
  obtain ⟨-, r', hr', hstate', hparts, -, -, ⟨written, helements, hlisted⟩, hwrites⟩ :=
    closed_is_final hreachable hfound hstate citedLater
  obtain rfl : r' = r'' := Option.some.inj (hr'.symm.trans hr'')
  refine ⟨_, r, r', hreachable, hr, hstate, Option.isNone_iff_eq_none.mp hnone, hr', hsome, hstate',
    hparts, ⟨written, helements, fun e he source hsource => (hlisted e he source hsource).2⟩, ?_⟩
  have hhover := hwrites (.addHover ⟨0⟩ ⟨200⟩) rfl
  rw [hkey, if_pos hstrict] at hhover
  exact hhover

end SymbolGraph.Store
