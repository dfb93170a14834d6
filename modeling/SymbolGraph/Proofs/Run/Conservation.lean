import SymbolGraph.Proofs.Run.Walked
import SymbolGraph.Proofs.Store.Conserving

/-!
# Proofs — Run — everything that was recorded is listed, once

A store is driven by calls: records are inserted, definitions and references are recorded, nodes are
left, documents end.  What a record was given may go to the graph when the walk leaves a file or the
scope of the record, or not before the end of the project.  Whatever the calls are, if none of them
fails, then at the end every record lists for each document and heading what it was given, in order
and as often as it was given, by one edge.

* `Store.Call`, `Store.Call.receipts`: calls, and what they give to whom.
* `Store.replay?`: calls one after the other, with a log of what they gave.
* `Store.replay?_conserves`: what calls gave is conserved.
* `Store.lists_what_was_received`: what the edges of a record list at the end.
-/

namespace SymbolGraph

open SymbolGraph.Action

namespace Store

/-- A call to a store. -/
inductive Call where
  | insert (key : SymbolKey) (kind : RecordKind) (scope : Option NodeId)
  | addDefinition (id : RecordId) (file : FileId) (range : ElementId) (asReference : Bool)
  | addReference (id : RecordId) (file : FileId) (reference : Reference) (role : ReferenceRole)
  | document (file : FileId)
  | watch (node : NodeId) (id : RecordId)
  | nodeProcessed (node : NodeId)
  | endDocument (file : FileId)

namespace Call

/-- What a call does. -/
def act (w : Setting) : Call → Storing Unit
  | .insert key kind scope                    => discard (Store.insert w { key, kind, scope })
  | .addDefinition id file range asReference  => Store.addDefinition w id file range asReference
  | .addReference id file reference role      => Store.addReference w id file reference role
  | .document file                            => discard (Store.document w file)
  | .watch node id                            => Store.watch node id
  | .nodeProcessed node                       => Store.nodeProcessed w node
  | .endDocument file                         => Store.endDocument w file

/-- What a call that leads from one store to another gives to whom. -/
def receipts (s t : Store) : Call → List Receipt
  | .insert _ kind _                         => t.ties ⟨s.records.size⟩ kind
  | .addDefinition id file range asReference => s.definitions id file range asReference
  | .addReference id file reference role     => s.citations id file reference role
  | _                                        => []

end Call

/-- Calls one after the other, as long as none fails, and what they gave to whom. -/
def replay? (w : Setting) : List Call → Store → Option (List Receipt × Store)
  | [],            s => some ([], s)
  | call :: calls, s =>
      (ending? (call.act w) s).bind fun t =>
        (replay? w calls t).map fun rest => (call.receipts s t ++ rest.1, rest.2)

/-- What the results of a record list for a document under a heading, edge by edge. -/
def listed (s : Store) (id : RecordId) (document : ElementId) (heading : Option ItemProperty) :
    List (List ElementId) :=
  match s.records[id.index]? with
  | some r => Ledger.listed ⟨r, s.graph⟩ document heading
  | none   => []

variable {w : Setting} {s t u : Store} {log : List Receipt}

/-- What a call gives is conserved. -/
theorem Call.act_conserves (call : Call) (hs : s.Conserves log) :
    Ensures (call.act w) s (fun _ t => t.Conserves (log ++ call.receipts s t)) fun _ _ => True := by
  cases call with
  | insert key kind scope => exact ensures_discard.mpr (insert_conserves hs key kind scope)
  | addDefinition id file range asReference =>
      exact (addDefinition_receives id range asReference log hs).mono (fun _ t ht => ht.1)
        fun _ _ _ => trivial
  | addReference id file reference role =>
      exact (addReference_receives id reference role log hs).mono (fun _ t ht => ht.1)
        fun _ _ _ => trivial
  | document file =>
      exact ensures_discard.mpr ((document_receives file log hs).mono (fun _ t ht => ht.1)
        fun _ _ _ => trivial)
  | watch node id =>
      exact (watch_receives node log hs).mono (fun _ t ht => ht.1) fun _ _ _ => trivial
  | nodeProcessed node =>
      refine (nodeProcessed_conserves node hs).mono (fun _ t ht => ?_) fun _ _ _ => trivial
      exact (List.append_nil log).symm ▸ ht
  | endDocument file =>
      exact (endDocument_receives file log hs).mono (fun _ t ht => ht.1) fun _ _ _ => trivial

/-- What calls gave, one after the other, is conserved. -/
theorem replay?_conserves {calls : List Call} {new : List Receipt} (hs : s.Conserves log)
    (h : replay? w calls s = some (new, t)) : t.Conserves (log ++ new) := by
  induction calls generalizing s log new with
  | nil =>
      cases h
      exact (List.append_nil log).symm ▸ hs
  | cons call calls ih =>
      obtain ⟨s₁, hcall, h⟩ := Option.bind_eq_some_iff.mp h
      obtain ⟨rest, hrest, hnew⟩ := Option.map_eq_some_iff.mp h
      cases hnew
      obtain ⟨_, hact⟩ := ending?_eq_some.mp hcall
      have hs₁ := (call.act_conserves hs).of_ok hact
      rw [← List.append_assoc]
      exact ih hs₁ hrest

/-- Nothing is given to a record that does not exist. -/
theorem Conserves.received_unknown (h : s.Conserves log) {id : RecordId}
    (hr : s.records[id.index]? = none) (file : FileId) (heading : Option ItemProperty) :
    received log id file heading = [] := by
  refine received_eq_nil (fun receipt hreceipt heq => ?_) heading
  have hlt := h.known receipt hreceipt
  rw [heq] at hlt
  exact absurd hlt (Nat.not_lt.mpr (Array.getElem?_eq_none_iff.mp hr))

/-- Something is given for files with a document only. -/
theorem Conserves.documentOf_of_received (h : s.Conserves log) {id : RecordId} {file : FileId}
    {heading : Option ItemProperty} (hgiven : received log id file heading ≠ []) :
    ∃ document, s.DocumentOf file document := by
  cases hr : s.records[id.index]? with
  | none => exact absurd (h.received_unknown hr file heading) hgiven
  | some r => exact (h.records id.index r hr).placed file heading hgiven

/-- Once no record is open, what was received is what the edges list. -/
theorem Conserves.listed_eq (h : s.Conserves log)
    (hshut : ∀ (i : Nat) (r : Record), s.records[i]? = some r → r.state ≠ .opened) {id : RecordId}
    {file : FileId} {document : ElementId} (hd : s.DocumentOf file document)
    (heading : Option ItemProperty) :
    s.listed id document heading = batch (received log id file heading) := by
  unfold Store.listed
  cases hr : s.records[id.index]? with
  | none =>
      rw [h.received_unknown hr]
      rfl
  | some r =>
      have hrecord := h.records id.index r hr
      have hbalance := hrecord.balance file document heading hd
      have hheld : r.held file heading = [] := by
        refine Record.held_of_not_live (fun p hp => ?_) heading
        exact hshut id.index r hr (hrecord.opened hp)
      rw [hheld, batch_nil, List.append_nil] at hbalance
      exact hbalance

/-- **Everything that was recorded is listed, once.**  After any calls that do not fail and the end of
the project, the results of a record list for the document of a file, under each heading, what the
record was given for the file under that heading: by one edge, in order and as often as it was given,
or by no edge if it was given nothing.  A file for which something was given has a document. -/
theorem lists_what_was_received {faults : Nat → Option SinkFault} {g : Graph} {project : Project}
    {calls : List Call}
    (hstart : start w.projectRoot (Graph.ofSink (.memory faults 0 #[])) = .ok project g)
    (hcalls : replay? w calls { graph := g, project } = some (log, t))
    (hend : ending? (projectProcessed w) t = some u) (id : RecordId) (file : FileId)
    (heading : Option ItemProperty) :
    (∀ document, u.DocumentOf file document →
      u.listed id document heading = batch (received log id file heading)) ∧
    (received log id file heading ≠ [] → ∃ document, u.DocumentOf file document) := by
  have hs : Conserves [] { graph := g, project } := (start_conserves w.projectRoot).of_ok hstart
  have ht : t.Conserves log := replay?_conserves hs hcalls
  obtain ⟨_, hended⟩ := ending?_eq_some.mp hend
  obtain ⟨hu, hshut⟩ := (projectProcessed_conserves ht).of_ok hended
  exact ⟨fun document hd => hu.listed_eq hshut hd heading, hu.documentOf_of_received⟩

/-- Two files without names of their own. -/
def twoFiles : Setting := Run.plain [.file ⟨"/p/a.ts"⟩ "", .file ⟨"/p/b.ts"⟩ ""]

/-- A method, one that overrides it, an alias of that and a property that both share; ranges that are
recorded under each of them, and the end of the second file in between. -/
def overriddenTwice : List Call :=
  [.insert ⟨"m"⟩ (.method [] ⟨0⟩) none, .insert ⟨"n"⟩ (.method [⟨0⟩] ⟨0⟩) none,
    .insert ⟨"alias"⟩ (.aliased ⟨1⟩ true) none, .insert ⟨"shared"⟩ (.composite [⟨0⟩, ⟨1⟩] ⟨1⟩) none,
    .addDefinition ⟨0⟩ ⟨0⟩ ⟨100⟩ true, .addDefinition ⟨1⟩ ⟨0⟩ ⟨101⟩ true,
    .addReference ⟨2⟩ ⟨1⟩ (.range ⟨102⟩) .references,
    .addReference ⟨3⟩ ⟨1⟩ (.range ⟨103⟩) .references, .nodeProcessed ⟨1⟩, .endDocument ⟨1⟩,
    .addReference ⟨2⟩ ⟨0⟩ (.range ⟨104⟩) .references]

/-- The overridden method lists a range that reached it by the alias, and twice one that reached it by
the shared property. -/
theorem overriddenTwice_lists : ∃ project g log t u document,
    start twoFiles.projectRoot (Graph.ofSink .inMemory) = .ok project g ∧
    replay? twoFiles overriddenTwice { graph := g, project } = some (log, t) ∧
    ending? (projectProcessed twoFiles) t = some u ∧ u.DocumentOf ⟨1⟩ document ∧
    u.listed ⟨0⟩ document (some .references) = [[⟨102⟩, ⟨103⟩, ⟨103⟩]] := by
  have hrun : (outcome? (start twoFiles.projectRoot) (Graph.ofSink .inMemory)).any
      (fun first => (replay? twoFiles overriddenTwice { graph := first.2, project := first.1 }).any
        fun second => received second.1 ⟨0⟩ ⟨1⟩ (some .references) = [⟨102⟩, ⟨103⟩, ⟨103⟩] ∧
          (ending? (projectProcessed twoFiles) second.2).isSome) = true := by
    decide +kernel
  obtain ⟨⟨project, g⟩, hfirst, hrun⟩ := (Option.any_eq_true _ _).mp hrun
  obtain ⟨⟨log, t⟩, hcalls, hrun⟩ := (Option.any_eq_true _ _).mp hrun
  obtain ⟨hgiven, hended⟩ := of_decide_eq_true hrun
  obtain ⟨u, hend⟩ := Option.isSome_iff_exists.mp hended
  have hstart := outcome?_eq_some.mp hfirst
  have hlists := lists_what_was_received hstart hcalls hend ⟨0⟩ ⟨1⟩ (some .references)
  obtain ⟨document, hd⟩ := hlists.2 (by rw [hgiven]; simp)
  refine ⟨project, g, log, t, u, document, hstart, hcalls, hend, hd, ?_⟩
  rw [hlists.1 document hd, hgiven]
  rfl

end Store

end SymbolGraph
