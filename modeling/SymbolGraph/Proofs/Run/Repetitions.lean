import SymbolGraph.Program.Build
import SymbolGraph.Proofs.Run.Conservation
import SymbolGraph.Proofs.Run.Ending
import SymbolGraph.Proofs.Session.Tallying
import SymbolGraph.Proofs.Session.Turning
import SymbolGraph.Proofs.Store.Sealing

/-!
# Proofs — Run — how often an item edge lists one id

Whatever lists something is the result of a record, and at the end of a run it lists what the record
received.  A definition result never lists an id twice.  A reference result may: where a method
overrides one method along several ways, as below a diamond of interfaces, that method receives its
definitions, its references and its reference result once for each of the ways, and lists them so.

* `Store.Attributed`: everything that is listed is listed by a result of a record.
* `Run.Ended.tallied`: at the end of a run there is a log that accounts for what was received.
* `Run.Ended.lists_by_routes`: how often the item edges of a run list an id.
* `Run.diamond`: a program with an item edge that lists an id twice.
-/

namespace SymbolGraph

open SymbolGraph.Action

/-! ### Whose listing it is -/

namespace Store

variable {faults : Nat → Option SinkFault} {s t : Store}

/-- Results are told apart, and everything that is listed is listed by a result of a record. -/
structure Attributed (s : Store) : Prop where
  apart  : s.Sealed
  lister : ∀ e ∈ s.graph.elements, ∀ source, e.lister? = some source → ∃ i, s.Gives i source

theorem Upholds.attributed (h : s.Upholds t) (hs : s.Attributed) : t.Attributed := by
  obtain ⟨hhonours, ht⟩ := h hs.apart
  obtain ⟨written, helements, hwritten⟩ := hhonours.elements
  refine ⟨ht, fun e he source hsource => ?_⟩
  rw [helements] at he
  rcases List.mem_append.mp he with he | he
  · obtain ⟨i, hi⟩ := hs.lister e he source hsource
    exact ⟨i, hhonours.gives hi⟩
  · obtain ⟨i, hi, -⟩ := hwritten e he source hsource
    exact ⟨i, hi⟩

/-- Under a heading, the result of a record that there is for the heading is what lists. -/
theorem Attributed.exists_result (h : s.Attributed) (hs : s.Sound faults) {n : ElementId}
    {source document : ElementId} {targets : List ElementId} {heading : Option ItemProperty}
    (hitem : Element.edge n (.item source targets document heading) ∈ s.graph.elements) :
    ∃ (i : Nat) (r : Record) (v : VertexRef), s.records[i]? = some r ∧
      r.resultOf heading = some v ∧ v.id = source := by
  obtain ⟨i, r, hr, hresult⟩ := h.lister _ hitem source rfl
  obtain ⟨-, hrefers⟩ := hs.graph.refersTo hitem
  have hrecord := hs.records i r hr
  refine ⟨i, r, ?_⟩
  cases heading with
  | none =>
      rcases hresult with hresult | hresult
      · obtain ⟨v, hv, hid⟩ := Option.map_eq_some_iff.mp hresult
        exact ⟨v, hr, hv, hid⟩
      · obtain ⟨v, hv, rfl⟩ := Option.map_eq_some_iff.mp hresult
        cases hs.graph.label_unique hrefers.1 (hrecord.referenceResult v hv).2
  | some property =>
      rcases hresult with hresult | hresult
      · obtain ⟨v, hv, rfl⟩ := Option.map_eq_some_iff.mp hresult
        cases hs.graph.label_unique hrefers.1 (hrecord.definitionResult v hv).2
      · obtain ⟨v, hv, hid⟩ := Option.map_eq_some_iff.mp hresult
        exact ⟨v, hr, hv, hid⟩

/-- A document that was delivered is the document of a file. -/
theorem Filing.documentOf_of_delivered (h : s.Filing) {document : ElementId}
    (hd : Delivered s.elements .document document) : ∃ file, s.DocumentOf file document := by
  obtain ⟨v, hv, hmem⟩ := hd
  have hdocument : (document, v) ∈ documentsIn s.elements := by
    refine List.mem_filterMap.mpr ⟨_, hmem, ?_⟩
    cases v with
    | document uri languageId => rfl
    | _ => cases hv
  obtain ⟨n, hn⟩ := List.getElem?_of_mem hdocument
  have hlt : n < s.documents.keys.length := h.length ▸ (List.getElem?_eq_some_iff.mp hn).1
  exact ⟨_, n, v, List.getElem?_eq_getElem hlt, hn⟩

end Store

theorem Session.Turns.upholds {w : Setting} {mark : Option Session.Milestone} {s t : Session}
    (h : Session.Turns w mark s t) : s.store.Upholds t.store := by
  cases h with
  | edits h => exact h.upholds
  | reserves => exact Store.upholds_cache
  | abandons => exact Store.upholds_cache
  | admits _ h hedited => exact trans_of Store.Upholds h.upholds hedited.upholds
  | refuses _ h => exact h.upholds
  | arrives => exact refl_of Store.Upholds _
  | leaves h => exact h.upholds
  | ends h => exact h.upholds
  | concludes h => exact h.upholds

namespace Run

variable {faults : Nat → Option SinkFault} {w : Setting} {s : Session}

/-- A run that ended well has ended at one of its stops. -/
theorem Ended.mem_stops (h : Ended w faults s) :
    ∃ stop ∈ stops w (.memory faults 0 #[]), stop.2 = s := by
  unfold Ended last? at h
  split at h
  · cases h
  · rename_i first graph hstart
    split at h
    · cases h
    · rename_i summary s' hwalk
      cases h
      obtain ⟨stop, hstop, hend⟩ := ended_mem_stops hstart
      refine ⟨stop, hstop, ?_⟩
      rw [hend]
      unfold Action.ended
      rw [hwalk]

/-- **Everything that a run lists is listed by a result of a record.** -/
theorem Ended.attributed (h : Ended w faults s) : s.store.Attributed := by
  obtain ⟨stop, hstop, rfl⟩ := h.mem_stops
  refine stops_keep (fun _ s => s.store.Attributed) (fun graph project hgraph => ?_)
    (fun _ _ _ _ hturns hs => hturns.upholds.attributed hs) stop hstop
  refine ⟨Store.sealed_fresh, fun e he source hsource => ?_⟩
  obtain ⟨written, helements, hplain⟩ := hgraph.elements
  rw [helements] at he
  rcases List.mem_append.mp he with he | he
  · cases he
  · exact (hplain e he source hsource).elim

/-! ### What was received -/

/-- A run starts without anything received. -/
theorem start_audited : Ensures (start w) (Graph.ofSink (.memory faults 0 #[]))
    (fun s _ => s.Audited faults) fun _ _ => True := by
  have hconserves : Ensures (start w) (Graph.ofSink (.memory faults 0 #[]))
      (fun s _ => s.store.Conserves [] ∧ s.store.records = #[]) fun _ _ => True :=
    ensures_bind.mpr ((Store.start_conserves w.projectRoot).mono
      (fun _ _ h => ensures_bind.mpr (ensures_get.mpr (ensures_pure.mpr ⟨h, rfl⟩)))
      fun _ _ _ => trivial)
  refine (start_ensures.and hconserves).mono (fun s _ hs => ?_) fun _ _ _ => trivial
  obtain ⟨⟨hsound, horder⟩, hconserves, hrecords⟩ := hs
  refine ⟨hsound, horder.lasting, [], ⟨hconserves, nofun, nofun, fun id => ?_⟩, trivial⟩
  rw [Store.arms_unknown (by simp [hrecords])]
  exact List.nodup_nil

theorem walkAll_tallies (hs : s.Audited faults) :
    Ensures (walkAll w) s (fun _ t => ∃ log, t.store.Tallied log ∧
      ∀ (i : Nat) (r : Record), t.store.records[i]? = some r → r.state ≠ .opened)
      fun _ _ => True := by
  refine ensures_bind.mpr ((Session.reckons_forM _ (fun _ _ => Session.visitFile_reckons) hs).mono
    (fun _ t ht => ?_) fun _ _ _ => trivial)
  obtain ⟨ht, -⟩ := ht
  obtain ⟨log, hlog, -⟩ := ht.audited.logs
  have hstore := ht.audited.sound.store
  refine ensures_bind.mpr (ensures_onPart.mpr (((Store.projectProcessed_does hstore).and
    (Store.projectProcessed_conserves hlog.conserves)).mono (fun _ u hu => ?_)
      fun _ _ _ => trivial))
  obtain ⟨⟨source, ids, -, hadds, -⟩, hconserves, hshut⟩ := hu
  have hsound := (Session.leads_store ht.audited.sound hadds.leads).sound
  refine ensures_bind.mpr ((flush_ensures hsound.store.graph.isMemory).mono (fun _ v hv => ?_)
    fun _ _ _ => trivial)
  refine ensures_bind.mpr (ensures_get.mpr (ensures_pure.mpr ?_))
  rw [hv]
  exact ⟨log, hlog.settle hstore hadds.leads.grows hadds.size hconserves, hshut⟩

/-- **At the end of a run a log accounts for what was received**, and no record is open. -/
theorem Ended.tallied (h : Ended w faults s) : ∃ log, s.store.Tallied log ∧
    ∀ (i : Nat) (r : Record), s.store.records[i]? = some r → r.state ≠ .opened := by
  unfold Ended last? at h
  split at h
  · cases h
  · rename_i first graph hstart
    split at h
    · cases h
    · rename_i summary s' hwalk
      cases h
      exact (walkAll_tallies (start_audited.of_ok hstart)).of_ok hwalk

/-! ### What is listed -/

/-- What an item edge lists is all that some record received for a file under its heading. -/
theorem Ended.exists_received (h : Ended w faults s) {log : List Receipt}
    (hlog : s.store.Tallied log)
    (hshut : ∀ (i : Nat) (r : Record), s.store.records[i]? = some r → r.state ≠ .opened)
    {n source document : ElementId} {targets : List ElementId} {heading : Option ItemProperty}
    (hitem : Element.edge n (.item source targets document heading) ∈ s.graph.elements) :
    ∃ (id : RecordId) (r : Record) (v : VertexRef) (file : FileId),
      s.store.records[id.index]? = some r ∧ r.resultOf heading = some v ∧ v.id = source ∧
        targets = received log id file heading := by
  have hsound := h.settled.sound
  obtain ⟨i, r, v, hr, hv, rfl⟩ := h.attributed.exists_result hsound hitem
  obtain ⟨file, hfile⟩ := hlog.conserves.filing.documentOf_of_delivered
    (hsound.graph.refersTo hitem).1
  refine ⟨⟨i⟩, r, v, file, hr, hv, rfl, ?_⟩
  -- Every record is shut, so all that it received has been listed, in one batch for each heading.
  have hlisted : s.store.listed ⟨i⟩ document heading = batch (received log ⟨i⟩ file heading) :=
    hlog.conserves.listed_eq hshut hfile heading
  have hitems : s.store.listed ⟨i⟩ document heading
      = itemsIn s.graph.elements v.id document heading := by
    unfold Store.listed
    rw [hr]
    exact Ledger.listed_of_some (l := ⟨r, s.graph⟩) hv document
  have hmem : targets ∈ s.store.listed ⟨i⟩ document heading := by
    rw [hitems]
    exact mem_itemsIn.mpr ⟨n, hitem⟩
  rw [hlisted] at hmem
  unfold batch at hmem
  split at hmem
  · cases hmem
  · exact List.mem_singleton.mp hmem

/-- **How often the item edges of a run list an id.**  A definition result lists no id twice.  A
reference result lists a range, in whatever role, as often as there are routes from the record that
the range leads to, to the record of the result; and the reference result of another record as often
as there are routes from the methods that this overrides, and once if this is one of the properties
behind the record of the result. -/
theorem Ended.lists_by_routes (h : Ended w faults s) {n source document : ElementId}
    {targets : List ElementId} {heading : Option ItemProperty}
    (hitem : Element.edge n (.item source targets document heading) ∈ s.graph.elements) :
    (heading = none → targets.Nodup) ∧
    (∀ role : ReferenceRole, heading = some role.property →
      ∃ id v, s.store.citing? id = some v ∧ v.id = source ∧ ∀ x ∈ targets, ∃ a hub,
        s.store.hub? a = some hub ∧ Linked s.graph.elements .next x hub.id ∧
          targets.count x = (s.store.keepers (.range x) a).count id) ∧
    (heading = some .referenceResults →
      ∃ id v, s.store.citing? id = some v ∧ v.id = source ∧ ∀ x ∈ targets, ∃ b u,
        s.store.citing? b = some u ∧ u.id = x ∧ targets.count x =
          (s.store.overridden b x).count id + if b ∈ s.store.arms id then 1 else 0) := by
  obtain ⟨log, hlog, hshut⟩ := h.tallied
  obtain ⟨id, r, v, file, hr, hv, hsource, htargets⟩ := h.exists_received hlog hshut hitem
  -- The list is what the record received, in order, so an id stands in it as often as the log owes
  -- it.
  have howes (x : ElementId) (hx : x ∈ targets) :
      s.store.Owes ⟨id, file, heading, x⟩ (targets.count x) := by
    have hcount : targets.count x = log.count ⟨id, file, heading, x⟩ := by
      rw [htargets]
      exact count_received log ⟨id, file, heading, x⟩
    rw [hcount]
    refine hlog.owes _ (List.count_pos_iff.mp ?_)
    rw [← hcount]
    exact List.count_pos_iff.mpr hx
  have hciting (property : ItemProperty) (hheading : heading = some property) :
      s.store.citing? id = some v := by
    subst hheading
    exact Option.bind_eq_some_iff.mpr ⟨r, hr, hv⟩
  refine ⟨?_, ?_, ?_⟩
  · rintro rfl
    refine List.nodup_iff_count_le_one.mpr fun x => ?_
    by_cases hx : x ∈ targets
    · exact Nat.le_of_eq (howes x hx).of_definition
    · rw [List.count_eq_zero.mpr hx]
      exact Nat.zero_le _
  · intro role hheading
    refine ⟨id, v, hciting _ hheading, hsource, fun x hx => ?_⟩
    exact (hheading ▸ howes x hx).of_role
  · intro hheading
    refine ⟨id, v, hciting _ hheading, hsource, fun x hx => ?_⟩
    obtain ⟨b, u, hu, hid, hcount⟩ := (hheading ▸ howes x hx : s.store.Owes
      ⟨id, file, some .referenceResults, x⟩ _).of_results
    refine ⟨b, u, hu, hid, ?_⟩
    rw [hcount, (hlog.distinct id).count]

/-! ### A diamond -/

/-- An interface with a method, two that extend it, and one that extends both and overrides the
method. -/
def diamond : Setting :=
  .ofOptions (match Program.ofSteps
      [.file ⟨"/p/a.ts"⟩ ("interface A { m() } interface B extends A {} interface C extends A {} " ++
        "interface D extends B, C { m() }"),
       .declaration ⟨0⟩ .interfaceDeclaration "interface A { m() }" "A",
       .declaration ⟨1⟩ .methodSignature "m()" "m",
       .declaration ⟨0⟩ .interfaceDeclaration "interface B extends A {}" "B",
       .declaration ⟨0⟩ .interfaceDeclaration "interface C extends A {}" "C",
       .declaration ⟨0⟩ .interfaceDeclaration "interface D extends B, C { m() }" "D",
       .declaration ⟨9⟩ .methodSignature "m()" "m",
       .symbol "A" .ofInterface, .symbol "m" .method, .symbol "B" .ofInterface,
       .symbol "C" .ofInterface, .symbol "D" .ofInterface, .symbol "m" .method,
       .declare ⟨0⟩ ⟨1⟩, .declare ⟨1⟩ ⟨3⟩, .member ⟨0⟩ ⟨1⟩, .declare ⟨2⟩ ⟨5⟩, .declare ⟨3⟩ ⟨7⟩,
       .declare ⟨4⟩ ⟨9⟩, .declare ⟨5⟩ ⟨11⟩, .member ⟨4⟩ ⟨5⟩,
       .objectType (some ⟨0⟩), .objectType (some ⟨2⟩), .objectType (some ⟨3⟩),
       .objectType (some ⟨4⟩), .declaredType ⟨2⟩ ⟨1⟩, .declaredType ⟨3⟩ ⟨2⟩, .declaredType ⟨4⟩ ⟨3⟩,
       .baseType ⟨1⟩ ⟨0⟩, .baseType ⟨2⟩ ⟨0⟩, .baseType ⟨3⟩ ⟨1⟩, .baseType ⟨3⟩ ⟨2⟩] with
    | .ok p    => p
    | .error _ => .empty)
    { projectRoot := ⟨"/p"⟩, hover := false, monikers := false, documentSymbols := false }

/-- The run over it ends well.  The last method overrides the first one along two ways, which lists
the definition of the last one twice. -/
theorem diamond_ended : ∃ s n, Ended diamond (fun _ => none) s ∧
    s.store.kind? ⟨5⟩ = some (.method [⟨1⟩, ⟨1⟩] ⟨0⟩) ∧
    Element.edge n (.item ⟨33⟩ [⟨8⟩, ⟨22⟩, ⟨22⟩] ⟨3⟩ (some .definitions)) ∈ s.graph.elements := by
  have hrun : (last? diamond fun _ => none).any (fun s =>
      s.store.kind? ⟨5⟩ = some (.method [⟨1⟩, ⟨1⟩] ⟨0⟩) ∧
      itemsIn s.graph.elements ⟨33⟩ ⟨3⟩ (some .definitions) = [[⟨8⟩, ⟨22⟩, ⟨22⟩]]) = true := by
    decide +kernel
  obtain ⟨s, hs, hfacts⟩ := (Option.any_eq_true _ _).mp hrun
  obtain ⟨hkind, hitems⟩ := of_decide_eq_true hfacts
  obtain ⟨n, hn⟩ := mem_itemsIn.mp (hitems ▸ List.mem_singleton_self _)
  exact ⟨s, n, hs, hkind, hn⟩

/-- There are two routes to the first method from the record that the definition of the last one leads
to. -/
theorem diamond_routes : ∃ s id a v hub, Ended diamond (fun _ => none) s ∧
    s.store.citing? id = some v ∧ v.id = ⟨33⟩ ∧ s.store.hub? a = some hub ∧
    Linked s.graph.elements .next ⟨22⟩ hub.id ∧ (s.store.keepers (.range ⟨22⟩) a).count id = 2 := by
  obtain ⟨s, n, hs, -, hitem⟩ := diamond_ended
  obtain ⟨-, hroles, -⟩ := Ended.lists_by_routes hs hitem
  obtain ⟨id, v, hv, hsource, hcounts⟩ := hroles .definitions rfl
  obtain ⟨a, hub, hhub, hnext, hcount⟩ := hcounts ⟨22⟩ (by decide)
  exact ⟨s, id, a, v, hub, hs, hv, hsource, hhub, hnext, hcount.symm⟩

/-- So an item edge may list an id twice. -/
theorem not_forall_items_nodup : ¬ ∀ (w : Setting) (faults : Nat → Option SinkFault)
    (summary : Summary) (g : Graph) (n source document : ElementId) (targets : List ElementId)
    (heading : Option ItemProperty), index w (.memory faults 0 #[]) = (.ok summary, g) →
      Element.edge n (.item source targets document heading) ∈ g.elements → targets.Nodup := by
  intro hall
  obtain ⟨s, n, hs, -, hitem⟩ := diamond_ended
  obtain ⟨summary, hindex⟩ := exists_ended_iff.mp ⟨s, hs, rfl⟩
  have htwice := hall _ _ _ _ _ _ _ _ _ hindex hitem
  exact absurd htwice (by decide)

end Run

end SymbolGraph
