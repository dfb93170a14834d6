import SymbolGraph.Proofs.Store.Changes

/-!
# Proofs — Store — documents and the project

A document is made when its file is first touched and has its ranges from then on; ending it turns
them into an edge, so that nothing is lost.

* `Store.document_does`: making a document posts nothing.
* `Store.addRange_does`: adding a range posts that the document has it.
* `Store.endDocument_does`: ending a document keeps its ranges on the books.
* `Store.finishProject_does`: ending the project posts which documents it contains.
-/

namespace SymbolGraph.Store

open SymbolGraph.Action

variable {faults : Nat → Option SinkFault} {s t : Store} {w : Setting} {file : FileId}

/-- A change around the records leaves open records open. -/
theorem stable_of_records (hr : t.records = s.records)
    (hd : ∀ file document, s.documents.get? file = some (.live document) →
      t.documents.get? file = some (.live document)) : s.Stable t := by
  refine ⟨hd, fun id hid => ?_⟩
  unfold IsOpen
  rw [hr]
  exact hid

/-- The containment of a document or the project, as facts. -/
def containment (source : ElementId) (ids : List ElementId) : Set Fact :=
  { fact | ∃ id ∈ ids, fact = .contained source id }

theorem containment_nil (source : ElementId) : containment source [] = ∅ := by
  refine Set.eq_empty_iff_forall_notMem.mpr ?_
  rintro fact ⟨id, hid, -⟩
  cases hid

theorem containment_singleton (source id : ElementId) :
    containment source [id] = {.contained source id} := by
  ext fact
  simp [containment]

/-! ### The document of one file -/

/-- The document of a slot, if it is live, has this id and a range. -/
def RangeIn (slot : Option (Slot Document)) (source range : ElementId) : Prop :=
  ∃ document, slot = some (.live document) ∧ document.vertex.id = source ∧
    range ∈ document.ranges

theorem rangeIn_live {document : Document} {source range : ElementId} :
    RangeIn (some (.live document)) source range ↔
      document.vertex.id = source ∧ range ∈ document.ranges := by
  simp [RangeIn]

/-- The ranges of live documents are those of the document of a file and those of the others. -/
theorem hasRange_iff (file : FileId) (source range : ElementId) : s.HasRange source range ↔
    RangeIn (s.documents.get? file) source range ∨
      ∃ file' ≠ file, RangeIn (s.documents.get? file') source range := by
  constructor
  · rintro ⟨file', known, hknown, hrest⟩
    by_cases hfile : file' = file
    · subst hfile
      exact .inl ⟨known, hknown, hrest⟩
    · exact .inr ⟨file', hfile, known, hknown, hrest⟩
  · rintro (⟨known, hknown, hrest⟩ | ⟨file', -, known, hknown, hrest⟩)
    · exact ⟨file, known, hknown, hrest⟩
    · exact ⟨file', known, hknown, hrest⟩

theorem hasRange_insert {slot : Slot Document}
    (ht : t.documents = s.documents.insert file slot) (source range : ElementId) :
    t.HasRange source range ↔ RangeIn (some slot) source range ∨
      ∃ file' ≠ file, RangeIn (s.documents.get? file') source range := by
  rw [hasRange_iff file, ht, Table.get?_insert, if_pos rfl]
  refine or_congr_right (exists_congr fun file' => and_congr_right fun hfile => ?_)
  rw [Table.get?_insert, if_neg hfile]

/-- Putting something in the place of the document of a file, and delivering something.  A live
document takes the place of one with its id, if of any. -/
theorem around_slot {g : Graph} {project : Project} {slot : Slot Document} {written : List Element}
    (hg : g.Sound faults) (he : g.elements = s.elements ++ written) (hw : Plain written)
    (hproject : project.vertex = s.project.vertex)
    (hlisted : ∀ id ∈ project.documents, id ∈ s.project.documents ∨
      Delivered g.elements .document id)
    (hlive : ∀ document, slot = .live document → document.Sound g.elements ∧
      ∀ old, s.documents.get? file = some old →
        ∃ known, old = .live known ∧ document.vertex.id = known.vertex.id) :
    s.Around faults { s with graph := g, project, documents := s.documents.insert file slot }
      written where
  graph := hg
  elements := he
  neutral := hw.toNeutral
  falls := hw.falls
  records := rfl
  project := hproject
  listed := hlisted
  documents file' other hother := by
    change (s.documents.insert file slot).get? file' = _ at hother
    rw [Table.get?_insert] at hother
    split at hother
    · exact .inr (hlive other (Option.some.inj hother)).1
    · exact .inl hother
  slots file' old hold := by
    show ∃ slot', (s.documents.insert file slot).get? file' = some slot' ∧ _
    rw [Table.get?_insert]
    split
    · rename_i hfile
      subst hfile
      exact ⟨slot, rfl, fun other hother => (hlive other hother).2 old hold⟩
    · exact ⟨old, hold, fun other hother => ⟨other, hother, rfl⟩⟩
  cached _ _ hid := .inl hid

/-! ### Making and filling a document -/

/-- The first document of a file, without ranges. -/
theorem newDocument_posts {document : Document} {id : ElementId} (hs : s.Sound faults)
    (hnone : s.documents.get? file = none) (hd : document.Sound s.elements)
    (hid : document.vertex.id = id) (hranges : document.ranges = []) :
    s.Posts faults { s with project := s.project.addDocument id
                            documents := s.documents.insert file (.live document) } ∅ := by
  have haround : s.Around faults { s with project := s.project.addDocument id
                                          documents := s.documents.insert file (.live document) }
      [] := by
    refine around_slot hs.graph (List.append_nil _).symm plain_nil rfl (fun x hx => ?_) ?_
    · rcases List.mem_append.mp hx with hx | hx
      · exact .inl hx
      · rw [List.mem_singleton.mp hx, ← hid]
        exact .inr hd.vertex.2
    · rintro _ ⟨⟩
      refine ⟨hd, fun old hold => ?_⟩
      rw [hnone] at hold
      cases hold
  refine (haround.adds hs (fun source range => ?_) fun fact _ => ?_).posts (lasting_of_records rfl)
  · rw [Set.mem_empty_iff_false, or_false]
    refine or_congr_left ?_
    rw [hasRange_insert rfl, hasRange_iff file, hnone, rangeIn_live, hranges]
    simp [RangeIn]
  · rw [said_nil]

/-- **Making a document** posts nothing and leaves the other documents alone. -/
theorem document_does (hs : s.Sound faults) :
    Does faults (document w file) s fun document t => s.Posts faults t ∅ ∧
      t.documents.get? file = some (.live document) ∧ t.records = s.records ∧ s.Stable t := by
  unfold document
  refine ensures_bind.mpr (ensures_get.mpr ?_)
  split
  · rename_i document hlive
    exact does_pure ⟨.refl hs, hlive, rfl, .refl s⟩
  · exact does_throw hs fun _ h => by cases h
  · rename_i hnone
    dsimp only
    refine (vertex_does hs _).bind ?_
    rintro vertex _ ⟨g, rfl, hlabel, hposts, helements, -⟩
    refine ⟨hposts.leads, ensures_bind.mpr (ensures_modify.mpr (ensures_pure.mpr ?_))⟩
    have hdelivered : Delivered g.elements .document vertex.id := by
      rw [show g.elements = _ from helements]
      exact ⟨_, rfl, List.mem_append_right _ (List.mem_singleton_self _)⟩
    rw [said_vertex (by simp [Vertex.label])] at hposts
    refine ⟨hposts.trans_left (newDocument_posts hposts.sound hnone
      ⟨⟨hlabel, hdelivered⟩, by simp, by simp, by simp [SymbolTree.idsOf]⟩ rfl rfl), ?_, rfl,
      stable_of_records rfl fun file' known hknown => ?_⟩
    · rw [Table.get?_insert, if_pos rfl]
    · have hne : file' ≠ file := by
        rintro rfl
        rw [hnone] at hknown
        cases hknown
      rw [Table.get?_insert, if_neg hne]
      exact hknown

/-- Putting a document with more ranges in the place of the one of its file. -/
theorem putDocument_posts {known document : Document} (hs : s.Sound faults)
    (hknown : s.documents.get? file = some (.live known)) (hd : document.Sound s.elements)
    (hvertex : document.vertex = known.vertex) {more : List ElementId}
    (hranges : document.ranges = known.ranges ++ more) :
    s.Posts faults { s with documents := s.documents.insert file (.live document) }
      (containment known.vertex.id more) := by
  have haround : s.Around faults
      { s with documents := s.documents.insert file (.live document) } [] := by
    refine around_slot hs.graph (List.append_nil _).symm plain_nil rfl (fun _ hid => .inl hid) ?_
    rintro _ ⟨⟩
    refine ⟨hd, fun old hold => ?_⟩
    cases hknown.symm.trans hold
    exact ⟨known, rfl, by rw [hvertex]⟩
  refine (haround.adds hs (fun source range => ?_) fun fact hfact => ?_).posts
    (lasting_of_records rfl)
  · have hmore : RangeIn (some (.live document)) source range ↔
        RangeIn (some (.live known)) source range ∨
          .contained source range ∈ containment known.vertex.id more := by
      rw [rangeIn_live, rangeIn_live, hvertex, hranges, List.mem_append, and_or_left]
      simp [containment, eq_comm, and_comm]
    -- The ranges of the other documents and the edges are the same on both sides.
    refine (or_congr_left ?_).trans or_right_comm
    rw [hasRange_insert rfl, hasRange_iff file, hknown, hmore]
    exact or_right_comm
  · rw [said_nil]
    refine iff_of_false ?_ (Set.notMem_empty _)
    rintro ⟨range, -, heq⟩
    exact hfact _ _ heq

/-- **Adding a range** posts that the document of the file has it. -/
theorem addRange_does (hs : s.Sound faults) {range : ElementId}
    (hrange : Delivered s.elements .range range) :
    Does faults (addRange w file range) s fun _ t => ∃ document,
      t.documents.get? file = some (.live document) ∧
      s.Posts faults t {.contained document.vertex.id range} ∧ t.records = s.records := by
  unfold addRange putDocument
  refine (document_does hs).bind ?_
  rintro known t ⟨hposts, hknown, hrecords, -⟩
  refine ⟨hposts.leads, ensures_modify.mpr ⟨known.addRange range, ?_, ?_, hrecords⟩⟩
  · rw [Table.get?_insert, if_pos rfl]
  · have hd := hposts.sound.documents file known hknown
    have hd' : (known.addRange range).Sound t.elements := by
      refine { hd with ranges := fun id hid => ?_ }
      rcases List.mem_append.mp hid with hid | hid
      · exact hd.ranges id hid
      · rw [List.mem_singleton.mp hid]
        exact hrange.mono hposts.grows.elements
    exact (hposts.trans_left (putDocument_posts hposts.sound hknown hd' rfl rfl)).congr
      (containment_singleton _ _)

/-! ### Containers -/

theorem beginContainer_does (hs : s.Sound faults) {range : ElementId}
    (hrange : Delivered s.elements .range range) :
    Does faults (beginContainer w file range) s fun _ t => s.Posts faults t ∅ := by
  unfold beginContainer putDocument
  refine (document_does hs).bind ?_
  rintro known t ⟨hposts, hknown, -, -⟩
  have hd := hposts.sound.documents file known hknown
  have hd' : (known.beginContainer range).Sound t.elements := by
    refine { hd with containers := fun container hmem => ?_ }
    rcases List.mem_cons.mp hmem with rfl | hmem
    · exact ⟨hrange.mono hposts.grows.elements, nofun⟩
    · exact hd.containers container hmem
  exact ⟨hposts.leads, ensures_modify.mpr ((hposts.trans_left
    (putDocument_posts hposts.sound hknown hd' rfl (List.append_nil _).symm)).congr
      (containment_nil _))⟩

/-- A document with its innermost container closed holds what it held. -/
theorem endContainer_sound {elements : List Element} {known document : Document}
    (hd : known.Sound elements) (h : known.endContainer = .ok document) :
    document.Sound elements ∧ document.vertex = known.vertex ∧ document.ranges = known.ranges := by
  unfold Document.endContainer at h
  split at h
  · cases h
  · rename_i only honly
    cases h
    have hone := hd.containers only (honly ▸ List.mem_cons_self)
    -- The last container closes into the document's own symbols, an inner one into the container
    -- around it.
    refine ⟨{ hd with containers := nofun, symbols := fun id hid => ?_ }, rfl, rfl⟩
    rw [SymbolTree.idsOf_append, List.mem_append] at hid
    rcases hid with hid | hid
    · exact hd.symbols id hid
    · simp only [SymbolTree.idsOf, SymbolTree.ids, List.append_nil, List.mem_cons] at hid
      rcases hid with rfl | hid
      · exact hone.1
      · exact hone.2 id hid
  · rename_i inner outer others hstack
    cases h
    have hinner := hd.containers inner (by rw [hstack]; exact List.mem_cons_self)
    have houter := hd.containers outer
      (by rw [hstack]; exact List.mem_cons_of_mem _ List.mem_cons_self)
    refine ⟨{ hd with containers := fun container hmem => ?_ }, rfl, rfl⟩
    rcases List.mem_cons.mp hmem with rfl | hmem
    · refine ⟨houter.1, fun id hid => ?_⟩
      rw [SymbolTree.idsOf_append, List.mem_append] at hid
      rcases hid with hid | hid
      · exact houter.2 id hid
      · simp only [SymbolTree.idsOf, SymbolTree.ids, List.append_nil, List.mem_cons] at hid
        rcases hid with rfl | hid
        · exact hinner.1
        · exact hinner.2 id hid
    · refine hd.containers container ?_
      rw [hstack]
      exact List.mem_cons_of_mem _ (List.mem_cons_of_mem _ hmem)

theorem endContainer_does (hs : s.Sound faults) :
    Does faults (endContainer w file) s fun _ t => s.Posts faults t ∅ := by
  unfold endContainer putDocument
  refine (document_does hs).bind ?_
  rintro known t ⟨hposts, hknown, -, -⟩
  refine ⟨hposts.leads, ?_⟩
  cases hend : known.endContainer with
  | error fault =>
      refine ensures_bind.mpr (ensures_ofExcept_error.mpr ⟨.refl hposts.sound, ?_⟩)
      unfold Document.endContainer at hend
      split at hend
      · cases hend
        exact fun _ => nofun
      · cases hend
      · cases hend
  | ok document =>
      obtain ⟨hd', hvertex, hranges⟩ :=
        endContainer_sound (hposts.sound.documents file known hknown) hend
      exact ensures_bind.mpr (ensures_ofExcept_ok.mpr (ensures_modify.mpr
        ((hposts.trans_left (putDocument_posts hposts.sound hknown hd' hvertex
          (hranges.trans (List.append_nil _).symm))).congr (containment_nil _))))

/-! ### The end of a document -/

/-- Plain elements were delivered. -/
def Extends (faults : Nat → Option SinkFault) (g g' : Graph) : Prop :=
  g'.Sound faults ∧ ∃ written, g'.elements = g.elements ++ written ∧ Plain written

theorem Plain.append {written more : List Element} (h : Plain written) (h' : Plain more) :
    Plain (written ++ more) where
  linked kind source target hl := by
    rw [linked_append] at hl
    exact hl.elim (h.linked kind source target) (h'.linked kind source target)
  listed source property document id hl := by
    rw [listed_append] at hl
    exact hl.elim (h.listed source property document id) (h'.listed source property document id)
  rests source target hl := by
    rw [linked_append] at hl
    exact hl.elim (h.rests source target) (h'.rests source target)

instance : IsTrans Graph (Extends faults) := by
  refine ⟨?_⟩
  rintro g g' g'' ⟨-, written, he, hw⟩ ⟨hg, more, he', hw'⟩
  refine ⟨hg, written ++ more, ?_, hw.append hw'⟩
  rw [he', he, List.append_assoc]

theorem said_contains {n source : ElementId} {targets : List ElementId} :
    said [.edge n (.contains source targets)] = containment source targets := by
  ext fact
  cases fact with
  | contained document range =>
      refine ⟨?_, ?_⟩
      · rintro ⟨m, ids, hmem, hid⟩
        cases List.mem_singleton.mp hmem
        exact ⟨range, hid, rfl⟩
      · rintro ⟨id, hid, heq⟩
        cases heq
        exact ⟨n, targets, List.mem_singleton_self _, hid⟩
  | tagged range tag =>
      refine ⟨?_, fun ⟨_, _, heq⟩ => nomatch heq⟩
      rintro ⟨span, hmem⟩
      cases List.mem_singleton.mp hmem
  | next source' target' =>
      refine ⟨?_, fun ⟨_, _, heq⟩ => nomatch heq⟩
      rintro ⟨m, hmem⟩
      cases List.mem_singleton.mp hmem
  | cited id property document x => exact ⟨nofun, fun ⟨_, _, heq⟩ => nomatch heq⟩
  | defined id document x => exact ⟨nofun, fun ⟨_, _, heq⟩ => nomatch heq⟩

theorem plain_contains {n source : ElementId} {targets : List ElementId} :
    Plain [.edge n (.contains source targets)] :=
  ⟨⟨fun _ _ _ => by simp [Linked], fun _ _ _ _ => by simp [Listed]⟩, fun _ _ => by simp [Linked]⟩

/-- An action on a graph that delivers plain elements, and what they say if it ends well. -/
abbrev Emits {α : Type} (faults : Nat → Option SinkFault) (act : Emission α) (g : Graph)
    (facts : Set Fact) : Prop :=
  Action.Does (Extends faults) Fault.IsPlain act g fun _ g' => g'.Sound faults ∧
    ∃ written, g'.elements = g.elements ++ written ∧ Plain written ∧ said written = facts

theorem refused_extends {g g' : Graph} {fault : Fault} (h : g.Refused faults fault g') :
    Extends faults g g' ∧ fault.IsPlain := by
  obtain ⟨hg, he, reason, rfl⟩ := h
  exact ⟨⟨hg, [], he.trans (List.append_nil _).symm, plain_nil⟩, fun key => nofun⟩

theorem emits_contains {g : Graph} (hg : g.Sound faults) {source : VertexRef}
    {targets : List ElementId} (hlabel : source.label = .project ∨ source.label = .document)
    (hrefers : (Edge.contains source.id targets).RefersTo g.elements) :
    Emits faults (Graph.contains source targets) g (containment source.id targets) := by
  have hedge : Graph.contains source targets = Graph.edge (.contains source.id targets) := by
    unfold Graph.contains Edge.containing
    rcases hlabel with hlabel | hlabel <;> rw [hlabel]
  rw [hedge]
  refine (Graph.edge_ensures hg hrefers).mono ?_ fun _ _ h => refused_extends h
  rintro n g' ⟨hg', he, -⟩
  exact ⟨hg', _, he, plain_contains, said_contains⟩

/-- The symbols of a document, if asked for, say nothing by themselves. -/
theorem emits_emitSymbols {g : Graph} {document : Document} (hg : g.Sound faults)
    (hd : document.Sound g.elements) (asked : Bool) :
    Emits faults (document.emitSymbols asked) g ∅ := by
  unfold Document.emitSymbols
  split
  · refine ensures_bind.mpr ((Graph.vertex_ensures hg _).mono ?_ fun _ _ h => refused_extends h)
    rintro result g₁ ⟨⟨hg₁, he₁, -⟩, -⟩
    have hw₁ : Plain [.vertex result.id (.documentSymbolResult document.symbols)] := plain_vertex
    have hpre : g.elements <+: g₁.elements := by
      rw [he₁]
      exact List.prefix_append _ _
    have hrefers : (Edge.link .documentSymbol document.vertex.id result.id).RefersTo
        g₁.elements := by
      refine ⟨hd.vertex.2.mono hpre, document.symbols, ?_,
        fun id hid => (hd.symbols id hid).mono hpre⟩
      rw [he₁]
      exact List.mem_append_right _ (List.mem_singleton_self _)
    refine ensures_discard.mpr ((Graph.edge_ensures hg₁ hrefers).mono ?_ fun _ _ h => ?_)
    · rintro n g₂ ⟨hg₂, he₂, -⟩
      refine ⟨hg₂, [.vertex result.id (.documentSymbolResult document.symbols)] ++
        [.edge n (.link .documentSymbol document.vertex.id result.id)], ?_, hw₁.append ?_, ?_⟩
      · rw [he₂, he₁, List.append_assoc]
      · refine ⟨⟨fun kind source target hl => ?_, fun _ _ _ _ => by simp [Listed]⟩,
          fun _ _ => by simp [Linked]⟩
        obtain ⟨rfl, -⟩ := Ledger.linked_singleton.mp hl
        simp
      · rw [said_append, said_vertex (by simp [Vertex.label]), said_link, Set.empty_union]
        exact Set.eq_empty_iff_forall_notMem.mpr fun fact hfact => by cases hfact.1
    · obtain ⟨hext, hplain⟩ := refused_extends h
      exact ⟨IsTrans.trans _ _ _ ⟨hg₁, _, he₁, hw₁⟩ hext, hplain⟩
  · exact ensures_pure.mpr ⟨hg, [], (List.append_nil _).symm, plain_nil, said_nil⟩

theorem emits_emitRanges {g : Graph} {document : Document} (hg : g.Sound faults)
    (hd : document.Sound g.elements) :
    Emits faults document.emitRanges g (containment document.vertex.id document.ranges) := by
  unfold Document.emitRanges
  split
  · rename_i hempty
    rw [List.isEmpty_iff.mp hempty, containment_nil]
    exact ensures_pure.mpr ⟨hg, [], (List.append_nil _).symm, plain_nil, said_nil⟩
  · exact (emits_contains hg (.inr hd.vertex.1) (.inr ⟨hd.vertex.2, hd.ranges⟩)).discard

/-- What ending a document delivers says that it contains its ranges, and nothing else. -/
theorem finish_emits {g : Graph} {document : Document} (hg : g.Sound faults)
    (hd : document.Sound g.elements) (asked : Bool) :
    Emits faults (document.finish asked) g
      (containment document.vertex.id document.ranges) := by
  unfold Document.finish
  dsimp only
  split
  · refine (emits_emitRanges hg hd).bind ?_
    rintro _ g₁ ⟨hg₁, written, he, hw, hsaid⟩
    refine ⟨⟨hg₁, written, he, hw⟩, (emits_emitSymbols hg₁ (hd.mono ?_) asked).mono ?_⟩
    · rw [he]
      exact List.prefix_append _ _
    · rintro _ g₂ ⟨hg₂, more, he₂, hw₂, hsaid₂⟩
      refine ⟨hg₂, written ++ more, ?_, hw.append hw₂, ?_⟩
      · rw [he₂, he, List.append_assoc]
      · rw [said_append, hsaid, hsaid₂, Set.union_empty]
  · refine ensures_bind.mpr (ensures_throw.mpr ⟨⟨hg, [], (List.append_nil _).symm, plain_nil⟩, ?_⟩)
    intro _ h
    cases h

/-- Clearing a document and delivering something. -/
theorem around_cleared (file : FileId) {g : Graph} (hg : g.Sound faults) {written : List Element}
    (he : g.elements = s.elements ++ written) (hw : Plain written) :
    s.Around faults { s with graph := g, documents := s.documents.insert file .cleared } written :=
  around_slot hg he hw rfl (fun _ hid => .inl hid) fun _ hlive => by cases hlive

/-- The ranges of live documents are those of one document and those of the others. -/
theorem hasRange_clear {known : Document} (hknown : s.documents.get? file = some (.live known))
    (source range : ElementId) :
    s.HasRange source range ↔
      ({ s with documents := s.documents.insert file .cleared } : Store).HasRange source range ∨
        known.vertex.id = source ∧ range ∈ known.ranges := by
  rw [hasRange_iff file, hknown, rangeIn_live, hasRange_insert rfl, or_comm]
  simp [RangeIn]

/-- **Ending a document keeps the books**: what it contains is said by an edge from then on. -/
theorem endDocument_does (hs : s.Sound faults) :
    Does faults (endDocument w file) s fun _ t => s.Adds faults t ∅ ∧ t.records = s.records ∧
      ∀ file' document, t.documents.get? file' = some (.live document) →
        file' ≠ file ∧ s.documents.get? file' = some (.live document) := by
  unfold endDocument
  refine ensures_bind.mpr (ensures_get.mpr ?_)
  split
  · rename_i hnone
    refine does_pure ⟨.refl hs, rfl, fun file' document hd => ⟨?_, hd⟩⟩
    rintro rfl
    rw [hnone] at hd
    cases hd
  · exact does_throw hs fun _ h => by cases h
  · rename_i known hknown
    refine ensures_bind.mpr (ensures_modify.mpr (ensures_onPart.mpr (Ensures.mono
      (finish_emits hs.graph (hs.documents file known hknown) w.documentSymbols) ?_ ?_)))
    · rintro _ g ⟨hg, written, he, hw, hsaid⟩
      have haround := around_cleared file hg he hw
      refine ⟨haround.adds hs (fun source range => ?_) fun fact hfact => ?_, rfl, ?_⟩
      · -- What the document had is now what the edge says.
        have hwritten : Contained written source range ↔
            known.vertex.id = source ∧ range ∈ known.ranges := by
          show Fact.contained source range ∈ said written ↔ _
          rw [hsaid]
          constructor
          · rintro ⟨id, hid, heq⟩
            cases heq
            exact ⟨rfl, hid⟩
          · rintro ⟨rfl, hrange⟩
            exact ⟨range, hrange, rfl⟩
        show _ ∨ Contained g.elements source range ↔
          (s.HasRange source range ∨ Contained s.elements source range) ∨ False
        rw [or_false, he, contained_append, hwritten, hasRange_clear hknown, or_right_comm,
          or_assoc]
        rfl
      · rw [hsaid]
        refine iff_of_false (Set.notMem_empty _) ?_
        rintro ⟨id, -, heq⟩
        exact hfact _ _ heq
      · intro file' document hd
        change (s.documents.insert file .cleared).get? file' = _ at hd
        rw [Table.get?_insert] at hd
        split at hd
        · cases hd
        · rename_i hne
          exact ⟨hne, hd⟩
    · rintro fault g ⟨⟨hg, written, he, hw⟩, hplain⟩
      exact ⟨(around_cleared file hg he hw).leads hs, hplain⟩

/-! ### The end of the project -/

/-- The project without documents to tell of, over a graph with more plain elements. -/
theorem around_told {g : Graph} (hg : g.Sound faults) {written : List Element}
    (he : g.elements = s.elements ++ written) (hw : Plain written) :
    s.Around faults { s with project := { s.project with documents := [] }, graph := g }
      written where
  graph := hg
  elements := he
  neutral := hw.toNeutral
  falls := hw.falls
  records := rfl
  project := rfl
  listed _ hid := nomatch hid
  documents _ _ hd := .inl hd
  slots _ slot hslot := ⟨slot, hslot, fun document hlive => ⟨document, hlive, rfl⟩⟩
  cached _ _ hid := .inl hid

/-- **Ending the project** posts which documents it contains. -/
theorem finishProject_does (hs : s.Sound faults) :
    Does faults (Action.onPart
      (fun s => { project := s.project, graph := s.graph : Project.Ledger })
      (fun ledger s => { s with project := ledger.project, graph := ledger.graph })
      Project.finish) s fun _ t => t.records = s.records ∧ t.documents = s.documents ∧
        s.Adds faults t (containment s.project.vertex.id s.project.documents) := by
  refine ensures_onPart.mpr ?_
  unfold Ensures Project.finish
  dsimp only
  split
  · rename_i heq
    split at heq
    · rename_i hempty
      cases heq
      refine ⟨rfl, rfl, ?_⟩
      rw [List.isEmpty_iff.mp hempty, containment_nil]
      exact .refl hs
    · have hdoes := emits_contains hs.graph (.inl hs.project.1) (.inl ⟨hs.project.2, hs.listed⟩)
      split at heq
      · rename_i g hcontains
        cases heq
        obtain ⟨hg, written, he, hw, hsaid⟩ := Ensures.of_ok hdoes hcontains
        exact ⟨rfl, rfl, hsaid ▸ (around_told hg he hw).adds_said hs rfl⟩
      · cases heq
  · rename_i heq
    split at heq
    · cases heq
    · have hdoes := emits_contains hs.graph (.inl hs.project.1) (.inl ⟨hs.project.2, hs.listed⟩)
      split at heq
      · cases heq
      · rename_i g hcontains
        cases heq
        obtain ⟨⟨hg, written, he, hw⟩, hplain⟩ := Ensures.of_error hdoes hcontains
        exact ⟨(around_told hg he hw).leads hs, hplain⟩

end SymbolGraph.Store
