import SymbolGraph.Proofs.Store.Documents

/-!
# Proofs — Store — collecting

What is recorded under a record ends up, by passing on, in the partitions of the records that keep
it, for the document of the file that it stands in.

* `Store.changePartition_does`: a partition takes something for the document of its file.
* `Store.addReference_does`: a reference is cited by exactly the records it is passed on to.
* `Store.addDefinition_does`: a definition leads to the result set of its record, and is defined by
  and cited as the kind of the record says.
-/

namespace SymbolGraph.Store

open SymbolGraph.Action

variable {faults : Nat → Option SinkFault} {s t u : Store} {w : Setting} {file : FileId}
  {id : RecordId}

theorem hub?_of_record {r : Record} {v : VertexRef} (hr : s.records[id.index]? = some r)
    (hv : r.resultSet = some v) : s.hub? id = some v := by
  unfold hub?
  rw [hr]
  exact hv

theorem resultSet_does (hs : s.Sound faults) :
    Does faults (resultSet id) s fun v t => s = t ∧ s.hub? id = some v ∧
      Delivered s.elements .resultSet v.id := by
  unfold resultSet Record.begunResultSet
  refine (record_does hs id).bind ?_
  rintro r _ ⟨rfl, hr⟩
  refine ⟨.refl hs, ?_⟩
  cases hv : r.resultSet with
  | some v =>
      exact ensures_ofExcept_ok.mpr ⟨rfl, hub?_of_record hr hv, (hs.records _ r hr).resultSet v hv⟩
  | none => exact ensures_ofExcept_error.mpr ⟨.refl hs, fun _ => nofun⟩

theorem kind?_of_record {r : Record} (hr : s.records[id.index]? = some r) :
    s.kind? id = some r.kind := by
  unfold kind?
  rw [hr]
  rfl

theorem entries_none {cited : ItemProperty → ElementId → ElementId → Prop}
    {defined : ElementId → ElementId → Prop}
    (hc : ∀ property document x, ¬ cited property document x)
    (hd : ∀ document x, ¬ defined document x) : entries id cited defined = ∅ := by
  refine Set.eq_empty_iff_forall_notMem.mpr fun fact hfact => ?_
  cases fact with
  | cited i property document x => exact hc _ _ _ hfact.2
  | defined i document x => exact hd _ _ hfact.2
  | _ => exact hfact

theorem hasInfo_does (hs : s.Sound faults) (info : DefinitionInfo) :
    Does faults (hasInfo id info) s fun _ t => s = t ∧ ∃ r, s.records[id.index]? = some r := by
  unfold hasInfo
  refine (record_does hs id).bind ?_
  rintro r _ ⟨rfl, hr⟩
  exact ⟨.refl hs, does_pure ⟨rfl, r, hr⟩⟩

/-- The coordinates of a definition are no entry. -/
theorem addInfo_does (hs : s.Sound faults) (info : DefinitionInfo) :
    Does faults (addInfo id info) s fun _ t => s.Posts faults t ∅ ∧ s.Stable t := by
  refine (changeRecord_does hs _).mono ?_
  rintro _ t ⟨hgraph, r, hwithin⟩
  -- Whether they are kept or not, nothing else of the record changes.
  have hsame : r.addInfo info = { r with definitionInfos := (r.addInfo info).definitionInfos } := by
    unfold Record.addInfo
    split <;> rfl
  rw [hsame] at hwithin
  have hsound := hs.records _ r hwithin.old
  have helements : t.elements = s.elements := by
    unfold elements
    rw [hgraph]
  have hamends : Ledger.Amends faults ⟨r, s.graph⟩
      ⟨{ r with definitionInfos := (r.addInfo info).definitionInfos }, t.graph⟩ := by
    rw [hgraph]
    exact ⟨⟨hs.graph, ⟨hsound.resultSet, hsound.referenceResult, hsound.definitionResult,
      hsound.begun, hsound.references, hsound.definition, hsound.partitions⟩⟩,
      ⟨rfl, rfl, rfl, .refl _ _, .refl _ _, .refl _ _⟩, [], (List.append_nil _).symm, .nil _⟩
  refine ⟨(hwithin.posts hs hamends (hs.paired _ r hwithin.old)
    (fun hl => ⟨hl.begun, hl.state, hl.lasts⟩) (fun property document x => ?_)
    (fun document x => ?_) .inl fun h => h).congr (entries_none (fun _ _ _ h => h) fun _ _ h => h),
    hwithin.stable fun h => h⟩
  · rw [helements, or_false]
    rfl
  · rw [helements, or_false]
    rfl

theorem watch_does (hs : s.Sound faults) {node : NodeId} :
    Does faults (watch node id) s fun _ t => s.Posts faults t ∅ ∧ s.Stable t :=
  ensures_modify.mpr ⟨watchers_posts hs _, stable_of_records rfl fun _ _ h => h⟩

/-! ### Partitions -/

/-- A record with other partitions is as sound as these are. -/
theorem amends_partitions {r : Record} {g : Graph} {partitions : Table FileId (Slot Partition)}
    (hg : g.Sound faults) (hr : r.Sound g.elements)
    (hp : ∀ file p, partitions.get? file = some (.live p) → p.Sound g.elements) :
    Ledger.Amends faults ⟨r, g⟩ ⟨{ r with partitions }, g⟩ :=
  ⟨⟨hg, { hr with partitions := hp }⟩, ⟨rfl, rfl, rfl, .refl _ _, .refl _ _, .refl _ _⟩, [],
    (List.append_nil _).symm, .nil _⟩

/-- What a record keeps after a partition took its place among the others. -/
theorem keeps_insert {r : Record} {p : Partition} {list : Partition → List ElementId}
    {new : ElementId → Prop}
    (hdocument : ∀ old, r.partitions.get? file = some (.live old) → old.document = p.document)
    (hlist : ∀ x, x ∈ list p ↔
      (∃ old, r.partitions.get? file = some (.live old) ∧ x ∈ list old) ∨ new x)
    (document x : ElementId) :
    ({ r with partitions := r.partitions.insert file (.live p) } : Record).Keeps list document x ↔
      r.Keeps list document x ∨ document = p.document ∧ new x := by
  constructor
  · rintro ⟨file', p', hp', rfl, hx⟩
    change (r.partitions.insert file (.live p)).get? file' = _ at hp'
    rw [Table.get?_insert] at hp'
    split at hp'
    · cases hp'
      rcases (hlist x).mp hx with ⟨old, hold, hx⟩ | hx
      · exact .inl ⟨file, old, hold, hdocument old hold, hx⟩
      · exact .inr ⟨rfl, hx⟩
    · exact .inl ⟨file', p', hp', rfl, hx⟩
  · have hget : (r.partitions.insert file (.live p)).get? file = some (.live p) := by
      rw [Table.get?_insert, if_pos rfl]
    rintro (⟨file', p', hp', rfl, hx⟩ | ⟨rfl, hx⟩)
    -- The old partition of the file is overwritten, but `p` lists what it listed.
    · by_cases hfile : file' = file
      · subst hfile
        exact ⟨file', p, hget, (hdocument p' hp').symm, (hlist x).mpr (.inl ⟨p', hp', hx⟩)⟩
      · refine ⟨file', p', ?_, rfl, hx⟩
        show (r.partitions.insert file (.live p)).get? file' = _
        rw [Table.get?_insert, if_neg hfile]
        exact hp'
    · exact ⟨file, p, hget, rfl, (hlist x).mpr (.inr hx)⟩

/-- An open record takes a partition for a file: what it holds beyond the one before it is
posted. -/
theorem putPartition_does {p : Partition} (cited : ItemProperty → ElementId → Prop)
    (defined : ElementId → Prop) (hs : s.Sound faults) {r : Record}
    (hr : s.records[id.index]? = some r) (hopen : r.state = .opened) (hp : p.Sound s.elements)
    (hpaired : ∃ slot, s.documents.get? file = some slot ∧
      ∀ document, slot = .live document → document.vertex.id = p.document)
    (hdocument : ∀ old, r.partitions.get? file = some (.live old) → old.document = p.document)
    (hcited : ∀ property x, x ∈ p.under property ↔
      (∃ old, r.partitions.get? file = some (.live old) ∧ x ∈ old.under property) ∨
        cited property x)
    (hdefined : ∀ x, x ∈ p.definitionRanges ↔
      (∃ old, r.partitions.get? file = some (.live old) ∧ x ∈ old.definitionRanges) ∨
        defined x) :
    Does faults (changeRecord id fun record =>
        { record with partitions := record.partitions.insert file (.live p) }) s fun _ t =>
      s.Posts faults t (entries id (fun property document x => document = p.document ∧
        cited property x) fun document x => document = p.document ∧ defined x) ∧ s.Stable t := by
  refine (changeRecord_does hs _).mono ?_
  rintro _ t ⟨hgraph, r', hwithin⟩
  cases hr.symm.trans hwithin.old
  have hsound := hs.records _ r hr
  have helements : t.elements = s.elements := by
    unfold elements
    rw [hgraph]
  have hamends : Ledger.Amends faults ⟨r, s.graph⟩
      ⟨{ r with partitions := r.partitions.insert file (.live p) }, t.graph⟩ := by
    rw [hgraph]
    -- Only the slot of `file` is new, and `p` is sound by `hp`.
    refine amends_partitions hs.graph hsound fun file' p' hp' => ?_
    rw [Table.get?_insert] at hp'
    split at hp'
    · cases hp'
      exact hp
    · exact hsound.partitions file' p' hp'
  refine ⟨hwithin.posts hs hamends ?_ ?_ ?_ ?_ .inl fun h => h, hwithin.stable fun _ => hopen⟩
  · intro file' p' hp'
    change (r.partitions.insert file (.live p)).get? file' = _ at hp'
    rw [Table.get?_insert] at hp'
    split at hp'
    · rename_i hfile
      cases hp'
      rw [hfile]
      exact hpaired
    · exact hs.paired _ r hr file' p' hp'
  · exact fun hl => ⟨hl.begun, .inl hopen, hl.lasts⟩
  · intro property document x
    unfold Record.Cites
    rw [keeps_insert hdocument (hcited property), helements, or_right_comm]
  · intro document x
    unfold Record.Defines
    rw [keeps_insert hdocument hdefined, helements, or_right_comm]

/-- A first partition for a file is empty. -/
theorem ensurePartition_does (hs : s.Sound faults) (hopen : s.IsOpen id) :
    Does faults (ensurePartition w id file) s fun _ t => s.Posts faults t ∅ ∧ s.Stable t := by
  unfold ensurePartition
  refine (record_does hs id).bind ?_
  rintro r _ ⟨rfl, hr⟩
  refine ⟨.refl hs, ?_⟩
  dsimp only
  split
  · exact does_pure ⟨.refl hs, .refl s⟩
  · rename_i hcontains
    have hnone : r.partitions.get? file = none := by
      unfold Table.contains at hcontains
      simpa using hcontains
    refine (document_does hs).bind ?_
    rintro document t ⟨hposts, hdocument, hrecords, hstable⟩
    obtain ⟨r', hr', hstate⟩ := hopen
    cases hr.symm.trans hr'
    have hr' : t.records[id.index]? = some r := by
      rw [hrecords]
      exact hr
    have hd := (hposts.sound.documents file document hdocument).vertex.2
    refine ⟨hposts.leads, Does.bind (putPartition_does (p := { document := document.vertex.id })
      (fun _ _ => False) (fun _ => False) hposts.sound hr' hstate ⟨hd, by simp, ?_⟩
      ⟨_, hdocument, ?_⟩ ?_ ?_ ?_) ?_⟩
    · intro property x hx
      cases property <;> cases hx
    · intro other hother
      cases hother
      rfl
    · intro old hold
      rw [hnone] at hold
      cases hold
    · intro property x
      rw [hnone]
      cases property <;> simp [Partition.under]
    · intro x
      rw [hnone]
      simp
    · rintro _ u ⟨hposts', hstable'⟩
      rw [entries_none (fun _ _ _ h => h.2) fun _ _ h => h.2] at hposts'
      refine ⟨hposts'.leads, (watch_does hposts'.sound).mono ?_⟩
      rintro _ v ⟨hposts'', hstable''⟩
      exact ⟨(hposts.trans_left hposts').trans_left hposts'',
        (hstable.trans hstable').trans hstable''⟩

/-- **A partition takes something** for the document of its file. -/
theorem changePartition_does {f : Partition → Partition} (cited : ItemProperty → ElementId → Prop)
    (defined : ElementId → Prop) (hs : s.Sound faults) (hopen : s.IsOpen id)
    (hdocument : ∀ p, (f p).document = p.document)
    (hcited : ∀ p property x, x ∈ (f p).under property ↔ x ∈ p.under property ∨ cited property x)
    (hdefined : ∀ p x, x ∈ (f p).definitionRanges ↔ x ∈ p.definitionRanges ∨ defined x)
    (hreferences : ∀ property x, cited property x → Delivered s.elements property.targetLabel x)
    (hranges : ∀ x, defined x → Delivered s.elements .range x) :
    Does faults (changePartition w id file f) s fun _ t => ∃ d,
      (∀ document, s.documents.get? file = some (.live document) → document.vertex.id = d) ∧
      s.Posts faults t (entries id (fun property document x => document = d ∧ cited property x)
        fun document x => document = d ∧ defined x) ∧ s.Stable t := by
  unfold changePartition
  refine (ensurePartition_does hs hopen).bind ?_
  rintro _ t ⟨hposts, hstable⟩
  refine ⟨hposts.leads, (record_does hposts.sound id).bind ?_⟩
  -- After `ensurePartition` a live partition is there, and `putPartition_does` puts the changed one
  -- in its place.
  rintro r _ ⟨rfl, hr⟩
  refine ⟨.refl hposts.sound, ?_⟩
  split
  · rename_i p hp
    obtain ⟨r', hr', hstate⟩ := hstable.opened id hopen
    cases hr.symm.trans hr'
    have hsound := (hposts.sound.records _ r hr).partitions file p hp
    have hpaired := hposts.sound.paired _ r hr file p hp
    refine (putPartition_does cited defined hposts.sound hr hstate ⟨?_, ?_, ?_⟩ ?_ ?_ ?_ ?_).mono ?_
    · rw [hdocument]
      exact hsound.document
    · intro x hx
      rcases (hdefined p x).mp hx with hx | hx
      · exact hsound.definitions x hx
      · exact (hranges x hx).mono hposts.grows.elements
    · intro property x hx
      rcases (hcited p property x).mp hx with hx | hx
      · exact hsound.references property x hx
      · exact (hreferences property x hx).mono hposts.grows.elements
    · rw [hdocument]
      exact hpaired
    · intro old hold
      cases hp.symm.trans hold
      exact (hdocument p).symm
    · intro property x
      rw [hcited, hp]
      simp
    · intro x
      rw [hdefined, hp]
      simp
    -- The partition's document is the one that `documents` has for the file, as it was paired with
    -- it before.
    · rintro _ u ⟨hposts', hstable'⟩
      rw [hdocument] at hposts'
      refine ⟨p.document, fun document hd => ?_, hposts.trans_left hposts', hstable.trans hstable'⟩
      obtain ⟨slot, hslot, hvertex⟩ := hpaired
      cases hslot.symm.trans (hstable.documents file document hd)
      exact hvertex document rfl
  · exact does_throw hposts.sound fun _ h => by cases h

theorem under_addReference (p : Partition) (role : ReferenceRole) (reference : Reference)
    (property : ItemProperty) (x : ElementId) :
    x ∈ (p.addReference role reference).under property ↔
      x ∈ p.under property ∨ property = reference.property role ∧ x = reference.id := by
  cases reference with
  | range y => cases role <;> cases property <;> simp [Partition.addReference, Partition.under,
      Reference.property, Reference.id, ReferenceRole.property]
  | result y => cases property <;> simp [Partition.addReference, Partition.under,
      Reference.property, Reference.id]

theorem addReference_document (p : Partition) (role : ReferenceRole) (reference : Reference) :
    (p.addReference role reference).document = p.document ∧
      (p.addReference role reference).definitionRanges = p.definitionRanges := by
  cases reference with
  | range y => cases role <;> exact ⟨rfl, rfl⟩
  | result y => exact ⟨rfl, rfl⟩

/-- A reference that an open record keeps. -/
theorem addOwnReference_does {reference : Reference} {role : ReferenceRole} (hs : s.Sound faults)
    (hopen : s.IsOpen id)
    (hx : Delivered s.elements (reference.property role).targetLabel reference.id) :
    Does faults (addOwnReference w id file reference role) s fun _ t => ∃ d,
      (∀ document, s.documents.get? file = some (.live document) → document.vertex.id = d) ∧
      s.Posts faults t {.cited id (reference.property role) d reference.id} ∧ s.Stable t := by
  refine (changePartition_does (fun property x => property = reference.property role ∧
    x = reference.id) (fun _ => False) hs hopen (fun p => (addReference_document p _ _).1)
    (fun p property x => under_addReference p role reference property x) (fun p x => ?_) ?_
    nofun).mono ?_
  · rw [(addReference_document p _ _).2, or_false]
  · rintro property x ⟨rfl, rfl⟩
    exact hx
  · rintro _ t ⟨d, hd, hposts, hstable⟩
    refine ⟨d, hd, hposts.congr ?_, hstable⟩
    ext fact
    cases fact with
    | cited i property document x =>
        rw [Set.mem_singleton_iff, Fact.cited.injEq]
        exact ⟨fun ⟨hi, hd, hp, hx⟩ => ⟨hi, hp, hd, hx⟩, fun ⟨hi, hp, hd, hx⟩ => ⟨hi, hd, hp, hx⟩⟩
    | defined i document x => exact iff_of_false (fun h => h.2.2) nofun
    | _ => exact iff_of_false (fun h => h) nofun

/-- A definition that an open record keeps: its range leads to the result set of the record. -/
theorem addOwnDefinition_does {range : ElementId} {asReference : Bool} (hs : s.Sound faults)
    (hopen : s.IsOpen id) (hrange : Delivered s.elements .range range) :
    Does faults (addOwnDefinition w id file range asReference) s fun _ t => ∃ v d,
      s.hub? id = some v ∧
      (∀ document, s.documents.get? file = some (.live document) → document.vertex.id = d) ∧
      s.Posts faults t ({.next range v.id} ∪ entries id
        (fun property document x => document = d ∧ asReference = true ∧ property = .definitions ∧
          x = range) fun document x => document = d ∧ x = range) ∧ s.Stable t := by
  unfold addOwnDefinition
  refine (resultSet_does hs).bind ?_
  rintro v _ ⟨rfl, hhub, hv⟩
  refine ⟨.refl hs, (next_does hs (.inl hrange) hv).discard.bind ?_⟩
  rintro _ _ ⟨g, rfl, hposts⟩
  have hstable : s.Stable { s with graph := g } := stable_of_records rfl fun _ _ h => h
  refine ⟨hposts.leads, (changePartition_does (fun property x => asReference = true ∧
    property = .definitions ∧ x = range) (fun x => x = range) hposts.sound (hstable.opened id hopen)
    ?_ ?_ ?_ ?_ ?_).mono ?_⟩
  · intro p
    cases asReference <;> rfl
  · intro p property x
    cases asReference <;> cases property <;> simp [Partition.addDefinition, Partition.under]
  · intro p x
    cases asReference <;> simp [Partition.addDefinition]
  · rintro property x ⟨-, rfl, rfl⟩
    exact hrange.mono hposts.grows.elements
  · rintro x rfl
    exact hrange.mono hposts.grows.elements
  · rintro _ t ⟨d, hd, hposts', hstable'⟩
    exact ⟨v, d, hhub, hd, hposts.trans hposts', hstable.trans hstable'⟩

/-! ### Passing on -/

/-- The facts that recording a reference under some records comes to: it is cited by exactly the
records it is passed on to, for the document of the file. -/
structure Spread (s : Store) (file : FileId) (reference : Reference) (role : ReferenceRole)
    (ids : List RecordId) (facts : Set Fact) : Prop where
  only : ∀ fact ∈ facts, ∃ a ∈ ids, ∃ i d,
    fact = .cited i (reference.property role) d reference.id ∧
    Route s.kind? reference.passedTo a i ∧
    ∀ document, s.documents.get? file = some (.live document) → document.vertex.id = d
  all  : ∀ a ∈ ids, ∀ i, Route s.kind? reference.passedTo a i →
    ∃ d, .cited i (reference.property role) d reference.id ∈ facts

/-- An operation that records a reference under some records. -/
def Spreads (faults : Nat → Option SinkFault) (file : FileId) (reference : Reference)
    (role : ReferenceRole) (ids : List RecordId) (s t : Store) : Prop :=
  ∃ facts, s.Posts faults t facts ∧ (s.Lasting → s.Spread file reference role ids facts) ∧
    s.Stable t

section Spreads

variable {reference : Reference} {role : ReferenceRole}

theorem Spreads.nil (hs : s.Sound faults) : Spreads faults file reference role [] s s :=
  ⟨∅, .refl hs, fun _ => ⟨nofun, nofun⟩, .refl s⟩

theorem Spreads.append {ids more : List RecordId} (h : Spreads faults file reference role ids s t)
    (h' : Spreads faults file reference role more t u) :
    Spreads faults file reference role (ids ++ more) s u := by
  obtain ⟨facts, hposts, hspread, hstable⟩ := h
  obtain ⟨facts', hposts', hspread', hstable'⟩ := h'
  refine ⟨facts ∪ facts', hposts.trans hposts', fun hl => ?_, hstable.trans hstable'⟩
  have hsp := hspread hl
  have hsp' := hspread' (hposts.lasting hl)
  have hkinds := hposts.kinds
  refine ⟨?_, ?_⟩
  · rintro fact (hfact | hfact)
    · obtain ⟨a, ha, hrest⟩ := hsp.only fact hfact
      exact ⟨a, List.mem_append_left _ ha, hrest⟩
    · obtain ⟨a, ha, i, d, heq, hroute, hd⟩ := hsp'.only fact hfact
      rw [hkinds] at hroute
      exact ⟨a, List.mem_append_right _ ha, i, d, heq, hroute,
        fun document hlive => hd document (hstable.documents file document hlive)⟩
  · intro a ha i hroute
    rcases List.mem_append.mp ha with ha | ha
    · obtain ⟨d, hd⟩ := hsp.all a ha i hroute
      exact ⟨d, .inl hd⟩
    · rw [← hkinds] at hroute
      obtain ⟨d, hd⟩ := hsp'.all a ha i hroute
      exact ⟨d, .inr hd⟩

/-- Recording under a record is recording under those it passes on to. -/
theorem Spreads.of_passes {kind : RecordKind} {ids : List RecordId} (hk : s.kind? id = some kind)
    (hp : reference.passedTo kind = some ids) (h : Spreads faults file reference role ids s t) :
    Spreads faults file reference role [id] s t := by
  obtain ⟨facts, hposts, hspread, hstable⟩ := h
  refine ⟨facts, hposts, fun hl => ⟨fun fact hfact => ?_, fun a ha i hroute => ?_⟩, hstable⟩
  · obtain ⟨a, ha, i, d, heq, hroute, hd⟩ := (hspread hl).only fact hfact
    exact ⟨id, List.mem_singleton_self _, i, d, heq, .passes hk hp ha hroute, hd⟩
  · obtain rfl := List.mem_singleton.mp ha
    obtain ⟨b, hb, hroute⟩ := (Route.iff_of_passes hk hp).mp hroute
    exact (hspread hl).all b hb i hroute

/-- Recording under several records, one after the other. -/
theorem spreads_forM {act : RecordId → Storing Unit} {ids : List RecordId} (hs : s.Sound faults)
    (h : ∀ a t, a ∈ ids → s.Leads faults t →
      Does faults (act a) t fun _ u => Spreads faults file reference role [a] t u) :
    Does faults (ids.forM act) s fun _ t => Spreads faults file reference role ids s t := by
  -- The records done so far have it, from the state before the first of them.
  refine Does.mono (Does.forM (fun rest t => ∃ done, ids = done ++ rest ∧
    Spreads faults file reference role done s t) ?_ ?_ ⟨[], rfl, .nil hs⟩) ?_
  · rintro rest t ⟨done, -, facts, hposts, -⟩
    exact hposts.leads
  · rintro a rest t ⟨done, hsplit, hspreads⟩
    have ha : a ∈ ids := by
      rw [hsplit]
      exact List.mem_append_right _ List.mem_cons_self
    have hleads : s.Leads faults t := by
      obtain ⟨facts, hposts, -⟩ := hspreads
      exact hposts.leads
    refine (h a t ha hleads).mono fun _ u hspreads' => ⟨done ++ [a], ?_, hspreads.append hspreads'⟩
    rw [hsplit, List.append_assoc]
    rfl
  · rintro _ t ⟨done, hdone, hspreads⟩
    rw [List.append_nil] at hdone
    rw [hdone]
    exact hspreads

/-- Recording under an open record that keeps the reference. -/
theorem spreads_own {kind : RecordKind} (hs : s.Sound faults) (hopen : s.IsOpen id)
    (hk : s.kind? id = some kind) (hp : reference.passedTo kind = none)
    (hx : Delivered s.elements (reference.property role).targetLabel reference.id) :
    Does faults (addOwnReference w id file reference role) s fun _ t =>
      Spreads faults file reference role [id] s t := by
  refine (addOwnReference_does hs hopen hx).mono ?_
  rintro _ t ⟨d, hd, hposts, hstable⟩
  refine ⟨_, hposts, fun _ => ⟨fun fact hfact => ?_, fun a ha i hroute => ?_⟩, hstable⟩
  · exact ⟨id, List.mem_singleton_self _, id, d, hfact, .rests hk hp, hd⟩
  · obtain rfl := List.mem_singleton.mp ha
    obtain rfl := (Route.iff_of_rests hk hp).mp hroute
    exact ⟨d, rfl⟩

/-- A record that is neither open nor refuses collects no definitions and is closed. -/
theorem isOpen_eq {r : Record} :
    (∃ fault, r.isOpen = .error fault ∧ fault.IsPlain) ∨
      r.isOpen = .ok true ∧ r.state = .opened ∨
      r.isOpen = .ok false ∧ r.kind.acceptsDefinitions = false ∧ r.state = .closed := by
  unfold Record.isOpen RecordKind.isStrict
  cases r.state with
  | unopened => exact .inl ⟨_, rfl, fun _ => nofun⟩
  | opened => exact .inr (.inl ⟨rfl, rfl⟩)
  | closed =>
      cases hkind : r.kind.acceptsDefinitions with
      | true => exact .inl ⟨_, rfl, fun _ => nofun⟩
      | false => exact .inr (.inr ⟨rfl, rfl, rfl⟩)

/-- What is done to a record that is open.  A closed one is a fault, unless it takes no definitions. -/
theorem whenOpen_does {act : Record → Storing Unit} {post : Unit → Store → Prop}
    (hs : s.Sound faults)
    (hopened : ∀ r, s.records[id.index]? = some r → r.state = .opened → Does faults (act r) s post)
    (hclosed : ∀ r, s.records[id.index]? = some r → r.kind.acceptsDefinitions = false →
      r.state = .closed → post () s) : Does faults (whenOpen id act) s post := by
  refine (record_does hs id).bind ?_
  rintro r _ ⟨rfl, hr⟩
  refine ⟨.refl hs, ?_⟩
  rcases isOpen_eq (r := r) with ⟨fault, hfault, hplain⟩ | ⟨htrue, hstate⟩ |
    ⟨hfalse, hrefuses, hstate⟩
  · rw [hfault]
    exact ensures_bind.mpr (ensures_ofExcept_error.mpr ⟨.refl hs, hplain⟩)
  · rw [htrue]
    refine ensures_bind.mpr (ensures_ofExcept_ok.mpr ?_)
    rw [if_pos rfl]
    exact hopened r hr hstate
  · rw [hfalse]
    exact ensures_bind.mpr (ensures_ofExcept_ok.mpr (does_pure (hclosed r hr hrefuses hstate)))

/-- **A reference is cited by exactly the records it is passed on to.** -/
theorem addReferenceWithin_does :
    ∀ (fuel : Nat) (id : RecordId) {s : Store}, s.Sound faults →
      Delivered s.elements (reference.property role).targetLabel reference.id →
      Does faults (addReferenceWithin w file reference role fuel id) s fun _ t =>
        Spreads faults file reference role [id] s t
  | 0, id, s, hs, _ => does_throw hs fun _ h => by cases h
  | fuel + 1, id, s, hs, hx => by
      -- What the records it is passed on to make of it.
      have hrest : ∀ (a : RecordId) (t : Store), s.Leads faults t →
          Does faults (addReferenceWithin w file reference role fuel a) t fun _ u =>
            Spreads faults file reference role [a] t u :=
        fun a t ht => addReferenceWithin_does fuel a ht.sound (hx.mono ht.grows.elements)
      refine whenOpen_does hs (fun r hr hstate => ?_) fun r hr hrefuses hstate => ?_
      · have hk : s.kind? id = some r.kind := kind?_of_record hr
        have hpassed : ∀ ids, reference.passedTo r.kind = some ids →
            Does faults (ids.forM (addReferenceWithin w file reference role fuel)) s fun _ t =>
              Spreads faults file reference role [id] s t := fun ids hids =>
          (spreads_forM hs fun a t _ ht => hrest a t ht).mono fun _ t => Spreads.of_passes hk hids
        have hkept : reference.passedTo r.kind = none →
            Does faults (addOwnReference w id file reference role) s fun _ t =>
              Spreads faults file reference role [id] s t :=
          fun hnone => spreads_own hs ⟨r, hr, hstate⟩ hk hnone hx
        cases hkind : r.kind with
        | standard => exact hkept (by cases reference <;> rw [hkind] <;> rfl)
        | transient => exact hkept (by cases reference <;> rw [hkind] <;> rfl)
        | aliased target renames =>
            rw [hkind] at hk
            exact (hrest target s (.refl hs)).mono fun _ t =>
              Spreads.of_passes hk (by cases reference <;> rfl)
        | method bases anchor =>
            cases bases with
            | nil => exact hkept (by cases reference <;> rw [hkind] <;> rfl)
            | cons base bases =>
                cases reference with
                | range x => exact hpassed _ (by rw [hkind]; rfl)
                | result x => exact hkept (by rw [hkind]; rfl)
        | composite elements anchor =>
            cases reference with
            | range x => exact hpassed _ (by rw [hkind]; rfl)
            | result x => exact hkept (by rw [hkind]; rfl)
      · -- The reference is lost, but a record that takes no definitions lasts to the end.
        refine ⟨∅, .refl hs, fun hl => ?_, .refl s⟩
        have hopen := ((hl _ r hr).lasts hrefuses).1
        rw [hstate] at hopen
        cases hopen

theorem addReference_does (hs : s.Sound faults)
    (hx : Delivered s.elements (reference.property role).targetLabel reference.id) :
    Does faults (addReference w id file reference role) s fun _ t =>
      Spreads faults file reference role [id] s t := by
  unfold addReference
  exact ensures_bind.mpr (ensures_get.mpr (addReferenceWithin_does _ id hs hx))

theorem addRangeReference_does {range : ElementId} (hs : s.Sound faults)
    (hrange : Delivered s.elements .range range) :
    Does faults (addReference w id file (.range range) role) s fun _ t =>
      Spreads faults file (.range range) role [id] s t := by
  refine addReference_does hs ?_
  cases role <;> exact hrange

theorem addResultReference_does {result : ElementId} (hs : s.Sound faults)
    (hresult : Delivered s.elements .referenceResult result) :
    Does faults (addReference w id file (.result result) role) s fun _ t =>
      Spreads faults file (.result result) role [id] s t :=
  addReference_does hs hresult

/-- The facts that a range in a live document comes to. -/
theorem Spreads.posts {ids : List RecordId} {range : ElementId} {document : Document}
    (hd : s.documents.get? file = some (.live document))
    (h : Spreads faults file (.range range) role ids s t) :
    s.Posts faults t { fact | ∃ a ∈ ids, ∃ i, Route s.kind? RecordKind.passesTo a i ∧
      fact = .cited i role.property document.vertex.id range } ∧ s.Stable t := by
  obtain ⟨facts, hposts, hspread, hstable⟩ := h
  refine ⟨hposts.congr_of_lasting fun hl => ?_, hstable⟩
  ext fact
  constructor
  · intro hfact
    obtain ⟨a, ha, i, d, rfl, hroute, hid⟩ := (hspread hl).only fact hfact
    exact ⟨a, ha, i, hroute, by rw [hid document hd]; rfl⟩
  · rintro ⟨a, ha, i, hroute, rfl⟩
    obtain ⟨d, hfact⟩ := (hspread hl).all a ha i hroute
    obtain ⟨-, -, i', d', heq, -, hid⟩ := (hspread hl).only _ hfact
    cases heq
    rw [hid document hd]
    exact hfact

end Spreads

/-! ### Definitions -/

/-- The facts that filing a range under a record comes to: it leads to the result set of the record,
it is cited in a role by the records it is passed on to, and the record may be defined by it. -/
def filing (kinds : RecordId → Option RecordKind) (id : RecordId) (hub document range : ElementId)
    (role : Option ReferenceRole) (owned : Bool) : Set Fact :=
  { fact | fact = .next range hub ∨
    (∃ known i, role = some known ∧ Route kinds RecordKind.passesTo id i ∧
      fact = .cited i known.property document range) ∨
    owned = true ∧ fact = .defined id document range }

/-- A definition that a record keeps, as a filing. -/
theorem filing_own {kinds : RecordId → Option RecordKind} {kind : RecordKind}
    {hub document range : ElementId} {asReference : Bool} (hk : kinds id = some kind)
    (hp : asReference = true → kind.passesTo = none) :
    {.next range hub} ∪ entries id (fun property document' x => document' = document ∧
        asReference = true ∧ property = .definitions ∧ x = range)
        (fun document' x => document' = document ∧ x = range) =
      filing kinds id hub document range (if asReference then some .definitions else none)
        true := by
  ext fact
  cases fact with
  | cited i property document' x =>
      constructor
      · rintro (h | ⟨rfl, rfl, rfl, rfl, rfl⟩)
        · cases h
        · exact .inr (.inl ⟨.definitions, i, rfl, .rests hk (hp rfl), rfl⟩)
      · rintro (h | ⟨role, i', hrole, hroute, heq⟩ | ⟨-, h⟩)
        · cases h
        · cases heq
          -- A definition is filed as a reference only if the caller asks for it.
          cases asReference with
          | false => cases hrole
          | true =>
              cases hrole
              exact .inr ⟨(Route.iff_of_rests hk (hp rfl)).mp hroute, rfl, rfl, rfl, rfl⟩
        · cases h
  | defined i document' x =>
      constructor
      · rintro (h | ⟨rfl, rfl, rfl⟩)
        · cases h
        · exact .inr (.inr ⟨rfl, rfl⟩)
      · rintro (h | ⟨_, _, _, _, h⟩ | ⟨-, h⟩)
        · cases h
        · cases h
        · cases h
          exact .inr ⟨rfl, rfl, rfl⟩
  | next source target =>
      refine ⟨fun h => h.elim .inl False.elim, ?_⟩
      rintro (h | ⟨_, _, _, _, h⟩ | ⟨-, h⟩)
      · exact .inl h
      · cases h
      · cases h
  | tagged range' tag =>
      refine iff_of_false (fun h => h.elim nofun False.elim) ?_
      rintro (h | ⟨_, _, _, _, h⟩ | ⟨-, h⟩) <;> cases h
  | contained document' range' =>
      refine iff_of_false (fun h => h.elim nofun False.elim) ?_
      rintro (h | ⟨_, _, _, _, h⟩ | ⟨-, h⟩) <;> cases h

/-- A filing under a record that passes on, put together from its parts. -/
theorem filing_passes {kinds : RecordId → Option RecordKind} {kind : RecordKind}
    {ids : List RecordId} {hub document range : ElementId} {role : ReferenceRole} {owned : Bool}
    (hk : kinds id = some kind) (hp : kind.passesTo = some ids) :
    filing kinds id hub document range none owned ∪ { fact | ∃ a ∈ ids, ∃ i,
        Route kinds RecordKind.passesTo a i ∧ fact = .cited i role.property document range } =
      filing kinds id hub document range (some role) owned := by
  ext fact
  constructor
  · rintro ((h | ⟨_, _, h, -, -⟩ | h) | ⟨a, ha, i, hroute, rfl⟩)
    · exact .inl h
    · cases h
    · exact .inr (.inr h)
    · exact .inr (.inl ⟨role, i, rfl, .passes hk hp ha hroute, rfl⟩)
  · rintro (h | ⟨_, i, h, hroute, rfl⟩ | h)
    · exact .inl (.inl h)
    · cases h
      obtain ⟨a, ha, hroute⟩ := (Route.iff_of_passes hk hp).mp hroute
      exact .inr ⟨a, ha, i, hroute, rfl⟩
    · exact .inl (.inr (.inr h))

/-- A definition that is kept and not cited, as a filing. -/
theorem filing_next {kinds : RecordId → Option RecordKind} {hub document range : ElementId} :
    {.next range hub} = filing kinds id hub document range none false := by
  ext fact
  constructor
  · exact .inl
  · rintro (h | ⟨_, _, h, -, -⟩ | ⟨h, -⟩)
    · exact h
    · cases h
    · cases h

section AddDefinition

variable {range : ElementId} {document : Document} {kind : RecordKind}

/-- A definition that the record keeps, cited with the record itself or not. -/
theorem keepDefinition_does (asReference : Bool) (hs : s.Sound faults) (hopen : s.IsOpen id)
    (hrange : Delivered s.elements .range range)
    (hd : s.documents.get? file = some (.live document)) (hk : s.kind? id = some kind)
    (hp : asReference = true → kind.passesTo = none) :
    Does faults (addOwnDefinition w id file range asReference) s fun _ t => ∃ v,
      s.hub? id = some v ∧ s.Posts faults t (filing s.kind? id v.id document.vertex.id range
        (if asReference then some .definitions else none) true) ∧ s.Stable t := by
  refine (addOwnDefinition_does hs hopen hrange).mono ?_
  rintro _ t ⟨v, d, hhub, hid, hposts, hstable⟩
  rw [← hid document hd] at hposts
  exact ⟨v, hhub, hposts.congr (filing_own hk hp), hstable⟩

/-- What a record passes on completes the filing of a range that it does not cite itself. -/
theorem Spreads.filing {ids : List RecordId} {role : ReferenceRole} {v : VertexRef} {owned : Bool}
    (hspreads : Spreads faults file (.range range) role ids t u)
    (hd : s.documents.get? file = some (.live document)) (hk : s.kind? id = some kind)
    (hp : kind.passesTo = some ids) (hstable : s.Stable t)
    (hposts : s.Posts faults t (filing s.kind? id v.id document.vertex.id range none owned)) :
    s.Posts faults u (filing s.kind? id v.id document.vertex.id range (some role) owned) := by
  obtain ⟨hposts', -⟩ := hspreads.posts (hstable.documents file document hd)
  rw [hposts.kinds] at hposts'
  exact (hposts.trans hposts').congr (filing_passes hk hp)

/-- **A definition is filed** as the kind of its record says. -/
theorem addDefinition_does (hs : s.Sound faults) (hrange : Delivered s.elements .range range)
    (hd : s.documents.get? file = some (.live document)) (hk : s.kind? id = some kind)
    (haccepts : kind.acceptsDefinitions = true) :
    Does faults (addDefinition w id file range true) s fun _ t => ∃ v, s.hub? id = some v ∧
      s.Posts faults t (filing s.kind? id v.id document.vertex.id range kind.definitionRole
        kind.ownsDefinitions) := by
  refine whenOpen_does hs (fun r hr hstate => ?_) fun r hr hrefuses _ => ?_
  · have hopen : s.IsOpen id := ⟨r, hr, hstate⟩
    rw [show r.kind = kind from Option.some.inj ((kind?_of_record hr).symm.trans hk)]
    cases kind with
    | standard =>
        exact (keepDefinition_does true hs hopen hrange hd hk fun _ => rfl).mono
          fun _ t ⟨v, hhub, hposts, _⟩ => ⟨v, hhub, hposts⟩
    | transient => cases haccepts
    | composite elements anchor => cases haccepts
    | aliased target renames =>
        cases renames with
        | true =>
            exact (keepDefinition_does false hs hopen hrange hd hk nofun).mono
              fun _ t ⟨v, hhub, hposts, _⟩ => ⟨v, hhub, hposts⟩
        | false =>
            -- The alias keeps nothing itself: its range leads on, and is passed on.
            refine (resultSet_does hs).bind ?_
            rintro v _ ⟨rfl, hhub, hv⟩
            refine ⟨.refl hs, (next_does hs (.inl hrange) hv).discard.bind ?_⟩
            rintro _ _ ⟨g, rfl, hposts⟩
            refine ⟨hposts.leads, (addRangeReference_does hposts.sound
              (hrange.mono hposts.grows.elements)).mono fun _ t hspreads => ⟨v, hhub, ?_⟩⟩
            exact hspreads.filing hd hk rfl (stable_of_records rfl fun _ _ h => h)
              (hposts.congr filing_next)
    | method bases anchor =>
        cases bases with
        | nil =>
            exact (keepDefinition_does true hs hopen hrange hd hk fun _ => rfl).mono
              fun _ t ⟨v, hhub, hposts, _⟩ => ⟨v, hhub, hposts⟩
        | cons base bases =>
            -- An overriding method keeps its definition and passes it on as well.
            refine (keepDefinition_does false hs hopen hrange hd hk nofun).bind ?_
            rintro _ t ⟨v, hhub, hposts, hstable⟩
            refine ⟨hposts.leads, (spreads_forM hposts.sound fun a u _ hu =>
              addRangeReference_does hu.sound
                ((hrange.mono hposts.grows.elements).mono hu.grows.elements)).mono
              fun _ u hspreads => ⟨v, hhub, ?_⟩⟩
            exact hspreads.filing hd hk rfl hstable hposts
  · rw [Option.some.inj ((kind?_of_record hr).symm.trans hk), haccepts] at hrefuses
    cases hrefuses

end AddDefinition

/-! ### Hover text and monikers -/

/-- A link from the result set of a record that says nothing by itself. -/
theorem attach_does {kind : LinkKind} {target : ElementId} (hs : s.Sound faults)
    (hkind : kind ≠ .next ∧ kind ≠ .references ∧ kind ≠ .definition)
    (hjoins : ∀ hub, Delivered s.elements .resultSet hub → kind.Joins s.elements hub target) :
    Does faults (attach id kind target) s fun _ t => s.Posts faults t ∅ := by
  refine whenOpen_does hs (fun r hr hstate => (resultSet_does hs).bind ?_) fun _ _ _ _ => .refl hs
  rintro v _ ⟨rfl, -, hv⟩
  exact ⟨.refl hs, (quietLink_does hs hkind (hjoins v.id hv)).discard⟩

theorem addHover_does {hover : ElementId} (hs : s.Sound faults)
    (hh : Delivered s.elements .hoverResult hover) :
    Does faults (addHover id hover) s fun _ t => s.Posts faults t ∅ :=
  attach_does hs (by decide) fun _ hv => ⟨hv, hh⟩

theorem addMoniker_does {moniker : ElementId} (hs : s.Sound faults)
    (hm : Delivered s.elements .moniker moniker) :
    Does faults (addMoniker id moniker) s fun _ t => s.Posts faults t ∅ :=
  attach_does hs (by decide) fun _ hv => ⟨hv, hm⟩

end SymbolGraph.Store
