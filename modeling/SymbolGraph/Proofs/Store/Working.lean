import SymbolGraph.Proofs.Store.Steps

/-!
# Proofs — Store — collecting, operation by operation

Every operation that collects is a sequence of steps, and when it fails it has either a fault of its
own or it met something cleared in one of the files that it was to write to.

* `Store.Excuses`: the faults that an operation on some files may have, by what was cleared before.
* `Store.Works`: an operation that collects, or fails with an excuse.
* `Store.addRange_works`, `Store.addReference_works`, `Store.define_works`: what is collected.
* `Store.insert_ensures`: a new record is opened and tied to the others.
-/

namespace SymbolGraph

/-- The file for which a record of a kind is tied to others. -/
def RecordKind.anchor? : RecordKind → Option FileId
  | .method _ anchor    => some anchor
  | .composite _ anchor => some anchor
  | _                   => none

namespace Store

open SymbolGraph.Action SymbolGraph.Discipline

variable {α β : Type} {w : Setting} {here : FileId → Prop} {s t u : Store} {id : RecordId}
  {file : FileId}

/-- The faults that an operation on some files may have: its own, and those that blame what was
cleared in one of the files. -/
def Excuses (s : Store) (here : FileId → Prop) : Fault → Prop
  | .documentCleared _    => ∃ file, here file ∧ s.documents.get? file = some .cleared
  | .partitionCleared _ _ => ∃ file, here file ∧ s.HasClearedPartition file
  | .recordCleared _ | .cyclicResolution _ => False
  | _ => True

theorem excuses_of_isOwn {fault : Fault} (h : fault.IsOwn) : s.Excuses here fault := by
  cases fault with
  | recordCleared | documentCleared | partitionCleared | cyclicResolution => exact h.elim
  | _ => trivial

/-- What was cleared after collecting was cleared before. -/
theorem Excuses.spared {fault : Fault} (h : t.Excuses here fault) (hs : s.Spares t) :
    s.Excuses here fault := by
  cases fault with
  | documentCleared =>
      obtain ⟨file, hfile, hcleared⟩ := h
      exact ⟨file, hfile, hs.documents file hcleared⟩
  | partitionCleared =>
      obtain ⟨file, hfile, hcleared⟩ := h
      exact ⟨file, hfile, hs.partitions file hcleared⟩
  | _ => exact h

/-- From a store in order, an operation collects or fails with an excuse. -/
def working (w : Setting) (here : FileId → Prop) : Discipline Store Fault where
  ready := Orderly w
  steps := Gains w
  blames s fault _ := s.Excuses here fault
  refl _ := .refl
  trans := Relation.ReflTransGen.trans
  keeps hs hgains := hgains.orderly hs
  carries hgains hfault := hfault.spared hgains.spares

/-- An operation that collects, or fails with an excuse. -/
abbrev Works (w : Setting) (here : FileId → Prop) (act : Storing α) (s : Store)
    (post : α → Store → Prop) : Prop :=
  (working w here).Follows act s post

theorem collect_works {f : Store → Store} (h : s.Orderly w → Collects w s (f s)) :
    Works w here (modify f) s fun _ t => t = f s :=
  follows_modify fun hs => .single (h hs)

/-! ### Records -/

/-- A record that is missing is a plain fault. -/
theorem record_works : Works w here (record id) s fun r t =>
    t = s ∧ s.records[id.index]? = some r := by
  refine follows_get ?_
  cases hr : s.records[id.index]? with
  | some r => exact follows_pure ⟨rfl, rfl⟩
  | none => exact follows_throw trivial

theorem resultSet_works : Works w here (resultSet id) s fun v t =>
    t = s ∧ s.hub? id = some v := by
  refine record_works.bind fun r t _ _ ht => ?_
  obtain ⟨rfl, hr⟩ := ht
  simp only [Record.begunResultSet]
  cases hv : r.resultSet with
  | some v => exact follows_pure ⟨rfl, Option.bind_eq_some_iff.mpr ⟨r, hr, hv⟩⟩
  | none => exact follows_throw trivial

theorem hasInfo_works {info : DefinitionInfo} : Works w here (hasInfo id info) s fun known t =>
    t = s ∧ ∃ r, s.records[id.index]? = some r ∧ known = r.hasInfo info := by
  refine record_works.bind fun r t _ _ ht => ?_
  obtain ⟨rfl, hr⟩ := ht
  exact follows_pure ⟨rfl, r, hr, rfl⟩

/-- A record is amended, and notes no new coordinates. -/
theorem changeRecord_works {f : Record → Record} (hf : ∀ r, s.records[id.index]? = some r →
    r.Amends (f r) ∧ (f r).definitionInfos = r.definitionInfos) :
    Works w here (changeRecord id f) s fun _ t =>
      t = { s with records := s.records.modify id.index f } := by
  refine (record_works.mono fun _ _ ht => ht.1).discard.bind fun _ t _ _ ht => ?_
  subst ht
  exact collect_works fun _ => .amends hf

/-- Writing a record. -/
theorem onRecord_works {act : Ledger.Writing α} {post : Record → α → Ledger → Prop}
    (h : ∀ r, s.records[id.index]? = some r → Ledger.Scribes act ⟨r, s.graph⟩ (post r))
    (hp : ∀ r a l', s.records[id.index]? = some r → post r a l' →
      r.Amends l'.record ∧ l'.record.definitionInfos = r.definitionInfos) :
    Works w here (onRecord id act) s fun a t => ∃ r l', s.records[id.index]? = some r ∧
      Ledger.Quietly ⟨r, s.graph⟩ l' ∧ post r a l' ∧ t = { s with
        graph := l'.graph, records := s.records.modify id.index fun _ => l'.record } := by
  refine record_works.bind fun r t _ ht hr => ?_
  obtain ⟨rfl, hr⟩ := hr
  intro _
  refine ensures_onPart.mpr ((h r hr ht.counted.memory).mono (fun a l' hl' => ?_)
    fun _ _ hfault => excuses_of_isOwn hfault)
  obtain ⟨⟨written, hd, hq⟩, hpost⟩ := hl'
  refine ⟨?_, r, l', hr, ⟨written, hd, hq⟩, hpost, rfl⟩
  have hamends : Collects w { t with graph := l'.graph }
      { t with graph := l'.graph, records := t.records.modify id.index fun _ => l'.record } := by
    refine .amends fun r₀ hr₀ => ?_
    cases hr.symm.trans hr₀
    exact hp r a l' hr hpost
  exact Relation.ReflTransGen.tail (.single (.delivers hd hq)) hamends

/-- A reference result is filled in, and the record stays the same otherwise. -/
theorem referenceResult_works : Works w here (onRecord id Ledger.referenceResult) s
    fun _ _ => True := by
  refine (onRecord_works (fun r _ => Ledger.referenceResult_scribes) fun r _ l' _ hfills => ?_).mono
    fun _ _ _ => trivial
  obtain ⟨_, _, heq⟩ := hfills
  rw [heq]
  exact ⟨⟨⟨rfl, rfl, rfl, fun _ hv => hv⟩, fun hc => hc, fun _ hc => hc⟩, rfl⟩

/-! ### Delivery -/

/-- Delivering an element that is quiet. -/
theorem quiet_works {act : Emission α} (element : α → Element) (hq : ∀ a, (element a).IsQuiet)
    (hact : s.graph.IsMemory → Ensures act s.graph (fun a g => s.graph.Delivers [element a] g)
      fun fault _ => Graph.OfSink fault) :
    Works w here (liftM act) s fun a t => t = { s with graph := t.graph } ∧
      s.graph.Delivers [element a] t.graph := by
  intro hs
  refine ensures_onPart.mpr ((hact hs.counted.memory).mono (fun a g hg => ?_)
    fun _ _ hfault => excuses_of_isOwn hfault.isOwn)
  refine ⟨.single (.delivers hg fun e he => ?_), rfl, hg⟩
  rw [List.mem_singleton.mp he]
  exact hq a

/-- A vertex other than a document, and a range only with a tag. -/
theorem vertex_works {v : Vertex} (hd : v.label ≠ .document) (ht : ∀ span, v ≠ .range span none) :
    Works w here (liftM (Graph.vertex v)) s fun ref t => t = { s with graph := t.graph } ∧
      s.graph.Delivers [.vertex ref.id v] t.graph :=
  quiet_works (fun ref => .vertex ref.id v) (fun _ => Element.isQuiet_vertex hd ht) fun hm =>
    (Graph.vertex_delivers hm v).mono (fun _ _ hg => hg.1) fun _ _ hf => hf

/-- A link that does not lead on. -/
theorem link_works {kind : LinkKind} {source target : ElementId} (hk : kind ≠ .next) :
    Works w here (liftM (Graph.link kind source target)) s fun _ t =>
      t = { s with graph := t.graph } :=
  (quiet_works (fun n => .edge n (.link kind source target))
    (fun _ => Element.isQuiet_edge nofun fun heq => hk (EdgeLabel.link.inj heq))
    fun hm => Graph.edge_delivers hm _).mono fun _ _ ht => ht.1

/-- What led nowhere is led on. -/
theorem next_works {source target : ElementId} (hnew : source ∉ nextSourcesIn s.elements)
    (hissued : source.value ≤ s.graph.issued) :
    Works w here (liftM (Graph.link .next source target)) s fun _ t =>
      t = { s with graph := t.graph } ∧ Linked t.elements .next source target := by
  intro hs
  refine ensures_onPart.mpr ((Graph.edge_delivers hs.counted.memory _).mono (fun e g hg => ?_)
    fun _ _ hfault => excuses_of_isOwn hfault.isOwn)
  refine ⟨.single (.links hg hnew hissued), rfl, e, ?_⟩
  rw [elements, hg.elements]
  exact List.mem_append_right _ (List.mem_singleton_self _)

/-! ### Documents -/

/-- The document of a file that was not cleared, made when first needed. -/
theorem document_works (hfile : here file) : Works w here (document w file) s fun d t =>
    t.documents.get? file = some (.live d) ∧ t.records = s.records ∧ t.placed = s.placed ∧
      nextSourcesIn t.elements = nextSourcesIn s.elements ∧ s.graph.issued ≤ t.graph.issued := by
  refine follows_get ?_
  cases hslot : s.documents.get? file with
  | some slot =>
      cases slot with
      | live d => exact follows_pure ⟨hslot, rfl, rfl, rfl, Nat.le_refl _⟩
      | cleared => exact follows_throw ⟨file, hfile, hslot⟩
  | none =>
      intro hs
      refine ensures_bind.mpr (ensures_onPart.mpr ((Graph.vertex_delivers hs.counted.memory _).mono
        (fun v g hg => ?_) fun _ _ hfault => excuses_of_isOwn hfault.isOwn))
      refine ensures_bind.mpr (ensures_modify.mpr (ensures_pure.mpr
        ⟨.single (.opens hslot hg.1 rfl rfl), (Table.get?_insert _ _ _ _).trans (if_pos rfl), rfl,
          placed_open hslot hg.1 rfl, ?_, hg.1.issued⟩))
      rw [elements, hg.1.elements, nextSourcesIn_append]
      exact List.append_nil _

/-- A range in a live document is shelved there. -/
theorem shelved_of_live (hs : s.Counted w) {d : Document} {x : ElementId}
    (hd : s.documents.get? file = some (.live d)) (hx : x ∈ d.ranges) : s.Shelved file x :=
  ⟨d.vertex.id, hs.live file d hd, .inl ⟨file, d, hd, rfl, hx⟩⟩

/-- A range that stands nowhere yet is placed in the document of a file. -/
theorem addRange_works (hfile : here file) {x : ElementId} (hnew : x ∉ s.placed)
    (hissued : x.value ≤ s.graph.issued) : Works w here (addRange w file x) s fun _ t =>
      t.Shelved file x ∧ nextSourcesIn t.elements = nextSourcesIn s.elements ∧
        t.records = s.records := by
  refine (document_works hfile).bind fun d t _ ht hdocument => ?_
  obtain ⟨hlive, hrecords, hplaced, hnext, hle⟩ := hdocument
  have hshelves : Collects w t _ :=
    .shelves hlive (hplaced ▸ hnew) (Nat.le_trans hissued hle)
  refine (collect_works fun _ => hshelves).mono fun _ u hu => ?_
  subst hu
  exact ⟨shelved_of_live (hshelves.counted ht.counted)
    ((Table.get?_insert _ _ _ _).trans (if_pos rfl))
    (List.mem_append_right _ (List.mem_singleton_self x)), hnext, hrecords⟩

theorem beginContainer_works (hfile : here file) {x : ElementId} :
    Works w here (beginContainer w file x) s fun _ _ => True := by
  refine (document_works hfile).bind fun d t _ _ hdocument => ?_
  have hvertex : (d.beginContainer x).vertex = d.vertex := rfl
  exact (collect_works fun _ => .nests hdocument.1 hvertex rfl).mono fun _ _ _ => trivial

/-- Closing a container leaves the ranges of a document, or fails for want of one. -/
theorem Document.endContainer_cases (d : Document) :
    (∃ d', d.endContainer = .ok d' ∧ d'.vertex = d.vertex ∧ d'.ranges = d.ranges) ∨
      d.endContainer = .error (.unbalancedContainers d.path) := by
  unfold Document.endContainer
  split
  · exact .inr rfl
  · exact .inl ⟨_, rfl, rfl, rfl⟩
  · exact .inl ⟨_, rfl, rfl, rfl⟩

theorem endContainer_works (hfile : here file) :
    Works w here (endContainer w file) s fun _ _ => True := by
  refine (document_works hfile).bind fun d t _ _ hdocument => ?_
  rcases Document.endContainer_cases d with ⟨d', hok, hvertex, hranges⟩ | herror
  · rw [hok]
    exact (collect_works fun _ => .nests hdocument.1 hvertex hranges).mono fun _ _ _ => trivial
  · rw [herror]
    exact follows_throw trivial

/-! ### Partitions -/

theorem watch_works {node : NodeId} :
    Works w here (watch node id) s fun _ t => t.records = s.records :=
  (collect_works fun _ => .watches).mono fun _ _ ht => ht ▸ rfl

/-- A record may have a partition put in the place of one that was not cleared, if any. -/
theorem putPartition_works {p : Partition} :
    Works w here (changeRecord id fun record =>
        { record with partitions := record.partitions.insert file (.live p) }) s fun _ t =>
      t = { s with records := s.records.modify id.index fun record =>
        { record with partitions := record.partitions.insert file (.live p) } } := by
  refine changeRecord_works fun r _ =>
    ⟨⟨⟨rfl, rfl, rfl, fun _ hv => hv⟩, fun hc => hc, fun file' hcleared => ?_⟩, rfl⟩
  change (r.partitions.insert file (.live p)).get? file' = _ at hcleared
  rw [Table.get?_insert] at hcleared
  split at hcleared
  · cases hcleared
  · exact hcleared

/-- After this the record has a partition for the file, live or cleared. -/
theorem ensurePartition_works (hfile : here file) : Works w here (ensurePartition w id file) s
    fun _ t => ∀ r, t.records[id.index]? = some r → r.partitions.get? file ≠ none := by
  refine record_works.bind fun r t _ _ ht => ?_
  obtain ⟨rfl, hr⟩ := ht
  dsimp only
  split
  · rename_i hcontains
    refine follows_pure fun r' hr' hnone => ?_
    cases hr.symm.trans hr'
    rw [Table.contains, hnone] at hcontains
    cases hcontains
  · refine (document_works hfile).bind fun d t₁ _ _ _ => ?_
    refine putPartition_works.bind fun _ t₂ _ _ ht₂ => watch_works.mono fun _ t₃ ht₃ r' hr' => ?_
    rw [ht₃, ht₂, Array.getElem?_modify, if_pos rfl] at hr'
    obtain ⟨r₁, -, rfl⟩ := Option.map_eq_some_iff.mp hr'
    show (r₁.partitions.insert file _).get? file ≠ none
    rw [Table.get?_insert, if_pos rfl]
    exact Option.some_ne_none _

/-- A partition that was open may be filled. -/
theorem changePartition_works (hfile : here file) {f : Partition → Partition} :
    Works w here (changePartition w id file f) s fun _ _ => True := by
  refine (ensurePartition_works hfile).bind fun _ t _ _ hpresent => ?_
  refine record_works.bind fun r t' _ _ ht => ?_
  obtain ⟨rfl, hr⟩ := ht
  cases hslot : r.partitions.get? file with
  | none => exact absurd hslot (hpresent r hr)
  | some slot =>
      cases slot with
      | live p => exact putPartition_works.mono fun _ _ _ => trivial
      | cleared => exact follows_throw ⟨file, hfile, id.index, r, hr, hslot⟩

/-! ### References -/

/-- A record that is not open is a fault or takes no more. -/
theorem whenOpen_works {act : Record → Storing Unit}
    (h : ∀ r, s.records[id.index]? = some r → Works w here (act r) s fun _ _ => True) :
    Works w here (whenOpen id act) s fun _ _ => True := by
  refine record_works.bind fun r t _ _ ht => ?_
  obtain ⟨rfl, hr⟩ := ht
  have hclosed {post : Unit → Store → Prop} : Works w here (throw (.recordClosed r.key)) t post :=
    follows_throw trivial
  unfold Record.isOpen
  cases r.state with
  | opened => exact h r hr
  | unopened => exact hclosed
  | closed =>
      dsimp only
      split
      · exact hclosed
      · exact follows_pure trivial

/-- By induction on how far the reference is passed on: whoever collects it is open. -/
theorem addReferenceWithin_works (hfile : here file) {reference : Reference}
    {role : ReferenceRole} : ∀ (fuel : Nat) (id : RecordId) {s : Store},
      Works w here (addReferenceWithin w file reference role fuel id) s fun _ _ => True
  | 0, _, _ => follows_throw trivial
  | fuel + 1, id, s => by
      refine whenOpen_works fun r _ => ?_
      have hall (ids : List RecordId) :
          Works w here (ids.forM (addReferenceWithin w file reference role fuel)) s
            fun _ _ => True :=
        .forM (fun _ => True) ids (fun i _ _ _ => addReferenceWithin_works hfile fuel i) trivial
      split
      · exact addReferenceWithin_works hfile fuel _
      · exact hall _
      · exact hall _
      · exact changePartition_works hfile

theorem addReference_works (hfile : here file) {reference : Reference} {role : ReferenceRole} :
    Works w here (addReference w id file reference role) s fun _ _ => True :=
  follows_get (addReferenceWithin_works hfile _ id)

/-- A reference is received by each of the records in turn. -/
theorem addReferences_works (hfile : here file) {reference : Reference} {role : ReferenceRole}
    (ids : List RecordId) :
    Works w here (ids.forM fun i => addReference w i file reference role) s fun _ _ => True :=
  .forM (fun _ => True) ids (fun _ _ _ _ => addReference_works hfile) trivial

/-- The result set of an open record is linked to something that it does not lead on to. -/
theorem attach_works {kind : LinkKind} {target : ElementId} (hk : kind ≠ .next) :
    Works w here (attach id kind target) s fun _ _ => True :=
  whenOpen_works fun _ _ => resultSet_works.bind fun _ _ _ _ _ =>
    ((link_works hk).mono fun _ _ _ => trivial).discard

theorem addHover_works {hover : ElementId} :
    Works w here (addHover id hover) s fun _ _ => True :=
  attach_works (by decide)

theorem addMoniker_works {moniker : ElementId} :
    Works w here (addMoniker id moniker) s fun _ _ => True :=
  attach_works (by decide)

/-! ### Definitions -/

section Define

variable {info : DefinitionInfo} {x : ElementId} {tag : RangeTag} {r : Record}

theorem record_ensures {post : Record → Store → Prop} {fail : Fault → Store → Prop}
    (hr : s.records[id.index]? = some r) (h : post r s) : Ensures (record id) s post fail := by
  refine ensures_bind.mpr (ensures_get.mpr ?_)
  rw [hr]
  exact h

/-- A record that has noted coordinates leads their range to its result set.  Noting and leading are
one step: between the two, the coordinates are not backed. -/
theorem lead_ensures (hs : s.Orderly w) (hr : s.records[id.index]? = some r)
    (hx : Element.vertex x (.range (w.program.span info) (some tag)) ∈ s.elements)
    (hshelved : s.Shelved info.file x) (hnew : x ∉ nextSourcesIn s.elements)
    {rest : Storing Unit} {post : Unit → Store → Prop}
    (hrest : ∀ t, Gains w s t → Ensures rest t post fun fault _ => s.Excuses here fault) :
    Ensures (do
        let hub ← resultSet id
        discard (liftM (Graph.link .next x hub.id) : Storing ElementId)
        rest)
      { s with records := s.records.modify id.index fun record => record.addInfo info }
      post fun fault _ => s.Excuses here fault := by
  have hr' : (s.records.modify id.index fun record => record.addInfo info)[id.index]?
      = some (r.addInfo info) := by
    rw [Array.getElem?_modify, if_pos rfl, hr]
    rfl
  have hsame : (r.addInfo info).resultSet = r.resultSet := by
    unfold Record.addInfo
    split <;> rfl
  refine ensures_bind.mpr (ensures_bind.mpr (record_ensures hr' ?_))
  rw [Record.begunResultSet, hsame]
  cases hv : r.resultSet with
  | none => exact ensures_throw.mpr trivial
  | some hub =>
      have hhub : s.hub? id = some hub := Option.bind_eq_some_iff.mpr ⟨r, hr, hv⟩
      refine ensures_bind.mpr (ensures_discard.mpr (ensures_onPart.mpr ?_))
      refine (Graph.edge_delivers hs.counted.memory _).mono (fun e g hg => ?_)
        fun _ _ hfault => excuses_of_isOwn hfault.isOwn
      exact hrest _ (.single (.defines hx hshelved hhub hnew hg))

/-- A record that accepts definitions is open or refuses. -/
theorem isOpen_of_accepts (h : r.kind.acceptsDefinitions = true) :
    r.isOpen = .ok true ∨ r.isOpen = .error (.recordClosed r.key) := by
  unfold Record.isOpen
  split
  · exact .inl rfl
  · rw [if_pos (show r.kind.isStrict = true from h)]
    exact .inr rfl
  · exact .inr rfl

theorem kind_addInfo : (r.addInfo info).kind = r.kind := by
  unfold Record.addInfo
  split <;> rfl

/-- **A definition is noted and recorded** under a record that accepts definitions. -/
theorem define_works (hfile : here info.file) {asReference : Bool}
    (hkind : ∀ r, s.records[id.index]? = some r → r.kind.acceptsDefinitions = true)
    (hx : Element.vertex x (.range (w.program.span info) (some tag)) ∈ s.elements)
    (hshelved : s.Shelved info.file x) (hnew : x ∉ nextSourcesIn s.elements) :
    Works w here (do
        addInfo id info
        addDefinition w id info.file x asReference) s fun _ _ => True := by
  intro hs
  refine ensures_bind.mpr (ensures_bind.mpr (ensures_discard.mpr ?_))
  cases hr : s.records[id.index]? with
  | none =>
      refine ensures_bind.mpr (ensures_get.mpr ?_)
      rw [hr]
      exact ensures_throw.mpr trivial
  | some r =>
      -- `addInfo` changes no kind and no state, so the record that `addDefinition` reads accepts it
      -- as the old one did.
      have hr' : (s.records.modify id.index fun record => record.addInfo info)[id.index]?
          = some (r.addInfo info) := by
        rw [Array.getElem?_modify, if_pos rfl, hr]
        rfl
      have haccepts : (r.addInfo info).kind.acceptsDefinitions = true := by
        rw [kind_addInfo]
        exact hkind r hr
      refine record_ensures hr (ensures_modify.mpr (ensures_bind.mpr (record_ensures hr' ?_)))
      rcases isOpen_of_accepts haccepts with hopen | herror
      · rw [hopen]
        refine ensures_bind.mpr (ensures_ofExcept_ok.mpr ?_)
        rw [if_pos rfl]
        dsimp only
        have hown {asReference : Bool} {rest : Storing Unit} (hrest : ∀ t, Works w here rest t
            fun _ _ => True) : Ensures (addOwnDefinition w id info.file x asReference)
              { s with records := s.records.modify id.index fun record => record.addInfo info }
              (fun _ t => Ensures rest t (fun _ u => Gains w s u ∧ True)
                fun fault _ => s.Excuses here fault) fun fault _ => s.Excuses here fault := by
          refine lead_ensures hs hr hx hshelved hnew fun t ht => ?_
          refine ((changePartition_works hfile).after hs ht).mono (fun _ u hu => ?_)
            fun _ _ hfault => hfault
          exact (hrest u).after hs hu.1
        have hkeep {asReference : Bool} : Ensures (addOwnDefinition w id info.file x asReference)
            { s with records := s.records.modify id.index fun record => record.addInfo info }
            (fun _ t => Gains w s t ∧ True) fun fault _ => s.Excuses here fault :=
          lead_ensures hs hr hx hshelved hnew fun t ht => (changePartition_works hfile).after hs ht
        split
        · exact hkeep
        · exact hkeep
        · exact lead_ensures hs hr hx hshelved hnew fun t ht =>
            (addReference_works hfile).after hs ht
        · exact hkeep
        · exact ensures_bind.mpr (hown fun t => addReferences_works hfile _)
        · rename_i hcomposite
          rw [hcomposite] at haccepts
          cases haccepts
        · rename_i htransient
          rw [htransient] at haccepts
          cases haccepts
      · rw [herror]
        exact ensures_bind.mpr (ensures_ofExcept_error.mpr trivial)

end Define

/-! ### New records -/

/-- **A record is opened and tied to the records it passes on to.** -/
theorem begin_works {r : Record} (hr : s.records[id.index]? = some r) (hhub : r.resultSet = none)
    (hfile : ∀ anchor, r.kind.anchor? = some anchor → here anchor) :
    Works w here (begin w id) s fun _ _ => True := by
  intro hs
  refine Follows.bind (onRecord_works (fun r _ => Ledger.begin_scribes) fun r' _ l' hr' hl' => ?_)
    (fun hub t _ ht hbegun => ?_) hs
  · cases hr.symm.trans hr'
    rw [hl'.1]
    refine ⟨⟨⟨rfl, rfl, rfl, fun v hv => ?_⟩, nofun, fun _ hc => hc⟩, rfl⟩
    rw [hhub] at hv
    cases hv
  · obtain ⟨r', l', hr', ⟨written, hd, hq⟩, ⟨hrecord, -, hnew, hissued⟩, rfl⟩ := hbegun
    cases hr.symm.trans hr'
    refine record_works.bind fun known u _ _ hu => ?_
    obtain ⟨rfl, hknown⟩ := hu
    have hkind : known.kind = r.kind := by
      rw [Array.getElem?_modify, if_pos rfl, hr] at hknown
      cases hknown
      rw [hrecord]
    rw [hkind]
    split
    · -- The result set is new, so it leads nowhere yet.
      refine resultSet_works.bind fun target u _ _ hu => ?_
      obtain ⟨rfl, -⟩ := hu
      refine ((next_works ?_ hissued).mono fun _ _ _ => trivial).discard
      rw [elements, hd.elements, nextSourcesIn_quiet hq]
      exact fun hmem => absurd (hs.counted.leading.issued _ hmem) (Nat.not_le.mpr hnew)
    · rename_i base bases anchor heq
      have hanchor := hfile anchor (by rw [heq]; rfl)
      exact referenceResult_works.bind fun own u _ _ _ => addReferences_works hanchor _
    · rename_i elements anchor heq
      have hanchor := hfile anchor (by rw [heq]; rfl)
      refine .forM (fun _ => True) elements (fun element _ u _ => ?_) trivial
      exact referenceResult_works.bind fun result v _ _ _ => changePartition_works hanchor
    · exact follows_pure trivial

/-- The store with a new record, which its cache knows. -/
def pushed (s : Store) (fresh : Record) : Store :=
  { s with cache := s.cache.insert fresh.key (.live ⟨s.records.size⟩)
           records := s.records.push fresh }

section Push

variable {fresh : Record}

/-- The new record comes last. -/
theorem getElem?_pushed {i : Nat} {r : Record} :
    (s.pushed fresh).records[i]? = some r ↔
      s.records[i]? = some r ∨ i = s.records.size ∧ r = fresh := by
  simp only [pushed, Array.getElem?_push]
  by_cases hi : i = s.records.size
  · have hnone : s.records[i]? = none := Array.getElem?_eq_none (Nat.le_of_eq hi.symm)
    simp [hi, eq_comm]
  · simp [hi]

/-- The new record takes a key that was reserved, so no record loses its own. -/
theorem lasts_push (hkey : s.cache.get? fresh.key = some .resolving) :
    s.Lasts (s.pushed fresh) where
  elements := List.prefix_refl _
  records i r hr := ⟨r, getElem?_pushed.mpr (.inl hr), .refl r⟩
  keys := List.prefix_refl _
  ranges _ _ hx := hx
  ended _ hc := hc
  knows key hk := by
    obtain ⟨slot, hslot, hne⟩ := hk
    refine ⟨slot, ?_, hne⟩
    refine (get?_insert_of_ne _ key ?_).trans hslot
    rintro rfl
    exact hne (Option.some.inj (hslot.symm.trans hkey))

/-- The new record has no partition, so none was cleared. -/
theorem spares_push (hpartitions : fresh.partitions = ∅) : s.Spares (s.pushed fresh) where
  documents _ hcleared := hcleared
  partitions file hcleared := by
    obtain ⟨i, r, hr, hc⟩ := hcleared
    rcases getElem?_pushed.mp hr with hr | ⟨-, rfl⟩
    · exact ⟨i, r, hr, hc⟩
    · rw [hpartitions] at hc
      cases hc
  cache key hcleared := by
    simp only [pushed, Table.get?_insert] at hcleared
    split at hcleared
    · cases hcleared
    · exact hcleared

/-- A record for a reserved key is the only one with that key. -/
theorem Keyed.push (hs : s.Keyed) (hkey : s.cache.get? fresh.key = some .resolving) :
    (s.pushed fresh).Keyed := by
  have hother (i : Nat) (r : Record) (hr : s.records[i]? = some r) : r.key ≠ fresh.key := by
    intro heq
    rcases hs.known i r hr with hfound | hfound
    · cases (heq ▸ hfound).symm.trans hkey
    · cases (heq ▸ hfound).symm.trans hkey
  refine ⟨fun i r hr => ?_, fun key id hid => ?_, fun i j r r' hr hr' heq => ?_⟩
  · rcases getElem?_pushed.mp hr with hr | ⟨rfl, rfl⟩
    · simp only [pushed, get?_insert_of_ne _ r.key (hother i r hr)]
      exact hs.known i r hr
    · exact .inl ((Table.get?_insert _ _ _ _).trans (if_pos rfl))
  · simp only [pushed, Table.get?_insert] at hid
    split at hid
    · rename_i hfresh
      cases hid
      exact ⟨fresh, getElem?_pushed.mpr (.inr ⟨rfl, rfl⟩), hfresh.symm⟩
    · obtain ⟨r, hr, hrkey⟩ := hs.live key id hid
      exact ⟨r, getElem?_pushed.mpr (.inl hr), hrkey⟩
  · rcases getElem?_pushed.mp hr with hold | ⟨rfl, hnew⟩
    · rcases getElem?_pushed.mp hr' with hold' | ⟨-, hnew'⟩
      · exact hs.single i j r r' hold hold' heq
      · exact absurd (hnew' ▸ heq) (hother i r hold)
    · rcases getElem?_pushed.mp hr' with hold' | ⟨rfl, -⟩
      · exact absurd (hnew ▸ heq).symm (hother j r' hold')
      · rfl

/-- A record for a reserved key keeps a store in order. -/
theorem Orderly.push (hs : s.Orderly w) (hkey : s.cache.get? fresh.key = some .resolving)
    (hinfos : fresh.definitionInfos = []) : (s.pushed fresh).Orderly w := by
  refine ⟨hs.counted.congr rfl rfl rfl, hs.keyed.push hkey, ?_⟩
  refine hs.backed.lasts (lasts_push hkey) fun i r' hr' info hinfo => .inl ?_
  rcases getElem?_pushed.mp hr' with hr' | ⟨rfl, rfl⟩
  · exact ⟨r', hr', hinfo⟩
  · rw [hinfos] at hinfo
    cases hinfo

/-- **A new record is stored and begun.** -/
theorem insert_ensures (hs : s.Orderly w) (hkey : s.cache.get? fresh.key = some .resolving)
    (hinfos : fresh.definitionInfos = []) (hpartitions : fresh.partitions = ∅)
    (hhub : fresh.resultSet = none)
    (hfile : ∀ anchor, fresh.kind.anchor? = some anchor → here anchor) :
    Ensures (insert w fresh) s
      (fun id t => id = ⟨s.records.size⟩ ∧ Gains w (s.pushed fresh) t)
      fun fault _ => s.Excuses here fault := by
  refine ensures_bind.mpr (ensures_get.mpr (ensures_bind.mpr (ensures_modify.mpr
    (ensures_bind.mpr ?_))))
  have hbegin : Works w here (begin w ⟨s.records.size⟩) (s.pushed fresh) fun _ _ => True :=
    begin_works (getElem?_pushed.mpr (.inr ⟨rfl, rfl⟩)) hhub hfile
  refine Ensures.mono (hbegin (hs.push hkey hinfos)) (fun _ t ht => ?_) fun fault _ hfault => ?_
  · exact ensures_pure.mpr ⟨rfl, ht.1⟩
  · exact hfault.spared (spares_push hpartitions)

end Push

end Store

end SymbolGraph
