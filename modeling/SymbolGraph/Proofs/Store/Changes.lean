import SymbolGraph.Proofs.Store.Books

/-!
# Proofs — Store — the two ways a store changes

A store changes either around its records, by what it delivers itself and by its documents, or in
one record, which is written or collects something.

* `Store.Around`: a change around the records.  It posts what its elements say.
* `Store.Within`: a change in one record.  It posts what that record cites and defines by.
* `Store.vertex_does`, `Store.next_does`, `Store.link_does`: what a store delivers itself.
* `Store.onRecord_does`: writing a record.
-/

namespace SymbolGraph

theorem RecordId.index_ne {i j : RecordId} (h : i ≠ j) : i.index ≠ j.index := by
  cases i
  cases j
  exact fun heq => h (congrArg RecordId.mk heq)

namespace Store

open SymbolGraph.Action

variable {faults : Nat → Option SinkFault} {s t u : Store} {written : List Element}

/-- What a record cites and defines by, as facts. -/
def entries (id : RecordId) (cited : ItemProperty → ElementId → ElementId → Prop)
    (defined : ElementId → ElementId → Prop) : Set Fact :=
  { fact | match fact with
    | .cited i property document x => i = id ∧ cited property document x
    | .defined i document x        => i = id ∧ defined document x
    | _                            => False }

/-! ### Around the records -/

/-- Elements that say nothing about the results of any record. -/
structure Neutral (written : List Element) : Prop where
  linked : ∀ kind source target, Linked written kind source target →
    kind ≠ .references ∧ kind ≠ .definition
  listed : ∀ source property document id, ¬ Listed written source property document id

/-- Elements that say nothing about the results of any record and do not lead on. -/
structure Plain (written : List Element) : Prop extends Neutral written where
  rests : ∀ source target, ¬ Linked written .next source target

/-- What elements say by themselves. -/
def said (written : List Element) : Set Fact :=
  { fact | match fact with
    | .tagged range tag         => Tagged written range tag
    | .next source target       => Linked written .next source target
    | .contained document range => Contained written document range
    | _                         => False }

/-- A change around the records: elements beside them were delivered, and documents may have been
made, replaced or cleared. -/
structure Around (faults : Nat → Option SinkFault) (s t : Store) (written : List Element) : Prop
    where
  graph     : t.graph.Sound faults
  elements  : t.elements = s.elements ++ written
  neutral   : Neutral written
  falls     : ∀ source target, Linked written .next source target →
    Delivered s.elements .range source ∨ target.value < source.value
  records   : t.records = s.records
  project   : t.project.vertex = s.project.vertex
  listed    : ∀ id ∈ t.project.documents, id ∈ s.project.documents ∨
    Delivered t.elements .document id
  documents : ∀ file document, t.documents.get? file = some (.live document) →
    s.documents.get? file = some (.live document) ∨ document.Sound t.elements
  slots     : ∀ file slot, s.documents.get? file = some slot →
    ∃ slot', t.documents.get? file = some slot' ∧ ∀ document, slot' = .live document →
      ∃ known, slot = .live known ∧ document.vertex.id = known.vertex.id
  cached    : ∀ key id, t.cache.get? key = some (.live id) →
    s.cache.get? key = some (.live id) ∨ id.index < s.records.size

namespace Around

/-- A change around the records lets the store grow. -/
theorem grows (h : s.Around faults t written) : s.Grows t where
  elements := by
    rw [h.elements]
    exact List.prefix_append _ _
  records i r hr := by
    rw [h.records]
    exact ⟨r, hr, .refl _ _⟩

/-- A change around the records leaves a sound store sound. -/
theorem sound (hs : s.Sound faults) (h : s.Around faults t written) : t.Sound faults where
  graph := h.graph
  project := by
    rw [h.project]
    exact ⟨hs.project.1, hs.project.2.mono h.grows.elements⟩
  listed id hid := by
    rcases h.listed id hid with hid | hid
    · exact (hs.listed id hid).mono h.grows.elements
    · exact hid
  documents file document hd := by
    rcases h.documents file document hd with hd | hd
    · exact (hs.documents file document hd).mono h.grows.elements
    · exact hd
  records i r hr := by
    rw [h.records] at hr
    rw [h.elements]
    exact (hs.records i r hr).append fun v _ id =>
      ⟨fun hl => (h.neutral.linked _ _ _ hl).1 rfl, fun hl => (h.neutral.linked _ _ _ hl).2 rfl⟩
  hubs := by
    rw [h.records]
    exact hs.hubs
  citing := by
    rw [h.records]
    exact hs.citing
  defining := by
    rw [h.records]
    exact hs.defining
  -- A live slot was live before with the same vertex, so its partitions stay paired with it.
  paired i r hr file p hp := by
    rw [h.records] at hr
    obtain ⟨slot, hslot, hdocument⟩ := hs.paired i r hr file p hp
    obtain ⟨slot', hslot', hvertex⟩ := h.slots file slot hslot
    refine ⟨slot', hslot', fun document hlive => ?_⟩
    obtain ⟨known, rfl, hid⟩ := hvertex document hlive
    exact hid.trans (hdocument known rfl)
  descends i r hr := by
    rw [h.records] at hr
    exact hs.descends i r hr
  cached key id hid := by
    rw [h.records]
    rcases h.cached key id hid with hid | hid
    · exact hs.cached key id hid
    · exact hid
  falls source target hlinked := by
    rw [h.elements, linked_append] at hlinked
    exact (hlinked.elim (hs.falls source target) (h.falls source target)).imp_left fun hrange =>
      hrange.mono h.grows.elements

/-- So it leads from a sound store to a sound one. -/
theorem leads (hs : s.Sound faults) (h : s.Around faults t written) : s.Leads faults t :=
  ⟨h.sound hs, h.grows⟩

/-- Records keep their kinds and results. -/
theorem views (h : s.Around faults t written) :
    t.kind? = s.kind? ∧ t.citing? = s.citing? ∧ t.defining? = s.defining? := by
  unfold kind? citing? defining?
  rw [h.records]
  exact ⟨rfl, rfl, rfl⟩

/-- What a record cites stays the same, since nothing was listed. -/
theorem cited (h : s.Around faults t written) (id : RecordId) (property : ItemProperty)
    (document x : ElementId) :
    t.Holds (.cited id property document x) ↔ s.Holds (.cited id property document x) := by
  unfold Holds Record.Cites
  rw [h.records, h.elements]
  simp only [listed_append, h.neutral.listed, or_false]

/-- What a record defines stays the same, since nothing was listed. -/
theorem defined (h : s.Around faults t written) (id : RecordId) (document x : ElementId) :
    t.Holds (.defined id document x) ↔ s.Holds (.defined id document x) := by
  unfold Holds Record.Defines
  rw [h.records, h.elements]
  simp only [listed_append, h.neutral.listed, or_false]

/-- What was needed before is needed after, and what was there is there. -/
theorem warranted (h : s.Around faults t written) (hw : s.Warranted) : t.Warranted := by
  obtain ⟨hkind, hciting, hdefining⟩ := h.views
  unfold Warranted Needs
  simp only [hkind, hciting, hdefining, h.cited, h.defined]
  exact hw

/-- A change around the records adds facts that differ from what its elements say at most in what
documents have. -/
theorem adds (hs : s.Sound faults) (h : s.Around faults t written) {facts : Set Fact}
    (hcontained : ∀ document range, t.Holds (.contained document range) ↔
      s.Holds (.contained document range) ∨ .contained document range ∈ facts)
    (hrest : ∀ fact, (∀ document range, fact ≠ .contained document range) →
      (fact ∈ facts ↔ fact ∈ said written)) : s.Adds faults t facts where
  leads := h.leads hs
  size := by rw [h.records]
  holds fact := by
    cases fact with
    | contained document range => exact hcontained document range
    | tagged range tag =>
        rw [hrest (.tagged range tag) fun _ _ => nofun]
        show Tagged t.elements range tag ↔ _
        rw [h.elements, tagged_append]
        rfl
    | next source target =>
        rw [hrest (.next source target) fun _ _ => nofun]
        show Linked t.elements .next source target ↔ _
        rw [h.elements, linked_append]
        rfl
    | cited id property document x =>
        rw [hrest (.cited id property document x) fun _ _ => nofun, h.cited]
        exact (or_false _).to_iff.symm
    | defined id document x =>
        rw [hrest (.defined id document x) fun _ _ => nofun, h.defined]
        exact (or_false _).to_iff.symm
  warranted := h.warranted

/-- A change around the records that leaves documents alone adds what its elements say. -/
theorem adds_said (hs : s.Sound faults) (h : s.Around faults t written)
    (hd : t.documents = s.documents) : s.Adds faults t (said written) := by
  refine h.adds hs (fun document range => ?_) fun _ _ => .rfl
  show t.HasRange document range ∨ Contained t.elements document range ↔ _
  unfold HasRange
  rw [hd, h.elements, contained_append, ← or_assoc]
  rfl

/-- Around the records, what is posted is what the elements say. -/
theorem posts_said (hs : s.Sound faults) (h : s.Around faults t written)
    (hd : t.documents = s.documents) : s.Posts faults t (said written) :=
  (h.adds_said hs hd).posts (lasting_of_records h.records)

end Around

/-- Elements delivered by the store itself. -/
theorem around_graph {g : Graph} (hg : g.Sound faults)
    (he : g.elements = s.elements ++ written) (hw : Neutral written)
    (hfalls : ∀ source target, Linked written .next source target →
      Delivered s.elements .range source ∨ target.value < source.value) :
    s.Around faults { s with graph := g } written where
  graph := hg
  elements := he
  neutral := hw
  falls := hfalls
  records := rfl
  project := rfl
  listed _ hid := .inl hid
  documents _ _ hd := .inl hd
  slots _ slot hslot := ⟨slot, hslot, fun document hlive => ⟨document, hlive, rfl⟩⟩
  cached _ _ hid := .inl hid

/-- Nothing was delivered, so nothing was said. -/
theorem plain_nil : Plain [] :=
  ⟨⟨fun _ _ _ => by simp [Linked], fun _ _ _ _ => by simp [Listed]⟩, fun _ _ => by simp [Linked]⟩

/-- A vertex links nothing and lists nothing. -/
theorem plain_vertex {id : ElementId} {v : Vertex} : Plain [.vertex id v] :=
  ⟨⟨fun _ _ _ => by simp [Linked], fun _ _ _ _ => by simp [Listed]⟩, fun _ _ => by simp [Linked]⟩

/-- What does not lead on leads to nothing younger. -/
theorem Plain.falls {elements : List Element} (h : Plain written) (source target : ElementId)
    (hlinked : Linked written .next source target) :
    Delivered elements .range source ∨ target.value < source.value :=
  absurd hlinked (h.rests source target)

/-- Elements say together what they say one after the other. -/
theorem said_append {earlier later : List Element} :
    said (earlier ++ later) = said earlier ∪ said later := by
  ext fact
  cases fact with
  | tagged range tag => exact tagged_append
  | next source target => exact linked_append
  | contained document range => exact contained_append
  | cited id property document x => exact (or_self_iff).symm
  | defined id document x => exact (or_self_iff).symm

/-- Nothing says nothing. -/
theorem said_nil : said [] = ∅ := by
  refine Set.eq_empty_iff_forall_notMem.mpr fun fact => ?_
  cases fact <;> simp [said, Tagged, Linked, Contained]

/-- An element that was refused leaves the store sound, and its fault is plain. -/
theorem refused_leads (hs : s.Sound faults) {fault : Fault} {g : Graph}
    (h : s.graph.Refused faults fault g) :
    s.Leads faults { s with graph := g } ∧ fault.IsPlain := by
  obtain ⟨hg, he, reason, rfl⟩ := h
  have haround : s.Around faults { s with graph := g } [] :=
    around_graph hg (he.trans (List.append_nil _).symm) plain_nil.toNeutral plain_nil.falls
  exact ⟨haround.leads hs, fun key => nofun⟩

/-- A vertex delivered by the store itself. -/
theorem vertex_does (hs : s.Sound faults) (v : Vertex) :
    Does faults (liftM (Graph.vertex v)) s fun ref t => ∃ g, t = { s with graph := g } ∧
      ref.label = v.label ∧ s.Posts faults t (said [.vertex ref.id v]) ∧
      t.elements = s.elements ++ [.vertex ref.id v] ∧ ∀ e ∈ s.elements, e.id ≠ ref.id := by
  refine ensures_onPart.mpr ((Graph.vertex_ensures hs.graph v).mono ?_
    fun _ _ h => refused_leads hs h)
  rintro ref g ⟨⟨hg, he, hid⟩, hlabel⟩
  have haround : s.Around faults { s with graph := g } [.vertex ref.id v] :=
    around_graph hg he plain_vertex.toNeutral plain_vertex.falls
  refine ⟨g, rfl, hlabel, haround.posts_said hs rfl, he, fun e he => ?_⟩
  rw [show ref.id = ⟨s.graph.issued + 1⟩ from hid]
  exact hs.graph.id_ne_next he

/-- A vertex other than a tagged range says nothing by itself. -/
theorem said_vertex {id : ElementId} {v : Vertex} (hv : v.label ≠ .range) :
    said [.vertex id v] = ∅ := by
  refine Set.eq_empty_iff_forall_notMem.mpr fun fact hfact => ?_
  cases fact with
  | tagged range tag =>
      obtain ⟨span, hmem⟩ := hfact
      cases List.mem_singleton.mp hmem
      exact hv rfl
  | next source target =>
      obtain ⟨n, hmem⟩ := hfact
      cases List.mem_singleton.mp hmem
  | contained document range =>
      obtain ⟨n, targets, hmem, -⟩ := hfact
      cases List.mem_singleton.mp hmem
  | cited id property document x => exact hfact
  | defined id document x => exact hfact

/-- A tagged range says its tag. -/
theorem said_range {id : ElementId} {span : LineRange} {tag : RangeTag} :
    said [.vertex id (.range span (some tag))] = {.tagged id tag} := by
  ext fact
  cases fact with
  | tagged range tag' =>
      refine ⟨?_, ?_⟩
      · rintro ⟨span', hmem⟩
        cases List.mem_singleton.mp hmem
        rfl
      · intro h
        cases h
        exact ⟨span, List.mem_singleton_self _⟩
  | next source target =>
      refine ⟨?_, nofun⟩
      rintro ⟨n, hmem⟩
      cases List.mem_singleton.mp hmem
  | contained document range =>
      refine ⟨?_, nofun⟩
      rintro ⟨n, targets, hmem, -⟩
      cases List.mem_singleton.mp hmem
  | cited id property document x => exact ⟨nofun, nofun⟩
  | defined id document x => exact ⟨nofun, nofun⟩

/-- What a link says by itself. -/
theorem said_link {n source target : ElementId} {kind : LinkKind} :
    said [.edge n (.link kind source target)] =
      { fact | kind = .next ∧ fact = .next source target } := by
  ext fact
  cases fact with
  | next source' target' =>
      refine (Ledger.linked_singleton : Linked _ .next source' target' ↔ _).trans ⟨?_, ?_⟩
      · rintro ⟨rfl, rfl, rfl⟩
        exact ⟨rfl, rfl⟩
      · rintro ⟨rfl, heq⟩
        cases heq
        exact ⟨rfl, rfl, rfl⟩
  | tagged range tag =>
      refine ⟨?_, fun h => nomatch h.2⟩
      rintro ⟨span, hmem⟩
      cases List.mem_singleton.mp hmem
  | contained document range =>
      refine ⟨?_, fun h => nomatch h.2⟩
      rintro ⟨m, targets, hmem, -⟩
      cases List.mem_singleton.mp hmem
  | cited id property document x => exact ⟨nofun, fun h => nomatch h.2⟩
  | defined id document x => exact ⟨nofun, fun h => nomatch h.2⟩

/-- A link delivered by the store itself. -/
theorem link_does (hs : s.Sound faults) {kind : LinkKind} {source target : ElementId}
    (hkind : kind ≠ .references ∧ kind ≠ .definition)
    (hjoins : kind.Joins s.elements source target)
    (hfalls : kind = .next → Delivered s.elements .range source ∨ target.value < source.value) :
    Does faults (liftM (Graph.link kind source target)) s fun _ t =>
      ∃ g, t = { s with graph := g } ∧
        s.Posts faults t { fact | kind = .next ∧ fact = .next source target } := by
  have hrefers : (Edge.link kind source target).RefersTo s.elements := hjoins
  refine ensures_onPart.mpr ((Graph.edge_ensures hs.graph hrefers).mono ?_
    fun _ _ h => refused_leads hs h)
  rintro n g ⟨hg, he, -⟩
  have haround : s.Around faults { s with graph := g } [.edge n (.link kind source target)] := by
    refine around_graph hg he ⟨fun kind' source' target' hl => ?_, fun _ _ _ _ => by simp [Listed]⟩
      fun source' target' hl => ?_
    · obtain ⟨rfl, -⟩ := Ledger.linked_singleton.mp hl
      exact hkind
    · obtain ⟨hnext, rfl, rfl⟩ := Ledger.linked_singleton.mp hl
      exact hfalls hnext.symm
  exact ⟨g, rfl, (haround.posts_said hs rfl).congr said_link⟩

/-- A link other than `next` says nothing by itself. -/
theorem quietLink_does (hs : s.Sound faults) {kind : LinkKind} {source target : ElementId}
    (hkind : kind ≠ .next ∧ kind ≠ .references ∧ kind ≠ .definition)
    (hjoins : kind.Joins s.elements source target) :
    Does faults (liftM (Graph.link kind source target)) s fun _ t => s.Posts faults t ∅ := by
  refine (link_does hs hkind.2 hjoins fun hnext => absurd hnext hkind.1).mono ?_
  rintro _ _ ⟨g, rfl, hposts⟩
  exact hposts.congr (Set.eq_empty_iff_forall_notMem.mpr fun fact hfact => hkind.1 hfact.1)

/-- A `next` edge leads from a range or a younger result set to a result set. -/
theorem next_does (hs : s.Sound faults) {source target : ElementId}
    (hsource : Delivered s.elements .range source ∨
      Delivered s.elements .resultSet source ∧ target.value < source.value)
    (htarget : Delivered s.elements .resultSet target) :
    Does faults (liftM (Graph.link .next source target)) s fun _ t => ∃ g,
      t = { s with graph := g } ∧ s.Posts faults t {.next source target} := by
  have hjoins : LinkKind.next.Joins s.elements source target :=
    ⟨hsource.imp_right fun hset => hset.1, htarget⟩
  refine (link_does hs (by decide) hjoins fun _ => hsource.imp_right fun hset => hset.2).mono ?_
  rintro _ _ ⟨g, rfl, hposts⟩
  refine ⟨g, rfl, hposts.congr ?_⟩
  ext fact
  simp

/-! ### Notes that no fact hangs on -/

/-- The watchers and the cache may change, if it knows no record that there is not. -/
theorem notes_adds (hs : s.Sound faults) (watchers : Table NodeId (List RecordId))
    {cache : Table SymbolKey CacheSlot} (hcache : ∀ key id, cache.get? key = some (.live id) →
      s.cache.get? key = some (.live id) ∨ id.index < s.records.size) :
    s.Adds faults { s with watchers, cache } ∅ := by
  have haround : s.Around faults { s with watchers, cache } [] :=
    { graph := hs.graph
      elements := (List.append_nil _).symm
      neutral := plain_nil.toNeutral
      falls := plain_nil.falls
      records := rfl
      project := rfl
      listed := fun _ h => .inl h
      documents := fun _ _ h => .inl h
      slots := fun _ slot h => ⟨slot, h, fun document hlive => ⟨document, hlive, rfl⟩⟩
      cached := hcache }
  rw [← said_nil]
  exact haround.adds_said hs rfl

/-- A change of the watchers adds no fact. -/
theorem watchers_adds (hs : s.Sound faults) (watchers : Table NodeId (List RecordId)) :
    s.Adds faults { s with watchers } ∅ :=
  notes_adds hs watchers fun _ _ h => .inl h

/-- A change of the watchers posts nothing. -/
theorem watchers_posts (hs : s.Sound faults) (watchers : Table NodeId (List RecordId)) :
    s.Posts faults { s with watchers } ∅ :=
  (watchers_adds hs watchers).posts (lasting_of_records rfl)

/-- A change of the cache posts nothing. -/
theorem cache_posts (hs : s.Sound faults) {cache : Table SymbolKey CacheSlot}
    (hcache : ∀ key id, cache.get? key = some (.live id) →
      s.cache.get? key = some (.live id) ∨ id.index < s.records.size) :
    s.Posts faults { s with cache } ∅ :=
  (notes_adds hs s.watchers hcache).posts (lasting_of_records rfl)

/-! ### In one record -/

/-- A change in one record, and maybe to the graph. -/
structure Within (s t : Store) (id : RecordId) (r r' : Record) : Prop where
  old       : s.records[id.index]? = some r
  records   : ∀ j : Nat, t.records[j]? = if j = id.index then some r' else s.records[j]?
  size      : t.records.size = s.records.size
  project   : t.project = s.project
  documents : t.documents = s.documents
  cache     : t.cache = s.cache

/-- Changing one record is a change within it. -/
theorem within_modify {id : RecordId} {r : Record} (h : s.records[id.index]? = some r) (g : Graph)
    (f : Record → Record) :
    s.Within { s with graph := g, records := s.records.modify id.index f } id r (f r) where
  old := h
  records j := by
    rw [Array.getElem?_modify]
    by_cases hj : id.index = j
    · subst hj
      rw [if_pos rfl, if_pos rfl, h]
      rfl
    · rw [if_neg hj, if_neg (Ne.symm hj)]
  size := Array.size_modify
  project := rfl
  documents := rfl
  cache := rfl

namespace Within

variable {id : RecordId} {r r' : Record}

/-- The record is afterwards what it was changed to. -/
theorem new (h : s.Within t id r r') : t.records[id.index]? = some r' := by
  rw [h.records, if_pos rfl]

/-- All other records are as they were. -/
theorem other (h : s.Within t id r r') {j : Nat} (hj : j ≠ id.index) :
    t.records[j]? = s.records[j]? := by
  rw [h.records, if_neg hj]

/-- What holds of the changed record and of the others holds of all. -/
theorem forall_records (h : s.Within t id r r') {P : Nat → Record → Prop} (hnew : P id.index r')
    (hold : ∀ (j : Nat) (other : Record), j ≠ id.index → s.records[j]? = some other → P j other)
    (j : Nat) (other : Record) (hother : t.records[j]? = some other) : P j other := by
  by_cases hj : j = id.index
  · subst hj
    cases h.new.symm.trans hother
    exact hnew
  · rw [h.other hj] at hother
    exact hold j other hj hother

/-- The results of another record stay its own. -/
theorem paired (h : s.Within t id r r') {other : Record} (hp : s.Paired other) :
    t.Paired other := by
  unfold Paired
  rw [h.documents]
  exact hp

/-- Handles stay distinct when one is set to a new vertex. -/
theorem distinct (h : s.Within t id r r') {handle : Record → Option VertexRef}
    (hd : Distinct handle s.records)
    (hdelivered : ∀ (j : Nat) (r : Record) (v : VertexRef), s.records[j]? = some r →
      handle r = some v → ∃ label, Delivered s.elements label v.id)
    (hfixed : Fixed s.elements (handle r) (handle r')) : Distinct handle t.records := by
  -- The changed record against another one.
  have hcross : ∀ (j : Nat) (other : Record) (v v' : VertexRef), j ≠ id.index →
      s.records[j]? = some other → handle r' = some v → handle other = some v' → v.id ≠ v'.id := by
    intro j other v v' hj hother hv hv' hid
    rcases hfixed.old_or_new hv with hold | hnew
    · exact hj (hd id.index j r other v v' h.old hother hold hv' hid).symm
    · obtain ⟨label, x, -, hmem⟩ := hdelivered j other v' hother hv'
      exact hnew _ hmem hid.symm
  intro i j a b v v' ha hb hv hv' hid
  by_cases hi : i = id.index
  · by_cases hj : j = id.index
    · rw [hi, hj]
    · rw [hi, h.new] at ha
      cases ha
      rw [h.other hj] at hb
      exact absurd hid (hcross j b v v' hj hb hv hv')
  · rw [h.other hi] at ha
    by_cases hj : j = id.index
    · rw [hj, h.new] at hb
      cases hb
      exact absurd hid.symm (hcross i a v' v hi ha hv' hv)
    · rw [h.other hj] at hb
      exact hd i j a b v v' ha hb hv hv' hid

variable {faults : Nat → Option SinkFault}

/-- Where one record grows, the store grows. -/
theorem grows (h : s.Within t id r r')
    (ha : Ledger.Amends faults ⟨r, s.graph⟩ ⟨r', t.graph⟩) : s.Grows t where
  elements := by
    obtain ⟨written, he, -⟩ := ha.wrote
    show s.graph.elements <+: t.graph.elements
    rw [show t.graph.elements = s.graph.elements ++ written from he]
    exact List.prefix_append _ _
  records j other hother := by
    by_cases hj : j = id.index
    · subst hj
      cases h.old.symm.trans hother
      exact ⟨r', h.new, ha.grows⟩
    · rw [h.other hj]
      exact ⟨other, hother, .refl _ _⟩

/-- The handles of records stay distinct. -/
theorem handles (hs : s.Sound faults) (h : s.Within t id r r')
    (ha : Ledger.Amends faults ⟨r, s.graph⟩ ⟨r', t.graph⟩) :
    Distinct Record.resultSet t.records ∧ Distinct Record.referenceResult t.records ∧
      Distinct Record.definitionResult t.records :=
  ⟨h.distinct hs.hubs (fun j r v hr hv => ⟨_, (hs.records j r hr).resultSet v hv⟩)
      ha.grows.resultSet,
    h.distinct hs.citing (fun j r v hr hv => ⟨_, ((hs.records j r hr).referenceResult v hv).2⟩)
      ha.grows.referenceResult,
    h.distinct hs.defining (fun j r v hr hv => ⟨_, ((hs.records j r hr).definitionResult v hv).2⟩)
      ha.grows.definitionResult⟩

/-- What a record writes leads on to its results only. -/
theorem rests {written : List Element} (hw : r'.Wrote written) (source target : ElementId) :
    ¬ Linked written .next source target := by
  intro hlinked
  rcases (hw.linked _ _ _ hlinked).1 with heq | heq <;> cases heq

/-- What one record wrote says nothing about the results of another. -/
theorem untouched (hs : s.Sound faults) (h : s.Within t id r r')
    (ha : Ledger.Amends faults ⟨r, s.graph⟩ ⟨r', t.graph⟩) {written : List Element}
    (hw : r'.Wrote written) {j : Nat} {other : Record} (hj : j ≠ id.index)
    (hother : s.records[j]? = some other) : other.Untouched written := by
  have hsound := hs.records j other hother
  have hother' : t.records[j]? = some other := by
    rw [h.other hj]
    exact hother
  have helements := (h.grows ha).elements
  obtain ⟨hhubs, hciting, hdefining⟩ := h.handles hs ha
  -- An edge that the record wrote leaves one of its own handles, which no other record has.
  refine ⟨fun v hv x => ?_, fun v hv property document x hlisted => ?_,
    fun v hv property document x hlisted => ?_⟩
  · have hlink : ∀ kind, ¬ Linked written kind v.id x := by
      intro kind hlinked
      obtain ⟨-, u, hu, hid⟩ := hw.linked kind v.id x hlinked
      exact hj (hhubs id.index j r' other u v h.new hother' hu hv hid).symm
    exact ⟨hlink _, hlink _⟩
  · rcases hw.listed v.id property document x hlisted with ⟨u, hu, hid⟩ | ⟨u, hu, hid⟩
    · exact hj (hciting id.index j r' other u v h.new hother' hu hv hid).symm
    · have hv' := (hsound.referenceResult v hv).2.mono helements
      have hu' := (ha.sound.record.definitionResult u hu).2
      rw [hid] at hu'
      cases ha.sound.graph.label_unique hu' hv'
  · rcases hw.listed v.id property document x hlisted with ⟨u, hu, hid⟩ | ⟨u, hu, hid⟩
    · have hv' := (hsound.definitionResult v hv).2.mono helements
      have hu' := (ha.sound.record.referenceResult u hu).2
      rw [hid] at hu'
      cases ha.sound.graph.label_unique hu' hv'
    · exact hj (hdefining id.index j r' other u v h.new hother' hu hv hid).symm

/-- A sound record in a sound store leaves the store sound. -/
theorem sound (hs : s.Sound faults) (h : s.Within t id r r')
    (ha : Ledger.Amends faults ⟨r, s.graph⟩ ⟨r', t.graph⟩) (hp : s.Paired r') :
    t.Sound faults where
  graph := ha.sound.graph
  project := by
    rw [h.project]
    exact ⟨hs.project.1, hs.project.2.mono (h.grows ha).elements⟩
  listed x hx := by
    rw [h.project] at hx
    exact (hs.listed x hx).mono (h.grows ha).elements
  documents file document hd := by
    rw [h.documents] at hd
    exact (hs.documents file document hd).mono (h.grows ha).elements
  records := by
    refine h.forall_records ha.sound.record fun j other hj hother => ?_
    obtain ⟨written, he, hw⟩ := ha.wrote
    show other.Sound t.graph.elements
    rw [show t.graph.elements = s.graph.elements ++ written from he]
    exact (hs.records j other hother).append (h.untouched hs ha hw hj hother).linked
  hubs := (h.handles hs ha).1
  citing := (h.handles hs ha).2.1
  defining := (h.handles hs ha).2.2
  paired := h.forall_records (h.paired hp) fun j other _ hother =>
    h.paired (hs.paired j other hother)
  descends := by
    refine h.forall_records ?_ fun j other _ hother => hs.descends j other hother
    rw [ha.grows.kind]
    exact hs.descends id.index r h.old
  cached key x hx := by
    rw [h.cache] at hx
    rw [h.size]
    exact hs.cached key x hx
  falls source target hlinked := by
    obtain ⟨written, he, hw⟩ := ha.wrote
    change Linked t.graph.elements .next source target at hlinked
    rw [show t.graph.elements = s.graph.elements ++ written from he, linked_append] at hlinked
    exact (hs.falls source target (hlinked.resolve_right (rests hw source target))).imp_left
      fun hrange => hrange.mono (h.grows ha).elements

/-- So the change leads from a sound store to a sound one. -/
theorem leads (hs : s.Sound faults) (h : s.Within t id r r')
    (ha : Ledger.Amends faults ⟨r, s.graph⟩ ⟨r', t.graph⟩) (hp : s.Paired r') : s.Leads faults t :=
  ⟨h.sound hs ha hp, h.grows ha⟩

/-- No record changes its kind. -/
theorem kinds (h : s.Within t id r r')
    (ha : Ledger.Amends faults ⟨r, s.graph⟩ ⟨r', t.graph⟩) : t.kind? = s.kind? := by
  funext i
  unfold kind?
  by_cases hi : i.index = id.index
  · rw [hi, h.new, h.old]
    exact congrArg some ha.grows.kind
  · rw [h.other hi]

/-- The facts that a change in one record leaves: those about the record are its own. -/
theorem holds (hs : s.Sound faults) (h : s.Within t id r r')
    (ha : Ledger.Amends faults ⟨r, s.graph⟩ ⟨r', t.graph⟩)
    {cited : ItemProperty → ElementId → ElementId → Prop} {defined : ElementId → ElementId → Prop}
    (hcites : ∀ property document x, r'.Cites t.elements property document x ↔
      r.Cites s.elements property document x ∨ cited property document x)
    (hdefines : ∀ document x, r'.Defines t.elements document x ↔
      r.Defines s.elements document x ∨ defined document x) (fact : Fact) :
    t.Holds fact ↔ s.Holds fact ∨ fact ∈ entries id cited defined := by
  obtain ⟨written, he, hw⟩ := ha.wrote
  have he' : t.elements = s.elements ++ written := he
  -- What is written are item edges of the record `id` alone; the other three kinds of fact do not
  -- change.
  cases fact with
  | tagged range tag =>
      show Tagged t.elements range tag ↔ Tagged s.elements range tag ∨ False
      rw [he', tagged_append, iff_false_intro (hw.tagged range tag)]
  | next source target =>
      show Linked t.elements .next source target ↔ Linked s.elements .next source target ∨ False
      rw [he', linked_append, iff_false_intro (rests hw source target)]
  | contained document range =>
      show t.HasRange document range ∨ Contained t.elements document range ↔
        (s.HasRange document range ∨ Contained s.elements document range) ∨ False
      unfold HasRange
      rw [he', contained_append, iff_false_intro (hw.contained document range), h.documents,
        or_false, or_false]
  | cited i property document x =>
      by_cases hi : i = id
      · subst hi
        simp only [Holds, entries, Set.mem_ofPred_eq, h.new, h.old, Option.some.injEq,
          exists_eq_left', true_and]
        exact hcites property document x
      · have hindex := RecordId.index_ne hi
        simp only [Holds, entries, Set.mem_ofPred_eq, hi, false_and, or_false, h.other hindex, he']
        exact exists_congr fun other => and_congr_right fun hother =>
          Record.cites_append (h.untouched hs ha hw hindex hother)
  | defined i document x =>
      by_cases hi : i = id
      · subst hi
        simp only [Holds, entries, Set.mem_ofPred_eq, h.new, h.old, Option.some.injEq,
          exists_eq_left', true_and]
        exact hdefines document x
      · have hindex := RecordId.index_ne hi
        simp only [Holds, entries, Set.mem_ofPred_eq, hi, false_and, or_false, h.other hindex, he']
        exact exists_congr fun other => and_congr_right fun hother =>
          Record.defines_append (h.untouched hs ha hw hindex hother)

/-- A result made in one record needs a reason. -/
theorem warranted (h : s.Within t id r r')
    (ha : Ledger.Amends faults ⟨r, s.graph⟩ ⟨r', t.graph⟩)
    (hholds : ∀ fact, s.Holds fact → t.Holds fact)
    (hciting : r'.referenceResult ≠ none → r.referenceResult ≠ none ∨
      (∃ property document x, r'.Cites t.elements property document x) ∨ s.Needs id)
    (hdefining : r'.definitionResult ≠ none → r.definitionResult ≠ none ∨
      ∃ document x, r'.Defines t.elements document x) (hw : s.Warranted) : t.Warranted := by
  have hneeds : ∀ i, s.Needs i → t.Needs i := by
    intro i hi
    unfold Needs
    rw [h.kinds ha]
    exact hi
  have hcited : ∀ i, (∃ property document x, s.Holds (.cited i property document x)) ∨ s.Needs i →
      (∃ property document x, t.Holds (.cited i property document x)) ∨ t.Needs i := by
    rintro i (⟨property, document, x, hx⟩ | hi)
    · exact .inl ⟨property, document, x, hholds _ hx⟩
    · exact .inr (hneeds i hi)
  intro i
  by_cases hi : i = id
  · subst hi
    unfold citing? defining?
    rw [h.new]
    refine ⟨fun hne => ?_, fun hne => ?_⟩
    · rcases hciting hne with hold | ⟨property, document, x, hx⟩ | hi
      · refine hcited i ((hw i).1 ?_)
        unfold citing?
        rw [h.old]
        exact hold
      · exact .inl ⟨property, document, x, r', h.new, hx⟩
      · exact .inr (hneeds i hi)
    · rcases hdefining hne with hold | ⟨document, x, hx⟩
      · have hold' : s.defining? i ≠ none := by
          unfold defining?
          rw [h.old]
          exact hold
        obtain ⟨document, x, hx⟩ := (hw i).2 hold'
        exact ⟨document, x, hholds _ hx⟩
      · exact ⟨document, x, r', h.new, hx⟩
  -- A record other than `id` keeps its results and its reasons for them.
  · unfold citing? defining?
    rw [h.other (RecordId.index_ne hi)]
    refine ⟨fun hne => hcited i ((hw i).1 hne), fun hne => ?_⟩
    obtain ⟨document, x, hx⟩ := (hw i).2 hne
    exact ⟨document, x, hholds _ hx⟩

/-- What is lasting stays so, if the record that changed does. -/
theorem lasting (h : s.Within t id r r') (hr : r.Lasting → r'.Lasting) (hl : s.Lasting) :
    t.Lasting :=
  h.forall_records (hr (hl _ _ h.old)) fun j other _ hother => hl j other hother

/-- What is open stays open, if the record that changed does. -/
theorem stable (h : s.Within t id r r') (hstate : r.state = .opened → r'.state = .opened) :
    s.Stable t := by
  refine ⟨fun file document hd => ?_, fun other hother => ?_⟩
  · rw [h.documents]
    exact hd
  · obtain ⟨known, hknown, hopen⟩ := hother
    by_cases hindex : other.index = id.index
    · rw [hindex] at hknown
      cases h.old.symm.trans hknown
      refine ⟨r', ?_, hstate hopen⟩
      rw [hindex]
      exact h.new
    · refine ⟨known, ?_, hopen⟩
      rw [h.other hindex]
      exact hknown

/-- What a change in one record posts. -/
theorem posts (hs : s.Sound faults) (h : s.Within t id r r')
    (ha : Ledger.Amends faults ⟨r, s.graph⟩ ⟨r', t.graph⟩) (hp : s.Paired r')
    (hr : r.Lasting → r'.Lasting)
    {cited : ItemProperty → ElementId → ElementId → Prop} {defined : ElementId → ElementId → Prop}
    (hcites : ∀ property document x, r'.Cites t.elements property document x ↔
      r.Cites s.elements property document x ∨ cited property document x)
    (hdefines : ∀ document x, r'.Defines t.elements document x ↔
      r.Defines s.elements document x ∨ defined document x)
    (hciting : r'.referenceResult ≠ none → r.referenceResult ≠ none ∨ s.Needs id)
    (hdefining : r'.definitionResult ≠ none → r.definitionResult ≠ none) :
    s.Posts faults t (entries id cited defined) where
  leads := h.leads hs ha hp
  size := h.size
  lasting := h.lasting hr
  holds _ := h.holds hs ha hcites hdefines
  warranted _ := h.warranted ha (fun fact hf => (h.holds hs ha hcites hdefines fact).mpr (.inl hf))
    (fun hne => (hciting hne).imp_right .inr) fun hne => .inl (hdefining hne)

/-- Writing that keeps a record's books keeps those of the store. -/
theorem settles (hs : s.Sound faults) (h : s.Within t id r r')
    (hsettles : Ledger.Settles faults ⟨r, s.graph⟩ ⟨r', t.graph⟩) : s.Adds faults t ∅ := by
  have ha := hsettles.writes.toAmends
  have hp : s.Paired r' := fun file p hp =>
    hs.paired id.index r h.old file p (hsettles.writes.clears file p hp)
  have hholds : ∀ fact, t.Holds fact ↔ s.Holds fact := by
    intro fact
    rw [h.holds hs ha (fun _ _ _ => (hsettles.cites _ _ _).trans (or_false _).to_iff.symm)
      fun _ _ => (hsettles.defines _ _).trans (or_false _).to_iff.symm]
    refine or_iff_left fun hfact => ?_
    cases fact with
    | cited i property document x => exact hfact.2
    | defined i document x => exact hfact.2
    | _ => exact hfact
  refine ⟨h.leads hs ha hp, h.size, fun fact => (hholds fact).trans (or_false _).to_iff.symm,
    h.warranted ha (fun fact => (hholds fact).mpr) ?_ ?_⟩
  · intro hne
    refine (hsettles.cited hne).imp_right ?_
    rintro ⟨property, document, x, hx⟩
    exact .inl ⟨property, document, x, (hsettles.cites property document x).mpr hx⟩
  · intro hne
    refine (hsettles.defined hne).imp_right ?_
    rintro ⟨document, x, hx⟩
    exact ⟨document, x, (hsettles.defines document x).mpr hx⟩

end Within

/-! ### Operations on one record -/

/-- A record is looked up, and the store stays as it is. -/
theorem record_does (hs : s.Sound faults) (id : RecordId) :
    Does faults (record id) s fun r t => s = t ∧ s.records[id.index]? = some r := by
  unfold record
  refine ensures_bind.mpr (ensures_get.mpr ?_)
  cases hr : s.records[id.index]? with
  | some r => exact does_pure ⟨rfl, rfl⟩
  | none => exact does_throw hs fun _ h => by cases h

/-- Writing a record, by what it comes to for the record and its graph. -/
theorem onRecord_does {α : Type} {act : Ledger.Writing α} {id : RecordId} (hs : s.Sound faults)
    {post : Record → α → Ledger → Prop}
    (h : ∀ r, s.records[id.index]? = some r → Ledger.Does faults act ⟨r, s.graph⟩ (post r)) :
    Does faults (onRecord id act) s fun a t => ∃ r r', s.Within t id r r' ∧
      post r a ⟨r', t.graph⟩ := by
  unfold onRecord
  refine (record_does hs id).bind ?_
  rintro r _ ⟨rfl, hr⟩
  refine ⟨.refl hs, ensures_onPart.mpr (Ensures.mono (h r hr) ?_ ?_)⟩
  · intro a l hl
    exact ⟨r, l.record, within_modify hr l.graph fun _ => l.record, hl⟩
  · rintro fault l ⟨hw, hplain⟩
    have hwithin := within_modify hr l.graph fun _ => l.record
    exact ⟨hwithin.leads hs hw.toAmends fun file p hp =>
      hs.paired id.index r hr file p (hw.clears file p hp), hplain⟩

/-- A record is changed, and the graph stays as it is. -/
theorem changeRecord_does {id : RecordId} (hs : s.Sound faults) (f : Record → Record) :
    Does faults (changeRecord id f) s fun _ t => t.graph = s.graph ∧
      ∃ r, s.Within t id r (f r) := by
  unfold changeRecord
  refine ensures_bind.mpr (ensures_discard.mpr (Ensures.mono (record_does hs id) ?_
    fun _ _ h => h))
  rintro r _ ⟨rfl, hr⟩
  exact ensures_modify.mpr ⟨rfl, r, within_modify hr s.graph f⟩

end Store

end SymbolGraph
