import Mathlib.Data.Set.Insert
import SymbolGraph.Proofs.Record.Ledger
import SymbolGraph.Proofs.Record.Routes
import SymbolGraph.Store.LifeCycle

/-!
# Proofs — Store — the books of a run

What a run has recorded so far is a set of *facts*: which ranges were tagged how, what leads on to
what, which ranges a document has, and what each record cites and defines by.  A fact may stand in
the store, still to be written, or in the graph.

* `Store.Sound`: every handle of the store was delivered under the label it should have, no two
  records share one, records pass on to older records only, and so do `next` edges between result
  sets.  It holds whatever fails.
* `Store.Lasting`: records are written to in their time, as long as nothing failed and the project
  has not ended.
* `Store.Holds`: the facts.
* `Store.Adds`, `Store.Posts`: an operation that ended well and added exactly the given facts,
  always or as long as records are written to in their time.
* `Store.Does`: operations described by how they may fail and how they end well.
-/

namespace SymbolGraph

/-- The document, its ranges and the ranges of its symbols were delivered. -/
structure Document.Sound (elements : List Element) (document : Document) : Prop where
  vertex     : document.vertex.label = .document ∧
    Delivered elements .document document.vertex.id
  ranges     : ∀ id ∈ document.ranges, Delivered elements .range id
  containers : ∀ container ∈ document.containers, Delivered elements .range container.range ∧
    ∀ id ∈ SymbolTree.idsOf container.children, Delivered elements .range id
  symbols    : ∀ id ∈ SymbolTree.idsOf document.symbols, Delivered elements .range id

/-- A document stays sound when more is delivered. -/
theorem Document.Sound.mono {earlier later : List Element} (h : earlier <+: later)
    {document : Document} (hd : document.Sound earlier) : document.Sound later where
  vertex := ⟨hd.vertex.1, hd.vertex.2.mono h⟩
  ranges id hid := (hd.ranges id hid).mono h
  containers container hc :=
    ⟨(hd.containers container hc).1.mono h,
      fun id hid => ((hd.containers container hc).2 id hid).mono h⟩
  symbols id hid := (hd.symbols id hid).mono h

/-- A record that was begun, and keeps nothing once it is closed.  One that collects no definitions
is not closed before the end of the project. -/
structure Record.Lasting (r : Record) : Prop where
  begun : ∃ v, r.resultSet = some v
  state : r.state = .opened ∨ r.state = .closed ∧ r.partitions = ∅
  lasts : r.kind.acceptsDefinitions = false → r.state = .opened ∧ r.scope = none

namespace Store

open SymbolGraph.Action

/-- The elements delivered so far. -/
abbrev elements (s : Store) : List Element := s.graph.elements

/-! ### Records by number -/

/-- The kind of a record. -/
def kind? (s : Store) (id : RecordId) : Option RecordKind := s.records[id.index]?.map Record.kind

/-- The result set of a record. -/
def hub? (s : Store) (id : RecordId) : Option VertexRef :=
  s.records[id.index]?.bind Record.resultSet

/-- The reference result of a record. -/
def citing? (s : Store) (id : RecordId) : Option VertexRef :=
  s.records[id.index]?.bind Record.referenceResult

/-- The definition result of a record. -/
def defining? (s : Store) (id : RecordId) : Option VertexRef :=
  s.records[id.index]?.bind Record.definitionResult

/-- A record that may be written to. -/
def IsOpen (s : Store) (id : RecordId) : Prop :=
  ∃ r, s.records[id.index]? = some r ∧ r.state = .opened

/-! ### What holds whatever fails -/

/-- No two records have one handle. -/
def Distinct (handle : Record → Option VertexRef) (records : Array Record) : Prop :=
  ∀ (i j : Nat) (r r' : Record) (v v' : VertexRef), records[i]? = some r → records[j]? = some r' →
    handle r = some v → handle r' = some v' → v.id = v'.id → i = j

/-- A live partition for a file belongs to the document of the file, as long as that is live. -/
def Paired (s : Store) (r : Record) : Prop :=
  ∀ file p, r.partitions.get? file = some (.live p) →
    ∃ slot, s.documents.get? file = some slot ∧
      ∀ document, slot = .live document → document.vertex.id = p.document

/-- A `next` edge that does not leave a range leads to what is older than its source. -/
def Falls (elements : List Element) : Prop :=
  ∀ source target, Linked elements .next source target →
    Delivered elements .range source ∨ target.value < source.value

/-- What holds of a store whatever fails. -/
structure Sound (faults : Nat → Option SinkFault) (s : Store) : Prop where
  graph     : s.graph.Sound faults
  project   : s.project.vertex.label = .project ∧ Delivered s.elements .project s.project.vertex.id
  listed    : ∀ id ∈ s.project.documents, Delivered s.elements .document id
  documents : ∀ file document, s.documents.get? file = some (.live document) →
    document.Sound s.elements
  records   : ∀ (i : Nat) (r : Record), s.records[i]? = some r → r.Sound s.elements
  hubs      : Distinct Record.resultSet s.records
  citing    : Distinct Record.referenceResult s.records
  defining  : Distinct Record.definitionResult s.records
  paired    : ∀ (i : Nat) (r : Record), s.records[i]? = some r → s.Paired r
  descends  : ∀ (i : Nat) (r : Record), s.records[i]? = some r → ∀ ids, r.kind.passesTo = some ids →
    ∀ id ∈ ids, id.index < i
  cached    : ∀ key id, s.cache.get? key = some (.live id) → id.index < s.records.size
  falls     : Falls s.elements

/-- What never changes about a store: what was delivered, and its records. -/
structure Grows (s t : Store) : Prop where
  elements : s.elements <+: t.elements
  records  : ∀ (i : Nat) (r : Record), s.records[i]? = some r →
    ∃ r', t.records[i]? = some r' ∧ r.Grows s.elements r'

theorem Grows.refl (s : Store) : s.Grows s := ⟨List.prefix_refl _, fun _ r h => ⟨r, h, .refl _ _⟩⟩

/-- A store grows over two steps. -/
theorem Grows.trans {s t u : Store} (h : s.Grows t) (h' : t.Grows u) : s.Grows u where
  elements := h.elements.trans h'.elements
  records i r hr := by
    obtain ⟨r', hr', hg⟩ := h.records i r hr
    obtain ⟨r'', hr'', hg'⟩ := h'.records i r' hr'
    exact ⟨r'', hr'', hg.trans h.elements hg'⟩

/-- No record is gone. -/
theorem Grows.size {s t : Store} (h : s.Grows t) : s.records.size ≤ t.records.size := by
  rcases Nat.eq_zero_or_pos s.records.size with hzero | hpos
  · rw [hzero]
    exact Nat.zero_le _
  · have hlast : s.records[s.records.size - 1]? = some s.records[s.records.size - 1] :=
      Array.getElem?_eq_getElem (by omega)
    obtain ⟨r', hr', -⟩ := h.records _ _ hlast
    have hlt := (Array.getElem?_eq_some_iff.mp hr').1
    omega

/-- The store that an operation leaves, however it ends. -/
structure Leads (faults : Nat → Option SinkFault) (s t : Store) : Prop where
  sound : t.Sound faults
  grows : s.Grows t

variable {faults : Nat → Option SinkFault} {s t u : Store}

theorem Leads.refl (h : s.Sound faults) : s.Leads faults s := ⟨h, .refl s⟩

theorem Leads.trans (h : s.Leads faults t) (h' : t.Leads faults u) : s.Leads faults u :=
  ⟨h'.sound, h.grows.trans h'.grows⟩

instance : IsTrans Store (Leads faults) := ⟨fun _ _ _ h h' => h.trans h'⟩

/-- Records keep their kinds. -/
theorem Grows.kind? (h : s.Grows t) {id : RecordId} (hid : id.index < s.records.size) :
    t.kind? id = s.kind? id := by
  have hr := Array.getElem?_eq_getElem hid
  obtain ⟨r', hr', hgrows⟩ := h.records _ _ hr
  unfold Store.kind?
  rw [hr, hr']
  exact congrArg some hgrows.kind

/-- Records keep their result sets. -/
theorem Grows.hub? (h : s.Grows t) {id : RecordId} {v : VertexRef} (hv : s.hub? id = some v) :
    t.hub? id = some v := by
  obtain ⟨r, hr, hv⟩ := Option.bind_eq_some_iff.mp hv
  obtain ⟨r', hr', hgrows⟩ := h.records _ _ hr
  unfold Store.hub?
  rw [hr']
  exact (hv ▸ hgrows.resultSet).eq_some

/-- Records keep their reference results. -/
theorem Grows.citing? (h : s.Grows t) {id : RecordId} {v : VertexRef} (hv : s.citing? id = some v) :
    t.citing? id = some v := by
  obtain ⟨r, hr, hv⟩ := Option.bind_eq_some_iff.mp hv
  obtain ⟨r', hr', hgrows⟩ := h.records _ _ hr
  unfold Store.citing?
  rw [hr']
  exact (hv ▸ hgrows.referenceResult).eq_some

/-- A record that there is not has no kind. -/
theorem kind?_eq_none {id : RecordId} (h : s.records.size ≤ id.index) : s.kind? id = none := by
  unfold kind?
  rw [Array.getElem?_eq_none h]
  rfl

/-- Records pass on to older records only. -/
theorem Sound.descending (hs : s.Sound faults) (id : RecordId) (kind : RecordKind)
    (hk : s.kind? id = some kind) (ids : List RecordId) (hp : kind.passesTo = some ids)
    (b : RecordId) (hb : b ∈ ids) : b.index < id.index := by
  obtain ⟨r, hr, rfl⟩ := Option.map_eq_some_iff.mp hk
  exact hs.descends id.index r hr ids hp b hb

/-! ### Facts -/

/-- Something that a run has recorded. -/
inductive Fact where
  /-- A range was tagged. -/
  | tagged (range : ElementId) (tag : RangeTag)
  /-- A `next` edge leads from a range or a result set to a result set. -/
  | next (source target : ElementId)
  /-- A document has a range. -/
  | contained (document range : ElementId)
  /-- A record cites a range or a result for a document. -/
  | cited (record : RecordId) (property : ItemProperty) (document id : ElementId)
  /-- A record is defined by a range in a document. -/
  | defined (record : RecordId) (document range : ElementId)

/-- A live document has a range. -/
def HasRange (s : Store) (document range : ElementId) : Prop :=
  ∃ file known, s.documents.get? file = some (.live known) ∧ known.vertex.id = document ∧
    range ∈ known.ranges

/-- The facts that a store holds, written or still to be written. -/
def Holds (s : Store) : Fact → Prop
  | .tagged range tag                 => Tagged s.elements range tag
  | .next source target               => Linked s.elements .next source target
  | .contained document range         =>
      s.HasRange document range ∨ Contained s.elements document range
  | .cited record property document id =>
      ∃ r, s.records[record.index]? = some r ∧ r.Cites s.elements property document id
  | .defined record document range    =>
      ∃ r, s.records[record.index]? = some r ∧ r.Defines s.elements document range

/-- A record that has a reference result before it cites anything: one that overrides methods, or
one of the properties behind a shared one. -/
def Needs (s : Store) (id : RecordId) : Prop :=
  (∃ base bases anchor, s.kind? id = some (.method (base :: bases) anchor)) ∨
    ∃ shared elements anchor, s.kind? shared = some (.composite elements anchor) ∧ id ∈ elements

/-- No result is made without need. -/
def Warranted (s : Store) : Prop :=
  ∀ id, (s.citing? id ≠ none →
      (∃ property document x, s.Holds (.cited id property document x)) ∨ s.Needs id) ∧
    (s.defining? id ≠ none → ∃ document x, s.Holds (.defined id document x))

/-! ### Records in their time -/

/-- Records are written to in their time. -/
def Lasting (s : Store) : Prop :=
  ∀ (i : Nat) (r : Record), s.records[i]? = some r → r.Lasting

/-! ### Posting facts -/

/-- An operation that ended well and added facts: those that hold now are those that held before and
these. -/
structure Adds (faults : Nat → Option SinkFault) (s t : Store) (facts : Set Fact) : Prop where
  leads     : s.Leads faults t
  size      : t.records.size = s.records.size
  holds     : ∀ fact, t.Holds fact ↔ s.Holds fact ∨ fact ∈ facts
  warranted : s.Warranted → t.Warranted

/-- An operation that ended well and posted facts.  If records were written to in their time, they
still are, and the facts that hold now are those that held before and these. -/
structure Posts (faults : Nat → Option SinkFault) (s t : Store) (facts : Set Fact) : Prop where
  leads     : s.Leads faults t
  size      : t.records.size = s.records.size
  lasting   : s.Lasting → t.Lasting
  holds     : s.Lasting → ∀ fact, t.Holds fact ↔ s.Holds fact ∨ fact ∈ facts
  warranted : s.Lasting → s.Warranted → t.Warranted

theorem Adds.refl (h : s.Sound faults) : s.Adds faults s ∅ :=
  ⟨.refl h, rfl, fun _ => (or_false _).to_iff.symm, id⟩

/-- Facts are added over two steps. -/
theorem Adds.trans {facts more : Set Fact} (h : s.Adds faults t facts) (h' : t.Adds faults u more) :
    s.Adds faults u (facts ∪ more) where
  leads := h.leads.trans h'.leads
  size := h'.size.trans h.size
  holds fact := by rw [h'.holds, h.holds, or_assoc, Set.mem_union]
  warranted hw := h'.warranted (h.warranted hw)

/-- First nothing, then something. -/
theorem Adds.trans_left {facts : Set Fact} (h : s.Adds faults t ∅) (h' : t.Adds faults u facts) :
    s.Adds faults u facts := Set.empty_union facts ▸ h.trans h'

/-- Facts that were added are posted, if records go on being written to in their time. -/
theorem Adds.posts {facts : Set Fact} (h : s.Adds faults t facts) (hl : s.Lasting → t.Lasting) :
    s.Posts faults t facts :=
  ⟨h.leads, h.size, hl, fun _ => h.holds, fun _ => h.warranted⟩

/-- Whether records are written to in their time hangs on them alone. -/
theorem lasting_of_records (h : t.records = s.records) (hl : s.Lasting) : t.Lasting := by
  unfold Lasting
  rw [h]
  exact hl

namespace Posts

theorem refl (h : s.Sound faults) : s.Posts faults s ∅ := (Adds.refl h).posts fun hl => hl

/-- Facts are posted over two steps. -/
theorem trans {facts more : Set Fact} (h : s.Posts faults t facts) (h' : t.Posts faults u more) :
    s.Posts faults u (facts ∪ more) where
  leads := h.leads.trans h'.leads
  size := h'.size.trans h.size
  lasting hl := h'.lasting (h.lasting hl)
  holds hl fact := by rw [h'.holds (h.lasting hl), h.holds hl, or_assoc, Set.mem_union]
  warranted hl hw := h'.warranted (h.lasting hl) (h.warranted hl hw)

theorem congr {facts facts' : Set Fact} (h : s.Posts faults t facts) (heq : facts = facts') :
    s.Posts faults t facts' := heq ▸ h

/-- Which facts are posted matters only where records are written to in their time. -/
theorem congr_of_lasting {facts facts' : Set Fact} (h : s.Posts faults t facts)
    (heq : s.Lasting → facts = facts') : s.Posts faults t facts' :=
  ⟨h.leads, h.size, h.lasting, fun hl => heq hl ▸ h.holds hl, h.warranted⟩

/-- First nothing, then something. -/
theorem trans_left {facts : Set Fact} (h : s.Posts faults t ∅) (h' : t.Posts faults u facts) :
    s.Posts faults u facts := (h.trans h').congr (Set.empty_union facts)

/-- First something, then nothing. -/
theorem trans_right {facts : Set Fact} (h : s.Posts faults t facts) (h' : t.Posts faults u ∅) :
    s.Posts faults u facts := (h.trans h').congr (Set.union_empty facts)

theorem sound {facts : Set Fact} (h : s.Posts faults t facts) : t.Sound faults := h.leads.sound

theorem grows {facts : Set Fact} (h : s.Posts faults t facts) : s.Grows t := h.leads.grows

/-- Posting facts changes no kind. -/
theorem kinds {facts : Set Fact} (h : s.Posts faults t facts) : t.kind? = s.kind? := by
  funext id
  rcases Nat.lt_or_ge id.index s.records.size with hlt | hge
  · exact h.grows.kind? hlt
  · rw [kind?_eq_none hge, kind?_eq_none (h.size ▸ hge)]

end Posts

/-- What collecting leaves alone: live documents and open records. -/
structure Stable (s t : Store) : Prop where
  documents : ∀ file document, s.documents.get? file = some (.live document) →
    t.documents.get? file = some (.live document)
  opened    : ∀ id, s.IsOpen id → t.IsOpen id

theorem Stable.refl (s : Store) : s.Stable s := ⟨fun _ _ h => h, fun _ h => h⟩

theorem Stable.trans (h : s.Stable t) (h' : t.Stable u) : s.Stable u :=
  ⟨fun file document hd => h'.documents file document (h.documents file document hd),
    fun id ho => h'.opened id (h.opened id ho)⟩

/-- An operation on a store, described by how it may fail and how it ends well. -/
abbrev Does {α : Type} (faults : Nat → Option SinkFault) (act : Storing α) (s : Store)
    (post : α → Store → Prop) : Prop :=
  Action.Does (Leads faults) Fault.IsPlain act s post

theorem does_pure {α : Type} {a : α} {post : α → Store → Prop} (h : post a s) :
    Does faults (pure a) s post :=
  ensures_pure.mpr h

theorem does_throw {α : Type} (hs : s.Sound faults) {fault : Fault} (hf : fault.IsPlain)
    {post : α → Store → Prop} : Does faults (throw fault) s post :=
  ensures_throw.mpr ⟨.refl hs, hf⟩

end Store

end SymbolGraph
