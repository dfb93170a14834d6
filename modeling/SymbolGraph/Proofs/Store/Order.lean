import SymbolGraph.Proofs.Record.Scribing
import SymbolGraph.Proofs.Store.Books
import SymbolGraph.Proofs.Table
import SymbolGraph.Text.LineIndex

/-!
# Proofs — Store — a store in order

What is on the books of a run is told in `Proofs.Store.Books`.  Here is what keeps the store itself
in order: nothing is written down twice, symbols are told apart by their keys, and the coordinates
of a definition stand for a range that is really there.

* `Store.Counted`: no range is placed twice, no vertex contains or leads on twice, and the files with a
  document are, in order, the documents that were delivered.
* `Store.Keyed`: the cache knows every record, and no two records have one key.
* `Store.Backed`: where a definition was recorded there is a range that leads to the record.
* `Store.Lasts`: what is never lost, whatever else a run does.
-/

namespace SymbolGraph

/-- The vertex of the document of a file. -/
def Program.documentVertex (p : Program) (file : FileId) : Vertex :=
  .document ((p.filePath file).getD ⟨""⟩).uri ((p.filePath file).getD ⟨""⟩).language

/-- The line range of coordinates in a file. -/
def Program.span (p : Program) (info : DefinitionInfo) : LineRange :=
  (LineIndex.ofText ((p.fileText info.file).getD "")).lineRange info.range

/-- The ranges of a live document. -/
def Slot.ranges : Slot Document → List ElementId
  | .live document => document.ranges
  | .cleared       => []

/-- The vertex of a live document. -/
def Slot.vertices : Slot Document → List ElementId
  | .live document => [document.vertex.id]
  | .cleared       => []

/-- Ids that were issued, none of them listed twice. -/
structure Graph.Once (g : Graph) (ids : List ElementId) : Prop where
  nodup  : ids.Nodup
  issued : ∀ x ∈ ids, x.value ≤ g.issued

namespace Graph.Once

variable {g g' : Graph} {ids : List ElementId}

theorem mono (h : g.Once ids) (hg : g.issued ≤ g'.issued) : g'.Once ids :=
  ⟨h.nodup, fun x hx => Nat.le_trans (h.issued x hx) hg⟩

theorem perm (h : g.Once ids) {ids' : List ElementId} (hp : ids.Perm ids') : g.Once ids' :=
  ⟨hp.nodup_iff.mp h.nodup, fun x hx => h.issued x (hp.mem_iff.mpr hx)⟩

theorem cons (h : g.Once ids) {x : ElementId} (hx : x ∉ ids) (hi : x.value ≤ g.issued) :
    g.Once (x :: ids) := by
  refine ⟨List.nodup_cons.mpr ⟨hx, h.nodup⟩, fun y hy => ?_⟩
  rcases List.mem_cons.mp hy with rfl | hy
  · exact hi
  · exact h.issued y hy

theorem sublist (h : g.Once ids) {ids' : List ElementId} (hs : ids'.Sublist ids) : g.Once ids' :=
  ⟨h.nodup.sublist hs, fun x hx => h.issued x (hs.subset hx)⟩

/-- An id that was issued since is not among them. -/
theorem not_mem (h : g.Once ids) {written : List Element} (hd : g.Delivers written g')
    {e : Element} (he : e ∈ written) : e.id ∉ ids :=
  fun hmem => hd.new he (h.issued e.id hmem) rfl

end Graph.Once

namespace Store

/-- The ranges of the live documents. -/
def openRanges (documents : Table FileId (Slot Document)) : List ElementId :=
  documents.entries.flatMap fun entry => entry.2.ranges

/-- The vertices of the live documents. -/
def openVertices (documents : Table FileId (Slot Document)) : List ElementId :=
  documents.entries.flatMap fun entry => entry.2.vertices

/-- The ranges that stand in a document, live or written. -/
def placed (s : Store) : List ElementId :=
  (containmentsIn s.elements).flatMap Prod.snd ++ openRanges s.documents

/-- What contains something or still may: the project, what `contains` edges leave, and the live
documents. -/
def containing (s : Store) : List ElementId :=
  s.project.vertex.id ::
    ((containmentsIn s.elements).map Prod.fst ++ openVertices s.documents)

/-- The document of a file is the one that was delivered when the file was first touched: the files
with a document are in the same order as the documents. -/
def DocumentOf (s : Store) (file : FileId) (document : ElementId) : Prop :=
  ∃ (n : Nat) (v : Vertex), s.documents.keys[n]? = some file ∧
    (documentsIn s.elements)[n]? = some (document, v)

/-- The document of a file has a range. -/
def Shelved (s : Store) (file : FileId) (range : ElementId) : Prop :=
  ∃ document, s.DocumentOf file document ∧ s.Holds (.contained document range)

/-- There is a range with these coordinates that leads to a record. -/
def Occurs (w : Setting) (s : Store) (id : RecordId) (info : DefinitionInfo) : Prop :=
  ∃ x tag v, Element.vertex x (.range (w.program.span info) (some tag)) ∈ s.elements ∧
    s.Shelved info.file x ∧ s.hub? id = some v ∧ Linked s.elements .next x v.id

/-- The cache knows of a record of a symbol. -/
def Knows (s : Store) (key : SymbolKey) : Prop :=
  ∃ slot, s.cache.get? key = some slot ∧ slot ≠ .resolving

/-- Nothing is written down twice, and the files with a document are, in order, the documents. -/
structure Counted (w : Setting) (s : Store) : Prop where
  memory     : s.graph.IsMemory
  ids        : ∀ e ∈ s.elements, e.id.value ≤ s.graph.issued
  tagged     : ∀ id span, Element.vertex id (.range span none) ∉ s.elements
  placed     : s.graph.Once s.placed
  containing : s.graph.Once s.containing
  leading    : s.graph.Once (nextSourcesIn s.elements)
  keys       : s.documents.keys.Nodup
  vertices   : (documentsIn s.elements).map Prod.snd
    = s.documents.keys.map w.program.documentVertex
  live       : ∀ file document, s.documents.get? file = some (.live document) →
    s.DocumentOf file document.vertex.id
  project    : s.project.documents = (documentsIn s.elements).map Prod.fst

/-- The cache knows every record, live or cleared, and no two records have one key. -/
structure Keyed (s : Store) : Prop where
  known  : ∀ (i : Nat) (r : Record), s.records[i]? = some r →
    s.cache.get? r.key = some (.live ⟨i⟩) ∨ s.cache.get? r.key = some .cleared
  live   : ∀ key id, s.cache.get? key = some (.live id) →
    ∃ r, s.records[id.index]? = some r ∧ r.key = key
  single : ∀ (i j : Nat) (r r' : Record), s.records[i]? = some r → s.records[j]? = some r' →
    r.key = r'.key → i = j

/-- Where the coordinates of a definition were recorded there is a range that leads to the
record. -/
def Backed (w : Setting) (s : Store) : Prop :=
  ∀ (i : Nat) (r : Record), s.records[i]? = some r → ∀ info ∈ r.definitionInfos,
    s.Occurs w ⟨i⟩ info

/-- A store in order. -/
structure Orderly (w : Setting) (s : Store) : Prop where
  counted : s.Counted w
  keyed  : s.Keyed
  backed : s.Backed w

/-! ### What is never lost -/

theorem getElem?_of_prefix {α : Type} {earlier later : List α} (h : earlier <+: later) {n : Nat}
    {a : α} (ha : earlier[n]? = some a) : later[n]? = some a := by
  obtain ⟨hlt, rfl⟩ := List.getElem?_eq_some_iff.mp ha
  exact List.prefix_iff_getElem?.mp h n hlt

/-- A file keeps its document. -/
theorem DocumentOf.mono {s t : Store} {file : FileId} {document : ElementId}
    (h : s.DocumentOf file document) (hk : s.documents.keys <+: t.documents.keys)
    (he : s.elements <+: t.elements) : t.DocumentOf file document := by
  obtain ⟨n, v, hfile, hdocument⟩ := h
  have hdocuments : documentsIn s.elements <+: documentsIn t.elements := he.filterMap _
  exact ⟨n, v, getElem?_of_prefix hk hfile, getElem?_of_prefix hdocuments hdocument⟩

/-- What is never lost: elements, records with their keys and result sets, the places of files, the
ranges of documents, that a document has ended, and what the cache knows. -/
structure Lasts (s t : Store) : Prop where
  elements : s.elements <+: t.elements
  records  : ∀ (i : Nat) (r : Record), s.records[i]? = some r →
    ∃ r', t.records[i]? = some r' ∧ r.Endures r'
  keys     : s.documents.keys <+: t.documents.keys
  ranges   : ∀ document x, s.Holds (.contained document x) → t.Holds (.contained document x)
  ended    : ∀ file, s.documents.get? file = some .cleared → t.documents.get? file = some .cleared
  knows    : ∀ key, s.Knows key → t.Knows key

variable {w : Setting} {s t u : Store}

namespace Lasts

theorem refl (s : Store) : s.Lasts s where
  elements := List.prefix_refl _
  records _ r hr := ⟨r, hr, .refl r⟩
  keys := List.prefix_refl _
  ranges _ _ h := h
  ended _ h := h
  knows _ h := h

theorem trans (h : s.Lasts t) (h' : t.Lasts u) : s.Lasts u where
  elements := h.elements.trans h'.elements
  records i r hr := by
    obtain ⟨r', hr', hendures⟩ := h.records i r hr
    obtain ⟨r'', hr'', hendures'⟩ := h'.records i r' hr'
    exact ⟨r'', hr'', hendures.trans hendures'⟩
  keys := h.keys.trans h'.keys
  ranges document x hx := h'.ranges document x (h.ranges document x hx)
  ended file hc := h'.ended file (h.ended file hc)
  knows key hk := h'.knows key (h.knows key hk)

theorem hub? (h : s.Lasts t) {id : RecordId} {v : VertexRef} (hv : s.hub? id = some v) :
    t.hub? id = some v := by
  obtain ⟨r, hr, hv⟩ := Option.bind_eq_some_iff.mp hv
  obtain ⟨r', hr', hendures⟩ := h.records _ r hr
  exact Option.bind_eq_some_iff.mpr ⟨r', hr', hendures.resultSet v hv⟩

theorem documentOf (h : s.Lasts t) {file : FileId} {document : ElementId}
    (hd : s.DocumentOf file document) : t.DocumentOf file document :=
  hd.mono h.keys h.elements

theorem shelved (h : s.Lasts t) {file : FileId} {x : ElementId} (hx : s.Shelved file x) :
    t.Shelved file x := by
  obtain ⟨document, hdocument, hcontained⟩ := hx
  exact ⟨document, h.documentOf hdocument, h.ranges document x hcontained⟩

theorem occurs (h : s.Lasts t) {id : RecordId} {info : DefinitionInfo}
    (ho : s.Occurs w id info) : t.Occurs w id info := by
  obtain ⟨x, tag, v, hx, hshelved, hv, e, he⟩ := ho
  exact ⟨x, tag, v, h.elements.subset hx, h.shelved hshelved, h.hub? hv, e,
    h.elements.subset he⟩

end Lasts

/-- Coordinates stay backed where all that are recorded now were recorded before or are backed. -/
theorem Backed.lasts (hb : s.Backed w) (h : s.Lasts t)
    (hinfo : ∀ (i : Nat) (r' : Record), t.records[i]? = some r' → ∀ info ∈ r'.definitionInfos,
      (∃ r, s.records[i]? = some r ∧ info ∈ r.definitionInfos) ∨ t.Occurs w ⟨i⟩ info) :
    t.Backed w := by
  intro i r' hr' info hmem
  rcases hinfo i r' hr' info hmem with ⟨r, hr, hold⟩ | hnew
  · exact h.occurs (hb i r hr info hold)
  · exact hnew

end Store

end SymbolGraph
