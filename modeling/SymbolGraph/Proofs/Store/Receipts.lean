import SymbolGraph.Proofs.Record.Conserving
import SymbolGraph.Proofs.Store.Retaining
import SymbolGraph.Proofs.Store.Working

/-!
# Proofs — Store — what records have received

A `Receipt` says that a record was given a range or a result for a file, under a heading.  A log of
receipts is conserved by a store if each record keeps or lists exactly its receipts, in order.

* `received`: what a log says that a record was given for a file under a heading.
* `Store.Conserves`: every record conserves what it received, and no two of them share a result.
* `Store.Conserves.aside`, `Store.Conserves.locate`, `Store.Conserves.putBack`,
  `Store.Conserves.push`: the four ways in which a store changes.
-/

namespace SymbolGraph

open SymbolGraph.Action

/-- A range or a result that a record was given for a file under a heading. -/
structure Receipt where
  record  : RecordId
  file    : FileId
  heading : Option ItemProperty
  id      : ElementId
  deriving DecidableEq

/-- What a record was given for a file under a heading, in order. -/
def received (log : List Receipt) (id : RecordId) (file : FileId)
    (heading : Option ItemProperty) : List ElementId :=
  (log.filter fun receipt =>
    receipt.record = id ∧ receipt.file = file ∧ receipt.heading = heading).map Receipt.id

theorem received_append (log new : List Receipt) (id : RecordId) :
    received (log ++ new) id
      = fun file heading => received log id file heading ++ received new id file heading := by
  funext file heading
  simp [received]

theorem received_eq_nil {log : List Receipt} {id : RecordId} {file : FileId}
    (h : ∀ receipt ∈ log, receipt.record = id → receipt.file ≠ file)
    (heading : Option ItemProperty) : received log id file heading = [] := by
  simp only [received, List.map_eq_nil_iff, List.filter_eq_nil_iff, decide_eq_true_eq]
  intro receipt hreceipt hsame
  exact h receipt hreceipt hsame.1 hsame.2.1

/-- What others are given does not matter. -/
theorem received_of_others {log new : List Receipt} {id : RecordId}
    (h : ∀ receipt ∈ new, receipt.record ≠ id) : received (log ++ new) id = received log id := by
  rw [received_append]
  funext file heading
  rw [received_eq_nil fun receipt hreceipt heq => absurd heq (h receipt hreceipt), List.append_nil]

/-- Each entry of a list of receipts is counted under its own record, file and heading. -/
theorem count_received (log : List Receipt) (receipt : Receipt) :
    (received log receipt.record receipt.file receipt.heading).count receipt.id
      = log.count receipt := by
  induction log with
  | nil => rfl
  | cons first rest ih =>
      unfold received at ih ⊢
      by_cases hsame : first.record = receipt.record ∧ first.file = receipt.file ∧
          first.heading = receipt.heading
      · have hiff : first.id = receipt.id ↔ first = receipt := by
          refine ⟨fun hid => ?_, fun heq => heq ▸ rfl⟩
          cases first
          cases receipt
          simp_all
        rw [List.filter_cons_of_pos (by simpa using hsame), List.map_cons, List.count_cons, ih,
          List.count_cons]
        simp only [beq_iff_eq, hiff]
      · have hne : first ≠ receipt := fun heq => hsame (heq ▸ ⟨rfl, rfl, rfl⟩)
        rw [List.filter_cons_of_neg (by simpa using hsame), ih, List.count_cons_of_ne hne]

/-! ### Remarks -/

/-- An element that is no document and lists nothing. -/
structure Element.IsRemark (e : Element) : Prop where
  document : e.document? = none
  items    : ∀ n source targets document heading,
    e ≠ .edge n (.item source targets document heading)

namespace Graph

/-- A graph has taken elements that are no documents and list nothing. -/
def Remarks (g g' : Graph) : Prop :=
  ∃ written, g.Delivers written g' ∧ ∀ e ∈ written, e.IsRemark

variable {g g' g'' : Graph}

theorem Remarks.refl (h : g.IsMemory) : g.Remarks g := ⟨[], .refl h, by simp⟩

theorem Remarks.memory (h : g.Remarks g') : g'.IsMemory := by
  obtain ⟨written, hd, -⟩ := h
  exact hd.memory

theorem Remarks.trans (h : g.Remarks g') (h' : g'.Remarks g'') : g.Remarks g'' := by
  obtain ⟨written, hd, hwritten⟩ := h
  obtain ⟨more, hd', hmore⟩ := h'
  exact ⟨written ++ more, hd.trans hd', List.forall_mem_append.mpr ⟨hwritten, hmore⟩⟩

theorem vertex_remarks (h : g.IsMemory) {v : Vertex} (hv : v.label ≠ .document) :
    Ensures (vertex v) g (fun _ g' => g.Remarks g') fun _ _ => True := by
  refine (vertex_delivers h v).mono (fun ref g' hd => ⟨_, hd.1, ?_⟩) fun _ _ _ => trivial
  intro e he
  rw [List.mem_singleton.mp he]
  refine ⟨?_, by simp⟩
  cases v <;> first | rfl | exact absurd rfl hv

theorem edge_remarks (h : g.IsMemory) {e : Edge} (he : e.label ≠ .item) :
    Ensures (edge e) g (fun _ g' => g.Remarks g') fun _ _ => True := by
  refine (edge_delivers h e).mono (fun n g' hd => ⟨_, hd, ?_⟩) fun _ _ _ => trivial
  intro element hmem
  rw [List.mem_singleton.mp hmem]
  refine ⟨rfl, fun n' source targets document heading heq => he ?_⟩
  rw [(Element.edge.inj heq).2]
  rfl

theorem contains_remarks (h : g.IsMemory) (source : VertexRef) (targets : List ElementId) :
    Ensures (contains source targets) g (fun _ g' => g.Remarks g') fun _ _ => True := by
  unfold contains Edge.containing
  cases source.label with
  | project => exact edge_remarks h (by simp [Edge.label])
  | document => exact edge_remarks h (by simp [Edge.label])
  | _ => exact ensures_throw.mpr trivial

end Graph

theorem Document.emitRanges_remarks (document : Document) {g : Graph} (h : g.IsMemory) :
    Ensures document.emitRanges g (fun _ g' => g.Remarks g') fun _ _ => True := by
  unfold Document.emitRanges
  split
  · exact ensures_pure.mpr (.refl h)
  · exact ensures_discard.mpr (Graph.contains_remarks h _ _)

theorem Document.emitSymbols_remarks (document : Document) (withSymbols : Bool) {g : Graph}
    (h : g.IsMemory) :
    Ensures (document.emitSymbols withSymbols) g (fun _ g' => g.Remarks g') fun _ _ => True := by
  unfold Document.emitSymbols
  split
  · refine ensures_bind.mpr ((Graph.vertex_remarks h (by simp [Vertex.label])).mono
      (fun result g₁ h₁ => ?_) fun _ _ _ => trivial)
    exact ensures_discard.mpr ((Graph.edge_remarks h₁.memory (by simp [Edge.label])).mono
      (fun _ g₂ h₂ => h₁.trans h₂) fun _ _ _ => trivial)
  · exact ensures_pure.mpr (.refl h)

/-- The end of a document. -/
theorem Document.finish_remarks (document : Document) (withSymbols : Bool) {g : Graph}
    (h : g.IsMemory) :
    Ensures (document.finish withSymbols) g (fun _ g' => g.Remarks g') fun _ _ => True := by
  unfold Document.finish
  dsimp only
  split
  · exact ensures_bind.mpr ((document.emitRanges_remarks h).mono (fun _ g₁ h₁ =>
      (document.emitSymbols_remarks withSymbols h₁.memory).mono (fun _ _ h₂ => h₁.trans h₂)
        fun _ _ _ => trivial) fun _ _ _ => trivial)
  · exact ensures_throw.mpr trivial

namespace Store

/-! ### Documents -/

/-- The files with a document are, in order, the documents that were delivered. -/
structure Filing (s : Store) : Prop where
  keys   : s.documents.keys.Nodup
  length : (documentsIn s.elements).length = s.documents.keys.length
  once   : s.graph.Once ((documentsIn s.elements).map Prod.fst)
  live   : ∀ file document, s.documents.get? file = some (.live document) →
    s.DocumentOf file document.vertex.id

variable {s t : Store}

theorem Filing.located (h : s.Filing) : Ledger.Located s.graph.issued s.DocumentOf where
  unique file document document' hd hd' := by
    obtain ⟨n, v, hkey, hdocument⟩ := hd
    obtain ⟨n', v', hkey', hdocument'⟩ := hd'
    have hlt : n < s.documents.keys.length := (List.getElem?_eq_some_iff.mp hkey).1
    obtain rfl : n = n' := (List.getElem?_inj hlt h.keys).mp (hkey.trans hkey'.symm)
    cases hdocument.symm.trans hdocument'
    rfl
  apart file file' document hd hd' := by
    obtain ⟨n, v, hkey, hdocument⟩ := hd
    obtain ⟨n', v', hkey', hdocument'⟩ := hd'
    have hid (k : Nat) (u : Vertex) (hk : (documentsIn s.elements)[k]? = some (document, u)) :
        ((documentsIn s.elements).map Prod.fst)[k]? = some document := by
      rw [List.getElem?_map, hk]
      rfl
    have hlt := (List.getElem?_eq_some_iff.mp (hid n v hdocument)).1
    obtain rfl : n = n' := (List.getElem?_inj hlt h.once.nodup).mp
      ((hid n v hdocument).trans (hid n' v' hdocument').symm)
    cases hkey.symm.trans hkey'
    rfl
  issued file document hd := by
    obtain ⟨n, v, -, hdocument⟩ := hd
    exact h.once.issued document (List.mem_map_of_mem (List.mem_of_getElem? hdocument))

/-- No file gets a document and no document is delivered. -/
theorem documentOf_congr (hkeys : t.documents.keys = s.documents.keys)
    (hdocuments : documentsIn t.elements = documentsIn s.elements) :
    t.DocumentOf = s.DocumentOf := by
  funext file document
  simp only [DocumentOf, hkeys, hdocuments]

theorem Filing.congr (h : s.Filing) (hissued : s.graph.issued ≤ t.graph.issued)
    (hkeys : t.documents.keys = s.documents.keys)
    (hdocuments : documentsIn t.elements = documentsIn s.elements)
    (hlive : ∀ file document, t.documents.get? file = some (.live document) →
      s.documents.get? file = some (.live document)) : t.Filing where
  keys := hkeys ▸ h.keys
  length := by rw [hdocuments, hkeys, h.length]
  once := by
    rw [hdocuments]
    exact h.once.mono hissued
  live file document hdocument := by
    rw [documentOf_congr hkeys hdocuments]
    exact h.live file document (hlive file document hdocument)

/-! ### Conservation -/

/-- Every record conserves what it was given, and no two records list by one result. -/
structure Conserves (log : List Receipt) (s : Store) : Prop where
  dated   : s.graph.Dated
  filing  : s.Filing
  records : ∀ (i : Nat) (r : Record), s.records[i]? = some r →
    Ledger.Conserves s.DocumentOf (received log ⟨i⟩) ⟨r, s.graph⟩
  apart   : ∀ heading, Distinct (Record.resultOf · heading) s.records
  known   : ∀ receipt ∈ log, receipt.record.index < s.records.size

variable {log new : List Receipt}

theorem documentsIn_delivers {g g' : Graph} {written : List Element} (hd : g.Delivers written g')
    (h : ∀ e ∈ written, e.document? = none) : documentsIn g'.elements = documentsIn g.elements := by
  rw [hd.elements, documentsIn_append, documentsIn, documentsIn,
    List.filterMap_eq_nil_iff.mpr h, List.append_nil]

/-- The records stay as they are, and no file gets a document. -/
structure Aside (s t : Store) : Prop where
  graph   : s.graph.Remarks t.graph
  records : t.records = s.records
  keys    : t.documents.keys = s.documents.keys
  live    : ∀ file document, t.documents.get? file = some (.live document) →
    s.documents.get? file = some (.live document)

theorem Aside.of_remarks (h : s.graph.Remarks t.graph) (hrecords : t.records = s.records)
    (hdocuments : t.documents = s.documents) : s.Aside t where
  graph := h
  records := hrecords
  keys := by rw [hdocuments]
  live _ _ hlive := hdocuments ▸ hlive

theorem Conserves.aside (h : s.Conserves log) (ha : s.Aside t) : t.Conserves log := by
  obtain ⟨written, hd, hwritten⟩ := ha.graph
  have hdocuments : documentsIn t.elements = documentsIn s.elements :=
    documentsIn_delivers hd fun e he => (hwritten e he).document
  have hitems (source document : ElementId) (heading : Option ItemProperty) :
      itemsIn t.elements source document heading = itemsIn s.elements source document heading := by
    have hnone : itemsIn written source document heading = [] :=
      itemsIn_eq_nil fun n targets hmem => (hwritten _ hmem).items _ _ _ _ _ rfl
    rw [elements, hd.elements, itemsIn_append, hnone, List.append_nil]
  refine ⟨h.dated.delivers hd fun n source targets document heading hmem => ?_,
    h.filing.congr hd.issued ha.keys hdocuments ha.live, fun i r hr => ?_, ?_, ?_⟩
  · exact absurd rfl ((hwritten _ hmem).items n source targets document heading)
  · rw [ha.records] at hr
    rw [documentOf_congr ha.keys hdocuments]
    exact (h.records i r hr).elsewhere hd.issued fun heading v _ document =>
      hitems v.id document heading
  · rw [ha.records]
    exact h.apart
  · rw [ha.records]
    exact h.known

/-- A file gets a document. -/
theorem Conserves.locate (h : s.Conserves log) {graph : Graph} {project : Project} {file : FileId}
    {document : Document} {uri languageId : String} (hnone : s.documents.get? file = none)
    (hd : s.graph.Delivers [.vertex document.vertex.id (.document uri languageId)] graph) :
    Conserves log { s with
      graph, project, documents := s.documents.insert file (.live document) } := by
  have hkeys : (s.documents.insert file (.live document)).keys = s.documents.keys ++ [file] :=
    Table.keys_insert_of_none hnone
  have hdocuments : documentsIn graph.elements = documentsIn s.elements ++
      [(document.vertex.id, .document uri languageId)] := by
    rw [hd.elements, documentsIn_append]
    rfl
  obtain ⟨hnew, hissued⟩ := hd.ids _ (List.mem_singleton_self _)
  change s.graph.issued < document.vertex.id.value at hnew
  change document.vertex.id.value ≤ graph.issued at hissued
  have hdocs (file' : FileId) (document' : ElementId) :
      DocumentOf { s with graph, project, documents := s.documents.insert file (.live document) }
        file' document' ↔
      s.DocumentOf file' document' ∨ file' = file ∧ document' = document.vertex.id := by
    simp only [DocumentOf, elements, hkeys, hdocuments]
    constructor
    · intro hlast
      obtain ⟨n, v, hkey, hdocument⟩ := hlast
      by_cases hn : n < s.documents.keys.length
      · rw [List.getElem?_append_left hn] at hkey
        rw [List.getElem?_append_left (h.filing.length ▸ hn)] at hdocument
        exact .inl ⟨n, v, hkey, hdocument⟩
      · rw [List.getElem?_append_right (by omega)] at hkey
        rw [List.getElem?_append_right (by rw [h.filing.length]; omega)] at hdocument
        have hfile := List.mem_singleton.mp (List.mem_of_getElem? hkey)
        have hentry := List.mem_singleton.mp (List.mem_of_getElem? hdocument)
        exact .inr ⟨hfile, congrArg Prod.fst hentry⟩
    · intro hcase
      rcases hcase with ⟨n, v, hkey, hdocument⟩ | ⟨rfl, rfl⟩
      · exact ⟨n, v, getElem?_of_prefix (List.prefix_append _ _) hkey,
          getElem?_of_prefix (List.prefix_append _ _) hdocument⟩
      · exact ⟨s.documents.keys.length, _, List.getElem?_concat_length,
          h.filing.length ▸ List.getElem?_concat_length⟩
  have hunplaced (document' : ElementId) : ¬ s.DocumentOf file document' := by
    intro hd'
    obtain ⟨n, v, hkey, -⟩ := hd'
    exact Table.not_mem_keys_iff.mpr hnone (List.mem_of_getElem? hkey)
  have hitems (source document' : ElementId) (heading : Option ItemProperty) :
      itemsIn graph.elements source document' heading
        = itemsIn s.elements source document' heading := by
    rw [hd.elements, itemsIn_append]
    simp [itemsIn, Element.items?]
  refine ⟨h.dated.delivers hd fun n source targets document' heading hmem => ?_,
    ⟨Table.nodup_keys_insert h.filing.keys, ?_, ?_, fun file' document' hlive => ?_⟩,
    fun i r hr => ?_, h.apart, h.known⟩
  · cases List.mem_singleton.mp hmem
  · rw [elements, hdocuments, hkeys, List.length_append, List.length_append, h.filing.length]
    rfl
  · have honce := (h.filing.once.mono hd.issued).cons
      (h.filing.once.not_mem hd (List.mem_singleton_self _)) hissued
    rw [elements, hdocuments, List.map_append]
    exact honce.perm (List.perm_append_singleton _ _).symm
  · rw [Table.get?_insert] at hlive
    by_cases hfile : file' = file
    · rw [if_pos hfile] at hlive
      cases hlive
      exact (hdocs _ _).mpr (.inr ⟨hfile, rfl⟩)
    · rw [if_neg hfile] at hlive
      exact (hdocs _ _).mpr (.inl (h.filing.live file' document' hlive))
  · have hsame : Ledger.Conserves s.DocumentOf (received log ⟨i⟩) ⟨r, graph⟩ :=
      (h.records i r hr).elsewhere hd.issued fun heading v _ document' =>
        hitems v.id document' heading
    -- No edge can list anything for a document that is younger than all edges.
    refine hsame.locate hdocs hunplaced fun heading => ?_
    cases hv : r.resultOf heading with
    | none => exact Ledger.listed_of_none hv _
    | some v =>
        rw [Ledger.listed_of_some hv, hitems]
        refine itemsIn_eq_nil fun n targets hmem => ?_
        have hold := (h.dated.items n _ targets _ heading hmem).2
        omega

/-- A record is written; the others do not notice. -/
theorem Conserves.putBack (h : s.Conserves log) {id : RecordId} {r : Record} {l : Ledger}
    (hr : s.records[id.index]? = some r) (hw : Ledger.Signs ⟨r, s.graph⟩ l)
    (hl : l.Conserves s.DocumentOf (received (log ++ new) id))
    (hnew : ∀ receipt ∈ new, receipt.record = id) : (s.putBack id l).Conserves (log ++ new) := by
  obtain ⟨written, hd, hsigns⟩ := hw.delivers
  have hdocuments : documentsIn (s.putBack id l).elements = documentsIn s.elements :=
    documentsIn_delivers hd fun e he => (hsigns e he).document
  have hsize : (s.putBack id l).records.size = s.records.size := Array.size_modify
  have hself : (s.putBack id l).records[id.index]? = some l.record := getElem?_putBack_self hr
  have hother (i : Nat) (hi : i ≠ id.index) :
      (s.putBack id l).records[i]? = s.records[i]? := by
    rw [getElem?_putBack, if_neg fun heq => hi heq.symm]
  -- The results of the record are its own: each is older than the writing or younger than all others.
  have hown (heading : Option ItemProperty) (i : Nat) (r' : Record) (u v : VertexRef)
      (hr' : s.records[i]? = some r') (hu : l.record.resultOf heading = some u)
      (hv : r'.resultOf heading = some v) (heq : u.id = v.id) : i = id.index := by
    rcases hw.results heading with hsame | ⟨-, u', hu', hlt⟩
    · exact (h.apart heading id.index i r r' u v hr hr' (hsame.symm.trans hu) hv heq).symm
    · cases hu.symm.trans hu'
      have hold := ((h.records i r' hr').labelled heading v hv).2
      rw [heq] at hlt
      exact absurd hold (Nat.not_le.mpr hlt)
  refine ⟨hw.dated h.dated hl.labelled,
    h.filing.congr hd.issued rfl hdocuments fun _ _ hlive => hlive, fun i r' hr' => ?_,
    fun heading i j r₁ r₂ v₁ v₂ h₁ h₂ hv₁ hv₂ heq => ?_, fun receipt hreceipt => ?_⟩
  · have hdocs : (s.putBack id l).DocumentOf = s.DocumentOf := documentOf_congr rfl hdocuments
    rw [hdocs]
    by_cases hi : i = id.index
    · subst hi
      cases hself.symm.trans hr'
      exact hl
    · rw [hother i hi] at hr'
      rw [received_of_others fun receipt hreceipt heq =>
        hi (congrArg RecordId.index (heq.symm.trans (hnew receipt hreceipt)))]
      refine (h.records i r' hr').elsewhere hd.issued fun heading v hv document => ?_
      have hnone : itemsIn written v.id document heading = [] := by
        refine itemsIn_eq_nil fun n targets hmem => ?_
        obtain ⟨⟨u, hu, hid⟩, -⟩ := (hsigns _ hmem).items _ _ _ _ _ rfl
        exact hi (hown heading i r' u v hr' hu hv hid)
      change itemsIn l.graph.elements v.id document heading = _
      rw [hd.elements, itemsIn_append, hnone, List.append_nil]
  · by_cases hi : i = id.index
    · by_cases hj : j = id.index
      · exact hi.trans hj.symm
      · subst hi
        cases hself.symm.trans h₁
        exact (hown heading j r₂ v₁ v₂ (hother j hj ▸ h₂) hv₁ hv₂ heq).symm
    · rw [hother i hi] at h₁
      by_cases hj : j = id.index
      · subst hj
        cases hself.symm.trans h₂
        exact hown heading i r₁ v₂ v₁ h₁ hv₂ hv₁ heq.symm
      · exact h.apart heading i j r₁ r₂ v₁ v₂ h₁ (hother j hj ▸ h₂) hv₁ hv₂ heq
  · rw [hsize]
    rcases List.mem_append.mp hreceipt with hold | hadded
    · exact h.known receipt hold
    · rw [hnew receipt hadded]
      exact (Array.getElem?_eq_some_iff.mp hr).1

/-- A new record has received nothing. -/
theorem Conserves.push (h : s.Conserves log) {fresh : Record}
    (hresults : ∀ heading, fresh.resultOf heading = none) (hpartitions : fresh.partitions = ∅) :
    (s.pushed fresh).Conserves log := by
  have hnone : ∀ file heading, received log ⟨s.records.size⟩ file heading = [] := by
    intro file
    refine received_eq_nil fun receipt hreceipt heq => ?_
    have hlt := h.known receipt hreceipt
    rw [heq] at hlt
    exact absurd hlt (Nat.lt_irrefl _)
  have hnothing (file : FileId) (heading : Option ItemProperty) : fresh.held file heading = [] :=
    Record.held_of_not_live (by simp [hpartitions]) heading
  refine ⟨h.dated, h.filing.congr (Nat.le_refl _) rfl rfl fun _ _ hlive => hlive, fun i r hr => ?_,
    fun heading i j r r' v v' hr hr' hv hv' heq => ?_, fun receipt hreceipt => ?_⟩
  · rcases getElem?_pushed.mp hr with hr | ⟨rfl, rfl⟩
    · exact h.records i r hr
    · refine ⟨fun heading v hv => ?_, fun file p hp => ?_, fun _ => hpartitions,
        fun _ file document heading _ _ => Ledger.listed_of_none (hresults heading) document,
        fun file document heading _ => ?_, fun file heading hne => ?_⟩
      · cases (hresults heading).symm.trans hv
      · rw [hpartitions] at hp
        cases hp
      · rw [Ledger.listed_of_none (hresults heading), hnothing, hnone]
        rfl
      · exact absurd (hnone file heading) hne
  · have hold (k : Nat) (q : Record) (u : VertexRef) (hq : (s.pushed fresh).records[k]? = some q)
        (hu : q.resultOf heading = some u) : s.records[k]? = some q := by
      rcases getElem?_pushed.mp hq with hq | ⟨-, rfl⟩
      · exact hq
      · cases (hresults heading).symm.trans hu
    exact h.apart heading i j r r' v v' (hold i r v hr hv) (hold j r' v' hr' hv') hv hv' heq
  · have hlt := h.known receipt hreceipt
    simp only [pushed, Array.size_push]
    omega

end Store

end SymbolGraph
