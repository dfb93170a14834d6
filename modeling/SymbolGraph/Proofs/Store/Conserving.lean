import SymbolGraph.Proofs.Store.Receiving

/-!
# Proofs — Store — nothing is lost between opening and closing

Opening a record gives reference results to other records, or to itself, before anything is recorded.
Closing a record, leaving a file and ending a document move what was received to the graph.  None of
them loses or repeats a receipt, and at the end of the project no record holds anything back.

* `Store.ties`: what is received when a record is opened.
* `Store.insert_conserves`: opening a record gives that and nothing else.
* `Store.nodeProcessed_conserves`, `Store.endDocument_receives`: closing gives nothing.
* `Store.projectProcessed_conserves`: at the end no record is open.
* `Store.addInfo_receives`, `Store.addRange_receives` and the others: operations that give nothing.
-/

namespace SymbolGraph

open SymbolGraph.Action

namespace Store

variable {s t u : Store} {log : List Receipt} {w : Setting} {id : RecordId} {α : Type}

/-! ### Opening records -/

/-- What a new record has received or given when it is opened: an overriding method gives its
reference result to the methods it overrides, and a shared property receives those of its arms. -/
def ties (s : Store) (id : RecordId) : RecordKind → List Receipt
  | .method bases anchor       => bases.flatMap fun base =>
      (s.citing? id).toList.flatMap fun own =>
        s.citations base anchor (.result own.id) .references
  | .composite elements anchor => elements.flatMap fun element =>
      (s.citing? element).toList.map fun result =>
        ⟨id, anchor, some .referenceResults, result.id⟩
  | _                          => []

/-- A record is written without receiving anything. -/
theorem onRecord_conserves (hs : s.Conserves log) {act : Ledger.Writing α}
    {post : Record → α → Ledger → Prop}
    (h : ∀ r, s.records[id.index]? = some r → Ensures act ⟨r, s.graph⟩ (fun a l =>
      Ledger.Carries s.DocumentOf (received log id) ⟨r, s.graph⟩ l ∧ post r a l) fun _ _ => True) :
    Ensures (onRecord id act) s (fun a t => t.Conserves log ∧ ∃ r l, s.records[id.index]? = some r ∧
      Ledger.Signs ⟨r, s.graph⟩ l ∧ t = s.putBack id l ∧ post r a l) fun _ _ => True := by
  refine ensures_record fun r hr => ensures_onPart.mpr ((h r hr).mono (fun a l hl => ?_)
    fun _ _ _ => trivial)
  obtain ⟨hcarries, hpost⟩ := hl
  have hback : (s.putBack id l).Conserves (log ++ []) :=
    hs.putBack hr hcarries.signs ((List.append_nil log).symm ▸ hcarries.conserves) (by simp)
  exact ⟨List.append_nil log ▸ hback, r, l, hr, hcarries.signs, rfl, hpost⟩

theorem referenceResult_receives (id : RecordId) :
    Receives (onRecord id Ledger.referenceResult) s []
      fun result t => t.citing? id = some result := by
  intro log hs
  refine (onRecord_conserves hs fun r hr => Ledger.referenceResult_conserves hs.dated
    (hs.records id.index r hr)).mono (fun result t ht => ?_) fun _ _ _ => trivial
  obtain ⟨hconserves, r, l, hr, hsigns, rfl, ⟨_, _, hrecord⟩, hresult⟩ := ht
  rw [List.append_nil]
  refine ⟨hconserves, .putBack hr ?_ ?_ fun v hv => ?_, ?_⟩
  · rw [hrecord]
  · rw [hrecord]
  · have hkept := hsigns.results (some .references)
    simp only [Record.resultOf, hv] at hkept
    exact hkept.eq_some
  · simp only [citing?, getElem?_putBack_self hr]
    exact hresult

/-- A shared property receives the reference results of its arms, in order. -/
theorem tieComposite_conserves {kind : RecordKind} {anchor : FileId} (elements : List RecordId)
    (hs : s.Conserves log) (hopen : s.openKind? id = some kind) :
    Ensures (tieComposite w id elements anchor) s
      (fun _ t => t.Conserves (log ++ t.ties id (.composite elements anchor)) ∧ s.Steady t)
      fun _ _ => True := by
  induction elements generalizing s log with
  | nil => exact ensures_pure.mpr ⟨(List.append_nil log).symm ▸ hs, .refl s⟩
  | cons element elements ih =>
      refine ensures_bind.mpr (ensures_bind.mpr ((referenceResult_receives element log hs).mono
        (fun result t₁ h₁ => ?_) fun _ _ _ => trivial))
      obtain ⟨hs₁, hst₁, hresult⟩ := h₁
      refine (addOwnReference_receives (hst₁.kinds ▸ hopen) _ _ _ hs₁).mono (fun _ t₂ h₂ => ?_)
        fun _ _ _ => trivial
      obtain ⟨hs₂, hst₂, -⟩ := h₂
      refine (ih hs₂ ((hst₁.trans hst₂).kinds ▸ hopen)).mono (fun _ t h => ?_) fun _ _ _ => trivial
      obtain ⟨ht, hst⟩ := h
      refine ⟨?_, (hst₁.trans hst₂).trans hst⟩
      have hlast : t.citing? element = some result := (hst₂.trans hst).citing element result hresult
      simpa [ties, hlast, Reference.property, Reference.id] using ht

/-- A record is opened and tied to the records that it passes on to. -/
theorem begin_conserves {r : Record} (hs : s.Conserves log) (hr : s.records[id.index]? = some r) :
    Ensures (begin w id) s (fun _ t => t.Conserves (log ++ t.ties id r.kind)) fun _ _ => True := by
  refine ensures_bind.mpr ((onRecord_conserves hs fun r hr => Ledger.begin_conserves hs.dated
    (hs.records id.index r hr)).mono (fun hub t₁ h₁ => ?_) fun _ _ _ => trivial)
  obtain ⟨hs₁, r', l, hr', -, ht₁, hstate, hkind⟩ := h₁
  cases hr.symm.trans hr'
  have hl : t₁.records[id.index]? = some l.record := ht₁ ▸ getElem?_putBack_self hr
  have hopen : t₁.openKind? id = some r.kind :=
    openKind?_eq_some.mpr ⟨l.record, hl, hstate, hkind⟩
  refine ensures_bind.mpr (record_ensures hl ?_)
  rw [hkind]
  cases r.kind with
  | standard => exact ensures_pure.mpr ((List.append_nil log).symm ▸ hs₁)
  | transient => exact ensures_pure.mpr ((List.append_nil log).symm ▸ hs₁)
  | aliased target renames =>
      exact (receives_resultSet (fun next => link_receives _ _ _) log hs₁).mono
        (fun _ t ht => ht.1) fun _ _ _ => trivial
  | composite elements anchor =>
      exact (tieComposite_conserves elements hs₁ hopen).mono (fun _ t ht => ht.1) fun _ _ _ => trivial
  | method bases anchor =>
      cases bases with
      | nil => exact ensures_pure.mpr ((List.append_nil log).symm ▸ hs₁)
      | cons base bases =>
          refine ensures_bind.mpr ((referenceResult_receives id log hs₁).mono (fun own t₂ h₂ => ?_)
            fun _ _ _ => trivial)
          obtain ⟨hs₂, -, hown⟩ := h₂
          refine (addReferences_receives (.refl t₂) (base :: bases) (.result own.id) .references _
            hs₂).mono (fun _ t h => ?_) fun _ _ _ => trivial
          obtain ⟨ht, hst, -⟩ := h
          have hlast : t.citing? id = some own := hst.citing id own hown
          simpa [ties, hlast, hst.citations] using ht

theorem insert_conserves (hs : s.Conserves log) (key : SymbolKey) (kind : RecordKind)
    (scope : Option NodeId) :
    Ensures (insert w { key, kind, scope }) s
      (fun _ t => t.Conserves (log ++ t.ties ⟨s.records.size⟩ kind)) fun _ _ => True := by
  have hpushed : (s.pushed { key, kind, scope }).Conserves log := by
    refine hs.push (fun heading => ?_) rfl
    cases heading <;> rfl
  have hfresh : (s.pushed { key, kind, scope }).records[s.records.size]?
      = some { key, kind, scope } := getElem?_pushed.mpr (.inr ⟨rfl, rfl⟩)
  refine ensures_bind.mpr (ensures_get.mpr (ensures_bind.mpr (ensures_modify.mpr ?_)))
  exact ensures_bind.mpr ((begin_conserves hpushed hfresh).mono
    (fun _ t ht => ensures_pure.mpr ht) fun _ _ _ => trivial)

/-! ### Closing records and documents -/

theorem close_conserves (hs : s.Conserves log) :
    Ensures (onRecord id Ledger.close) s (fun _ t => t.Conserves log ∧
      ∃ l, t = s.putBack id l ∧ l.record.state = .closed) fun _ _ => True := by
  refine (onRecord_conserves hs fun r hr => Ledger.close_conserves hs.dated hs.filing.located
    (hs.records id.index r hr)).mono (fun _ t ht => ?_) fun _ _ _ => trivial
  obtain ⟨hconserves, r, l, -, -, hback, hstate⟩ := ht
  exact ⟨hconserves, l, hback, hstate⟩

theorem leave_conserves (node : NodeId) (hs : s.Conserves log) :
    Ensures (leave w node id) s (fun _ t => t.Conserves log) fun _ _ => True := by
  refine ensures_record fun known _ => ?_
  dsimp only
  by_cases hclosed : known.state = .closed
  · rw [if_pos hclosed]
    exact ensures_pure.mpr hs
  · rw [if_neg hclosed]
    by_cases hscope : known.scope = some node
    · rw [if_pos hscope]
      by_cases hambient : w.program.isDeclarationFile (w.program.fileOf node) = true
      · rw [if_pos hambient]
        exact ensures_pure.mpr hs
      · rw [if_neg hambient]
        refine ensures_bind.mpr ((close_conserves hs).mono (fun _ t ht => ?_) fun _ _ _ => trivial)
        exact ensures_modify.mpr (ht.1.aside (.of_remarks (.refl ht.1.dated.memory) rfl rfl))
    · rw [if_neg hscope]
      by_cases hfile : w.program.kind node = .sourceFile
      · rw [if_pos hfile]
        exact (onRecord_conserves hs fun r hr => Ledger.endPartition_conserves hs.dated
          hs.filing.located (hs.records id.index r hr) _).mono (fun _ t ht => ht.1)
          fun _ _ _ => trivial
      · rw [if_neg hfile]
        exact ensures_pure.mpr hs

theorem nodeProcessed_conserves (node : NodeId) (hs : s.Conserves log) :
    Ensures (nodeProcessed w node) s (fun _ t => t.Conserves log) fun _ _ => True := by
  refine ensures_bind.mpr (ensures_get.mpr ?_)
  split
  · exact ensures_pure.mpr hs
  · refine ensures_bind.mpr (ensures_modify.mpr ?_)
    refine Ensures.forM (fun _ (t : Store) => t.Conserves log)
      (fun id _ t ht => leave_conserves node ht) ?_
    exact hs.aside (.of_remarks (.refl hs.dated.memory) rfl rfl)

theorem endDocument_receives (file : FileId) :
    Receives (endDocument w file) s [] fun _ t => t.records = s.records := by
  refine receives_get ?_
  split
  · exact receives_pure rfl
  · exact receives_throw
  · rename_i document hlive
    refine receives_aside fun hm => ensures_bind.mpr (ensures_modify.mpr (ensures_onPart.mpr
      ((document.finish_remarks _ hm).mono (fun _ g hg => ?_) fun _ _ _ => trivial)))
    refine ⟨⟨hg, rfl, Table.keys_insert_of_some hlive, fun file' document' hlive' => ?_⟩, rfl⟩
    change (s.documents.insert file .cleared).get? file' = _ at hlive'
    rw [Table.get?_insert] at hlive'
    by_cases hfile : file' = file
    · rw [if_pos hfile] at hlive'
      cases hlive'
    · rwa [if_neg hfile] at hlive'

/-- The project says what it contains. -/
theorem finish_receives :
    Receives (Action.onPart (fun s => { project := s.project, graph := s.graph : Project.Ledger })
      (fun ledger s => { s with project := ledger.project, graph := ledger.graph }) Project.finish) s
      [] fun _ t => t.records = s.records := by
  refine receives_aside fun hm => ensures_onPart.mpr ?_
  have hcontains := Graph.contains_remarks hm s.project.vertex s.project.documents
  unfold Ensures at hcontains ⊢
  unfold Project.finish
  by_cases hempty : s.project.documents.isEmpty = true
  · rw [if_pos hempty]
    exact ⟨.of_remarks (.refl hm) rfl rfl, rfl⟩
  · rw [if_neg hempty]
    dsimp only
    cases hcall : Graph.contains s.project.vertex s.project.documents s.graph with
    | ok e graph =>
        rw [hcall] at hcontains
        exact ⟨.of_remarks hcontains rfl rfl, rfl⟩
    | error fault graph => trivial

theorem closeIfOpen_conserves (hs : s.Conserves log) :
    Ensures (closeIfOpen id) s (fun _ t => t.Conserves log ∧
      ∀ (i : Nat) (r : Record), t.records[i]? = some r → r.state = .opened →
        i ≠ id.index ∧ s.records[i]? = some r) fun _ _ => True := by
  refine ensures_record fun known hr => ?_
  by_cases hopen : known.state = .opened
  · rw [if_pos hopen]
    refine (close_conserves hs).mono (fun _ t ht => ?_) fun _ _ _ => trivial
    obtain ⟨hconserves, l, rfl, hclosed⟩ := ht
    refine ⟨hconserves, fun i r hi hstate => ?_⟩
    by_cases hself : i = id.index
    · subst hself
      cases (getElem?_putBack_self hr).symm.trans hi
      cases hclosed.symm.trans hstate
    · rw [getElem?_putBack, if_neg fun heq => hself heq.symm] at hi
      exact ⟨hself, hi⟩
  · rw [if_neg hopen]
    refine ensures_pure.mpr ⟨hs, fun i r hi hstate => ⟨fun hself => hopen ?_, hi⟩⟩
    subst hself
    cases hr.symm.trans hi
    exact hstate

/-- **At the end** nothing was lost on the way, and no record is open any more. -/
theorem projectProcessed_conserves (hs : s.Conserves log) :
    Ensures (projectProcessed w) s (fun _ t => t.Conserves log ∧
      ∀ (i : Nat) (r : Record), t.records[i]? = some r → r.state ≠ .opened) fun _ _ => True := by
  have hunwatched : Conserves log { s with watchers := ∅ } :=
    hs.aside (.of_remarks (.refl hs.dated.memory) rfl rfl)
  -- A record that is open after some rounds is one whose round is yet to come.
  have hrecords : Ensures ((List.range s.records.size).forM fun index => closeIfOpen ⟨index⟩)
      { s with watchers := ∅ } (fun _ t => t.Conserves log ∧ ∀ (i : Nat) (r : Record),
        t.records[i]? = some r → r.state = .opened → i ∈ []) fun _ _ => True := by
    refine Ensures.forM (fun rest (t : Store) => t.Conserves log ∧ ∀ (i : Nat) (r : Record),
      t.records[i]? = some r → r.state = .opened → i ∈ rest) (fun index rest t ht => ?_)
      ⟨hunwatched, fun i r hr _ => List.mem_range.mpr (Array.getElem?_eq_some_iff.mp hr).1⟩
    refine (closeIfOpen_conserves ht.1).mono (fun _ u hu => ?_) fun _ _ _ => trivial
    refine ⟨hu.1, fun i r hr hstate => ?_⟩
    obtain ⟨hne, hold⟩ := hu.2 i r hr hstate
    exact (List.mem_cons.mp (ht.2 i r hold hstate)).resolve_left hne
  have hdocuments (t : Store) (ht : t.Conserves log) (files : List FileId) :
      Ensures (files.forM (endDocument w)) t
        (fun _ u => u.Conserves log ∧ u.records = t.records) fun _ _ => True := by
    refine Ensures.forM (fun _ (u : Store) => u.Conserves log ∧ u.records = t.records)
      (fun file _ u hu => ?_) ⟨ht, rfl⟩
    refine (endDocument_receives file log hu.1).mono (fun _ v hv => ?_) fun _ _ _ => trivial
    exact ⟨List.append_nil log ▸ hv.1, hv.2.2.trans hu.2⟩
  refine ensures_bind.mpr (ensures_modify.mpr (ensures_bind.mpr (ensures_get.mpr
    (ensures_bind.mpr (hrecords.mono (fun _ t ht => ?_) fun _ _ _ => trivial)))))
  refine ensures_bind.mpr (ensures_get.mpr (ensures_bind.mpr ((hdocuments t ht.1 _).mono
    (fun _ u hu => ?_) fun _ _ _ => trivial)))
  refine (finish_receives log hu.1).mono (fun _ v hv => ?_) fun _ _ _ => trivial
  refine ⟨List.append_nil log ▸ hv.1, fun i r hr hstate => ?_⟩
  rw [hv.2.2, hu.2] at hr
  exact absurd (ht.2 i r hr hstate) List.not_mem_nil

/-- Without records there is nothing to conserve. -/
theorem conserves_empty {g : Graph} (hm : g.IsMemory) (hempty : g.elements = [])
    (project : Project) : Conserves [] { graph := g, project } where
  dated := ⟨hm, by simp [hempty]⟩
  filing := by
    have hnone : documentsIn g.elements = [] := by simp [documentsIn, hempty]
    exact ⟨List.nodup_nil, congrArg List.length hnone, ⟨by simp [hnone], by simp [hnone]⟩,
      fun _ _ hlive => by cases hlive⟩
  records i r hr := by simp at hr
  apart heading i j r r' v v' hr := by simp at hr
  known _ hreceipt := by cases hreceipt

/-- A run starts without records. -/
theorem start_conserves {faults : Nat → Option SinkFault} (projectRoot : Path) :
    Ensures (start projectRoot) (Graph.ofSink (.memory faults 0 #[]))
      (fun project g => Conserves [] { graph := g, project }) fun _ _ => True := by
  have hm : (Graph.ofSink (.memory faults 0 #[])).IsMemory := ⟨faults, 0, #[], rfl⟩
  refine ensures_bind.mpr (ensures_discard.mpr ((Graph.vertex_remarks hm
    (by simp [Vertex.label])).mono (fun _ g₁ h₁ => ?_) fun _ _ _ => trivial))
  refine ensures_bind.mpr ((Graph.vertex_remarks h₁.memory (by simp [Vertex.label])).mono
    (fun vertex g₂ h₂ => ensures_pure.mpr ?_) fun _ _ _ => trivial)
  exact (conserves_empty hm rfl { vertex }).aside (.of_remarks (h₁.trans h₂) rfl rfl)

/-! ### Giving nothing -/

theorem vertex_receives {v : Vertex} (hv : v.label ≠ .document) :
    Receives (liftM (Graph.vertex v)) s [] fun _ _ => True :=
  receives_aside fun hm => ensures_onPart.mpr ((Graph.vertex_remarks hm hv).mono
    (fun _ _ hg => ⟨.of_remarks hg rfl rfl, trivial⟩) fun _ _ _ => trivial)

theorem record_receives : Receives (record id) s [] fun r t =>
    t = s ∧ s.records[id.index]? = some r := by
  refine receives_get ?_
  cases hr : s.records[id.index]? with
  | some r => exact receives_pure ⟨rfl, rfl⟩
  | none => exact receives_throw

/-- A record changes, but neither what it holds nor its results. -/
theorem changeRecord_receives {f : Record → Record} (hstate : ∀ r, (f r).state = r.state)
    (hkind : ∀ r, (f r).kind = r.kind) (hpartitions : ∀ r, (f r).partitions = r.partitions)
    (hresults : ∀ r heading, (f r).resultOf heading = r.resultOf heading) :
    Receives (changeRecord id f) s [] fun _ _ => True := by
  intro log hs
  refine ensures_bind.mpr (ensures_discard.mpr ((record_receives log hs).mono (fun r t ht => ?_)
    fun _ _ _ => trivial))
  obtain ⟨-, -, rfl, hr⟩ := ht
  refine ensures_modify.mpr ?_
  have hlisted (document : ElementId) (heading : Option ItemProperty) :
      Ledger.listed ⟨f r, t.graph⟩ document heading = Ledger.listed ⟨r, t.graph⟩ document heading := by
    simp only [Ledger.listed, hresults]
  have hr' := hs.records id.index r hr
  have hkept : Ledger.Conserves t.DocumentOf (received log id) ⟨f r, t.graph⟩ :=
    hr'.congr (fun heading v hv => hr'.labelled heading v (hresults r heading ▸ hv))
      (fun h => hstate r ▸ h) (fun h => hstate r ▸ h) (hpartitions r) hlisted
  rw [modify_eq_putBack hr]
  refine ⟨hs.putBack hr (.of_record hs.dated.memory fun heading => hresults r heading)
    ((List.append_nil log).symm ▸ hkept) (List.forall_mem_nil _), ?_, trivial⟩
  exact .putBack hr (hstate r) (hkind r) fun v hv => (hresults r (some .references)).trans hv

theorem addInfo_receives {info : DefinitionInfo} :
    Receives (addInfo id info) s [] fun _ _ => True := by
  have hsame (r : Record) :
      r.addInfo info = { r with definitionInfos := (r.addInfo info).definitionInfos } := by
    unfold Record.addInfo
    split <;> rfl
  refine changeRecord_receives (fun r => ?_) (fun r => ?_) (fun r => ?_) fun r heading => ?_
  all_goals rw [hsame r]
  cases heading <;> rfl

/-- Another document of the same vertex is put in the place of the one of a file. -/
theorem putDocument_receives {file : FileId} {document : Document}
    (hd : s.DocumentOf file document.vertex.id) :
    Receives (putDocument file document) s [] fun _ _ => True := by
  have hkeys : (s.documents.insert file (.live document)).keys = s.documents.keys := by
    obtain ⟨n, v, hkey, -⟩ := hd
    obtain ⟨slot, hslot⟩ := Table.mem_keys_iff.mp (List.mem_of_getElem? hkey)
    exact Table.keys_insert_of_some hslot
  have hdocs : DocumentOf { s with documents := s.documents.insert file (.live document) }
      = s.DocumentOf := documentOf_congr hkeys rfl
  intro log hs
  refine ensures_modify.mpr ⟨?_, .of_records rfl, trivial⟩
  rw [List.append_nil]
  refine ⟨hs.dated, ⟨hkeys ▸ hs.filing.keys, hkeys ▸ hs.filing.length, hs.filing.once,
    fun file' document' hlive => ?_⟩, fun i r hr => hdocs ▸ hs.records i r hr, hs.apart, hs.known⟩
  rw [hdocs]
  rw [Table.get?_insert] at hlive
  by_cases hfile : file' = file
  · rw [if_pos hfile] at hlive
    cases hlive
    exact hfile ▸ hd
  · rw [if_neg hfile] at hlive
    exact hs.filing.live file' document' hlive

theorem addRange_receives {file : FileId} {range : ElementId} :
    Receives (addRange w file range) s [] fun _ _ => True :=
  (document_receives file).bind fun _ _ _ ht => putDocument_receives ht.1

theorem beginContainer_receives {file : FileId} {range : ElementId} :
    Receives (beginContainer w file range) s [] fun _ _ => True :=
  (document_receives file).bind fun _ _ _ ht => putDocument_receives ht.1

theorem endContainer_receives {file : FileId} :
    Receives (endContainer w file) s [] fun _ _ => True := by
  refine (document_receives file).bind fun d t _ ht => ?_
  rcases Document.endContainer_cases d with ⟨d', hok, hvertex, -⟩ | herror
  · rw [hok]
    exact putDocument_receives (hvertex ▸ ht.1)
  · rw [herror]
    exact receives_throw

/-- The result set of a record that is open is linked to something. -/
theorem attach_receives {kind : LinkKind} {target : ElementId} :
    Receives (attach id kind target) s [] fun _ _ => True :=
  whenOpen_receives (fun _ _ => receives_resultSet fun _ =>
    (link_receives _ _ _).mono fun _ _ _ => trivial) fun _ => rfl

theorem addHover_receives {hover : ElementId} :
    Receives (addHover id hover) s [] fun _ _ => True := attach_receives

theorem addMoniker_receives {moniker : ElementId} :
    Receives (addMoniker id moniker) s [] fun _ _ => True := attach_receives

end Store

end SymbolGraph
