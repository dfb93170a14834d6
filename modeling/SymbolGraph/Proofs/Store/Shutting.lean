import SymbolGraph.Proofs.Store.Steps

/-!
# Proofs — Store — closing, operation by operation

Leaving a node and ending the project are sequences of closing steps, and what may go wrong has
nothing to do with what was cleared before.  Only a document can be ended twice, and not at the end
of the project, where those that have ended are left out.

* `Store.Shuts`: an operation that closes, or fails with a fault of its own.
* `Store.nodeProcessed_shuts`, `Store.endDocument_shuts`: the walk leaves a node, or a file.
* `Store.projectProcessed_ensures`: at the end of the project everything is closed, and then the
  project says which documents it contains.
-/

namespace SymbolGraph.Store

open SymbolGraph.Action SymbolGraph.Discipline

variable {α : Type} {w : Setting} {leaving : Option NodeId} {node : NodeId} {s t : Store}
  {id : RecordId} {file : FileId}

/-- Any number of closing steps. -/
abbrev Shrinks (w : Setting) (leaving : Option NodeId) : Store → Store → Prop :=
  Relation.ReflTransGen (Closes w leaving)

theorem Shrinks.orderly (h : Shrinks w leaving s t) (hs : s.Orderly w) : t.Orderly w := by
  induction h with
  | refl => exact hs
  | tail _ hstep ih => exact hstep.orderly ih

theorem Shrinks.lasts (h : Shrinks w leaving s t) : s.Lasts t := by
  induction h with
  | refl => exact .refl s
  | tail _ hstep ih => exact ih.trans hstep.lasts

/-- From a store in order, an operation closes or fails with a fault of its own. -/
def shutting (w : Setting) (leaving : Option NodeId) : Discipline Store Fault where
  ready := Orderly w
  steps := Shrinks w leaving
  blames _ fault _ := fault.IsOwn
  refl _ := .refl
  trans := Relation.ReflTransGen.trans
  keeps hs hshrinks := hshrinks.orderly hs
  carries _ hfault := hfault

/-- An operation that closes, or fails with a fault of its own. -/
abbrev Shuts (w : Setting) (leaving : Option NodeId) (act : Storing α) (s : Store)
    (post : α → Store → Prop) : Prop :=
  (shutting w leaving).Follows act s post

theorem close_shuts {f : Store → Store} (h : Closes w leaving s (f s)) :
    Shuts w leaving (modify f) s fun _ t => t = f s :=
  follows_modify fun _ => .single h

/-! ### Records -/

theorem record_shuts : Shuts w leaving (record id) s fun r t =>
    t = s ∧ s.records[id.index]? = some r := by
  refine follows_get ?_
  cases hr : s.records[id.index]? with
  | some r => exact follows_pure ⟨rfl, rfl⟩
  | none => exact follows_throw trivial

/-- Writing a record, if the whole is one closing step. -/
theorem onRecord_shuts {act : Ledger.Writing α} {post : α → Ledger → Prop} {r : Record}
    (hr : s.records[id.index]? = some r) (h : Ledger.Scribes act ⟨r, s.graph⟩ post)
    (hp : ∀ a l' written, post a l' → s.graph.Delivers written l'.graph →
      (∀ e ∈ written, e.IsQuiet) → Closes w leaving s { s with
        graph := l'.graph, records := s.records.modify id.index fun _ => l'.record }) :
    Shuts w leaving (onRecord id act) s fun a t => ∃ l', post a l' ∧ t = { s with
      graph := l'.graph, records := s.records.modify id.index fun _ => l'.record } := by
  refine record_shuts.bind fun r' t _ ht hr' => ?_
  obtain ⟨rfl, hr'⟩ := hr'
  obtain rfl := Option.some.inj (hr.symm.trans hr')
  intro _
  refine ensures_onPart.mpr ((h ht.counted.memory).mono (fun a l' hl' => ?_)
    fun _ _ hfault => hfault)
  obtain ⟨⟨written, hd, hq⟩, hpost⟩ := hl'
  exact ⟨.single (hp a l' written hpost hd hq), l', hpost, rfl⟩

/-- A record is told that the walk has left a node. -/
theorem leave_shuts : Shuts w (some node) (leave w node id) s fun _ t =>
    t.documents = s.documents := by
  refine record_shuts.bind fun r t _ _ ht => ?_
  obtain ⟨rfl, hr⟩ := ht
  dsimp only
  split
  · exact follows_pure rfl
  · split
    · rename_i hscope
      have hlocal : ∀ node', some node = some node' → r.scope = some node' := by
        intro node' heq
        rw [hscope, heq]
      split
      · exact follows_pure rfl
      · refine (onRecord_shuts hr Ledger.close_scribes fun _ l' written hends hd hq =>
          .closes hr hlocal hends hd hq).bind fun _ u _ _ hu => ?_
        obtain ⟨l', hends, rfl⟩ := hu
        -- The record that was closed has kept its key and its scope.
        have hclosed : (t.records.modify id.index fun _ => l'.record)[id.index]?
            = some l'.record := by
          rw [Array.getElem?_modify, if_pos rfl, hr]
          rfl
        rw [← hends.key]
        refine (close_shuts (.clears hclosed fun node' heq => ?_)).mono fun _ v hv => hv ▸ rfl
        exact hends.scope.trans (hlocal node' heq)
    · split
      · rename_i hroot
        refine (onRecord_shuts hr (Ledger.endPartition_scribes _) fun _ l' written hends hd hq =>
          .ends rfl hroot hr hends.1 (fun hclosed => hends.2 ▸ hclosed) hd hq).mono
            fun _ u hu => ?_
        obtain ⟨l', -, rfl⟩ := hu
        rfl
      · exact follows_pure rfl

/-- **The walk leaves a node**: records and partitions may end, documents do not. -/
theorem nodeProcessed_shuts : Shuts w (some node) (nodeProcessed w node) s fun _ t =>
    t.documents = s.documents := by
  refine follows_get ?_
  split
  · exact follows_pure rfl
  · rename_i told _
    refine (close_shuts .tells).bind fun _ t _ _ ht => ?_
    refine .forM (fun u : Store => u.documents = s.documents) told (fun i _ u hu => ?_) (ht ▸ rfl)
    exact leave_shuts.mono fun _ v hv => hv.trans hu

theorem closeIfOpen_shuts : Shuts w none (closeIfOpen id) s fun _ _ => True := by
  refine record_shuts.bind fun r t _ _ ht => ?_
  obtain ⟨rfl, hr⟩ := ht
  split
  · exact (onRecord_shuts hr Ledger.close_scribes fun _ l' written hends hd hq =>
      .closes hr (by nofun) hends hd hq).mono fun _ _ _ => trivial
  · exact follows_pure trivial

/-! ### Documents -/

/-- Containment is delivered, if something of this label may contain anything. -/
theorem contains_delivers {g : Graph} (hg : g.IsMemory) (source : VertexRef)
    (targets : List ElementId) : Ensures (Graph.contains source targets) g
      (fun e g' => g.Delivers [.edge e (.contains source.id targets)] g')
      fun fault _ => fault.IsOwn := by
  have hedge : Ensures (Graph.edge (.contains source.id targets)) g
      (fun e g' => g.Delivers [.edge e (.contains source.id targets)] g')
      fun fault _ => fault.IsOwn :=
    (Graph.edge_delivers hg _).mono (fun _ _ hd => hd) fun _ _ hfault => hfault.isOwn
  unfold Graph.contains Edge.containing
  cases source.label with
  | project => exact hedge
  | document => exact hedge
  | _ => exact ensures_throw.mpr trivial

theorem Document.emitRanges_delivers {document : Document} {g : Graph} (hg : g.IsMemory) :
    Ensures document.emitRanges g (fun _ g' => ∃ said, document.Says said ∧ g.Delivers said g')
      fun fault _ => fault.IsOwn := by
  unfold Document.emitRanges
  split
  · rename_i hempty
    exact ensures_pure.mpr ⟨[], .inl ⟨List.isEmpty_iff.mp hempty, rfl⟩, .refl hg⟩
  · exact ensures_discard.mpr ((contains_delivers hg _ _).mono
      (fun e _ hd => ⟨_, .inr ⟨e, rfl⟩, hd⟩) fun _ _ hfault => hfault)

/-- The symbols of a document are quiet. -/
theorem Document.emitSymbols_delivers {document : Document} {withSymbols : Bool} {g : Graph}
    (hg : g.IsMemory) : Ensures (document.emitSymbols withSymbols) g
      (fun _ g' => ∃ more, g.Delivers more g' ∧ ∀ e ∈ more, e.IsQuiet)
      fun fault _ => fault.IsOwn := by
  unfold Document.emitSymbols
  split
  · refine ensures_bind.mpr ((Graph.vertex_delivers hg _).mono (fun v g₁ hg₁ => ?_)
      fun _ _ hfault => hfault.isOwn)
    refine ensures_discard.mpr ((Graph.edge_delivers hg₁.1.memory _).mono (fun e g₂ hg₂ => ?_)
      fun _ _ hfault => hfault.isOwn)
    refine ⟨_, hg₁.1.trans hg₂, fun element hmem => ?_⟩
    rcases List.mem_append.mp hmem with hmem | hmem
    · rw [List.mem_singleton.mp hmem]
      exact Element.isQuiet_vertex (fun heq => by cases heq) fun _ heq => by cases heq
    · rw [List.mem_singleton.mp hmem]
      exact Element.isQuiet_edge (fun heq => by cases heq) fun heq => by cases heq
  · exact ensures_pure.mpr ⟨[], .refl hg, List.forall_mem_nil _⟩

/-- A document says what it contains, and then something quiet. -/
theorem Document.finish_ensures {document : Document} {withSymbols : Bool} {g : Graph}
    (hg : g.IsMemory) : Ensures (document.finish withSymbols) g
      (fun _ g' => ∃ said middle more, document.Says said ∧ g.Delivers said middle ∧
        middle.Delivers more g' ∧ ∀ e ∈ more, e.IsQuiet) fun fault _ => fault.IsOwn := by
  unfold Document.finish
  dsimp only
  split
  · refine ensures_bind.mpr ((Document.emitRanges_delivers hg).mono (fun _ middle hmiddle => ?_)
      fun _ _ hfault => hfault)
    obtain ⟨said, hspoken, hsaid⟩ := hmiddle
    refine (Document.emitSymbols_delivers hsaid.memory).mono (fun _ g' hg' => ?_)
      fun _ _ hfault => hfault
    obtain ⟨more, hmore, hquiet⟩ := hg'
    exact ⟨said, middle, more, hspoken, hsaid, hmore, hquiet⟩
  · exact ensures_throw.mpr trivial

/-- **A document ends**, if it has not ended before. -/
theorem endDocument_shuts (hleaving : ∀ node, leaving = some node →
      w.program.kind node = .sourceFile ∧ file = w.program.fileOf node)
    (hlive : s.documents.get? file ≠ some .cleared) :
    Shuts w leaving (endDocument w file) s fun _ t =>
      (∀ other, other ≠ file → t.documents.get? other = s.documents.get? other) ∧
      (file ∈ s.documents.keys → t.documents.get? file = some .cleared) := by
  refine follows_get ?_
  cases hslot : s.documents.get? file with
  | none =>
      refine follows_pure ⟨fun _ _ => rfl, fun hmem => ?_⟩
      obtain ⟨slot, hsome⟩ := Table.mem_keys_iff.mp hmem
      exact nomatch hslot.symm.trans hsome
  | some slot =>
      cases slot with
      | cleared => exact absurd hslot hlive
      | live document =>
          intro hs
          refine ensures_bind.mpr (ensures_modify.mpr (ensures_onPart.mpr ?_))
          refine (Document.finish_ensures hs.counted.memory).mono (fun _ g hg => ?_)
            fun _ _ hfault => hfault
          obtain ⟨said, middle, more, hspoken, hsaid, hmore, hquiet⟩ := hg
          refine ⟨.tail (.single (.finishes hslot hleaving hsaid hspoken)) (.delivers hmore hquiet),
            fun other hne => get?_insert_of_ne _ other hne, fun _ => ?_⟩
          exact (Table.get?_insert _ _ _ _).trans (if_pos rfl)

/-- A document does not end twice. -/
theorem endDocument_cleared (h : s.documents.get? file = some .cleared) :
    Ensures (endDocument w file) s (fun _ _ => False)
      fun fault _ => fault = .documentCleared (w.program.shownFile file) := by
  refine ensures_bind.mpr (ensures_get.mpr ?_)
  rw [h]
  exact ensures_throw.mpr rfl

/-- Documents of different files that have not ended. -/
theorem endDocuments_shuts : ∀ (files : List FileId) {s : Store}, files.Nodup →
    (∀ file ∈ files, s.documents.get? file ≠ some .cleared) →
      Shuts w none (files.forM (endDocument w)) s fun _ _ => True
  | [], _, _, _ => follows_pure trivial
  | file :: files, s, hnodup, hlive => by
      obtain ⟨hfresh, hnodup⟩ := List.nodup_cons.mp hnodup
      refine (endDocument_shuts (by nofun) (hlive file List.mem_cons_self)).bind fun _ t _ _ ht => ?_
      refine endDocuments_shuts files hnodup fun other hother => ?_
      rw [ht.1 other fun heq => hfresh (heq ▸ hother)]
      exact hlive other (List.mem_cons_of_mem _ hother)

theorem nodup_openDocuments (hs : s.Counted w) : s.openDocuments.Nodup :=
  hs.keys.sublist (List.filter_sublist.map _)

theorem not_cleared_of_open (hs : s.Counted w) (hfile : file ∈ s.openDocuments) :
    s.documents.get? file ≠ some .cleared := by
  obtain ⟨entry, hentry, rfl⟩ := List.mem_map.mp hfile
  obtain ⟨hmem, hlive⟩ := List.mem_filter.mp hentry
  rw [Table.get?_of_mem hs.keys (show (entry.1, entry.2) ∈ s.documents.entries from hmem)]
  intro hcleared
  rw [Option.some.inj hcleared] at hlive
  cases hlive

/-! ### The project -/

/-- The last thing to be said is which documents the project contains, if there are any. -/
def Concludes (s t : Store) : Prop :=
  s.project.documents = [] ∧ t = s ∨
    ∃ e graph, s.graph.Delivers [.edge e (.contains s.project.vertex.id s.project.documents)] graph ∧
      t = { s with graph, project := { s.project with documents := [] } }

theorem finish_ensures (hs : s.Orderly w) : Ensures
    (Action.onPart (fun s => { project := s.project, graph := s.graph : Project.Ledger })
      (fun ledger s => { s with project := ledger.project, graph := ledger.graph })
      Project.finish : Storing Unit) s (fun _ t => s.Concludes t) fun fault _ => fault.IsOwn := by
  refine ensures_onPart.mpr ?_
  have hcontains := contains_delivers hs.counted.memory s.project.vertex s.project.documents
  unfold Ensures at hcontains ⊢
  unfold Project.finish
  by_cases hempty : s.project.documents.isEmpty = true
  · rw [if_pos hempty]
    exact .inl ⟨List.isEmpty_iff.mp hempty, rfl⟩
  · rw [if_neg hempty]
    dsimp only
    cases hcall : Graph.contains s.project.vertex s.project.documents s.graph with
    | ok e graph =>
        rw [hcall] at hcontains
        exact .inr ⟨e, graph, hcontains, rfl⟩
    | error fault graph =>
        rw [hcall] at hcontains
        exact hcontains

/-- **The project ends**: everything is closed, and then the project says what it contains. -/
theorem projectProcessed_ensures (hs : s.Orderly w) : Ensures (projectProcessed w) s
    (fun _ t => ∃ u, Shrinks w none s u ∧ u.Concludes t) fun fault _ => fault.IsOwn := by
  refine ensures_bind.mpr (ensures_modify.mpr (ensures_bind.mpr (ensures_get.mpr
    (ensures_bind.mpr ?_))))
  have hforgets : Shrinks w none s { s with watchers := ∅ } := .single .tells
  refine Ensures.mono ((Follows.forM (fun _ => True) _ (fun i _ u _ => closeIfOpen_shuts)
    trivial).after hs hforgets) (fun _ t ht => ?_) fun _ _ hfault => hfault
  have hcounted := (ht.1.orderly hs).counted
  refine ensures_bind.mpr (ensures_get.mpr (ensures_bind.mpr (Ensures.mono
    ((endDocuments_shuts _ (nodup_openDocuments hcounted) fun file hfile =>
      not_cleared_of_open hcounted hfile).after hs ht.1) (fun _ u hu => ?_) fun _ _ hfault => hfault)))
  exact (finish_ensures (hu.1.orderly hs)).mono (fun _ t ht => ⟨u, hu.1, ht⟩) fun _ _ hfault => hfault

end SymbolGraph.Store
