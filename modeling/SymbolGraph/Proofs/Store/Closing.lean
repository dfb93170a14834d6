import SymbolGraph.Proofs.Store.Collecting

/-!
# Proofs — Store — closing keeps the books

Records and partitions are closed at three moments: when the walk leaves the scope of a symbol, when
it leaves a file, and at the end of the project.  None of them adds or loses a fact, except that the
project says at its end which documents it contains.

* `Store.nodeProcessed_does`: leaving a node.
* `Store.projectProcessed_does`: the end of the project.  Nothing is left to be written then.
-/

namespace SymbolGraph.Store

open SymbolGraph.Action

variable {faults : Nat → Option SinkFault} {s t : Store} {w : Setting} {id : RecordId}

/-- A record that was begun stays begun. -/
theorem begun_of_grows {elements : List Element} {r r' : Record} (h : r.Grows elements r')
    (hr : ∃ v, r.resultSet = some v) : ∃ v, r'.resultSet = some v := by
  obtain ⟨v, hv⟩ := hr
  exact ⟨v, (hv ▸ h.resultSet).eq_some⟩

/-! ### Leaving a node -/

theorem mark_does (hs : s.Sound faults) {key : SymbolKey} {slot : CacheSlot}
    (hslot : ∀ id, slot ≠ .live id) :
    Does faults (mark key slot) s fun _ t => s.Posts faults t ∅ := by
  refine ensures_modify.mpr (cache_posts hs fun key' id hid => .inl ?_)
  rw [Table.get?_insert] at hid
  split at hid
  · exact absurd (Option.some.inj hid) (hslot id)
  · exact hid

/-- Telling a record that the walk has left a node keeps the books. -/
theorem leave_does (hs : s.Sound faults) {node : NodeId} :
    Does faults (leave w node id) s fun _ t => s.Posts faults t ∅ := by
  unfold leave
  refine (record_does hs id).bind ?_
  rintro r _ ⟨rfl, hr⟩
  refine ⟨.refl hs, ?_⟩
  have hl : Ledger.Sound faults ⟨r, s.graph⟩ := ⟨hs.graph, hs.records _ r hr⟩
  dsimp only
  split
  · exact does_pure (.refl hs)
  · rename_i hstate
    split
    · rename_i hscope
      split
      · exact does_pure (.refl hs)
      · refine (onRecord_does hs fun r' hr' =>
          Ledger.close_does ⟨hs.graph, hs.records _ r' hr'⟩).bind ?_
        rintro _ t ⟨r₀, r', hwithin, hsettles, hclosed, hempty⟩
        cases hr.symm.trans hwithin.old
        have hgrows := hsettles.writes.grows
        -- A record with a scope is not one that has to last.
        have hposts := (hwithin.settles hs hsettles).posts (hwithin.lasting fun hlasting => by
          refine ⟨begun_of_grows hgrows hlasting.begun, .inr ⟨hclosed, hempty hstate⟩,
            fun hkind => ?_⟩
          rw [hgrows.kind] at hkind
          rw [(hlasting.lasts hkind).2] at hscope
          cases hscope)
        exact ⟨hposts.leads, (mark_does hposts.sound (by simp)).mono
          fun _ u hposts' => hposts.trans_left hposts'⟩
    · split
      · refine (onRecord_does hs fun r' hr' =>
          Ledger.endPartition_does ⟨hs.graph, hs.records _ r' hr'⟩ (w.program.fileOf node)).mono ?_
        rintro _ t ⟨r₀, r', hwithin, hsettles, hsame, -⟩
        cases hr.symm.trans hwithin.old
        have hgrows := hsettles.writes.grows
        refine (hwithin.settles hs hsettles).posts (hwithin.lasting fun hlasting => ?_)
        have hopen : r.state = .opened := hlasting.state.resolve_right fun h => hstate h.1
        refine ⟨begun_of_grows hgrows hlasting.begun, .inl (hsame.trans hopen), fun hkind => ?_⟩
        rw [hgrows.kind] at hkind
        exact ⟨hsame.trans hopen, hgrows.scope.trans (hlasting.lasts hkind).2⟩
      · exact does_pure (.refl hs)

/-- **Leaving a node keeps the books.** -/
theorem nodeProcessed_does (hs : s.Sound faults) {node : NodeId} :
    Does faults (nodeProcessed w node) s fun _ t => s.Posts faults t ∅ := by
  unfold nodeProcessed
  refine ensures_bind.mpr (ensures_get.mpr ?_)
  split
  · exact does_pure (.refl hs)
  · have hforget : Does faults (modify fun s => { s with watchers := s.watchers.erase node }) s
        fun _ t => s.Posts faults t ∅ := ensures_modify.mpr (watchers_posts hs _)
    refine hforget.bind fun _ t hposts => ⟨hposts.leads, ?_⟩
    refine (Does.forM (fun _ u => t.Posts faults u ∅) (fun _ _ h => h.leads) ?_
      (.refl hposts.sound)).mono fun _ u hposts' => hposts.trans_left hposts'
    intro id rest u hposts'
    exact (leave_does hposts'.sound).mono fun _ v hposts'' => hposts'.trans_left hposts''

/-! ### The end of the project -/

theorem within_refl {r : Record} (hr : s.records[id.index]? = some r) : s.Within s id r r where
  old := hr
  records j := by
    split
    · rename_i hj
      rw [hj]
      exact hr
    · rfl
  size := rfl
  project := rfl
  documents := rfl
  cache := rfl

theorem closeIfOpen_does (hs : s.Sound faults) :
    Does faults (closeIfOpen id) s fun _ t => s.Adds faults t ∅ ∧ ∃ r r', s.Within t id r r' ∧
      (r.state = .opened → r'.state = .closed ∧ r'.partitions = ∅) ∧
      (r.state ≠ .opened → r' = r) := by
  unfold closeIfOpen
  refine (record_does hs id).bind ?_
  rintro r _ ⟨rfl, hr⟩
  refine ⟨.refl hs, ?_⟩
  split
  · rename_i hstate
    refine (onRecord_does hs fun r' hr' =>
      Ledger.close_does ⟨hs.graph, hs.records _ r' hr'⟩).mono ?_
    rintro _ t ⟨r₀, r', hwithin, hsettles, hclosed, hempty⟩
    cases hr.symm.trans hwithin.old
    refine ⟨hwithin.settles hs hsettles, r, r', hwithin, fun _ => ⟨hclosed, hempty ?_⟩,
      fun hne => absurd hstate hne⟩
    rw [hstate]
    decide
  · rename_i hstate
    exact does_pure ⟨.refl hs, r, r, within_refl hr, fun hopen => absurd hopen hstate, fun _ => rfl⟩

/-- A record that was begun and is closed, except that those in a list may still be open. -/
def Tidy (waiting : List Nat) (t : Store) : Prop :=
  ∀ (i : Nat) (r : Record), t.records[i]? = some r → (∃ v, r.resultSet = some v) ∧
    (r.state = .closed ∧ r.partitions = ∅ ∨ r.state = .opened ∧ i ∈ waiting)

/-- Closing every record that is open. -/
theorem closeAll_does (hs : s.Sound faults) :
    Does faults ((List.range s.records.size).forM fun index => closeIfOpen ⟨index⟩) s fun _ t =>
      s.Adds faults t ∅ ∧ t.documents = s.documents ∧ (s.Lasting → Tidy [] t) := by
  -- The records still to come are the only ones that may be open.
  refine Does.forM (fun rest t => s.Adds faults t ∅ ∧ t.documents = s.documents ∧
    (s.Lasting → Tidy rest t)) (fun _ _ h => h.1.leads) ?_ ⟨.refl hs, rfl, fun hl i r hr => ?_⟩
  · rintro index rest t ⟨hadds, hdocuments, htidy⟩
    refine (closeIfOpen_does hadds.leads.sound).mono ?_
    rintro _ u ⟨hadds', r, r', hwithin, hclosed, hsame⟩
    refine ⟨hadds.trans_left hadds', hwithin.documents.trans hdocuments,
      fun hl i other hother => ?_⟩
    by_cases hi : i = index
    · subst hi
      cases hwithin.new.symm.trans hother
      obtain ⟨hbegun, hstate⟩ := htidy hl i r hwithin.old
      rcases hstate with ⟨hstate, hempty⟩ | ⟨hstate, -⟩
      · rw [hsame (by rw [hstate]; decide)]
        exact ⟨hbegun, .inl ⟨hstate, hempty⟩⟩
      · obtain ⟨r'', hr'', hgrows⟩ := hadds'.leads.grows.records i r hwithin.old
        cases hwithin.new.symm.trans hr''
        exact ⟨begun_of_grows hgrows hbegun, .inl (hclosed hstate)⟩
    · rw [hwithin.other hi] at hother
      obtain ⟨hbegun, hstate⟩ := htidy hl i other hother
      refine ⟨hbegun, hstate.imp_right fun ⟨hopen, hmem⟩ => ⟨hopen, ?_⟩⟩
      exact (List.mem_cons.mp hmem).resolve_left hi
  · refine ⟨(hl i r hr).begun, (hl i r hr).state.symm.imp_right fun hopen => ⟨hopen, ?_⟩⟩
    exact List.mem_range.mpr (Array.getElem?_eq_some_iff.mp hr).1

/-- Ending every document that has not ended. -/
theorem endAll_does (hs : s.Sound faults) :
    Does faults (s.openDocuments.forM (endDocument w)) s fun _ t =>
      s.Adds faults t ∅ ∧ t.records = s.records ∧
        ∀ file document, t.documents.get? file ≠ some (.live document) := by
  -- The files still to come are the only ones with a live document.
  refine (Does.forM (fun rest t => s.Adds faults t ∅ ∧ t.records = s.records ∧
    ∀ file document, t.documents.get? file = some (.live document) → file ∈ rest)
    (fun _ _ h => h.1.leads) ?_ ⟨.refl hs, rfl, fun file document hd => ?_⟩).mono ?_
  · rintro file rest t ⟨hadds, hrecords, hlive⟩
    refine (endDocument_does hadds.leads.sound).mono ?_
    rintro _ u ⟨hadds', hrecords', hlive'⟩
    refine ⟨hadds.trans_left hadds', hrecords'.trans hrecords, fun file' document hd => ?_⟩
    obtain ⟨hne, hd⟩ := hlive' file' document hd
    exact (List.mem_cons.mp (hlive file' document hd)).resolve_left hne
  · have hmem := Table.mem_entries_of_get? hd
    exact List.mem_map.mpr ⟨_, List.mem_filter.mpr ⟨hmem, rfl⟩, rfl⟩
  · rintro _ t ⟨hadds, hrecords, hlive⟩
    exact ⟨hadds, hrecords, fun file document hd => List.not_mem_nil (hlive file document hd)⟩

/-- Nothing is left to be written. -/
structure Finished (s : Store) : Prop where
  begun      : ∀ (i : Nat) (r : Record), s.records[i]? = some r → ∃ v, r.resultSet = some v
  partitions : ∀ (i : Nat) (r : Record), s.records[i]? = some r → r.partitions = ∅
  documents  : ∀ file document, s.documents.get? file ≠ some (.live document)

/-- **The end of the project keeps the books** and adds which documents the project contains.
Nothing is left to be written. -/
theorem projectProcessed_does (hs : s.Sound faults) :
    Does faults (projectProcessed w) s fun _ t => ∃ source ids,
      (∀ id ∈ ids, Delivered t.elements .document id) ∧
      s.Adds faults t (containment source ids) ∧ (s.Lasting → t.Finished) := by
  unfold projectProcessed
  have hforget : Does faults (modify fun s => { s with watchers := ∅ }) s
      fun _ t => s.Adds faults t ∅ ∧ t.records = s.records :=
    ensures_modify.mpr ⟨watchers_adds hs _, rfl⟩
  refine hforget.bind fun _ s₁ ⟨hadds₁, hrecords₁⟩ => ⟨hadds₁.leads, ?_⟩
  refine ensures_bind.mpr (ensures_get.mpr ((closeAll_does hadds₁.leads.sound).bind ?_))
  rintro _ s₂ ⟨hadds₂, -, htidy⟩
  refine ⟨hadds₂.leads, ensures_bind.mpr (ensures_get.mpr
    ((endAll_does hadds₂.leads.sound).bind ?_))⟩
  rintro _ s₃ ⟨hadds₃, hrecords₃, hdocuments₃⟩
  refine ⟨hadds₃.leads, (finishProject_does hadds₃.leads.sound).mono ?_⟩
  rintro _ t ⟨hrecords, hdocuments, hadds⟩
  refine ⟨_, _, fun id hid => (hadds₃.leads.sound.listed id hid).mono hadds.leads.grows.elements,
    ((hadds₁.trans_left hadds₂).trans_left hadds₃).trans_left hadds, fun hl => ?_⟩
  have htidy' : Tidy [] t := by
    unfold Tidy
    rw [hrecords, hrecords₃]
    exact htidy (lasting_of_records hrecords₁ hl)
  refine ⟨fun i r hr => (htidy' i r hr).1, fun i r hr => ?_, fun file document => ?_⟩
  · rcases (htidy' i r hr).2 with ⟨-, hempty⟩ | ⟨-, hmem⟩
    · exact hempty
    · cases hmem
  · rw [hdocuments]
    exact hdocuments₃ file document

end SymbolGraph.Store
