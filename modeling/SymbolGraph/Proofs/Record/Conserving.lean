import SymbolGraph.Proofs.Record.Listing

/-!
# Proofs — Record — nothing is lost and nothing is listed twice

A record keeps what it received in one partition per file, and a partition goes to the graph when the
walk leaves its file or its scope, or at the end of the project.  However these mix, each file and
heading has one place at a time: as long as the partition is live it holds all that was received, and
afterwards one edge lists it.

* `Ledger.Conserves`: for every file and heading, what the edges list and what the partition still
  holds is what the record received.
* `Ledger.Conserves.receive`: receiving something adds it to a live partition.
* `Ledger.endPartition_conserves`, `Ledger.close_conserves`: moving it from partitions to edges neither
  loses nor repeats anything.
-/

namespace SymbolGraph.Ledger

open SymbolGraph.Action

variable {l l' l'' : Ledger}

/-- Every file has one document at most, no two files share one, and the ids of documents were given
out. -/
structure Located (issued : Nat) (docs : FileId → ElementId → Prop) : Prop where
  unique : ∀ file document document', docs file document → docs file document' →
    document = document'
  apart  : ∀ file file' document, docs file document → docs file' document → file = file'
  issued : ∀ file document, docs file document → document.value ≤ issued

theorem Located.mono {issued issued' : Nat} {docs : FileId → ElementId → Prop}
    (h : Located issued docs) (hle : issued ≤ issued') : Located issued' docs :=
  ⟨h.unique, h.apart, fun file document hd => Nat.le_trans (h.issued file document hd) hle⟩

/-- What the edges list for the document of a file and what the partition of the file still holds is,
heading by heading, what the record received: nothing is lost and nothing is listed twice. -/
structure Conserves (docs : FileId → ElementId → Prop)
    (received : FileId → Option ItemProperty → List ElementId) (l : Ledger) : Prop where
  labelled : l.Labelled
  paired   : ∀ file p, l.record.partitions.get? file = some (.live p) → docs file p.document
  /-- Only a record that is open keeps anything. -/
  lasting  : l.record.state ≠ .opened → l.record.partitions = ∅
  /-- Nothing is listed before its partition is cleared. -/
  fresh    : l.record.state ≠ .closed → ∀ file document heading, docs file document →
    l.record.partitions.get? file ≠ some .cleared → l.listed document heading = []
  balance  : ∀ file document heading, docs file document →
    l.listed document heading ++ batch (l.record.held file heading) = batch (received file heading)
  placed   : ∀ file heading, received file heading ≠ [] → ∃ document, docs file document

variable {docs docs' : FileId → ElementId → Prop}
  {received : FileId → Option ItemProperty → List ElementId}

namespace Conserves

/-- Nothing changes for a record that keeps its partitions and whose results list what they listed;
it may have been opened. -/
theorem congr (h : l.Conserves docs received) (hlabelled : l'.Labelled)
    (hopened : l'.record.state ≠ .opened → l.record.state ≠ .opened)
    (hclosed : l'.record.state ≠ .closed → l.record.state ≠ .closed)
    (hpartitions : l'.record.partitions = l.record.partitions)
    (hlisted : ∀ document heading, l'.listed document heading = l.listed document heading) :
    l'.Conserves docs received where
  labelled := hlabelled
  paired := by
    rw [hpartitions]
    exact h.paired
  lasting hstate := by
    rw [hpartitions]
    exact h.lasting (hopened hstate)
  fresh hstate file document heading hd hslot := by
    rw [hpartitions] at hslot
    rw [hlisted]
    exact h.fresh (hclosed hstate) file document heading hd hslot
  balance file document heading hd := by
    have hheld : l'.record.held file heading = l.record.held file heading := by
      simp [Record.held, hpartitions]
    rw [hlisted, hheld]
    exact h.balance file document heading hd
  placed := h.placed

/-- A record does not notice what is not listed by its own results. -/
theorem elsewhere {r : Record} {g g' : Graph} (h : Conserves docs received ⟨r, g⟩)
    (hissued : g.issued ≤ g'.issued)
    (hitems : ∀ heading v, r.resultOf heading = some v → ∀ document,
      itemsIn g'.elements v.id document heading = itemsIn g.elements v.id document heading) :
    Conserves docs received ⟨r, g'⟩ := by
  refine h.congr (fun heading v hv => ?_) id id rfl fun document heading => ?_
  · obtain ⟨hlabel, hold⟩ := h.labelled heading v hv
    exact ⟨hlabel, Nat.le_trans hold hissued⟩
  · cases hv : r.resultOf heading with
    | none => rw [listed_of_none hv, listed_of_none hv]
    | some v =>
        rw [listed_of_some hv, listed_of_some hv]
        exact hitems heading v hv document

/-- A live partition belongs to an open record. -/
theorem opened (h : l.Conserves docs received) {file : FileId} {p : Partition}
    (hp : l.record.partitions.get? file = some (.live p)) : l.record.state = .opened := by
  by_contra hstate
  rw [h.lasting hstate] at hp
  cases hp

/-- One more file has a document, for which nothing is listed yet. -/
theorem locate (h : l.Conserves docs received) {new : FileId} {added : ElementId}
    (hdocs : ∀ file document, docs' file document ↔
      docs file document ∨ file = new ∧ document = added)
    (hnone : ∀ document, ¬ docs new document)
    (hadded : ∀ heading, l.listed added heading = []) : l.Conserves docs' received where
  labelled := h.labelled
  paired file p hp := (hdocs _ _).mpr (.inl (h.paired file p hp))
  lasting := h.lasting
  fresh hstate file document heading hd hslot := by
    rcases (hdocs _ _).mp hd with hd | ⟨-, rfl⟩
    · exact h.fresh hstate file document heading hd hslot
    · exact hadded heading
  balance file document heading hd := by
    rcases (hdocs _ _).mp hd with hd | ⟨rfl, rfl⟩
    · exact h.balance file document heading hd
    · -- Nothing can have been received for a file without a document.
      have hreceived : received file heading = [] := by
        by_contra hne
        obtain ⟨document', hd'⟩ := h.placed file heading hne
        exact hnone document' hd'
      have hheld : l.record.held file heading = [] :=
        Record.held_of_not_live (fun p hp => hnone _ (h.paired file p hp)) heading
      rw [hadded, hheld, hreceived]
      rfl
  placed file heading hne := by
    obtain ⟨document, hd⟩ := h.placed file heading hne
    exact ⟨document, (hdocs _ _).mpr (.inl hd)⟩

/-- A partition that was cleared and listed. -/
theorem cleared (h : l.Conserves docs received) (hd : Located l.graph.issued docs) {file : FileId}
    {p : Partition} (hp : l.record.partitions.get? file = some (.live p))
    (hl : Lists ⟨{ l.record with partitions := l.record.partitions.insert file .cleared }, l.graph⟩
      (fun document heading => if document = p.document then batch (p.filed heading) else []) l') :
    l'.Conserves docs received := by
  obtain ⟨referenceResult, definitionResult, hrecord⟩ := hl.fills
  have hpartitions : l'.record.partitions = l.record.partitions.insert file .cleared := by
    rw [hrecord]
  have hstate : l'.record.state = l.record.state := by rw [hrecord]
  have hlisted (document : ElementId) (heading : Option ItemProperty) :
      l'.listed document heading = l.listed document heading ++
        if document = p.document then batch (p.filed heading) else [] := by
    rw [hl.listed]
    cases heading <;> rfl
  -- One file is cleared: for every other one neither the document's batches nor the slot changes.
  have hother (file' : FileId) (document : ElementId) (heading : Option ItemProperty)
      (hne : file' ≠ file) (hdocument : docs file' document) :
      l'.listed document heading = l.listed document heading := by
    have hdiffers : document ≠ p.document := by
      intro heq
      exact hne (hd.apart file' file document hdocument (heq ▸ h.paired file p hp))
    rw [hlisted, if_neg hdiffers, List.append_nil]
  have hslot (file' : FileId) (hne : file' ≠ file) :
      l'.record.partitions.get? file' = l.record.partitions.get? file' := by
    rw [hpartitions, Table.get?_insert, if_neg hne]
  have hself : l'.record.partitions.get? file = some .cleared := by
    rw [hpartitions, Table.get?_insert, if_pos rfl]
  refine ⟨hl.labelled, fun file' q hq => ?_, fun hclosed => ?_,
    fun hclosed file' document heading hdocument hlive => ?_,
    fun file' document heading hdocument => ?_, h.placed⟩
  · by_cases hne : file' = file
    · subst hne
      cases hself.symm.trans hq
    · exact h.paired file' q ((hslot file' hne).symm.trans hq)
  · exact absurd (hstate.trans (h.opened hp)) hclosed
  · have hne : file' ≠ file := by
      intro heq
      exact hlive (heq ▸ hself)
    rw [hother file' document heading hne hdocument]
    exact h.fresh (hstate ▸ hclosed) file' document heading hdocument (hslot file' hne ▸ hlive)
  · by_cases hne : file' = file
    -- For the file itself what was held has just been listed, and nothing is held any more.
    · subst hne
      have hsame : document = p.document :=
        hd.unique file' document p.document hdocument (h.paired file' p hp)
      have hheld : l'.record.held file' heading = [] :=
        Record.held_of_not_live (by simp [hself]) heading
      rw [hlisted, if_pos hsame, hheld, ← Record.held_of_live hp, batch_nil, List.append_nil]
      exact h.balance file' document heading hdocument
    · have hheld : l'.record.held file' heading = l.record.held file' heading := by
        simp [Record.held, hslot file' hne]
      rw [hother file' document heading hne hdocument, hheld]
      exact h.balance file' document heading hdocument

/-- A record whose partitions are all cleared may be closed. -/
theorem closed (h : l.Conserves docs received)
    (hcleared : ∀ file p, l.record.partitions.get? file ≠ some (.live p)) :
    Conserves docs received
      ⟨{ l.record with state := .closed, partitions := ∅, definitionInfos := [] }, l.graph⟩ where
  labelled heading v hv := h.labelled heading v (by cases heading <;> exact hv)
  paired _ _ hp := by cases hp
  lasting _ := rfl
  fresh hstate := absurd rfl hstate
  balance file document heading hd := by
    have hheld : l.record.held file heading = [] :=
      Record.held_of_not_live (hcleared file) heading
    have hbalance := h.balance file document heading hd
    rw [hheld] at hbalance
    rw [← hbalance]
    cases heading <;> rfl
  placed := h.placed

/-- An open record receives something for a file whose partition is not cleared. -/
theorem receive (h : l.Conserves docs received) (hstate : l.record.state = .opened)
    {file : FileId} {p : Partition} {more : FileId → Option ItemProperty → List ElementId}
    (hslot : l.record.partitions.get? file ≠ some .cleared) (hp : docs file p.document)
    (hfiled : ∀ heading, p.filed heading = l.record.held file heading ++ more file heading)
    (hmore : ∀ file' heading, file' ≠ file → more file' heading = []) :
    Conserves docs (fun file heading => received file heading ++ more file heading)
      ⟨{ l.record with partitions := l.record.partitions.insert file (.live p) }, l.graph⟩ := by
  have hlisted (document : ElementId) (heading : Option ItemProperty) :
      Ledger.listed ⟨{ l.record with
        partitions := l.record.partitions.insert file (.live p) }, l.graph⟩ document heading
      = l.listed document heading := by
    cases heading <;> rfl
  refine ⟨fun heading v hv => h.labelled heading v (by cases heading <;> exact hv),
    fun file' q hq => ?_, fun hclosed => absurd hstate hclosed,
    fun hclosed file' document heading hd hslot' => ?_, fun file' document heading hd => ?_,
    fun file' heading hne => ?_⟩
  · rw [Table.get?_insert] at hq
    by_cases hfile : file' = file
    · rw [if_pos hfile] at hq
      cases hq
      exact hfile ▸ hp
    · rw [if_neg hfile] at hq
      exact h.paired file' q hq
  · rw [hlisted]
    refine h.fresh hclosed file' document heading hd ?_
    rw [Table.get?_insert] at hslot'
    by_cases hfile : file' = file
    · exact hfile ▸ hslot
    · rwa [if_neg hfile] at hslot'
  · rw [hlisted]
    by_cases hfile : file' = file
    · subst hfile
      -- Nothing is listed yet, so that what the partition holds is all that was received.
      have hnothing : l.listed document heading = [] :=
        h.fresh (by rw [hstate]; decide) file' document heading hd hslot
      have hbalance := h.balance file' document heading hd
      rw [hnothing, List.nil_append] at hbalance
      rw [hnothing, Record.held_of_live (by rw [Table.get?_insert, if_pos rfl]), hfiled,
        batch_inj hbalance]
      rfl
    · have hheld : Record.held { l.record with
          partitions := l.record.partitions.insert file (.live p) } file' heading
          = l.record.held file' heading := by
        simp [Record.held, Table.get?_insert, hfile]
      rw [hheld, hmore file' heading hfile, List.append_nil]
      exact h.balance file' document heading hd
  · by_cases hfile : file' = file
    · exact ⟨p.document, hfile ▸ hp⟩
    · rw [hmore file' heading hfile, List.append_nil] at hne
      exact h.placed file' heading hne

end Conserves

/-- Writing a record neither loses nor repeats anything. -/
structure Carries (docs : FileId → ElementId → Prop)
    (received : FileId → Option ItemProperty → List ElementId) (l l' : Ledger) : Prop where
  signs     : l.Signs l'
  conserves : l'.Conserves docs received

theorem Carries.trans (h : l.Carries docs received l') (h' : l'.Carries docs received l'') :
    l.Carries docs received l'' :=
  ⟨h.signs.trans h'.signs, h'.conserves⟩

theorem begin_conserves (hg : l.graph.Dated) (h : l.Conserves docs received) :
    Ensures begin l (fun _ l' => l.Carries docs received l' ∧ l'.record.state = .opened ∧
      l'.record.kind = l.record.kind) fun _ _ => True := by
  refine ensures_bind.mpr (ensures_get.mpr ?_)
  dsimp only
  by_cases hstate : l.record.state ≠ .unopened
  · rw [if_pos hstate]
    exact ensures_throw.mpr trivial
  · rw [if_neg hstate]
    have hunopened : l.record.state = .unopened := not_not.mp hstate
    refine ensures_bind.mpr (ensures_onPart.mpr ((Graph.vertex_delivers hg.memory _).mono
      (fun hub g' hd => ?_) fun _ _ _ => trivial))
    refine ⟨⟨⟨⟨_, hd.1, ?_⟩, fun heading => .inl (by cases heading <;> rfl)⟩, ?_⟩, rfl, rfl⟩
    · intro e he
      rw [List.mem_singleton.mp he]
      exact ⟨rfl, by simp⟩
    · refine h.congr (fun heading v hv => ?_) (fun hopened => absurd rfl hopened) (fun _ => ?_) rfl
        fun document heading => ?_
      · obtain ⟨hlabel, hissued⟩ := h.labelled heading v (by cases heading <;> exact hv)
        exact ⟨hlabel, Nat.le_trans hissued hd.1.issued⟩
      · rw [hunopened]
        decide
      · have helements (source : ElementId) : itemsIn g'.elements source document heading
            = itemsIn l.graph.elements source document heading := by
          rw [hd.1.elements, itemsIn_append]
          simp [itemsIn, Element.items?]
        cases heading <;> simp [listed, Record.resultOf, helements]

theorem referenceResult_conserves (hg : l.graph.Dated) (h : l.Conserves docs received) :
    Ensures referenceResult l (fun result l' => l.Carries docs received l' ∧
      l.record.Fills l'.record ∧ l'.record.referenceResult = some result) fun _ _ => True := by
  refine (referenceResult_enters hg h.labelled).mono (fun result l' hl' => ?_) fun _ _ _ => trivial
  refine ⟨⟨hl'.1.signs, ?_⟩, hl'.1.fills, hl'.2 .references⟩
  obtain ⟨_, _, hrecord⟩ := hl'.1.fills
  refine h.congr hl'.1.labelled ?_ ?_ ?_ fun document heading => ?_
  · rw [hrecord]
    exact id
  · rw [hrecord]
    exact id
  · rw [hrecord]
  · rw [hl'.1.listed, List.append_nil]

/-- The partition of a file goes to the graph. -/
theorem endPartition_conserves (hg : l.graph.Dated) (hd : Located l.graph.issued docs)
    (h : l.Conserves docs received) (file : FileId) :
    Ensures (endPartition file) l (fun _ l' => l.Carries docs received l' ∧
      ∀ file' p, l'.record.partitions.get? file' = some (.live p) →
        file' ≠ file ∧ l.record.partitions.get? file' = some (.live p)) fun _ _ => True := by
  refine ensures_bind.mpr (ensures_get.mpr ?_)
  split
  · rename_i p hp
    refine ensures_bind.mpr (ensures_modify.mpr ?_)
    have hissued := hd.issued file p.document (h.paired file p hp)
    have hlabelled : Labelled
        ⟨{ l.record with partitions := l.record.partitions.insert file .cleared }, l.graph⟩ :=
      fun heading v hv => h.labelled heading v (by cases heading <;> exact hv)
    have hflush := flush_enters (l := ⟨{ l.record with
      partitions := l.record.partitions.insert file .cleared }, l.graph⟩) hissued hg hlabelled
    refine hflush.mono (fun _ l' hl' => ?_) fun _ _ _ => trivial
    refine ⟨⟨?_, h.cleared hd hp hl'.1⟩, fun file' q hq => ?_⟩
    · refine Signs.trans (.of_record hg.memory fun heading => ?_) hl'.1.signs
      cases heading <;> rfl
    · obtain ⟨_, _, hrecord⟩ := hl'.1.fills
      rw [hrecord] at hq
      change (l.record.partitions.insert file .cleared).get? file' = _ at hq
      rw [Table.get?_insert] at hq
      by_cases hfile : file' = file
      · rw [if_pos hfile] at hq
        cases hq
      · rw [if_neg hfile] at hq
        exact ⟨hfile, hq⟩
  · rename_i hlive
    refine ensures_pure.mpr ⟨⟨.of_record hg.memory fun _ => rfl, h⟩, fun file' p hp => ⟨?_, hp⟩⟩
    intro hfile
    exact hlive p (hfile ▸ hp)

/-- Closing a record moves all that it still holds to the graph. -/
theorem close_conserves (hg : l.graph.Dated) (hd : Located l.graph.issued docs)
    (h : l.Conserves docs received) :
    Ensures close l (fun _ l' => l.Carries docs received l' ∧ l'.record.state = .closed)
      fun _ _ => True := by
  refine ensures_bind.mpr (ensures_get.mpr ?_)
  dsimp only
  by_cases hstate : l.record.state = .closed
  · rw [if_pos hstate]
    exact ensures_pure.mpr ⟨⟨.of_record hg.memory fun _ => rfl, h⟩, hstate⟩
  · rw [if_neg hstate]
    -- What is still live after some rounds is the partition of a file whose round is yet to come.
    have hloop : Ensures (l.record.partitions.keys.forM endPartition) l (fun _ l₁ =>
        l.Carries docs received l₁ ∧ ∀ file p,
          l₁.record.partitions.get? file = some (.live p) → file ∈ []) fun _ _ => True := by
      refine Ensures.forM (fun files l₁ => l.Carries docs received l₁ ∧ ∀ file p,
        l₁.record.partitions.get? file = some (.live p) → file ∈ files)
        (fun file files l₁ hl₁ => ?_)
        ⟨⟨.of_record hg.memory fun _ => rfl, h⟩, fun file p hp => Table.mem_keys_of_get? hp⟩
      obtain ⟨hcarries, hlive⟩ := hl₁
      refine (endPartition_conserves (hcarries.signs.dated hg hcarries.conserves.labelled)
        (hd.mono hcarries.signs.issued) hcarries.conserves file).mono (fun _ l₂ hl₂ => ?_)
        fun _ _ _ => trivial
      refine ⟨hcarries.trans hl₂.1, fun file' p hp => ?_⟩
      obtain ⟨hne, hold⟩ := hl₂.2 file' p hp
      exact (List.mem_cons.mp (hlive file' p hold)).resolve_left hne
    refine ensures_bind.mpr (hloop.mono (fun _ l₁ hl₁ => ?_) fun _ _ _ => trivial)
    obtain ⟨hcarries, hlive⟩ := hl₁
    have hg₁ := hcarries.signs.dated hg hcarries.conserves.labelled
    refine ensures_modify.mpr ⟨⟨hcarries.signs.trans (.of_record hg₁.memory fun heading => ?_),
      hcarries.conserves.closed fun file p hp => ?_⟩, rfl⟩
    · cases heading <;> rfl
    · exact absurd (hlive file p hp) List.not_mem_nil

end SymbolGraph.Ledger
