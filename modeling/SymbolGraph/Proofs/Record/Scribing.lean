import SymbolGraph.Proofs.Discipline
import SymbolGraph.Proofs.Graph.Tallies
import SymbolGraph.Record.Ledger

/-!
# Proofs — Record — writing a record is quiet

Whatever is written for a record, opening it, giving it results, listing and closing, delivers only
quiet elements: no document, no containment, nothing that leads on.  And its faults are its own:
they blame nothing that was cleared.

* `Fault.IsOwn`: faults that blame nothing that was cleared and no reservation.
* `Record.Endures`, `Record.Amends`, `Record.Ends`: what nothing, collecting and closing changes.
* `Ledger.Scribes`: what an action on a ledger does to the record, all else being quiet.
* `Ledger.endPartition_scribes`, `Ledger.close_scribes`: the ends of a partition and of a record.
-/

namespace SymbolGraph

/-- Faults that blame nothing that was cleared and no reservation. -/
def Fault.IsOwn : Fault → Prop
  | .recordCleared _ | .documentCleared _ | .partitionCleared _ _ | .cyclicResolution _ => False
  | _ => True

theorem Graph.OfSink.isOwn {fault : Fault} (h : Graph.OfSink fault) : fault.IsOwn := by
  obtain ⟨reason, rfl⟩ := h
  trivial

/-! ### What happens to records -/

namespace Record

/-- Nothing of a record has changed but its results. -/
def Fills (r r' : Record) : Prop :=
  ∃ referenceResult definitionResult, r' = { r with referenceResult, definitionResult }

theorem Fills.refl (r : Record) : r.Fills r := ⟨_, _, rfl⟩

/-- Results may be filled in over two steps. -/
theorem Fills.trans {r r' r'' : Record} (h : r.Fills r') (h' : r'.Fills r'') : r.Fills r'' := by
  obtain ⟨_, _, rfl⟩ := h
  obtain ⟨_, _, rfl⟩ := h'
  exact ⟨_, _, rfl⟩

/-- What nothing changes about a record. -/
structure Endures (r r' : Record) : Prop where
  key       : r'.key = r.key
  kind      : r'.kind = r.kind
  scope     : r'.scope = r.scope
  resultSet : ∀ v, r.resultSet = some v → r'.resultSet = some v

theorem Endures.refl (r : Record) : r.Endures r := ⟨rfl, rfl, rfl, fun _ hv => hv⟩

/-- A record endures over two steps. -/
theorem Endures.trans {r r' r'' : Record} (h : r.Endures r') (h' : r'.Endures r'') :
    r.Endures r'' where
  key := h'.key.trans h.key
  kind := h'.kind.trans h.kind
  scope := h'.scope.trans h.scope
  resultSet v hv := h'.resultSet v (h.resultSet v hv)

/-- A record collects: it is not closed, and none of its partitions is cleared. -/
structure Amends (r r' : Record) : Prop extends Endures r r' where
  closed  : r'.state = .closed → r.state = .closed
  cleared : ∀ file, r'.partitions.get? file = some .cleared →
    r.partitions.get? file = some .cleared

theorem Amends.refl (r : Record) : r.Amends r := ⟨.refl r, id, fun _ hc => hc⟩

/-- Coordinates may be added to a record. -/
theorem amends_addInfo (r : Record) (info : DefinitionInfo) :
    r.Amends (r.addInfo info) := by
  unfold addInfo
  split
  · exact ⟨⟨rfl, rfl, rfl, fun _ hv => hv⟩, id, fun _ hc => hc⟩
  · exact .refl r

/-- A record closes: only partitions for these files are cleared. -/
structure Ends (files : FileId → Prop) (r r' : Record) : Prop extends Endures r r' where
  infos   : r'.definitionInfos ⊆ r.definitionInfos
  cleared : ∀ file, r'.partitions.get? file = some .cleared →
    r.partitions.get? file = some .cleared ∨ files file

theorem Ends.refl (files : FileId → Prop) (r : Record) : r.Ends files r :=
  ⟨.refl r, List.Subset.refl _, fun _ hc => .inl hc⟩

/-- Partitions may be cleared in two steps, if both are for files that may be. -/
theorem Ends.trans {files more : FileId → Prop} {r r' r'' : Record} (h : r.Ends files r')
    (h' : r'.Ends more r'') (himp : ∀ file, more file → files file) : r.Ends files r'' where
  toEndures := h.toEndures.trans h'.toEndures
  infos := List.Subset.trans h'.infos h.infos
  cleared file hc := (h'.cleared file hc).elim (h.cleared file) fun hm => .inr (himp file hm)

/-- No coordinates were added to a record. -/
def NotesNothing (r r' : Record) : Prop := ∀ info ∈ r'.definitionInfos, info ∈ r.definitionInfos

theorem NotesNothing.refl (r : Record) : r.NotesNothing r := fun _ hinfo => hinfo

/-- What is noted now was noted before, or is new. -/
theorem mem_addInfo {r : Record} {info info' : DefinitionInfo}
    (h : info' ∈ (r.addInfo info).definitionInfos) : info' ∈ r.definitionInfos ∨ info' = info := by
  unfold addInfo at h
  split at h
  · rcases List.mem_append.mp h with h | h
    · exact .inl h
    · exact .inr (List.mem_singleton.mp h)
  · exact .inl h

end Record

namespace Ledger

open SymbolGraph.Action SymbolGraph.Discipline

variable {α : Type} {l l' l'' : Ledger}

/-- What was delivered is quiet. -/
def Quietly (l l' : Ledger) : Prop :=
  ∃ written, l.graph.Delivers written l'.graph ∧ ∀ e ∈ written, e.IsQuiet

/-- What is quiet twice is quiet. -/
theorem Quietly.trans (h : l.Quietly l') (h' : l'.Quietly l'') : l.Quietly l'' := by
  obtain ⟨written, hd, hq⟩ := h
  obtain ⟨more, hd', hq'⟩ := h'
  refine ⟨written ++ more, hd.trans hd', fun e he => ?_⟩
  rcases List.mem_append.mp he with he | he
  · exact hq e he
  · exact hq' e he

/-- Over a memory, what is delivered is quiet, and faults are the ledger's own. -/
def scribing : Discipline Ledger Fault where
  ready l := l.graph.IsMemory
  steps := Quietly
  blames _ fault _ := fault.IsOwn
  refl hm := ⟨[], .refl hm, nofun⟩
  trans := Quietly.trans
  keeps _ := fun ⟨_, hd, _⟩ => hd.memory
  carries _ hfault := hfault

/-- A quiet action on a ledger over a memory, with faults of its own. -/
abbrev Scribes (act : Writing α) (l : Ledger) (post : α → Ledger → Prop) : Prop :=
  scribing.Follows act l post

theorem scribes_change {f : Record → Record} :
    Scribes (change f) l fun _ l' => l'.record = f l.record :=
  fun hm => ensures_modify.mpr ⟨⟨[], .refl hm, nofun⟩, rfl⟩

/-- A vertex that is neither a document nor a range. -/
theorem scribes_vertex {v : Vertex} (hd : v.label ≠ .document) (hr : v.label ≠ .range) :
    Scribes (liftM (Graph.vertex v)) l fun ref l' =>
      l'.record = l.record ∧ l.graph.issued < ref.id.value ∧ ref.id.value ≤ l'.graph.issued := by
  intro hm
  refine ensures_onPart.mpr ((Graph.vertex_delivers hm v).mono (fun ref g' hg' => ?_)
    fun _ _ hfault => hfault.isOwn)
  refine ⟨⟨_, hg'.1, fun e he => ?_⟩, rfl, hg'.1.ids _ (List.mem_singleton_self _)⟩
  rw [List.mem_singleton.mp he]
  refine Element.isQuiet_vertex hd ?_
  rintro span rfl
  exact hr rfl

/-- An edge that neither contains nor leads on. -/
theorem scribes_edge {e : Edge} (hc : e.label ≠ .contains) (hn : e.label ≠ .link .next) :
    Scribes (liftM (Graph.edge e)) l fun _ l' => l'.record = l.record := by
  intro hm
  refine ensures_onPart.mpr ((Graph.edge_delivers hm e).mono (fun id g' hg' => ?_)
    fun _ _ hfault => hfault.isOwn)
  refine ⟨⟨_, hg', fun e' he' => ?_⟩, rfl⟩
  rw [List.mem_singleton.mp he']
  exact Element.isQuiet_edge hc hn

/-- A link of another kind does not lead on, so it is quiet. -/
theorem scribes_link {kind : LinkKind} {source target : ElementId} (h : kind ≠ .next) :
    Scribes (liftM (Graph.link kind source target)) l fun _ l' => l'.record = l.record :=
  scribes_edge nofun fun heq => h (EdgeLabel.link.inj heq)

/-- An edge that lists something does not lead on either. -/
theorem scribes_item {v : VertexRef} {ids : List ElementId} {document : ElementId}
    {property : ItemProperty} :
    Scribes (liftM (Graph.item v ids document property)) l fun _ l' => l'.record = l.record := by
  unfold Graph.item Edge.listing
  split
  · rename_i e he
    refine scribes_edge ?_ ?_
    all_goals
      split at he
      · cases he
        nofun
      · cases he
        nofun
      · cases he
  · exact fun _ => ensures_onPart.mpr (ensures_throw.mpr trivial)

/-! ### Results -/

theorem resultSet_scribes : Scribes resultSet l fun v l' => l' = l ∧ l.record.resultSet = some v := by
  unfold resultSet Record.begunResultSet
  refine follows_get ?_
  cases hhub : l.record.resultSet with
  | some v => exact follows_pure ⟨rfl, rfl⟩
  | none => exact follows_throw trivial

/-- A record begins once, with a result set under a new id. -/
theorem begin_scribes : Scribes begin l fun v l' =>
    l'.record = { l.record with resultSet := some v, state := .opened } ∧
      l.record.state = .unopened ∧ l.graph.issued < v.id.value ∧
      v.id.value ≤ l'.graph.issued := by
  unfold begin
  refine follows_get ?_
  dsimp only
  split
  · exact follows_throw trivial
  · rename_i hstate
    unfold emitResultSet
    refine (scribes_vertex (by decide) (by decide)).bind fun v l₁ _ _ hl₁ => ?_
    obtain ⟨hrecord, hnew, hissued⟩ := hl₁
    refine fun hm => ensures_bind.mpr (ensures_modify.mpr (ensures_pure.mpr
      ⟨⟨[], .refl hm, nofun⟩, ?_, not_not.mp hstate, hnew, hissued⟩))
    rw [hrecord]

/-- A result is made and linked to, and the record takes it. -/
theorem newResult_scribes {v : Vertex} (hd : v.label ≠ .document) (hr : v.label ≠ .range)
    {kind : LinkKind} (hk : kind ≠ .next) {note : VertexRef → Record → Record}
    (hfills : ∀ (result : VertexRef) (r : Record), r.Fills (note result r)) :
    Scribes (newResult v kind note) l fun _ l' => l.record.Fills l'.record := by
  refine resultSet_scribes.bind fun hub l₁ _ _ hl₁ => ?_
  obtain ⟨rfl, -⟩ := hl₁
  refine (scribes_vertex hd hr).bind fun result l₂ _ _ hl₂ => ?_
  refine (scribes_link hk).discard.bind fun _ l₃ _ _ hl₃ => ?_
  refine scribes_change.bind fun _ l₄ _ _ hl₄ => follows_pure ?_
  rw [hl₄, hl₃, hl₂.1]
  exact hfills result l₁.record

/-- A reference result is filled in, if there is none. -/
theorem referenceResult_scribes :
    Scribes referenceResult l fun _ l' => l.record.Fills l'.record := by
  unfold referenceResult
  refine follows_get ?_
  split
  · exact follows_pure (.refl _)
  · exact newResult_scribes (by decide) (by decide) (by decide) fun _ _ => ⟨_, _, rfl⟩

/-- A definition result is filled in, if there is none. -/
theorem definitionResult_scribes :
    Scribes definitionResult l fun _ l' => l.record.Fills l'.record := by
  unfold definitionResult
  refine follows_get ?_
  split
  · exact follows_pure (.refl _)
  · exact newResult_scribes (by decide) (by decide) (by decide) fun _ _ => ⟨_, _, rfl⟩

/-! ### Partitions -/

/-- What was collected as references is listed by the reference result. -/
theorem listReferences_scribes {p : Partition} {r : Record} (h : r.Fills l.record) :
    Scribes (listReferences p) l fun _ l' => r.Fills l'.record := by
  unfold listReferences
  split
  · refine referenceResult_scribes.bind fun v l₁ _ _ hl₁ => ?_
    refine Follows.forM (fun l' : Ledger => r.Fills l'.record) _ (fun entry _ l₂ hl₂ => ?_) (h.trans hl₁)
    unfold listEntry
    split
    · exact follows_pure hl₂
    · exact (scribes_item.mono fun _ l₃ hl₃ => hl₃ ▸ hl₂).discard
  · exact follows_pure h

/-- What a partition collected is listed, and the results that were missing are filled in. -/
theorem flush_scribes {p : Partition} :
    Scribes (flush p) l fun _ l' => l.record.Fills l'.record := by
  unfold flush
  dsimp only
  split
  · exact listReferences_scribes (.refl _)
  · refine definitionResult_scribes.bind fun v l₁ _ _ hl₁ => ?_
    refine scribes_item.discard.bind fun _ l₂ _ _ hl₂ => ?_
    exact listReferences_scribes (hl₂ ▸ hl₁)

/-- The partition of a file ends. -/
theorem endPartition_scribes (file : FileId) : Scribes (endPartition file) l fun _ l' =>
    l.record.Ends (fun file' => file' = file) l'.record ∧
      l'.record.state = l.record.state := by
  unfold endPartition
  refine follows_get ?_
  split
  · refine scribes_change.bind fun _ l₁ _ _ hl₁ => flush_scribes.mono fun _ l₂ hl₂ => ?_
    obtain ⟨_, _, hrecord⟩ := hl₂
    rw [hrecord, hl₁]
    refine ⟨⟨⟨rfl, rfl, rfl, fun _ hv => hv⟩, List.Subset.refl _, fun file' hcleared => ?_⟩, rfl⟩
    change (l.record.partitions.insert file .cleared).get? file' = _ at hcleared
    rw [Table.get?_insert] at hcleared
    split at hcleared
    · exact .inr ‹_›
    · exact .inl hcleared
  · exact follows_pure ⟨.refl _ _, rfl⟩

/-- A record is closed and keeps nothing. -/
theorem close_scribes :
    Scribes close l fun _ l' => l.record.Ends (fun _ => False) l'.record := by
  unfold close
  refine follows_get ?_
  dsimp only
  split
  · exact follows_pure (.refl _ _)
  · refine (Follows.forM (fun l' : Ledger => l.record.Ends (fun _ => True) l'.record) _
      (fun file _ l₁ hl₁ => ?_) (.refl _ _)).bind fun _ l₁ _ _ hl₁ => scribes_change.mono fun _ l₂ hl₂ => ?_
    · exact (endPartition_scribes file).mono fun _ l₂ hl₂ =>
        hl₁.trans hl₂.1 fun _ _ => trivial
    · rw [hl₂]
      exact ⟨⟨hl₁.key, hl₁.kind, hl₁.scope, hl₁.resultSet⟩, List.nil_subset _, nofun⟩

end Ledger

end SymbolGraph
