import SymbolGraph.Proofs.Program.Tree
import SymbolGraph.Proofs.Store.Departing

/-!
# Proofs — Store — who is told of the end of a file

A partition is opened together with a registration: its record is told when the walk leaves the root
of the file.  So nothing that is open for the file is missed when the walk leaves it, except where
the record is local to the root of a declaration file and stays open on purpose.  After the document
of the file has ended no partition is opened for it any more.

* `Program.Rooted`: the only source files in the trees of a program are the roots of its files.
* `Record.Recedes`: no partition for a file is opened.
* `Store.Edits.recedes`, `Store.Departs.recedes`: nothing is opened for a file that has ended.
* `Store.Watched`: who has an open partition for a file is told of its end.
* `Store.nodeProcessed_watched`: the walk leaves a node, and with the root of a file nothing is left
  open for it but what is exempt.
-/

namespace SymbolGraph

open SymbolGraph.Action

/-- The roots of files are of their files, and there are no other source files. -/
structure Program.Rooted (p : Program) : Prop where
  root : ∀ file ∈ p.sourceFiles, p.IsRoot file (p.root file)
  only : ∀ node, p.kind node = .sourceFile → ∃ file ∈ p.sourceFiles, node = p.root file

/-- No partition for a file is opened. -/
structure Record.Recedes (file : FileId) (r r' : Record) : Prop where
  known : r'.partitions.get? file ≠ none → r.partitions.get? file ≠ none
  live  : r'.OpenFor file → r.OpenFor file

theorem Record.Recedes.refl (file : FileId) (r : Record) : r.Recedes file r := ⟨id, id⟩

theorem Record.Recedes.trans {file : FileId} {r r' r'' : Record} (h : r.Recedes file r')
    (h' : r'.Recedes file r'') : r.Recedes file r'' :=
  ⟨fun hk => h.known (h'.known hk), fun hl => h.live (h'.live hl)⟩

theorem Record.recedes_of_eq {file : FileId} {r r' : Record} (h : r'.partitions = r.partitions) :
    r.Recedes file r' :=
  ⟨fun hk => h ▸ hk, fun ⟨partition, hp⟩ => ⟨partition, h ▸ hp⟩⟩

/-- A partition for another file says nothing. -/
theorem Record.recedes_insert {file other : FileId} (hne : file ≠ other) (r : Record)
    (slot : Slot Partition) :
    r.Recedes file { r with partitions := r.partitions.insert other slot } := by
  have hget : (r.partitions.insert other slot).get? file = r.partitions.get? file :=
    Store.get?_insert_of_ne _ _ hne
  exact ⟨fun hk => hget ▸ hk, fun ⟨partition, hp⟩ => ⟨partition, hget.symm.trans hp⟩⟩

theorem Record.recedes_shut (file : FileId) (r : Record) : r.Recedes file r.shut :=
  ⟨fun hk => absurd rfl hk, fun ⟨_, hp⟩ => nomatch hp⟩

namespace Store

variable {w : Setting} {leaving : Option NodeId} {s t u : Store} {id : RecordId} {file : FileId}
  {node : NodeId}

/-- A record has an open partition for a file. -/
def Opens (s : Store) (id : RecordId) (file : FileId) : Prop :=
  ∃ r, s.records[id.index]? = some r ∧ r.OpenFor file

/-- A record that is local to the root of a declaration file keeps its partition. -/
def Exempt (w : Setting) (s : Store) (id : RecordId) (file : FileId) : Prop :=
  (∃ r, s.records[id.index]? = some r ∧ r.scope = some (w.program.root file)) ∧
    w.program.isDeclarationFile file = true

/-- Nothing is open for a file but what is exempt. -/
def Flushed (w : Setting) (s : Store) (file : FileId) : Prop :=
  ∀ id, s.Opens id file → s.Exempt w id file

/-- Only the records have a part in it. -/
theorem Flushed.congr (h : s.Flushed w file) (hrecords : t.records = s.records) :
    t.Flushed w file := by
  intro id hopen
  unfold Opens at hopen
  rw [hrecords] at hopen
  unfold Exempt
  rw [hrecords]
  exact h id hopen

/-- Who is exempt stays so. -/
theorem Exempt.endures (h : s.Exempt w id file) (hrenews : Renews Record.Endures s.records t.records) :
    t.Exempt w id file := by
  obtain ⟨⟨r, hr, hscope⟩, hdeclares⟩ := h
  obtain ⟨r', hr', hendures⟩ := hrenews.forward hr
  exact ⟨⟨r', hr', hendures.scope.trans hscope⟩, hdeclares⟩

/-! ### Edits -/

theorem tells_watching {node' : NodeId} {id' : RecordId} :
    (s.watching node id).Tells node' id' ↔ s.Tells node' id' ∨ node' = node ∧ id' = id := by
  unfold Tells watching
  dsimp only
  rw [Table.get?_insert]
  by_cases hnode : node' = node
  · subst hnode
    rw [if_pos rfl, Option.getD_some]
    split
    · rename_i htold
      exact ⟨.inl, fun h => h.elim (fun h => h) fun h => h.2 ▸ htold⟩
    · simp
  · rw [if_neg hnode]
    simp [hnode]

/-- An edit opens no partition for a file, or it opens one of a record that is then told of the end
of the file, which is still to come. -/
theorem Edits.recedes_or_opens (h : Edits w s t) (file : FileId) :
    Renews (Record.Recedes file) s.records t.records ∨
      s.documents.get? file ≠ some .cleared ∧ ∃ id, t.Tells (w.program.root file) id ∧
        ∀ i, i ≠ id.index → t.records[i]? = s.records[i]? := by
  cases h with
  | notes =>
      refine .inl (.modify (.refl file) fun r _ => Record.recedes_of_eq ?_)
      unfold Record.addInfo
      split <;> rfl
  | grants hr hgrants =>
      obtain ⟨_, _, hrecord⟩ := hgrants.record
      refine .inl (renews_putBack hr (.refl file) (Record.recedes_of_eq ?_))
      rw [hrecord]
  -- Opening a partition of `file` is the one edit after which a record has something for it, and it
  -- tells the watcher of the root.
  | @opens id r file' partition hr hopen hnone hlive =>
      by_cases hfile : file = file'
      · subst hfile
        refine .inr ⟨hlive, id, tells_watching.mpr (.inr ⟨rfl, rfl⟩), fun i hi => ?_⟩
        exact withPartition_records.trans (if_neg fun heq => hi heq.symm)
      · exact .inl (.modify (.refl file) fun r' _ => r'.recedes_insert hfile _)
  | @fills id r file' old new hr hopen hlive =>
      refine .inl (.modify (.refl file) fun r' hr' => ?_)
      cases hr.symm.trans hr'
      by_cases hfile : file = file'
      · subst hfile
        exact ⟨fun _ => by rw [hlive]; nofun, fun _ => ⟨old, hlive⟩⟩
      · exact r.recedes_insert hfile _
  | _ => exact .inl (.refl (.refl file) _)

/-- Nothing is opened for a file whose document has ended. -/
theorem Edits.recedes (h : Edits w s t) (hended : s.documents.get? file = some .cleared) :
    Renews (Record.Recedes file) s.records t.records :=
  (h.recedes_or_opens file).resolve_right fun hopens => hopens.1 hended

/-- Who has an open partition after an edit had it before, or is told. -/
theorem Edits.opens_or_tells (h : Edits w s t) (hopen : t.Opens id file) :
    s.Opens id file ∨ t.Tells (w.program.root file) id := by
  obtain ⟨r', hr', hlive⟩ := hopen
  rcases h.recedes_or_opens file with hrecedes | ⟨-, opened, htold, hother⟩
  · obtain ⟨r, hr, hback⟩ := hrecedes.backward hr'
    exact .inl ⟨r, hr, hback.live hlive⟩
  · by_cases hid : id = opened
    · exact .inr (hid ▸ htold)
    · have hne : id.index ≠ opened.index := fun heq => hid (by
        cases id
        cases opened
        exact congrArg RecordId.mk heq)
      exact .inl ⟨r', (hother _ hne).symm.trans hr', hlive⟩

theorem Edits.ended (h : Edits w s t) (hended : s.documents.get? file = some .cleared) :
    t.documents.get? file = some .cleared := by
  cases h with
  | files hcleared => exact hcleared file hended
  | _ => exact hended

theorem Edits.documented (h : Edits w s t) (hthere : s.documents.get? file ≠ none) :
    t.documents.get? file ≠ none := by
  cases h with
  | files _ hknown => exact hknown file hthere
  | _ => exact hthere

/-- Who is to be told stays to be told. -/
theorem Edits.tells (h : Edits w s t) (htold : s.Tells node id) : t.Tells node id := by
  cases h with
  | opens => exact tells_watching.mpr (.inl htold)
  | watches => exact tells_watching.mpr (.inl htold)
  | _ => exact htold

theorem Edits.vacant (h : Edits w s t) (hs : s.Vacant) : t.Vacant := by
  intro i r' hr' hclosed
  obtain ⟨r, hr, hrevises⟩ := h.revises.backward hr'
  have hstate : r.state = .closed := hrevises.state.symm.trans hclosed
  rw [hrevises.partitions (by rw [hstate]; nofun)]
  exact hs i r hr hstate

/-! ### Departures -/

theorem Departs.recedes (h : Departs w leaving s t)
    (hended : leaving = none → s.documents.get? file = some .cleared) :
    Renews (Record.Recedes file) s.records t.records := by
  cases h with
  | tells => exact .refl (.refl file) _
  | drains hr _ hdrains =>
      exact renews_putBack hr (.refl file) ⟨hdrains.known file, hdrains.live file⟩
  | retires => exact .modify (.refl file) fun r _ => r.recedes_shut file
  | closes => exact .modify (.refl file) fun r _ => r.recedes_shut file
  | edits hleaving hedits => exact hedits.recedes (hended hleaving)

theorem Departs.ended (h : Departs w leaving s t) (hended : s.documents.get? file = some .cleared) :
    t.documents.get? file = some .cleared := by
  cases h with
  | edits _ hedits => exact hedits.ended hended
  | _ => exact hended

theorem Departs.documented (h : Departs w leaving s t) (hthere : s.documents.get? file ≠ none) :
    t.documents.get? file ≠ none := by
  cases h with
  | edits _ hedits => exact hedits.documented hthere
  | _ => exact hthere

/-- Who a record is stays. -/
theorem Departs.endures (h : Departs w leaving s t) :
    Renews Record.Endures s.records t.records := by
  cases h with
  | tells => exact .refl Record.Endures.refl _
  | drains hr _ hdrains =>
      obtain ⟨_, _, _, hrecord⟩ := hdrains.record
      refine renews_putBack hr Record.Endures.refl ?_
      rw [hrecord]
      exact ⟨rfl, rfl, rfl, fun _ hv => hv⟩
  | retires => exact .modify Record.Endures.refl fun _ _ => ⟨rfl, rfl, rfl, fun _ hv => hv⟩
  | closes => exact .modify Record.Endures.refl fun _ _ => ⟨rfl, rfl, rfl, fun _ hv => hv⟩
  | edits _ hedits => exact hedits.revises.mono fun _ _ hrevises => hrevises.endures

/-- A record that a step closes is left without partitions. -/
theorem Departs.vacant (h : Departs w leaving s t) (hs : s.Vacant) : t.Vacant := by
  have hshut {i : Nat} {r' : Record} {id : RecordId}
      (hr' : (s.records.modify id.index Record.shut)[i]? = some r') (hclosed : r'.state = .closed) :
      r'.partitions = ∅ := by
    rw [Array.getElem?_modify] at hr'
    split at hr'
    · obtain ⟨r, -, rfl⟩ := Option.map_eq_some_iff.mp hr'
      rfl
    · exact hs i r' hr' hclosed
  intro i r' hr' hclosed
  cases h with
  | tells => exact hs i r' hr' hclosed
  | drains hr hnot hdrains =>
      rw [getElem?_putBack] at hr'
      split at hr'
      · obtain ⟨_, -, rfl⟩ := Option.map_eq_some_iff.mp hr'
        obtain ⟨_, _, _, hrecord⟩ := hdrains.record
        rw [hrecord] at hclosed
        exact absurd hclosed hnot
      · exact hs i r' hr' hclosed
  | retires => exact hshut hr' hclosed
  | closes => exact hshut hr' hclosed
  | edits _ hedits => exact hedits.vacant hs i r' hr' hclosed

namespace Departed

theorem vacant (h : Departed w leaving s t) (hs : s.Vacant) : t.Vacant := by
  induction h with
  | refl => exact hs
  | tail _ hstep ih => exact hstep.vacant ih

/-- What is open when the walk has left a node was open before. -/
theorem opens (h : Departed w (some node) s t) (hopen : t.Opens id file) : s.Opens id file := by
  induction h with
  | refl => exact hopen
  | tail _ hstep ih =>
      obtain ⟨r', hr', hlive⟩ := hopen
      obtain ⟨r, hr, hrecedes⟩ := (hstep.recedes nofun).backward hr'
      exact ih ⟨r, hr, hrecedes.live hlive⟩

theorem endures (h : Departed w leaving s t) : Renews Record.Endures s.records t.records := by
  induction h with
  | refl => exact .refl Record.Endures.refl _
  | tail _ hstep ih => exact ih.trans Record.Endures.trans hstep.endures

theorem documented (h : Departed w leaving s t) (hthere : s.documents.get? file ≠ none) :
    t.documents.get? file ≠ none := by
  induction h with
  | refl => exact hthere
  | tail _ hstep ih => exact hstep.documented ih

end Departed

/-! ### Who is told -/

/-- Closed records have no partitions, and who has an open partition for a file is told when the
walk leaves the file, or is exempt. -/
structure Watched (w : Setting) (s : Store) : Prop where
  vacant : s.Vacant
  told : w.program.Rooted → ∀ id, ∀ file ∈ w.program.sourceFiles, s.Opens id file →
    s.Tells (w.program.root file) id ∨ s.Exempt w id file

/-- The cache, the documents and the graph have no part in it. -/
theorem Watched.congr (h : s.Watched w) (hrecords : t.records = s.records)
    (hwatchers : t.watchers = s.watchers) : t.Watched w := by
  refine ⟨fun i r hr => h.vacant i r (hrecords ▸ hr), fun hrooted id file hfile hopen => ?_⟩
  obtain ⟨r, hr, hlive⟩ := hopen
  rcases h.told hrooted id file hfile ⟨r, hrecords ▸ hr, hlive⟩ with htold | hexempt
  · refine .inl ?_
    unfold Tells
    rw [hwatchers]
    exact htold
  · obtain ⟨⟨r', hr', hscope⟩, hdeclares⟩ := hexempt
    exact .inr ⟨⟨r', hrecords.symm ▸ hr', hscope⟩, hdeclares⟩

theorem Edits.watched (h : Edits w s t) (hs : s.Watched w) : t.Watched w := by
  refine ⟨h.vacant hs.vacant, fun hrooted id file hfile hopen => ?_⟩
  rcases h.opens_or_tells hopen with hopen | htold
  · rcases hs.told hrooted id file hfile hopen with htold | hexempt
    · exact .inl (h.tells htold)
    · exact .inr (hexempt.endures (h.revises.mono fun _ _ hrevises => hrevises.endures))
  · exact .inl htold

theorem Edited.watched (h : Edited w s t) (hs : s.Watched w) : t.Watched w := by
  induction h with
  | refl => exact hs
  | tail _ hstep ih => exact hstep.watched ih

theorem Edited.documented (h : Edited w s t) (hthere : s.documents.get? file ≠ none) :
    t.documents.get? file ≠ none := by
  induction h with
  | refl => exact hthere
  | tail _ hstep ih => exact hstep.documented ih

/-- A new record has no partition. -/
theorem Watched.pushed (hs : s.Watched w) {fresh : Record} (hnone : fresh.partitions = ∅) :
    (s.pushed fresh).Watched w := by
  refine ⟨fun i r hr hclosed => ?_, fun hrooted id file hfile hopen => ?_⟩
  · rcases getElem?_pushed.mp hr with hr | ⟨-, rfl⟩
    · exact hs.vacant i r hr hclosed
    · exact hnone
  · obtain ⟨r, hr, hlive⟩ := hopen
    rcases getElem?_pushed.mp hr with hr | ⟨-, rfl⟩
    · refine (hs.told hrooted id file hfile ⟨r, hr, hlive⟩).imp_right fun hexempt => ?_
      obtain ⟨⟨r', hr', hscope⟩, hdeclares⟩ := hexempt
      exact ⟨⟨r', getElem?_pushed.mpr (.inl hr'), hscope⟩, hdeclares⟩
    · exact absurd hlive (not_openFor_of_empty hnone)

theorem Admits.watched {key : SymbolKey} {kind : RecordKind} {scope : Option NodeId}
    {hub : VertexRef} (h : s.Admits key kind scope hub t) (hs : s.Watched w) : t.Watched w := by
  rw [h.store]
  exact (hs.pushed rfl).congr rfl rfl

theorem Refuses.watched {key : SymbolKey} {kind : RecordKind} {scope : Option NodeId}
    (h : s.Refuses key kind scope t) (hs : s.Watched w) : t.Watched w := by
  rw [h.store]
  exact (hs.pushed rfl).congr rfl rfl

/-! ### The walk leaves a node -/

/-- Those who are told of a node that the walk has left. -/
theorem leaves_depart (hs : s.Vacant) (told : List RecordId) : Ensures (told.forM (leave w node)) s
    (fun _ t => Departed w (some node) s t ∧ t.watchers = s.watchers ∧
      (w.program.kind node = .sourceFile → ∀ id ∈ told, t.Lingers w node id))
    fun _ t => Departed w (some node) s t := by
  -- Who was told before lingers as long as those after are told.
  refine (Ensures.forM (fun rest t => Departed w (some node) s t ∧ t.watchers = s.watchers ∧
    (w.program.kind node = .sourceFile → ∀ id ∈ told, id ∈ rest ∨ t.Lingers w node id))
    (fun id rest t ht => ?_) ⟨.refl, rfl, fun _ _ hid => .inl hid⟩).mono (fun _ t ht => ?_)
    fun _ _ ht => ht
  · obtain ⟨hst, hwatchers, hlingers⟩ := ht
    refine (leave_departs (hst.vacant hs)).mono (fun _ u hu => ?_) fun _ u hu => hst.trans hu
    obtain ⟨htu, hsame, hlast⟩ := hu
    refine ⟨hst.trans htu, hsame.trans hwatchers, fun hroot other hother => ?_⟩
    rcases hlingers hroot other hother with hmem | hbefore
    · rcases List.mem_cons.mp hmem with rfl | hmem
      · exact .inr (hlast hroot)
      · exact .inl hmem
    · refine .inr fun r' hr' hopen => ?_
      obtain ⟨r, hr, hlive⟩ := htu.opens ⟨r', hr', hopen⟩
      obtain ⟨hscope, hdeclares⟩ := hbefore r hr hlive
      obtain ⟨r'', hr'', hendures⟩ := htu.endures.forward hr
      cases hr'.symm.trans hr''
      exact ⟨hendures.scope.trans hscope, hdeclares⟩
  · exact ⟨ht.1, ht.2.1, fun hroot id hid => (ht.2.2 hroot id hid).resolve_left nofun⟩

/-- **The walk leaves a node.**  Who has an open partition stays told of what is still to come, and
with the root of a file nothing is left open for the file but what is exempt. -/
theorem nodeProcessed_watched (hs : s.Watched w) : Ensures (nodeProcessed w node) s
    (fun _ t => Departed w (some node) s t ∧ t.Watched w ∧ (w.program.Rooted →
      ∀ file ∈ w.program.sourceFiles, node = w.program.root file → t.Flushed w file))
    fun _ t => Departed w (some node) s t := by
  refine ensures_bind.mpr (ensures_get.mpr ?_)
  cases htold : s.watchers.get? node with
  | none =>
      refine ensures_pure.mpr ⟨.refl, hs, fun hrooted file hfile hroot id hopen => ?_⟩
      refine (hs.told hrooted id file hfile hopen).resolve_left fun htells => ?_
      unfold Tells at htells
      rw [← hroot, htold] at htells
      cases htells
  | some told =>
      refine ensures_bind.mpr (ensures_modify.mpr ?_)
      have hforgets : Departed w (some node) s { s with watchers := s.watchers.erase node } :=
        .single .tells
      have hvacant : ({ s with watchers := s.watchers.erase node } : Store).Vacant := hs.vacant
      refine (leaves_depart hvacant told).mono (fun _ t ht => ?_) fun _ t ht => hforgets.trans ht
      obtain ⟨hst, hwatchers, hlingers⟩ := ht
      -- Whoever was told at the root of the file has been drained by this call, or is exempt and
      -- stays so.
      have hflushed (hrooted : w.program.Rooted) (file : FileId)
          (hfile : file ∈ w.program.sourceFiles) (hroot : node = w.program.root file) :
          t.Flushed w file := by
        intro id hopen
        obtain ⟨hof, hkind, -⟩ := hroot ▸ hrooted.root file hfile
        rcases hs.told hrooted id file hfile (hst.opens hopen) with htells | hexempt
        · obtain ⟨r, hr, hlive⟩ := hopen
          have hid : id ∈ told := by
            unfold Tells at htells
            rwa [← hroot, htold] at htells
          obtain ⟨hscope, hdeclares⟩ := hlingers hkind id hid r hr (hof.symm ▸ hlive)
          exact ⟨⟨r, hr, hroot ▸ hscope⟩, hof ▸ hdeclares⟩
        · exact hexempt.endures hst.endures
      refine ⟨hforgets.trans hst, ⟨hst.vacant hs.vacant, fun hrooted id file hfile hopen => ?_⟩, hflushed⟩
      -- For the other files the watchers are those from before the call.
      by_cases hroot : node = w.program.root file
      · exact .inr (hflushed hrooted file hfile hroot id hopen)
      · rcases hs.told hrooted id file hfile (hst.opens hopen) with htells | hexempt
        · left
          unfold Tells
          rw [hwatchers, get?_erase_of_ne _ fun heq => hroot heq.symm]
          exact htells
        · exact .inr (hexempt.endures hst.endures)

end Store

end SymbolGraph
