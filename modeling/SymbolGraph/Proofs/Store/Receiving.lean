import SymbolGraph.Proofs.Store.Receipts

/-!
# Proofs — Store — who receives what is recorded

What is recorded under one record goes to the records that keep it.  Here the records that receive
something are listed in order, and recording is shown to give it to exactly these, each time once.

* `Store.receivers`: the records that a reference is passed on to, in order.
* `Store.citations`, `Store.definitions`: what recording a reference or a definition gives to whom.
* `Store.Receives`: an action that ends well gives certain receipts; `Store.Receives.bind` composes.
* `Store.addReference_receives`, `Store.addDefinition_receives`: recording gives what it should.
-/

namespace SymbolGraph

open SymbolGraph.Action

namespace Store

/-- The kind of a record that may be written to. -/
def openKind? (s : Store) (id : RecordId) : Option RecordKind :=
  match s.records[id.index]? with
  | some r => if r.state = .opened then some r.kind else none
  | none   => none

/-- The records that keep a reference to a record, in order: the record itself, or those that keep it
of the records that it is passed on to, in at most so many steps.  A record that may not be written
to keeps nothing and passes nothing on. -/
def receivers (kinds : RecordId → Option RecordKind) (reference : Reference) :
    (steps : Nat) → RecordId → List RecordId
  | 0,         _  => []
  | steps + 1, id =>
      match kinds id with
      | none      => []
      | some kind =>
          match reference.passedTo kind with
          | none     => [id]
          | some ids => ids.flatMap (receivers kinds reference steps)

/-- What the records that keep a reference receive.  A chain of records that ends visits none twice,
so that it takes no more than a step for each. -/
def citations (s : Store) (id : RecordId) (file : FileId) (reference : Reference)
    (role : ReferenceRole) : List Receipt :=
  (receivers s.openKind? reference (s.records.size + 1) id).map fun record =>
    ⟨record, file, some (reference.property role), reference.id⟩

/-- What is received when a definition is recorded: by the record, if it is defined by its
definitions, and by the records that its definitions are references to. -/
def definitions (s : Store) (id : RecordId) (file : FileId) (range : ElementId)
    (asReference : Bool) : List Receipt :=
  match s.openKind? id with
  | none      => []
  | some kind =>
      (if kind.ownsDefinitions then [⟨id, file, none, range⟩] else []) ++
        match kind.definitionRole, kind.passesTo with
        | none,      _        => []
        | some role, some ids =>
            ids.flatMap fun target => s.citations target file (.range range) role
        | some role, none     =>
            if asReference then [⟨id, file, some role.property, range⟩] else []

variable {s t u : Store} {α β : Type}

/-- The kind of an open record is that of a record that is open. -/
theorem openKind?_eq_some {id : RecordId} {kind : RecordKind} :
    s.openKind? id = some kind ↔
      ∃ r, s.records[id.index]? = some r ∧ r.state = .opened ∧ r.kind = kind := by
  unfold openKind?
  cases s.records[id.index]? with
  | none => simp
  | some r =>
      by_cases hstate : r.state = .opened
      · simp [hstate]
      · simp [hstate]

/-- What stays as it is while things are recorded: who may be written to, and the reference results
that there are. -/
structure Steady (s t : Store) : Prop where
  size   : t.records.size = s.records.size
  kinds  : t.openKind? = s.openKind?
  citing : ∀ id v, s.citing? id = some v → t.citing? id = some v

theorem Steady.refl (s : Store) : s.Steady s := ⟨rfl, rfl, fun _ _ h => h⟩

theorem Steady.trans (h : s.Steady t) (h' : t.Steady u) : s.Steady u :=
  ⟨h'.size.trans h.size, h'.kinds.trans h.kinds, fun id v hv => h'.citing id v (h.citing id v hv)⟩

theorem Steady.of_records (h : t.records = s.records) : s.Steady t := by
  refine ⟨by rw [h], ?_, ?_⟩
  · unfold openKind?
    rw [h]
  · unfold citing?
    rw [h]
    exact fun _ _ hv => hv

/-- A record that is put back stays open and citing. -/
theorem Steady.putBack {id : RecordId} {r : Record} {l : Ledger}
    (hr : s.records[id.index]? = some r) (hstate : l.record.state = r.state)
    (hkind : l.record.kind = r.kind)
    (hciting : ∀ v, r.referenceResult = some v → l.record.referenceResult = some v) :
    s.Steady (s.putBack id l) := by
  refine ⟨Array.size_modify, funext fun other => ?_, fun other v hv => ?_⟩
  · unfold openKind?
    rw [getElem?_putBack]
    by_cases hother : id.index = other.index
    · rw [if_pos hother, ← hother, hr]
      simp [hstate, hkind]
    · rw [if_neg hother]
  · unfold citing? at hv ⊢
    rw [getElem?_putBack]
    by_cases hother : id.index = other.index
    · rw [← hother, hr] at hv
      rw [if_pos hother, ← hother, hr]
      exact hciting v hv
    · rwa [if_neg hother]

/-- Who cites through whom is settled by the kinds and results of records. -/
theorem Steady.citations (h : s.Steady t) (id : RecordId) (file : FileId) (reference : Reference)
    (role : ReferenceRole) :
    t.citations id file reference role = s.citations id file reference role := by
  unfold Store.citations
  rw [h.size, h.kinds]

/-! ### Actions that give receipts -/

/-- Run from a store that conserves its log, the action adds these receipts or fails. -/
def Receives (act : Storing α) (s : Store) (new : List Receipt) (post : α → Store → Prop) : Prop :=
  ∀ log, s.Conserves log →
    Ensures act s (fun a t => t.Conserves (log ++ new) ∧ s.Steady t ∧ post a t) fun _ _ => True

section Receives

variable {act : Storing α} {new more : List Receipt} {post : α → Store → Prop} {w : Setting}
  {id : RecordId} {file : FileId}

theorem receives_pure {a : α} (h : post a s) : Receives (pure a) s [] post := by
  intro log hs
  exact ensures_pure.mpr ⟨(List.append_nil log).symm ▸ hs, .refl s, h⟩

/-- An operation that fails has received nothing. -/
theorem receives_throw {fault : Fault} : Receives (throw fault) s new post :=
  fun _ _ => ensures_throw.mpr trivial

theorem Receives.mono {post' : α → Store → Prop} (h : Receives act s new post)
    (hp : ∀ a t, post a t → post' a t) : Receives act s new post' :=
  fun log hs => (h log hs).mono (fun a t ht => ⟨ht.1, ht.2.1, hp a t ht.2.2⟩) fun _ _ hf => hf

/-- What comes next receives after the first. -/
theorem Receives.bind {f : α → Storing β} {post' : β → Store → Prop} (h : Receives act s new post)
    (hf : ∀ a t, s.Steady t → post a t → Receives (f a) t more post') :
    Receives (act >>= f) s (new ++ more) post' := by
  intro log hs
  refine ensures_bind.mpr ((h log hs).mono (fun a t ht => ?_) fun _ _ hfault => hfault)
  refine (hf a t ht.2.1 ht.2.2 (log ++ new) ht.1).mono (fun b u hu => ?_) fun _ _ hfault => hfault
  rw [← List.append_assoc]
  exact ⟨hu.1, ht.2.1.trans hu.2.1, hu.2.2⟩

theorem receives_get {f : Store → Storing α} (h : Receives (f s) s new post) :
    Receives (get >>= f) s new post :=
  fun log hs => ensures_bind.mpr (ensures_get.mpr (h log hs))

/-- Reading a record; one that does not exist is a fault. -/
theorem ensures_record {f : Record → Storing α}
    (h : ∀ r, s.records[id.index]? = some r → Ensures (f r) s post fun _ _ => True) :
    Ensures (record id >>= f) s post fun _ _ => True := by
  unfold record
  rw [ensures_bind, ensures_bind, ensures_get]
  cases hr : s.records[id.index]? with
  | some r => exact ensures_pure.mpr (h r hr)
  | none => exact ensures_throw.mpr trivial

theorem receives_record {f : Record → Storing α}
    (h : ∀ r, s.records[id.index]? = some r → Receives (f r) s new post) :
    Receives (record id >>= f) s new post :=
  fun log hs => ensures_record fun r hr => h r hr log hs

theorem receives_resultSet {f : VertexRef → Storing α}
    (h : ∀ hub, Receives (f hub) s new post) : Receives (resultSet id >>= f) s new post := by
  have hread : Ensures (resultSet id) s (fun _ t => t = s) fun _ _ => True := by
    refine ensures_record fun r _ => ?_
    cases r.begunResultSet with
    | ok hub => exact ensures_ofExcept_ok.mpr rfl
    | error fault => exact ensures_ofExcept_error.mpr trivial
  intro log hs
  refine ensures_bind.mpr (hread.mono (fun hub t ht => ?_) fun _ _ _ => trivial)
  rw [ht]
  exact h hub log hs

/-- What is done to a record if it is open. -/
theorem whenOpen_receives {act : Record → Storing Unit}
    (hopen : ∀ r, s.openKind? id = some r.kind → Receives (act r) s new fun _ _ => True)
    (hshut : s.openKind? id = none → new = []) :
    Receives (whenOpen id act) s new fun _ _ => True := by
  refine receives_record fun r hr => ?_
  unfold Record.isOpen
  cases hstate : r.state with
  | opened => exact hopen r (openKind?_eq_some.mpr ⟨r, hr, hstate, rfl⟩)
  | unopened => exact receives_throw
  | closed =>
      rw [hshut (by simp [openKind?, hr, hstate])]
      by_cases hstrict : r.kind.isStrict = true
      · simp only [hstrict, if_true]
        exact receives_throw
      · simp only [hstrict]
        exact receives_pure trivial

/-- A loop gives what its rounds give, in order. -/
theorem receives_forM {f : β → Storing PUnit} {given : β → List Receipt} (list : List β)
    (h : ∀ b ∈ list, ∀ t, s.Steady t → Receives (f b) t (given b) fun _ _ => True) :
    Receives (list.forM f) s (list.flatMap given) fun _ _ => True := by
  induction list generalizing s with
  | nil => exact receives_pure trivial
  | cons b rest ih =>
      refine (h b List.mem_cons_self s (.refl s)).bind fun _ t hst _ => ih fun b' hb' u htu => ?_
      exact h b' (List.mem_cons_of_mem _ hb') u (hst.trans htu)

/-! ### Documents and partitions -/

/-- What happens aside receives nothing. -/
theorem receives_aside (h : s.graph.IsMemory → Ensures act s (fun a t => s.Aside t ∧ post a t)
    fun _ _ => True) : Receives act s [] post := by
  intro log hs
  refine (h hs.dated.memory).mono (fun a t ht => ?_) fun _ _ hfault => hfault
  rw [List.append_nil]
  exact ⟨hs.aside ht.1, .of_records ht.1.records, ht.2⟩

theorem link_receives (kind : LinkKind) (source target : ElementId) :
    Receives (discard (Graph.link kind source target) : Storing Unit) s []
      fun _ t => t.records = s.records := by
  refine receives_aside fun hm => ensures_discard.mpr (ensures_onPart.mpr
    ((Graph.edge_remarks hm (by simp [Edge.label])).mono (fun n g hg => ?_) fun _ _ _ => trivial))
  exact ⟨.of_remarks hg rfl rfl, rfl⟩

theorem watch_receives (node : NodeId) : Receives (watch node id) s [] fun _ t =>
    t.records = s.records :=
  receives_aside fun hm => ensures_modify.mpr
    ⟨.of_remarks (.refl hm) rfl rfl, rfl⟩

theorem document_receives (file : FileId) : Receives (document w file) s [] fun document t =>
    t.DocumentOf file document.vertex.id ∧ t.records = s.records := by
  refine receives_get ?_
  split
  · rename_i document hlive
    intro log hs
    exact receives_pure ⟨hs.filing.live file document hlive, rfl⟩ log hs
  · exact receives_throw
  · rename_i hnone
    intro log hs
    refine ensures_bind.mpr (ensures_onPart.mpr ((Graph.vertex_delivers hs.dated.memory _).mono
      (fun vertex g hd => ?_) fun _ _ _ => trivial))
    refine ensures_bind.mpr (ensures_modify.mpr (ensures_pure.mpr ?_))
    rw [List.append_nil]
    refine ⟨hs.locate hnone hd.1, .of_records rfl, ?_, rfl⟩
    exact (hs.locate hnone hd.1).filing.live file _ ((Table.get?_insert _ _ _ _).trans (if_pos rfl))

/-- Changing a record that is there, seen as writing it back. -/
theorem modify_eq_putBack {r : Record} (hr : s.records[id.index]? = some r) {f : Record → Record} :
    { s with records := s.records.modify id.index f } = s.putBack id ⟨f r, s.graph⟩ := by
  unfold putBack
  congr 1
  refine Array.ext_getElem? fun i => ?_
  rw [Array.getElem?_modify, Array.getElem?_modify]
  by_cases hi : id.index = i
  · rw [if_pos hi, if_pos hi, ← hi, hr]
    rfl
  · rw [if_neg hi, if_neg hi]

/-- A record that may be written to has its partition for a file replaced, in order to receive
something. -/
theorem fill_receives {r : Record} {p : Partition} (hr : s.records[id.index]? = some r)
    (hstate : r.state = .opened) (hslot : r.partitions.get? file ≠ some .cleared)
    (hp : s.DocumentOf file p.document)
    (hfiled : ∀ heading, p.filed heading = r.held file heading ++ received new id file heading)
    (hnew : ∀ receipt ∈ new, receipt.record = id ∧ receipt.file = file) :
    Receives (changeRecord id fun record =>
        { record with partitions := record.partitions.insert file (.live p) }) s new
      fun _ _ => True := by
  intro log hs
  refine ensures_bind.mpr (ensures_discard.mpr (record_ensures hr (ensures_modify.mpr ?_)))
  rw [modify_eq_putBack hr]
  refine ⟨hs.putBack hr ?_ ?_ fun receipt hreceipt => (hnew receipt hreceipt).1,
    .putBack hr rfl rfl fun _ hv => hv, trivial⟩
  · refine .of_record hs.dated.memory fun heading => ?_
    cases heading <;> rfl
  · rw [received_append]
    refine (hs.records id.index r hr).receive hstate hslot hp hfiled fun file' heading hne => ?_
    refine received_eq_nil (fun receipt hreceipt _ hfile => hne ?_) heading
    exact hfile.symm.trans (hnew receipt hreceipt).2

/-- A record that may be written to has a partition for a file, which may be empty. -/
theorem ensurePartition_receives {kind : RecordKind} (hopen : s.openKind? id = some kind) :
    Receives (ensurePartition w id file) s [] fun _ _ => True := by
  obtain ⟨r, hr, hstate, -⟩ := openKind?_eq_some.mp hopen
  refine receives_record fun known hknown => ?_
  cases hr.symm.trans hknown
  by_cases hcontains : r.partitions.contains file = true
  · rw [if_pos hcontains]
    exact receives_pure trivial
  · rw [if_neg hcontains]
    have hnone : r.partitions.get? file = none := by
      simpa [Table.contains] using hcontains
    refine (document_receives file).bind fun document t hst ht => ?_
    have hempty (heading : Option ItemProperty) :
        Partition.filed { document := document.vertex.id } heading
          = r.held file heading ++ received [] id file heading := by
      rw [Record.held_of_not_live (by simp [hnone])]
      cases heading with
      | none => rfl
      | some property => cases property <;> rfl
    have hslot : r.partitions.get? file ≠ some .cleared := by simp [hnone]
    exact (fill_receives (ht.2 ▸ hr) hstate hslot ht.1 hempty (by simp)).bind
      fun _ u _ _ => (watch_receives _).mono fun _ _ _ => trivial

/-- A partition receives what its new entries say. -/
theorem changePartition_receives {kind : RecordKind} (hopen : s.openKind? id = some kind)
    {f : Partition → Partition} (hdocument : ∀ p, (f p).document = p.document)
    (hfiled : ∀ p heading, (f p).filed heading = p.filed heading ++ received new id file heading)
    (hnew : ∀ receipt ∈ new, receipt.record = id ∧ receipt.file = file) :
    Receives (changePartition w id file f) s new fun _ _ => True := by
  refine (ensurePartition_receives hopen).bind fun _ t hst _ => ?_
  refine receives_record fun r hr => ?_
  obtain ⟨known, hknown, hstate, -⟩ := openKind?_eq_some.mp (hst.kinds ▸ hopen)
  cases hr.symm.trans hknown
  split
  · rename_i p hp
    intro log ht
    have hpaired := (ht.records id.index r hr).paired file p hp
    refine fill_receives hr hstate (by simp [hp]) (hdocument p ▸ hpaired) (fun heading => ?_) hnew
      log ht
    rw [Record.held_of_live hp, hfiled]
  · exact receives_throw

/-! ### References and definitions -/

theorem received_single (id : RecordId) (file : FileId) (heading heading' : Option ItemProperty)
    (x : ElementId) : received [⟨id, file, heading, x⟩] id file heading'
      = if heading' = heading then [x] else [] := by
  by_cases hsame : heading' = heading
  · simp [received, hsame]
  · have hother : ¬ heading = heading' := fun h => hsame h.symm
    simp [received, hsame, hother]

/-- A record's own reference is received under its heading. -/
theorem addOwnReference_receives {kind : RecordKind} (hopen : s.openKind? id = some kind)
    (reference : Reference) (role : ReferenceRole) :
    Receives (addOwnReference w id file reference role) s
      [⟨id, file, some (reference.property role), reference.id⟩] fun _ _ => True := by
  refine changePartition_receives hopen (fun p => ?_) (fun p heading => ?_) (by simp)
  · cases reference with
    | range x => cases role <;> rfl
    | result x => rfl
  · rw [received_single]
    cases reference with
    | range x => cases role <;> cases heading with
      | none => simp [Partition.addReference, Partition.filed]
      | some property => cases property <;> simp [Partition.addReference, Partition.filed,
          Partition.under, Reference.property, Reference.id, ReferenceRole.property]
    | result x => cases heading with
      | none => simp [Partition.addReference, Partition.filed]
      | some property => cases property <;> simp [Partition.addReference, Partition.filed,
          Partition.under, Reference.property, Reference.id]

/-- A record's own definition is received as such, and as a reference if it counts as one. -/
theorem addOwnDefinition_receives {kind : RecordKind} (hopen : s.openKind? id = some kind)
    (range : ElementId) (asReference : Bool) :
    Receives (addOwnDefinition w id file range asReference) s
      (⟨id, file, none, range⟩ ::
        if asReference then [⟨id, file, some .definitions, range⟩] else []) fun _ _ => True := by
  refine receives_resultSet fun hub => (link_receives _ _ _).bind fun _ t hst _ => ?_
  refine changePartition_receives (hst.kinds ▸ hopen) (fun p => ?_) (fun p heading => ?_) ?_
  · cases asReference <;> rfl
  · cases asReference <;> cases heading with
    | none => simp [Partition.addDefinition, Partition.filed, received]
    | some property => cases property <;> simp [Partition.addDefinition, Partition.filed,
        Partition.under, received]
  · cases asReference <;> simp

/-- A reference is given to those that keep it, each time once. -/
theorem addReferenceWithin_receives (reference : Reference) (role : ReferenceRole) (fuel : Nat)
    (id : RecordId) :
    Receives (addReferenceWithin w file reference role fuel id) s
      ((receivers s.openKind? reference fuel id).map fun record =>
        ⟨record, file, some (reference.property role), reference.id⟩) fun _ _ => True := by
  induction fuel generalizing s id with
  | zero => exact receives_throw
  | succ fuel ih =>
      refine whenOpen_receives (fun r hopen => ?_) fun hshut => ?_
      · simp only [receivers, hopen]
        -- What is passed on goes to each of the next records in turn.
        have hnext (ids : List RecordId) :
            Receives (ids.forM fun next => addReferenceWithin w file reference role fuel next) s
              ((ids.flatMap (receivers s.openKind? reference fuel)).map fun record =>
                ⟨record, file, some (reference.property role), reference.id⟩) fun _ _ => True := by
          rw [List.map_flatMap]
          exact receives_forM ids fun next _ t hst => hst.kinds ▸ ih next
        have hown : Receives (addOwnReference w id file reference role) s
            [⟨id, file, some (reference.property role), reference.id⟩] fun _ _ => True :=
          addOwnReference_receives hopen reference role
        cases r.kind with
        | standard => cases reference <;> exact hown
        | transient => cases reference <;> exact hown
        | aliased target renames =>
            have hpassed : reference.passedTo (.aliased target renames) = some [target] := by
              cases reference <;> rfl
            simp only [hpassed, List.flatMap_singleton]
            exact ih target
        | method bases anchor =>
            cases bases with
            | nil => cases reference <;> exact hown
            | cons base bases =>
                cases reference with
                | range x => exact hnext (base :: bases)
                | result x => exact hown
        | composite elements anchor =>
            cases reference with
            | range x => exact hnext elements
            | result x => exact hown
      · simp only [receivers, hshut, List.map_nil]

/-- A reference is received by every record that it is passed on to. -/
theorem addReference_receives (id : RecordId) (reference : Reference) (role : ReferenceRole) :
    Receives (addReference w id file reference role) s (s.citations id file reference role)
      fun _ _ => True :=
  receives_get (addReferenceWithin_receives reference role _ id)

theorem addReferences_receives (hst : s.Steady t) (ids : List RecordId) (reference : Reference)
    (role : ReferenceRole) :
    Receives (ids.forM fun id => addReference w id file reference role) t
      (ids.flatMap fun id => s.citations id file reference role) fun _ _ => True := by
  refine receives_forM ids fun id _ u htu => ?_
  rw [← (hst.trans htu).citations]
  exact addReference_receives id reference role

/-- A definition is given to the records that it defines or refers to, each time once. -/
theorem addDefinition_receives (id : RecordId) (range : ElementId) (asReference : Bool) :
    Receives (addDefinition w id file range asReference) s (s.definitions id file range asReference)
      fun _ _ => True := by
  refine whenOpen_receives (fun r hopen => ?_) fun hshut => ?_
  · simp only [definitions, hopen]
    cases hkind : r.kind with
    | standard => exact addOwnDefinition_receives hopen range asReference
    | transient => exact receives_pure trivial
    | composite elements anchor => exact receives_pure trivial
    | aliased target renames =>
        cases renames with
        | true => exact addOwnDefinition_receives hopen range false
        | false =>
            refine receives_resultSet fun hub => (link_receives _ _ _).bind fun _ t hst _ => ?_
            change Receives _ t ([target].flatMap fun target =>
              s.citations target file (.range range) .references) _
            rw [List.flatMap_singleton, ← hst.citations]
            exact addReference_receives target (.range range) .references
    | method bases anchor =>
        cases bases with
        | nil => exact addOwnDefinition_receives hopen range asReference
        | cons base bases =>
            exact (addOwnDefinition_receives hopen range false).bind fun _ t hst _ =>
              addReferences_receives hst (base :: bases) (.range range) .definitions
  · simp only [definitions, hshut]

end Receives

end Store

end SymbolGraph
