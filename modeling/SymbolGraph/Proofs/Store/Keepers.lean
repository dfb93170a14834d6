import Mathlib.Data.List.Count
import SymbolGraph.Proofs.Store.Collecting
import SymbolGraph.Proofs.Store.Editing
import SymbolGraph.Proofs.Store.Receiving

/-!
# Proofs — Store — how often something arrives

What is recorded under one record is kept by the records at the ends of its routes, by each as often
as there are routes to it.  Records pass on to older ones only, so this was settled when the record
was made and younger records do not change it.  A record on the way may be closed, but then it
refuses, so that an operation which ends well has reached all keepers.

* `Store.keepers`: the records that keep what is recorded under a record, one entry for every route.
* `Store.keepers_grows`: these stay the same while the store grows.
* `Store.dues`: what is to be received when a range is recorded.
* `Store.addReference_arrives`, `Store.addDefinition_arrives`: recording that ends well gives what is
  due.
-/

namespace SymbolGraph

open SymbolGraph.Action SymbolGraph.Discipline

/-- However something is passed on, ranges are passed on in that way too. -/
theorem Reference.passesTo_of_passedTo {reference : Reference} {kind : RecordKind}
    {ids : List RecordId} (h : reference.passedTo kind = some ids) : kind.passesTo = some ids := by
  cases reference with
  | range x => exact h
  | result x => exact RecordKind.passesTo_of_aliasOf h

namespace Store

variable {w : Setting} {faults : Nat → Option SinkFault} {s t : Store} {reference : Reference}
  {id : RecordId} {kind : RecordKind} {ids : List RecordId} {file : FileId}

/-! ### Keepers -/

/-- Where records pass on to older ones only, neither younger records nor spare steps matter. -/
theorem receivers_congr {kinds kinds' : RecordId → Option RecordKind} {n : Nat}
    (hkinds : ∀ a : RecordId, a.index < n → kinds' a = kinds a)
    (hdescends : ∀ (a : RecordId) (kind : RecordKind), kinds a = some kind →
      ∀ ids, kind.passesTo = some ids → ∀ b ∈ ids, b.index < a.index) (m : Nat) :
    ∀ {m' : Nat} {id : RecordId}, id.index < n → id.index < m → id.index < m' →
      receivers kinds' reference m id = receivers kinds reference m' id := by
  induction m with
  | zero => exact fun _ hm _ => absurd hm (Nat.not_lt_zero _)
  | succ m ih =>
      intro m' id hn hm hm'
      cases m' with
      | zero => exact absurd hm' (Nat.not_lt_zero _)
      | succ m' =>
          cases hk : kinds id with
          | none => simp only [receivers, hkinds id hn, hk]
          | some kind =>
              cases hp : reference.passedTo kind with
              | none => simp only [receivers, hkinds id hn, hk, hp]
              | some ids =>
                  simp only [receivers, hkinds id hn, hk, hp]
                  refine List.flatMap_congr fun b hb => ?_
                  have hlt := hdescends id kind hk ids (Reference.passesTo_of_passedTo hp) b hb
                  exact ih (by omega) (by omega) (by omega)

/-- How far something goes does not depend on which of its sort it is. -/
theorem receivers_reference {kinds : RecordId → Option RecordKind} {reference' : Reference}
    (h : reference.passedTo = reference'.passedTo) (steps : Nat) :
    receivers kinds reference steps = receivers kinds reference' steps := by
  induction steps with
  | zero => rfl
  | succ steps ih =>
      funext id
      simp only [receivers, h, ih]

/-- Whoever receives something is not younger than the record that it was recorded under. -/
theorem receivers_le {kinds : RecordId → Option RecordKind}
    (hdescends : ∀ (a : RecordId) (kind : RecordKind), kinds a = some kind →
      ∀ ids, kind.passesTo = some ids → ∀ b ∈ ids, b.index < a.index) (steps : Nat) :
    ∀ {id c : RecordId}, c ∈ receivers kinds reference steps id → c.index ≤ id.index := by
  induction steps with
  | zero => exact nofun
  | succ steps ih =>
      intro id c hc
      cases hk : kinds id with
      | none =>
          simp only [receivers, hk] at hc
          cases hc
      | some kind =>
          cases hp : reference.passedTo kind with
          | none =>
              simp only [receivers, hk, hp, List.mem_singleton] at hc
              exact hc ▸ Nat.le_refl _
          | some ids =>
              simp only [receivers, hk, hp, List.mem_flatMap] at hc
              obtain ⟨b, hb, hc⟩ := hc
              have hlt := hdescends id kind hk ids (Reference.passesTo_of_passedTo hp) b hb
              exact Nat.le_trans (ih hc) (Nat.le_of_lt hlt)

/-- The records that keep what is recorded under a record, one entry for every route to them. -/
def keepers (s : Store) (reference : Reference) (id : RecordId) : List RecordId :=
  receivers s.kind? reference (id.index + 1) id

theorem Sound.receivers_eq (hs : s.Sound faults) {steps : Nat} (h : id.index < steps) :
    receivers s.kind? reference steps id = s.keepers reference id :=
  receivers_congr (fun _ _ => rfl) hs.descending steps (Nat.lt_succ_self _) h (Nat.lt_succ_self _)

/-- What is known about a record does not change with younger ones. -/
theorem keepers_grows (hs : s.Sound faults) (h : s.Grows t) (hid : id.index < s.records.size) :
    t.keepers reference id = s.keepers reference id :=
  receivers_congr (fun _ ha => h.kind? ha) hs.descending _ hid (Nat.lt_succ_self _)
    (Nat.lt_succ_self _)

/-- What is not passed on is kept. -/
theorem keepers_rests (hk : s.kind? id = some kind) (hp : reference.passedTo kind = none) :
    s.keepers reference id = [id] := by
  simp only [keepers, receivers, hk, hp]

/-- What is passed on is kept by those that keep it of the records that it is passed on to. -/
theorem Sound.keepers_passes (hs : s.Sound faults) (hk : s.kind? id = some kind)
    (hp : reference.passedTo kind = some ids) :
    s.keepers reference id = ids.flatMap (s.keepers reference) := by
  simp only [keepers, receivers, hk, hp]
  refine List.flatMap_congr fun b hb => hs.receivers_eq ?_
  exact hs.descending id kind hk ids (Reference.passesTo_of_passedTo hp) b hb

/-- What is to be received when a reference is recorded under a record: all keepers receive it. -/
def conveyed (s : Store) (id : RecordId) (file : FileId) (reference : Reference)
    (role : ReferenceRole) : List Receipt :=
  (s.keepers reference id).map fun record =>
    ⟨record, file, some (reference.property role), reference.id⟩

theorem mem_conveyed {receipt : Receipt} {role : ReferenceRole} :
    receipt ∈ s.conveyed id file reference role ↔ ∃ record ∈ s.keepers reference id,
      receipt = ⟨record, file, some (reference.property role), reference.id⟩ := by
  simp only [conveyed, List.mem_map, eq_comm]

theorem count_conveyed (record : RecordId) (role : ReferenceRole) :
    (s.conveyed id file reference role).count
        ⟨record, file, some (reference.property role), reference.id⟩
      = (s.keepers reference id).count record :=
  List.count_map_of_injective _ _ (fun _ _ heq => (Receipt.mk.inj heq).1) record

theorem conveyed_grows (hs : s.Sound faults) (h : s.Grows t) (hid : id.index < s.records.size)
    (role : ReferenceRole) :
    t.conveyed id file reference role = s.conveyed id file reference role := by
  unfold conveyed
  rw [keepers_grows hs h hid]

/-- What is to be received when a range is recorded under a record: by the record itself if it is
defined by the range, and by all keepers if the range is cited in a role. -/
def dues (s : Store) (id : RecordId) (file : FileId) (range : ElementId) (owned : Bool)
    (role : Option ReferenceRole) : List Receipt :=
  (if owned then [⟨id, file, none, range⟩] else []) ++
    match role with
    | none      => []
    | some role => s.conveyed id file (.range range) role

/-! ### Who is closed refuses -/

/-- Only records that refuse when they are closed are not open. -/
def Lenient (s : Store) : Prop :=
  ∀ id kind, s.kind? id = some kind → kind.isStrict = false → s.openKind? id = some kind

theorem Lasting.lenient (h : s.Lasting) : s.Lenient := by
  intro id kind hk hstrict
  obtain ⟨r, hr, rfl⟩ := Option.map_eq_some_iff.mp hk
  exact openKind?_eq_some.mpr ⟨r, hr, ((h id.index r hr).lasts hstrict).1, rfl⟩

theorem kind?_of_openKind? (h : s.openKind? id = some kind) : s.kind? id = some kind := by
  obtain ⟨r, hr, -, rfl⟩ := openKind?_eq_some.mp h
  unfold kind?
  rw [hr]
  rfl

/-- Edits change neither the kinds of records nor who is open. -/
theorem Edited.kinds (h : Edited w s t) : t.kind? = s.kind? ∧ t.openKind? = s.openKind? := by
  have hsame (i : Nat) : Option.Rel Record.Revises s.records[i]? t.records[i]? := h.revises i
  constructor
  all_goals
    funext id
    have hid := hsame id.index
    first | unfold kind? | unfold openKind?
    generalize s.records[id.index]? = old at hid ⊢
    generalize t.records[id.index]? = new at hid ⊢
    cases hid with
    | none => rfl
    | some hrevises => simp only [Option.map_some, hrevises.kind, hrevises.state]

theorem Edited.lenient (h : Edited w s t) (hs : s.Lenient) : t.Lenient := by
  unfold Lenient
  rw [h.kinds.1, h.kinds.2]
  exact hs

/-- From a store in which whoever is closed refuses, an operation edits; nothing is said of one that
fails. -/
def arriving (w : Setting) : Discipline Store Fault :=
  (editing w).among Lenient (fun _ _ => trivial) fun _ _ hs h => Edited.lenient h hs

/-- An operation that edits and ends well with `post`, or fails. -/
abbrev Arrives (w : Setting) (act : Storing Unit) (s : Store) (post : Store → Prop) : Prop :=
  (arriving w).Follows act s fun _ => post

theorem arrives_of_handles {α : Type} {act : Storing α} {post : α → Store → Prop}
    (h : Handles w act s post) : (arriving w).Follows act s post :=
  fun _ => (h trivial).mono (fun _ _ ht => ht) fun _ _ _ => trivial

/-- An operation that asks first whether a record is open ends well only if it is. -/
theorem whenOpen_arrives {act : Record → Storing Unit} {post : Store → Prop}
    (h : ∀ r, s.records[id.index]? = some r → s.openKind? id = some r.kind →
      Arrives w (act r) s post) : Arrives w (whenOpen id act) s post := by
  intro hs
  refine ensures_record fun r hr => ?_
  unfold Record.isOpen
  cases hstate : r.state with
  | opened => exact h r hr (openKind?_eq_some.mpr ⟨r, hr, hstate, rfl⟩) hs
  | unopened => exact ensures_throw.mpr trivial
  | closed =>
      cases hstrict : r.kind.isStrict with
      | true => exact ensures_throw.mpr trivial
      | false =>
          have hopenKind := hs id r.kind (kind?_of_record hr) hstrict
          obtain ⟨r', hr', hopened, -⟩ := openKind?_eq_some.mp hopenKind
          cases hr.symm.trans hr'
          cases hstate.symm.trans hopened

/-- All who are to keep a reference can be written to. -/
def Attained (s : Store) (reference : Reference) (steps : Nat) (id : RecordId) : Prop :=
  receivers s.openKind? reference steps id = receivers s.kind? reference steps id

theorem Edited.attained_iff (h : Edited w s t) {steps : Nat} :
    t.Attained reference steps id ↔ s.Attained reference steps id := by
  unfold Attained
  rw [h.kinds.1, h.kinds.2]

theorem attained_rests {steps : Nat} (hopen : s.openKind? id = some kind)
    (hp : reference.passedTo kind = none) : s.Attained reference (steps + 1) id := by
  simp only [Attained, receivers, hopen, kind?_of_openKind? hopen, hp]

theorem attained_passes {steps : Nat} (hopen : s.openKind? id = some kind)
    (hp : reference.passedTo kind = some ids) (h : ∀ b ∈ ids, s.Attained reference steps b) :
    s.Attained reference (steps + 1) id := by
  simp only [Attained, receivers, hopen, kind?_of_openKind? hopen, hp]
  exact List.flatMap_congr h

/-- A reference that was recorded has reached all who are to keep it. -/
theorem addReferenceWithin_arrives {role : ReferenceRole} (steps : Nat) :
    ∀ (id : RecordId) (s : Store), Arrives w (addReferenceWithin w file reference role steps id) s
      fun t => t.Attained reference steps id := by
  induction steps with
  | zero => exact fun _ _ _ => ensures_throw.mpr trivial
  | succ steps ih =>
      intro id s
      refine whenOpen_arrives fun r hr hopen => ?_
      have hloop (others : List RecordId) :
          Arrives w (others.forM fun other => addReferenceWithin w file reference role steps other) s
            fun t => ∀ other ∈ others, t.Attained reference steps other :=
        -- Records that were attained stay so while the later ones are visited.
        Follows.forM_all
          (fun other (u v : Store) huv (hu : u.Attained reference steps other) =>
            (Edited.attained_iff huv).mpr hu) others fun other _ u => ih other u
      have hpassed {others : List RecordId} (hp : reference.passedTo r.kind = some others) (t : Store)
          (hst : Edited w s t) (h : ∀ other ∈ others, t.Attained reference steps other) :
          t.Attained reference (steps + 1) id :=
        attained_passes (hst.kinds.2 ▸ hopen) hp h
      have hkept (hp : reference.passedTo r.kind = none) :
          Arrives w (addOwnReference w id file reference role) s
            fun t => t.Attained reference (steps + 1) id := by
        obtain ⟨r', hr', hstate, -⟩ := openKind?_eq_some.mp hopen
        refine (arrives_of_handles (addOwnReference_handles ⟨r', hr', hstate⟩)).imp fun _ t hst _ => ?_
        exact attained_rests (hst.kinds.2 ▸ hopen) hp
      cases hkind : r.kind with
      | standard => exact hkept (by rw [hkind]; cases reference <;> rfl)
      | transient => exact hkept (by rw [hkind]; cases reference <;> rfl)
      | aliased target renames =>
          have hp : reference.passedTo r.kind = some [target] := by
            rw [hkind]
            cases reference <;> rfl
          refine (ih target s).imp fun _ t hst ht => hpassed hp t hst fun other hother => ?_
          exact List.mem_singleton.mp hother ▸ ht
      | method bases anchor =>
          cases bases with
          | nil => exact hkept (by rw [hkind]; cases reference <;> rfl)
          | cons base bases =>
              cases reference with
              | range x =>
                  exact (hloop (base :: bases)).imp fun _ => hpassed (by rw [hkind]; rfl)
              | result x => exact hkept (by rw [hkind]; rfl)
      | composite elements anchor =>
          cases reference with
          | range x => exact (hloop elements).imp fun _ => hpassed (by rw [hkind]; rfl)
          | result x => exact hkept (by rw [hkind]; rfl)

/-- A reference that was recorded has reached all who are to keep it. -/
theorem addReference_arrives {role : ReferenceRole} :
    Arrives w (addReference w id file reference role) s fun t =>
      t.Attained reference (t.records.size + 1) id := by
  intro hs
  refine ensures_bind.mpr (ensures_get.mpr ((addReferenceWithin_arrives _ id s hs).mono
    (fun _ t ht => ⟨ht.1, ?_⟩) fun _ _ _ => trivial))
  show t.Attained reference (t.records.size + 1) id
  rw [(Edited.revises ht.1).size]
  exact ht.2

/-- What recording gives when everybody can be written to. -/
theorem Attained.citations_eq (h : s.Attained reference (s.records.size + 1) id)
    (hs : s.Sound faults) (hid : id.index < s.records.size) (role : ReferenceRole) :
    s.citations id file reference role = s.conveyed id file reference role := by
  unfold citations conveyed
  rw [h, hs.receivers_eq (Nat.lt_succ_of_lt hid)]

theorem Edited.attained_size (h : Edited w s t)
    (ht : t.Attained reference (t.records.size + 1) id) :
    s.Attained reference (s.records.size + 1) id := by
  rw [h.revises.size] at ht
  exact h.attained_iff.mp ht

/-- What several records give, if each reaches everybody. -/
theorem flatMap_citations_eq (h : ∀ other ∈ ids, t.Attained reference (t.records.size + 1) other)
    (hst : Edited w s t) (hs : s.Sound faults) (hk : s.kind? id = some kind)
    (hp : reference.passedTo kind = some ids) (role : ReferenceRole) :
    (ids.flatMap fun other => s.citations other file reference role)
      = s.conveyed id file reference role := by
  unfold conveyed
  rw [hs.keepers_passes hk hp, List.map_flatMap]
  refine List.flatMap_congr fun other hother =>
    (Edited.attained_size hst (h other hother)).citations_eq hs ?_ role
  have hlt := hs.descending id kind hk ids (Reference.passesTo_of_passedTo hp) other hother
  obtain ⟨r, hr, -⟩ := Option.map_eq_some_iff.mp hk
  exact Nat.lt_trans hlt (Array.getElem?_eq_some_iff.mp hr).1

/-- References that were recorded have reached all who are to keep them. -/
theorem addReferences_arrive {role : ReferenceRole} :
    Arrives w (ids.forM fun other => addReference w other file reference role) s fun t =>
      ∀ other ∈ ids, t.Attained reference (t.records.size + 1) other := by
  refine Follows.forM_all (fun other u v huv hu => ?_) ids fun other _ u => addReference_arrives
  rw [huv.revises.size]
  exact (Edited.attained_iff huv).mpr hu

/-- **A definition that was recorded has given all that is due.** -/
theorem addDefinition_arrives {range : ElementId} (hs : s.Sound faults)
    (hk : s.kind? id = some kind) :
    Arrives w (addDefinition w id file range true) s fun _ =>
      s.definitions id file range true
        = s.dues id file range kind.ownsDefinitions kind.definitionRole := by
  refine whenOpen_arrives fun r hr hopen => ?_
  obtain rfl : r.kind = kind := Option.some.inj ((kind?_of_record hr).symm.trans hk)
  obtain ⟨r', hr', hstate, -⟩ := openKind?_eq_some.mp hopen
  have hisOpen : s.IsOpen id := ⟨r', hr', hstate⟩
  simp only [definitions, dues, hopen]
  have hrests (hp : r.kind.passesTo = none) (role : ReferenceRole) :
      s.conveyed id file (.range range) role = [⟨id, file, some role.property, range⟩] := by
    have hkeeps : s.keepers (.range range) id = [id] := keepers_rests hk hp
    unfold conveyed
    rw [hkeeps]
    rfl
  -- Those that the definition is passed on to give it to all who are to keep it.
  have hall {others : List RecordId} (hp : (Reference.range range).passedTo r.kind = some others)
      {t : Store} (hst : Edited w s t) (role : ReferenceRole)
      (h : ∀ other ∈ others, t.Attained (.range range) (t.records.size + 1) other) :
      (others.flatMap fun other => s.citations other file (.range range) role)
        = s.conveyed id file (.range range) role :=
    flatMap_citations_eq h hst hs hk hp role
  cases hkind : r.kind with
  | standard =>
      refine (arrives_of_handles (addOwnDefinition_handles hisOpen)).mono fun _ _ _ => ?_
      exact congrArg (⟨id, file, none, range⟩ :: ·) (hrests (by rw [hkind]; rfl) .definitions).symm
  | transient => exact follows_pure rfl
  | composite elements anchor => exact follows_pure rfl
  | aliased target renames =>
      cases renames with
      | true => exact (arrives_of_handles (addOwnDefinition_handles hisOpen)).mono fun _ _ _ => rfl
      | false =>
          have hp : (Reference.range range).passedTo r.kind = some [target] := by
            rw [hkind]
            rfl
          refine (Follows.bind (arrives_of_handles resultSet_handles) fun hub t _ _ _ =>
            (arrives_of_handles link_handles).bind fun _ u _ _ _ => addReference_arrives).imp
              fun _ t hst ht => ?_
          exact hall hp hst .references fun other hother => List.mem_singleton.mp hother ▸ ht
  | method bases anchor =>
      cases bases with
      | nil =>
          refine (arrives_of_handles (addOwnDefinition_handles hisOpen)).mono fun _ _ _ => ?_
          exact congrArg (⟨id, file, none, range⟩ :: ·)
            (hrests (by rw [hkind]; rfl) .definitions).symm
      | cons base bases =>
          have hp : (Reference.range range).passedTo r.kind = some (base :: bases) := by
            rw [hkind]
            rfl
          refine ((arrives_of_handles (addOwnDefinition_handles hisOpen)).bind fun _ t _ _ _ =>
            addReferences_arrive).imp fun _ t hst ht => ?_
          exact congrArg (⟨id, file, none, range⟩ :: ·) (hall hp hst .definitions ht)

/-- A store with a new record that is open is as lenient as before. -/
theorem Admits.lenient {key : SymbolKey} {scope : Option NodeId} {hub : VertexRef}
    (h : s.Admits key kind scope hub t) (hs : s.Lenient) : t.Lenient := by
  have hrecords : t.records = s.records.push
      { key, kind, scope, state := .opened, resultSet := some hub } := by
    rw [h.store]
    rfl
  intro a known hk hstrict
  unfold kind? at hk
  unfold openKind?
  rw [hrecords, Array.getElem?_push] at hk ⊢
  by_cases hnew : a.index = s.records.size
  · rw [if_pos hnew] at hk ⊢
    cases hk
    rfl
  · rw [if_neg hnew] at hk ⊢
    exact hs a known hk hstrict

/-- **A method that was stored has given its reference result** to all who are to keep it. -/
theorem insert_arrives {key : SymbolKey} {scope : Option NodeId} {bases : List RecordId}
    {anchor : FileId} (hs : s.Lenient) :
    Ensures (insert w { key, kind := .method bases anchor, scope }) s (fun _ t => ∀ base ∈ bases,
      ∀ x, t.Attained (.result x) (t.records.size + 1) base) fun _ _ => True := by
  -- Whether a record is attained does not depend on the id that is passed.
  have hany {t : Store} {x y : ElementId} {base : RecordId}
      (h : t.Attained (.result x) (t.records.size + 1) base) :
      t.Attained (.result y) (t.records.size + 1) base := by
    unfold Attained at h ⊢
    have hsame : (Reference.result y).passedTo = (Reference.result x).passedTo := rfl
    rw [receivers_reference hsame, receivers_reference hsame]
    exact h
  refine ensures_bind.mpr (ensures_get.mpr (ensures_bind.mpr (ensures_modify.mpr
    (ensures_bind.mpr (ensures_bind.mpr ((begin_opens key (.method bases anchor) scope s).mono
      (fun hub u hu => ?_) fun _ _ _ => trivial))))))
  cases bases with
  | nil => exact (ensures_true _ _).mono (fun _ _ _ => (ensures_true _ _).mono
      (fun _ _ _ => nofun) fun _ _ _ => trivial) fun _ _ _ => trivial
  | cons base bases =>
      obtain ⟨r, hr, hkind⟩ : ∃ r, u.records[s.records.size]? = some r ∧
          r.kind = .method (base :: bases) anchor := by
        rw [hu.store]
        exact ⟨_, getElem?_pushed.mpr (.inr ⟨rfl, rfl⟩), rfl⟩
      refine ensures_bind.mpr (record_ensures hr ?_)
      rw [hkind]
      have hlenient := hu.lenient hs
      refine ensures_bind.mpr ((arrives_of_handles (w := w) referenceResult_handles hlenient).mono
        (fun own v hv => ?_) fun _ _ _ => trivial)
      have hready : v.Lenient := Edited.lenient hv.1 hlenient
      refine (addReferences_arrive hready).mono (fun _ t ht => ensures_pure.mpr fun b hb x => ?_)
        fun _ _ _ => trivial
      exact hany (ht.2 b hb)

end Store

end SymbolGraph
