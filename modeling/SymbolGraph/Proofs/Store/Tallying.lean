import SymbolGraph.Proofs.Store.Balance
import SymbolGraph.Proofs.Store.Conserving
import SymbolGraph.Proofs.Store.Keepers

/-!
# Proofs — Store — how often a record receives one id

A range is recorded once, so a record receives it as often as there are routes to the record; and a
reference result is given once, by a new method to those it overrides or by an arm to the new property
that shares it.  Neither changes while the store grows, so the log of a store can be audited entry by
entry.

* `Store.overridden`, `Store.arms`: who receives the reference result of a record.
* `Store.Owes`: how often a log is to have a receipt.
* `Store.Tallied`: a log that is conserved and has every receipt as often as it is owed.
* `Store.addReference_tallies`, `Store.addDefinition_tallies`, `Store.insert_tallies`: the operations
  that give receipts.
-/

namespace SymbolGraph

open SymbolGraph.Action

/-- The properties behind a shared one, which receives their reference results. -/
def RecordKind.arms : RecordKind → List RecordId
  | .composite elements _ => elements
  | _                     => []

namespace Store

variable {w : Setting} {faults : Nat → Option SinkFault} {s t : Store} {log new : List Receipt}
  {id : RecordId} {file : FileId} {x : ElementId} {hub : VertexRef} {n : Nat}

/-! ### What is owed -/

/-- The records that receive the reference result of a method, one entry for every route to them from
the methods that it overrides. -/
def overridden (s : Store) (id : RecordId) (result : ElementId) : List RecordId :=
  match s.kind? id with
  | some (.method bases _) => bases.flatMap (s.keepers (.result result))
  | _                      => []

/-- The properties behind a record. -/
def arms (s : Store) (id : RecordId) : List RecordId :=
  match s.kind? id with
  | some kind => kind.arms
  | none      => []

/-- How often a log has a receipt. -/
inductive Owes (s : Store) : Receipt → Nat → Prop
  /-- A record is defined by a range once. -/
  | defined {id : RecordId} {file : FileId} {x : ElementId} : s.Owes ⟨id, file, none, x⟩ 1
  /-- A range is cited once for every route from the record that it leads to. -/
  | cited {id : RecordId} {file : FileId} {x : ElementId} {a : RecordId} {hub : VertexRef}
      (role : ReferenceRole) : s.hub? a = some hub → Linked s.elements .next x hub.id →
      s.Owes ⟨id, file, some role.property, x⟩ ((s.keepers (.range x) a).count id)
  /-- A reference result is cited once for every route from an overridden method, and once for a place
  among the properties behind a shared one. -/
  | answered {id : RecordId} {file : FileId} {b : RecordId} {v : VertexRef} :
      s.citing? b = some v → s.Owes ⟨id, file, some .referenceResults, v.id⟩
        ((s.overridden b v.id).count id + (s.arms id).count b)

/-- What a result is defined by is owed once. -/
theorem Owes.of_definition (h : s.Owes ⟨id, file, none, x⟩ n) : n = 1 := by
  cases h
  rfl

/-- What is owed in a role is a range. -/
theorem Owes.of_role {role : ReferenceRole} (h : s.Owes ⟨id, file, some role.property, x⟩ n) :
    ∃ a hub, s.hub? a = some hub ∧ Linked s.elements .next x hub.id ∧
      n = (s.keepers (.range x) a).count id := by
  generalize hreceipt : (⟨id, file, some role.property, x⟩ : Receipt) = receipt at h
  cases h with
  | defined => cases (Receipt.mk.inj hreceipt).2.2.1
  | cited role' hhub hnext =>
      obtain ⟨rfl, rfl, -, rfl⟩ := Receipt.mk.inj hreceipt
      exact ⟨_, _, hhub, hnext, rfl⟩
  | answered hv => exact absurd (Option.some.inj (Receipt.mk.inj hreceipt).2.2.1) role.property_ne

/-- What is owed under the heading of results is a result. -/
theorem Owes.of_results (h : s.Owes ⟨id, file, some .referenceResults, x⟩ n) :
    ∃ b v, s.citing? b = some v ∧ v.id = x ∧
      n = (s.overridden b x).count id + (s.arms id).count b := by
  generalize hreceipt : (⟨id, file, some .referenceResults, x⟩ : Receipt) = receipt at h
  cases h with
  | defined => cases (Receipt.mk.inj hreceipt).2.2.1
  | cited role =>
      exact absurd (Option.some.inj (Receipt.mk.inj hreceipt).2.2.1).symm role.property_ne
  | answered hv =>
      obtain ⟨rfl, rfl, -, rfl⟩ := Receipt.mk.inj hreceipt
      exact ⟨_, _, hv, rfl, rfl⟩

theorem Sound.base_lt (hs : s.Sound faults) {bases : List RecordId} {anchor : FileId}
    (hk : s.kind? id = some (.method bases anchor)) {base : RecordId} (hbase : base ∈ bases) :
    base.index < id.index := by
  cases bases with
  | nil => cases hbase
  | cons first rest => exact hs.descending id _ hk _ rfl base hbase

theorem arms_of_kind {kind : RecordKind} (hk : s.kind? id = some kind) : s.arms id = kind.arms := by
  simp only [arms, hk]

theorem Sound.arm_lt (hs : s.Sound faults) {arm : RecordId} (harm : arm ∈ s.arms id) :
    arm.index < id.index := by
  cases hk : s.kind? id with
  | none =>
      simp only [arms, hk] at harm
      cases harm
  | some kind =>
      rw [arms_of_kind hk] at harm
      cases kind with
      | composite elements anchor => exact hs.descending id _ hk elements rfl arm harm
      | _ => cases harm

theorem lt_of_citing? {v : VertexRef} (h : s.citing? id = some v) : id.index < s.records.size := by
  obtain ⟨r, hr, -⟩ := Option.bind_eq_some_iff.mp h
  exact (Array.getElem?_eq_some_iff.mp hr).1

theorem lt_of_hub? (h : s.hub? id = some hub) : id.index < s.records.size := by
  obtain ⟨kind, hk⟩ := kind?_of_hub? h
  exact lt_of_kind? hk

theorem arms_grows (h : s.Grows t) (hid : id.index < s.records.size) : t.arms id = s.arms id := by
  unfold arms
  rw [h.kind? hid]

theorem overridden_grows (hs : s.Sound faults) (h : s.Grows t) (hid : id.index < s.records.size) :
    t.overridden id x = s.overridden id x := by
  unfold overridden
  rw [h.kind? hid]
  split
  · rename_i bases anchor hk
    exact List.flatMap_congr fun base hbase =>
      keepers_grows hs h (Nat.lt_trans (hs.base_lt hk hbase) hid)
  · rfl

/-- What is owed stays the same while the store grows. -/
theorem Owes.grows {receipt : Receipt} (h : s.Owes receipt n) (hs : s.Sound faults)
    (hst : s.Grows t) (hknown : receipt.record.index < s.records.size) : t.Owes receipt n := by
  cases h with
  | defined => exact .defined
  | cited role hhub hnext =>
      obtain ⟨e, he⟩ := hnext
      rw [← keepers_grows hs hst (lt_of_hub? hhub)]
      exact .cited role (hst.hub? hhub) ⟨e, hst.elements.subset he⟩
  | answered hv =>
      rw [← overridden_grows hs hst (lt_of_citing? hv), ← arms_grows hst hknown]
      exact .answered (hst.citing? hv)

/-! ### Logs that were audited -/

/-- The log is conserved, everything in it was delivered, and it has every receipt as often as it is
owed.  No property is shared twice by the same. -/
structure Tallied (s : Store) (log : List Receipt) : Prop where
  conserves : s.Conserves log
  delivered : ∀ receipt ∈ log, ∃ label, Delivered s.elements label receipt.id
  owes      : ∀ receipt ∈ log, s.Owes receipt (log.count receipt)
  distinct  : ∀ id, (s.arms id).Nodup

/-- New receipts are added to a log. -/
theorem Tallied.append (h : s.Tallied log) (hs : s.Sound faults) (hst : s.Grows t)
    (hdistinct : ∀ id : RecordId, s.records.size ≤ id.index → (t.arms id).Nodup)
    (hconserves : t.Conserves (log ++ new)) (hnew : ∀ receipt ∈ new, receipt ∉ log ∧
      (∃ label, Delivered t.elements label receipt.id) ∧ t.Owes receipt (new.count receipt)) :
    t.Tallied (log ++ new) where
  conserves := hconserves
  delivered receipt hreceipt := by
    rcases List.mem_append.mp hreceipt with hold | hadded
    · obtain ⟨label, hlabel⟩ := h.delivered receipt hold
      exact ⟨label, hlabel.mono hst.elements⟩
    · exact (hnew receipt hadded).2.1
  owes receipt hreceipt := by
    rw [List.count_append]
    by_cases hold : receipt ∈ log
    · have hnot : receipt ∉ new := fun hadded => (hnew receipt hadded).1 hold
      rw [List.count_eq_zero.mpr hnot, Nat.add_zero]
      exact (h.owes receipt hold).grows hs hst (h.conserves.known receipt hold)
    · rw [List.count_eq_zero.mpr hold, Nat.zero_add]
      exact (hnew receipt ((List.mem_append.mp hreceipt).resolve_left hold)).2.2
  distinct id := by
    rcases Nat.lt_or_ge id.index s.records.size with hlt | hge
    · rw [arms_grows hst hlt]
      exact h.distinct id
    · exact hdistinct id hge

theorem arms_unknown (h : s.records.size ≤ id.index) : s.arms id = [] := by
  unfold arms
  rw [kind?_eq_none h]

/-- The records stay the same. -/
theorem Tallied.remain (h : s.Tallied log) (hs : s.Sound faults) (hst : s.Grows t)
    (hsize : t.records.size = s.records.size) (hconserves : t.Conserves (log ++ new))
    (hnew : ∀ receipt ∈ new, receipt ∉ log ∧ (∃ label, Delivered t.elements label receipt.id) ∧
      t.Owes receipt (new.count receipt)) : t.Tallied (log ++ new) := by
  refine h.append hs hst (fun id hid => ?_) hconserves hnew
  rw [arms_unknown (hsize ▸ hid)]
  exact List.nodup_nil

/-- An operation that gives nothing. -/
theorem Tallied.settle (h : s.Tallied log) (hs : s.Sound faults) (hst : s.Grows t)
    (hsize : t.records.size = s.records.size) (hconserves : t.Conserves log) : t.Tallied log := by
  have hquiet : t.Tallied (log ++ []) :=
    h.remain hs hst hsize ((List.append_nil log).symm ▸ hconserves) nofun
  exact List.append_nil log ▸ hquiet

/-! ### Recording a range -/

/-- What is due is owed as often as it is due. -/
theorem owes_dues {owned : Bool} {role : Option ReferenceRole} (hhub : s.hub? id = some hub)
    (hnext : Linked s.elements .next x hub.id) {receipt : Receipt}
    (h : receipt ∈ s.dues id file x owned role) :
    receipt.id = x ∧ s.Owes receipt ((s.dues id file x owned role).count receipt) := by
  unfold dues at h ⊢
  rw [List.count_append]
  rcases List.mem_append.mp h with hown | hcited
  · cases owned with
    | false => cases hown
    | true =>
        obtain rfl := List.mem_singleton.mp hown
        rw [if_pos rfl, List.count_singleton_self]
        refine ⟨rfl, ?_⟩
        -- Whoever cites the range receives it under a property.
        cases role with
        | none => exact .defined
        | some role =>
            rw [List.count_eq_zero.mpr fun hmem => ?_]
            · exact .defined
            · obtain ⟨_, -, heq⟩ := mem_conveyed.mp hmem
              cases heq
  · cases role with
    | none => cases hcited
    | some role =>
        obtain ⟨record, -, rfl⟩ := mem_conveyed.mp hcited
        have hown : (if owned = true then [⟨id, file, none, x⟩] else []).count
            (⟨record, file, some role.property, x⟩ : Receipt) = 0 := by
          cases owned <;> simp
        refine ⟨rfl, ?_⟩
        rw [count_conveyed, Reference.property, Reference.id, hown, Nat.zero_add]
        exact .cited role hhub hnext

/-- A range that leads to a record is recorded under it, for the first time. -/
theorem Tallied.take {owned : Bool} {role : Option ReferenceRole} (h : s.Tallied log)
    (hs : s.Sound faults) (hst : s.Grows t) (hsize : t.records.size = s.records.size)
    (hhub : s.hub? id = some hub) (hnext : Linked t.elements .next x hub.id)
    (hfresh : ∀ receipt ∈ log, receipt.id ≠ x) (hrange : Delivered t.elements .range x)
    (hconserves : t.Conserves (log ++ s.dues id file x owned role)) :
    t.Tallied (log ++ s.dues id file x owned role) := by
  have hdues : t.dues id file x owned role = s.dues id file x owned role := by
    simp only [dues, conveyed_grows hs hst (lt_of_hub? hhub)]
  refine h.remain hs hst hsize hconserves fun receipt hreceipt => ?_
  rw [← hdues] at hreceipt ⊢
  obtain ⟨rfl, howes⟩ := owes_dues (hst.hub? hhub) hnext hreceipt
  exact ⟨fun hold => hfresh receipt hold rfl, ⟨_, hrange⟩, howes⟩

/-- A reference is recorded under the record that its range leads to. -/
theorem addReference_tallies {role : ReferenceRole} (h : s.Tallied log) (hs : s.Sound faults)
    (hl : s.Lasting) (hrange : Delivered s.elements .range x) (hhub : s.hub? id = some hub)
    (hnext : Linked s.elements .next x hub.id) (hfresh : ∀ receipt ∈ log, receipt.id ≠ x) :
    Ensures (addReference w id file (.range x) role) s (fun _ t => ∃ log, t.Tallied log)
      fun _ _ => True := by
  refine (((addReference_receives id (.range x) role log h.conserves).and
    (addReference_arrives hl.lenient)).and (addRangeReference_does hs hrange)).mono
      (fun _ t ht => ?_) fun _ _ _ => trivial
  obtain ⟨⟨⟨hconserves, -⟩, hedited, hattained⟩, _, hposts, -⟩ := ht
  rw [(Edited.attained_size hedited hattained).citations_eq hs (lt_of_hub? hhub)] at hconserves
  have hdues : t.Conserves (log ++ s.dues id file x false (some role)) := hconserves
  obtain ⟨e, he⟩ := hnext
  exact ⟨_, h.take hs hposts.grows hposts.size hhub ⟨e, hposts.grows.elements.subset he⟩ hfresh
    (hrange.mono hposts.grows.elements) hdues⟩

/-- A definition is recorded under its record. -/
theorem addDefinition_tallies {kind : RecordKind} {document : Document} (h : s.Tallied log)
    (hs : s.Sound faults) (hl : s.Lasting) (hrange : Delivered s.elements .range x)
    (hdocument : s.documents.get? file = some (.live document)) (hk : s.kind? id = some kind)
    (haccepts : kind.acceptsDefinitions = true) (hfresh : ∀ receipt ∈ log, receipt.id ≠ x) :
    Ensures (addDefinition w id file x true) s (fun _ t => ∃ log, t.Tallied log)
      fun _ _ => True := by
  refine (((addDefinition_receives id x true log h.conserves).and
    (addDefinition_arrives hs hk hl.lenient)).and (addDefinition_does hs hrange hdocument hk
      haccepts)).mono (fun _ t ht => ?_) fun _ _ _ => trivial
  obtain ⟨⟨⟨hconserves, -⟩, -, hdues⟩, hub, hhub, hposts⟩ := ht
  rw [hdues] at hconserves
  have hnext : t.Holds (.next x hub.id) := (hposts.holds hl _).mpr (.inr (.inl rfl))
  exact ⟨_, h.take hs hposts.grows hposts.size hhub hnext hfresh
    (hrange.mono hposts.grows.elements) hconserves⟩

/-! ### New records -/

theorem citing?_delivered (hs : s.Sound faults) {v : VertexRef} (h : s.citing? id = some v) :
    Delivered s.elements .referenceResult v.id := by
  obtain ⟨r, hr, hv⟩ := Option.bind_eq_some_iff.mp h
  exact ((hs.records id.index r hr).referenceResult v hv).2

section Insert

variable {bases elements : List RecordId} {anchor : FileId} {own : VertexRef}

/-- Whoever receives the reference result of a method is older than the method. -/
theorem Sound.overridden_lt (hs : s.Sound faults) {record : RecordId}
    (h : record ∈ s.overridden id x) : record.index < id.index := by
  unfold overridden at h
  split at h
  · rename_i bases anchor hk
    obtain ⟨base, hbase, hrecord⟩ := List.mem_flatMap.mp h
    exact Nat.lt_of_le_of_lt (receivers_le hs.descending _ hrecord) (hs.base_lt hk hbase)
  · cases h

/-- What a method gives to those that it overrides. -/
theorem ties_method (hs : s.Sound faults) (hk : s.kind? id = some (.method bases anchor))
    (hown : s.citing? id = some own)
    (hattained : ∀ base ∈ bases, ∀ x, s.Attained (.result x) (s.records.size + 1) base) :
    s.ties id (.method bases anchor) = (s.overridden id own.id).map fun record =>
      ⟨record, anchor, some .referenceResults, own.id⟩ := by
  simp only [ties, overridden, hown, hk, Option.toList_some, List.flatMap_singleton,
    List.map_flatMap]
  refine List.flatMap_congr fun base hbase => ?_
  exact (hattained base hbase own.id).citations_eq hs
    (Nat.lt_trans (hs.base_lt hk hbase) (lt_of_kind? hk)) .references

/-- A shared property receives the result of a property as often as this is behind it. -/
theorem count_ties_composite (hs : s.Sound faults) {b : RecordId} {v : VertexRef}
    (hv : s.citing? b = some v) (hciting : ∀ arm ∈ elements, ∃ u, s.citing? arm = some u) :
    (s.ties id (.composite elements anchor)).count ⟨id, anchor, some .referenceResults, v.id⟩
      = elements.count b := by
  simp only [ties]
  induction elements with
  | nil => rfl
  | cons arm rest ih =>
      obtain ⟨u, hu⟩ := hciting arm List.mem_cons_self
      have hrest := ih fun other hother => hciting other (List.mem_cons_of_mem _ hother)
      have hsame : u.id = v.id ↔ arm = b := by
        refine ⟨fun hid => citing?_inj hs hu hv hid, ?_⟩
        rintro rfl
        cases hu.symm.trans hv
        rfl
      rw [List.flatMap_cons, List.count_append, hrest, List.count_cons, hu]
      by_cases harm : arm = b
      · simp [harm, hsame.mpr harm, Nat.add_comm]
      · simp [harm, hsame]

/-- **A new record is tied to those that it passes on to.** -/
theorem insert_tallies {key : SymbolKey} {kind : RecordKind} {scope : Option NodeId}
    (h : s.Tallied log) (hs : s.Sound faults) (hl : s.Lasting)
    (hscope : kind.acceptsDefinitions = false → scope = none)
    (hdescends : ∀ ids, kind.passesTo = some ids → ∀ id ∈ ids, id.index < s.records.size)
    (hdistinct : kind.arms.Nodup) :
    Ensures (insert w { key, kind, scope }) s (fun _ t => ∃ log, t.Tallied log)
      fun _ _ => True := by
  have hgiven : Ensures (insert w { key, kind, scope }) s (fun _ t => ∀ bases anchor,
      kind = .method bases anchor → ∀ base ∈ bases, ∀ x,
        t.Attained (.result x) (t.records.size + 1) base) fun _ _ => True := by
    cases kind with
    | method bases anchor =>
        refine (insert_arrives hl.lenient).mono (fun _ t ht => ?_) fun _ _ _ => trivial
        rintro _ _ ⟨⟩
        exact ht
    | _ => exact (ensures_true _ _).mono (fun _ _ _ => nofun) fun _ _ _ => trivial
  refine (((insert_conserves h.conserves key kind scope).and (insert_does hs hdescends)).and
    hgiven).mono (fun _ t ht => ?_) fun _ _ _ => trivial
  obtain ⟨⟨hconserves, -, hub, u, facts, hopened, hposts, htied⟩, hattained⟩ := ht
  have htied := htied (hopened.lasting hscope hl)
  have hst : s.Grows t := hopened.leads.grows.trans hposts.grows
  have ht : t.Sound faults := hposts.sound
  have hk : t.kind? s.nextRecord = some kind := by
    rw [hposts.kinds, hopened.kinds, if_pos rfl]
  have harms : t.arms s.nextRecord = kind.arms := arms_of_kind hk
  refine ⟨_, h.append hs hst (fun a ha => ?_) hconserves fun receipt hreceipt => ?_⟩
  · rcases Nat.eq_or_lt_of_le ha with heq | hlt
    · obtain rfl : s.nextRecord = a := congrArg RecordId.mk heq
      exact harms ▸ hdistinct
    · rw [arms_unknown (by rw [hposts.size, hopened.size]; exact hlt)]
      exact List.nodup_nil
  · cases kind with
    | method bases anchor =>
        cases bases with
        | nil => cases hreceipt
        | cons base bases =>
            obtain ⟨own, hown⟩ := htied.overrides base bases anchor rfl
            have hties : t.ties ⟨s.records.size⟩ (.method (base :: bases) anchor) = _ :=
              ties_method ht hk hown (hattained _ anchor rfl)
            rw [hties] at hreceipt ⊢
            obtain ⟨record, hrecord, rfl⟩ := List.mem_map.mp hreceipt
            refine ⟨fun hold => ?_, ⟨_, citing?_delivered ht hown⟩, ?_⟩
            · -- An older record would have this result.
              obtain ⟨b, v, hv, hid, -⟩ := (h.owes _ hold).of_results
              have hlt := lt_of_citing? hv
              rw [citing?_inj ht (hst.citing? hv) hown hid] at hlt
              exact Nat.lt_irrefl _ hlt
            · have harm : (t.arms record).count s.nextRecord = 0 := by
                refine List.count_eq_zero.mpr fun harm => ?_
                exact Nat.lt_asymm (ht.arm_lt harm) (ht.overridden_lt hrecord)
              have howes : t.Owes ⟨record, anchor, some .referenceResults, own.id⟩ _ :=
                .answered hown
              rw [harm, Nat.add_zero] at howes
              rw [List.count_map_of_injective _ _ fun _ _ heq => (Receipt.mk.inj heq).1]
              exact howes
    | composite elements anchor =>
        obtain ⟨arm, harm, hmem⟩ := List.mem_flatMap.mp hreceipt
        obtain ⟨v, hv, rfl⟩ := List.mem_map.mp hmem
        have hv : t.citing? arm = some v := Option.mem_toList.mp hv
        refine ⟨fun hold => ?_, ⟨_, citing?_delivered ht hv⟩, ?_⟩
        · exact Nat.lt_irrefl _ (h.conserves.known _ hold)
        · have hnone : (t.overridden arm v.id).count s.nextRecord = 0 := by
            refine List.count_eq_zero.mpr fun hover => ?_
            exact Nat.lt_asymm (ht.overridden_lt hover) (ht.arm_lt (harms ▸ harm))
          have howes : t.Owes ⟨s.nextRecord, anchor, some .referenceResults, v.id⟩ _ :=
            .answered hv
          rw [hnone, Nat.zero_add, harms, RecordKind.arms] at howes
          rw [count_ties_composite ht hv (htied.shares elements anchor rfl)]
          exact howes
    | _ => cases hreceipt

end Insert

end Store

end SymbolGraph
