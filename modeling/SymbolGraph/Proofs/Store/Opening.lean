import SymbolGraph.Proofs.Store.Collecting

/-!
# Proofs — Store — new records

A new record gets a result set of its own and is tied to the records that it passes on to: an alias
by a `next` edge, an overriding method by having its reference result cited by the methods it
overrides, and a shared property by citing the reference results of the properties behind it.

* `Store.Opened`: a store with a new record, which has nothing on its books.
* `Store.Tied`: the facts that tie the record to the others.
* `Store.insert_does`: storing a record opens it and ties it.
-/

namespace SymbolGraph.Store

open SymbolGraph.Action

variable {faults : Nat → Option SinkFault} {s t u : Store} {w : Setting} {kind : RecordKind}
  (key : SymbolKey) (scope : Option NodeId)

/-- The number of the next record. -/
def nextRecord (s : Store) : RecordId := ⟨s.records.size⟩

theorem kind?_nextRecord : s.kind? s.nextRecord = none := kind?_eq_none (Nat.le_refl _)

theorem hub?_nextRecord : s.hub? s.nextRecord = none := by
  unfold hub?
  rw [Array.getElem?_eq_none (show s.records.size ≤ s.nextRecord.index from Nat.le_refl _)]
  rfl

/-! ### Opening -/

/-- What holds of a new record and of those before it holds of all. -/
theorem forall_push {records : Array Record} {new : Record} {P : Nat → Record → Prop}
    (hnew : P records.size new) (hold : ∀ (i : Nat) (r : Record), records[i]? = some r → P i r)
    (i : Nat) (r : Record) (hr : (records.push new)[i]? = some r) : P i r := by
  rw [Array.getElem?_push] at hr
  split at hr
  · rename_i hi
    cases hr
    rw [hi]
    exact hnew
  · exact hold i r hr

/-- A new record without a handle has none in common with another. -/
theorem distinct_push {records : Array Record} {new : Record} {handle : Record → Option VertexRef}
    (hnone : handle new = none) (hd : Distinct handle records) :
    Distinct handle (records.push new) := by
  intro i j a b v v' ha hb hv hv' hid
  rw [Array.getElem?_push] at ha hb
  split at ha
  · cases ha
    rw [hnone] at hv
    cases hv
  · split at hb
    · cases hb
      rw [hnone] at hv'
      cases hv'
    · exact hd i j a b v v' ha hb hv hv' hid

/-- Storing a record that has no handles and passes on to older records. -/
theorem push_leads (hs : s.Sound faults) (hdescends : ∀ ids, kind.passesTo = some ids →
      ∀ id ∈ ids, id.index < s.records.size) :
    s.Leads faults { s with cache := s.cache.insert key (.live s.nextRecord)
                            records := s.records.push { key, kind, scope } } := by
  refine ⟨{ hs with records := forall_push ?_ hs.records
                    hubs := distinct_push rfl hs.hubs
                    citing := distinct_push rfl hs.citing
                    defining := distinct_push rfl hs.defining
                    paired := forall_push nofun hs.paired
                    descends := forall_push hdescends hs.descends
                    cached := ?_ }, List.prefix_refl _, ?_⟩
  · exact ⟨nofun, nofun, nofun, fun _ => ⟨rfl, rfl⟩, nofun, nofun, nofun⟩
  · intro key' id hid
    change (s.cache.insert key (.live s.nextRecord)).get? key' = _ at hid
    show id.index < (s.records.push _).size
    rw [Array.size_push]
    rw [Table.get?_insert] at hid
    split at hid
    · cases hid
      exact Nat.lt_succ_self _
    · exact Nat.lt_succ_of_lt (hs.cached key' id hid)
  · intro i r hr
    have hne : i ≠ s.records.size := Nat.ne_of_lt (Array.getElem?_eq_some_iff.mp hr).1
    refine ⟨r, ?_, .refl _ _⟩
    show (s.records.push _)[i]? = _
    rw [Array.getElem?_push, if_neg hne]
    exact hr

/-- A record that has just been stored has nothing on its books. -/
theorem push_holds (fact : Fact) :
    ({ s with cache := s.cache.insert key (.live s.nextRecord)
              records := s.records.push { key, kind, scope } } : Store).Holds fact ↔
      s.Holds fact := by
  have hsplit : ∀ (i : Nat) (post : Record → Prop), ¬ post { key, kind, scope } →
      ((∃ r, (s.records.push { key, kind, scope })[i]? = some r ∧ post r) ↔
        ∃ r, s.records[i]? = some r ∧ post r) := by
    intro i post hnot
    rw [Array.getElem?_push]
    split
    · rename_i hi
      refine iff_of_false ?_ ?_
      · rintro ⟨r, hr, hpost⟩
        cases hr
        exact hnot hpost
      · rintro ⟨r, hr, -⟩
        rw [hi, Array.getElem?_eq_none (Nat.le_refl _)] at hr
        cases hr
    · rfl
  cases fact with
  | cited i property document x =>
      refine hsplit i.index _ ?_
      rintro (⟨file, p, hp, -⟩ | ⟨v, hv, -⟩)
      · cases hp
      · cases hv
  | defined i document x =>
      refine hsplit i.index _ ?_
      rintro (⟨file, p, hp, -⟩ | ⟨v, hv, -⟩)
      · cases hp
      · cases hv
  | _ => exact Iff.rfl

/-- A store with a new record that was opened and has nothing on its books. -/
structure Opened (faults : Nat → Option SinkFault) (s t : Store) (kind : RecordKind)
    (scope : Option NodeId) (hub : VertexRef) : Prop where
  leads     : s.Leads faults t
  size      : t.records.size = s.records.size + 1
  new       : ∃ r, t.records[s.records.size]? = some r ∧ r.kind = kind ∧ r.scope = scope ∧
    r.state = .opened ∧ r.resultSet = some hub ∧ r.referenceResult = none ∧
    r.definitionResult = none
  old       : ∀ j, j ≠ s.records.size → t.records[j]? = s.records[j]?
  fresh     : ∀ e ∈ s.elements, e.id ≠ hub.id
  delivered : Delivered t.elements .resultSet hub.id
  holds     : ∀ fact, t.Holds fact ↔ s.Holds fact

theorem open_does (hs : s.Sound faults) (hdescends : ∀ ids, kind.passesTo = some ids →
      ∀ id ∈ ids, id.index < s.records.size) :
    Ensures (onRecord s.nextRecord Ledger.begin)
      { s with cache := s.cache.insert key (.live s.nextRecord)
               records := s.records.push { key, kind, scope } }
      (fun hub t => s.Opened faults t kind scope hub)
      fun fault t => s.Leads faults t ∧ fault.IsPlain := by
  have hpush := push_leads key scope hs hdescends
  have hget : ∀ j : Nat, (s.records.push { key, kind, scope })[j]? =
      if j = s.records.size then some { key, kind, scope } else s.records[j]? :=
    fun j => Array.getElem?_push
  have hbegin : ∀ r, (s.records.push { key, kind, scope })[s.nextRecord.index]? = some r →
      r = { key, kind, scope } := by
    intro r hr
    rw [hget, if_pos (show s.nextRecord.index = s.records.size from rfl)] at hr
    exact (Option.some.inj hr).symm
  refine Ensures.mono (onRecord_does hpush.sound fun r hr => Ledger.begin_does
    ⟨hs.graph, hpush.sound.records _ r hr⟩ (by rw [hbegin r hr])) ?_
    fun fault t h => ⟨hpush.trans h.1, h.2⟩
  rintro hub t ⟨r, r', hwithin, hposts, hr'⟩
  obtain rfl := hbegin r hwithin.old
  change r' = _ at hr'
  subst hr'
  have hamends := hposts.writes.toAmends
  have hfresh := hamends.grows.resultSet
  refine ⟨hpush.trans (hwithin.leads hpush.sound hamends nofun), ?_, ⟨_, hwithin.new, rfl, rfl, rfl,
    rfl, rfl, rfl⟩, fun j hj => ?_, ?_, hamends.sound.record.resultSet hub rfl, fun fact => ?_⟩
  · rw [hwithin.size]
    exact Array.size_push _
  · rw [hwithin.other hj]
    exact (hget j).trans (if_neg hj)
  -- The hub was issued by `begin`: a fresh record has none.
  · rcases hfresh with h | ⟨-, v, hv, hnew⟩
    · cases h
    · cases hv
      exact hnew
  · rw [hwithin.holds hpush.sound hamends hposts.cites hposts.defines,
      entries_none (fun _ _ _ h => h) (fun _ _ h => h), Set.mem_empty_iff_false, or_false]
    exact push_holds key scope fact

namespace Opened

variable {key scope} {hub : VertexRef}

theorem kinds (h : s.Opened faults t kind scope hub) (a : RecordId) :
    t.kind? a = if a = s.nextRecord then some kind else s.kind? a := by
  unfold kind?
  split
  · rename_i ha
    obtain ⟨r, hr, hkind, -⟩ := h.new
    rw [ha]
    show (t.records[s.records.size]?).map Record.kind = _
    rw [hr]
    exact congrArg some hkind
  · rename_i ha
    rw [h.old a.index (RecordId.index_ne ha)]

theorem hubs (h : s.Opened faults t kind scope hub) (a : RecordId) :
    t.hub? a = if a = s.nextRecord then some hub else s.hub? a := by
  unfold hub?
  split
  · rename_i ha
    obtain ⟨r, hr, -, -, -, hhub, -⟩ := h.new
    rw [ha]
    show (t.records[s.records.size]?).bind Record.resultSet = _
    rw [hr]
    exact hhub
  · rename_i ha
    rw [h.old a.index (RecordId.index_ne ha)]

/-- Opening makes no result. -/
theorem results (h : s.Opened faults t kind scope hub) (a : RecordId) :
    t.citing? a = s.citing? a ∧ t.defining? a = s.defining? a := by
  unfold citing? defining?
  by_cases ha : a = s.nextRecord
  · obtain ⟨r, hr, -, -, -, -, hrr, hdr⟩ := h.new
    rw [ha]
    show (t.records[s.records.size]?).bind _ = (s.records[s.records.size]?).bind _ ∧
      (t.records[s.records.size]?).bind _ = (s.records[s.records.size]?).bind _
    rw [hr, Array.getElem?_eq_none (Nat.le_refl _)]
    exact ⟨hrr, hdr⟩
  · rw [h.old a.index (RecordId.index_ne ha)]
    exact ⟨rfl, rfl⟩

theorem lasting (h : s.Opened faults t kind scope hub)
    (hscope : kind.acceptsDefinitions = false → scope = none) (hl : s.Lasting) : t.Lasting := by
  intro i r hr
  by_cases hi : i = s.records.size
  · obtain ⟨r', hr', rfl, rfl, hstate, hhub, -⟩ := h.new
    rw [hi] at hr
    cases hr'.symm.trans hr
    exact ⟨⟨hub, hhub⟩, .inl hstate, fun hkind => ⟨hstate, hscope hkind⟩⟩
  · rw [h.old i hi] at hr
    exact hl i r hr

theorem warranted (h : s.Opened faults t kind scope hub) (hw : s.Warranted) : t.Warranted := by
  have hneeds : ∀ a, s.Needs a → t.Needs a := by
    have hkind : ∀ a known, s.kind? a = some known → t.kind? a = some known := by
      intro a known ha
      rw [h.kinds, if_neg]
      · exact ha
      · rintro rfl
        rw [kind?_nextRecord] at ha
        cases ha
    rintro a (⟨base, bases, anchor, ha⟩ | ⟨shared, elements, anchor, ha, hmem⟩)
    · exact .inl ⟨base, bases, anchor, hkind a _ ha⟩
    · exact .inr ⟨shared, elements, anchor, hkind shared _ ha, hmem⟩
  intro a
  rw [(h.results a).1, (h.results a).2]
  simp only [h.holds]
  exact ⟨fun hne => ((hw a).1 hne).imp_right (hneeds a), (hw a).2⟩

theorem isOpen (h : s.Opened faults t kind scope hub) : t.IsOpen s.nextRecord := by
  obtain ⟨r, hr, -, -, hstate, -⟩ := h.new
  exact ⟨r, hr, hstate⟩

end Opened

/-! ### Tying -/

/-- A reference result that is needed is made when it is not there. -/
theorem referenceResult_does {id : RecordId} (hs : s.Sound faults) (hneeds : s.Needs id) :
    Does faults (onRecord id Ledger.referenceResult) s fun v t => s.Posts faults t ∅ ∧ s.Stable t ∧
      t.citing? id = some v ∧ Delivered t.elements .referenceResult v.id := by
  refine (onRecord_does hs fun r hr => Ledger.referenceResult_does
    ⟨hs.graph, hs.records _ r hr⟩).mono ?_
  rintro v t ⟨r, r', hwithin, hposts, hr'⟩
  change r' = { r with referenceResult := some v } at hr'
  subst hr'
  have hamends := hposts.writes.toAmends
  refine ⟨(hwithin.posts hs hamends (hs.paired _ r hwithin.old) ?_ hposts.cites hposts.defines
    (fun _ => .inr hneeds) fun h => h).congr (entries_none (fun _ _ _ h => h) fun _ _ h => h),
    hwithin.stable fun h => h, ?_, (hamends.sound.record.referenceResult v rfl).2⟩
  · exact fun hl => ⟨hl.begun, hl.state, hl.lasts⟩
  · unfold citing?
    rw [hwithin.new]
    rfl

/-- The facts that tie a new record to the records it passes on to. -/
structure Tied (s t : Store) (kind : RecordKind) (hub : ElementId) (facts : Set Fact) : Prop where
  only      : ∀ fact ∈ facts, (∃ source target, fact = .next source target) ∨
    ∃ i document x, fact = .cited i .referenceResults document x
  next      : ∀ source target, .next source target ∈ facts ↔ source = hub ∧
    ∃ b renames v, kind = .aliased b renames ∧ s.hub? b = some v ∧ v.id = target
  answers   : ∀ i x, (∃ document, .cited i .referenceResults document x ∈ facts) ↔
    (∃ base bases anchor b v, kind = .method (base :: bases) anchor ∧ b ∈ base :: bases ∧
      Route s.kind? RecordKind.aliasOf b i ∧ t.citing? s.nextRecord = some v ∧ v.id = x) ∨
    ∃ elements anchor e v, kind = .composite elements anchor ∧ i = s.nextRecord ∧ e ∈ elements ∧
      t.citing? e = some v ∧ v.id = x
  overrides : ∀ base bases anchor, kind = .method (base :: bases) anchor →
    ∃ v, t.citing? s.nextRecord = some v
  shares    : ∀ elements anchor, kind = .composite elements anchor →
    ∀ e ∈ elements, ∃ v, t.citing? e = some v

variable {key scope} {hub : VertexRef}

/-- The result set of a new record is younger than those of the others. -/
theorem Opened.hub_lt (hs : s.Sound faults) (h : s.Opened faults u kind scope hub) {id : RecordId}
    {v : VertexRef} (hv : s.hub? id = some v) : v.id.value < hub.id.value := by
  obtain ⟨r, hr, hv⟩ := Option.bind_eq_some_iff.mp hv
  obtain ⟨_, -, hold⟩ := (hs.records id.index r hr).resultSet v hv
  obtain ⟨_, -, hnew⟩ := h.delivered
  exact h.leads.sound.graph.id_lt_of_later h.leads.grows.elements hold hnew h.fresh

/-- An alias leads on to its target. -/
theorem tieAlias_does {target : RecordId} {renames : Bool} (hs : s.Sound faults)
    (h : s.Opened faults u (.aliased target renames) scope hub)
    (htarget : target.index < s.records.size) :
    Does faults (tieAlias hub target) u fun _ t => ∃ facts, u.Posts faults t facts ∧
        (u.Lasting → s.Tied t (.aliased target renames) hub.id facts) := by
  refine (resultSet_does h.leads.sound).bind ?_
  rintro v _ ⟨rfl, hv, hdelivered⟩
  have hne : target ≠ s.nextRecord := by
    rintro rfl
    exact Nat.lt_irrefl _ htarget
  rw [h.hubs, if_neg hne] at hv
  refine ⟨.refl h.leads.sound, (next_does h.leads.sound
    (.inr ⟨h.delivered, h.hub_lt hs hv⟩) hdelivered).discard.mono ?_⟩
  rintro _ _ ⟨g, rfl, hposts⟩
  refine ⟨_, hposts, fun _ => { only := ?only, next := ?next, answers := ?answers
                                overrides := nofun, shares := nofun }⟩
  case only =>
    rintro fact rfl
    exact .inl ⟨_, _, rfl⟩
  case next =>
    intro source destination
    rw [Set.mem_singleton_iff, Fact.next.injEq]
    refine and_congr_right fun _ => ⟨?_, ?_⟩
    · rintro rfl
      exact ⟨target, renames, v, rfl, hv, rfl⟩
    · rintro ⟨b, renames', v', hkind, hv', rfl⟩
      cases hkind
      cases hv.symm.trans hv'
      rfl
  case answers =>
    -- An alias answers to no method and no union, and so cites nothing.
    refine fun i x => iff_of_false ?_ ?_
    · rintro ⟨document, hfact⟩
      cases hfact
    · rintro (⟨base, bases, anchor, b, v', hkind, -⟩ | ⟨elements, anchor, e, v', hkind, -⟩)
      · cases hkind
      · cases hkind

/-- The reference result of an overriding method is cited by the methods it overrides. -/
theorem tieMethod_does {base : RecordId} {bases : List RecordId} {anchor : FileId}
    (hs : s.Sound faults) (h : s.Opened faults u (.method (base :: bases) anchor) scope hub)
    (hbases : ∀ b ∈ base :: bases, b.index < s.records.size) :
    Does faults (tieMethod w s.nextRecord (base :: bases) anchor) u
      fun _ t => ∃ facts, u.Posts faults t facts ∧
        (u.Lasting → s.Tied t (.method (base :: bases) anchor) hub.id facts) := by
  have hneeds : u.Needs s.nextRecord := .inl ⟨base, bases, anchor, by rw [h.kinds, if_pos rfl]⟩
  refine (referenceResult_does h.leads.sound hneeds).bind ?_
  rintro own t ⟨hposts, -, hown, hdelivered⟩
  refine ⟨hposts.leads, (spreads_forM hposts.sound fun b v _ hv =>
    addResultReference_does hv.sound (hdelivered.mono hv.grows.elements)).mono ?_⟩
  rintro _ v ⟨facts, hposts', hspread, -⟩
  refine ⟨facts, hposts.trans_left hposts', fun hl => ?_⟩
  have hspread := hspread (hposts.lasting hl)
  -- The overridden methods are older, so they pass on as they did before.
  have hroute : ∀ b ∈ base :: bases, ∀ i, Route t.kind? RecordKind.aliasOf b i ↔
      Route s.kind? RecordKind.aliasOf b i := by
    intro b hb i
    rw [hposts.kinds]
    refine Route.congr (n := s.records.size) (fun a ha => ?_) (fun a known ha ids hids =>
      hs.descending a known ha ids (RecordKind.passesTo_of_aliasOf hids)) (hbases b hb)
    rw [h.kinds, if_neg]
    rintro rfl
    exact Nat.lt_irrefl _ ha
  refine { only := ?only, next := ?next, answers := ?answers
           overrides := fun _ _ _ _ => ⟨own, hposts'.grows.citing? hown⟩, shares := nofun }
  case only =>
    intro fact hfact
    obtain ⟨a, -, i, d, rfl, -⟩ := hspread.only fact hfact
    exact .inr ⟨i, d, own.id, rfl⟩
  case next =>
    refine fun source target => iff_of_false (fun hfact => ?_) ?_
    · obtain ⟨a, -, i, d, heq, -⟩ := hspread.only _ hfact
      cases heq
    · rintro ⟨-, b, renames, v, hkind, -⟩
      cases hkind
  case answers =>
    refine fun i x => ⟨?_, ?_⟩
    · rintro ⟨document, hfact⟩
      obtain ⟨b, hb, i', d, heq, hr, -⟩ := hspread.only _ hfact
      cases heq
      exact .inl ⟨base, bases, anchor, b, own, rfl, hb, (hroute b hb i).mp hr,
        hposts'.grows.citing? hown, rfl⟩
    · rintro (⟨base', bases', anchor', b, v', hkind, hb, hr, hv', rfl⟩ |
        ⟨elements, anchor', e, v', hkind, -⟩)
      · cases hkind
        cases (hposts'.grows.citing? hown).symm.trans hv'
        exact hspread.all b hb i ((hroute b hb i).mpr hr)
      · cases hkind

/-- The facts that tie a shared property to some of the properties behind it. -/
structure Shares (t : Store) (id : RecordId) (elements : List RecordId) (facts : Set Fact) : Prop
    where
  citing : ∀ e ∈ elements, ∃ v, t.citing? e = some v
  only   : ∀ fact ∈ facts, ∃ e ∈ elements, ∃ v d, t.citing? e = some v ∧
    fact = .cited id .referenceResults d v.id
  all    : ∀ e ∈ elements, ∀ v, t.citing? e = some v →
    ∃ d, .cited id .referenceResults d v.id ∈ facts

/-- One more property whose reference result is cited. -/
theorem Shares.snoc {id e : RecordId} {elements : List RecordId} {facts : Set Fact}
    {v : VertexRef} {d : ElementId} (h : t.Shares id elements facts) (hgrows : t.Grows u)
    (hv : u.citing? e = some v) :
    u.Shares id (elements ++ [e]) (facts ∪ {.cited id .referenceResults d v.id}) where
  citing b hb := by
    rcases List.mem_append.mp hb with hb | hb
    · obtain ⟨v', hv'⟩ := h.citing b hb
      exact ⟨v', hgrows.citing? hv'⟩
    · rw [List.mem_singleton.mp hb]
      exact ⟨v, hv⟩
  only fact hfact := by
    rcases hfact with hfact | hfact
    · obtain ⟨b, hb, v', d', hv', heq⟩ := h.only fact hfact
      exact ⟨b, List.mem_append_left _ hb, v', d', hgrows.citing? hv', heq⟩
    · exact ⟨e, List.mem_append_right _ (List.mem_singleton_self _), v, d, hv, hfact⟩
  all b hb v' hv' := by
    rcases List.mem_append.mp hb with hb | hb
    · obtain ⟨v'', hv''⟩ := h.citing b hb
      cases (hgrows.citing? hv'').symm.trans hv'
      obtain ⟨d', hd'⟩ := h.all b hb v' hv''
      exact ⟨d', .inl hd'⟩
    · rw [List.mem_singleton.mp hb, hv] at hv'
      cases hv'
      exact ⟨d, .inr rfl⟩

/-- A shared property that cites all properties behind it is tied. -/
theorem Shares.tied {elements : List RecordId} {anchor : FileId} {facts : Set Fact}
    (h : t.Shares s.nextRecord elements facts) :
    s.Tied t (.composite elements anchor) hub.id facts where
  only fact hfact := by
    obtain ⟨e, -, v, d, -, rfl⟩ := h.only fact hfact
    exact .inr ⟨_, _, _, rfl⟩
  next source target := by
    refine iff_of_false (fun hfact => ?_) ?_
    · obtain ⟨e, -, v, d, -, heq⟩ := h.only _ hfact
      cases heq
    · rintro ⟨-, b, renames, v, hkind, -⟩
      cases hkind
  answers i x := by
    constructor
    · rintro ⟨document, hfact⟩
      obtain ⟨e, he, v, d, hv, heq⟩ := h.only _ hfact
      cases heq
      exact .inr ⟨_, anchor, e, v, rfl, rfl, he, hv, rfl⟩
    · rintro (⟨base, bases, anchor', b, v, hkind, -⟩ |
        ⟨elements', anchor', e, v, hkind, rfl, he, hv, rfl⟩)
      · cases hkind
      · cases hkind
        exact h.all e he v hv
  overrides := nofun
  shares elements' anchor' hkind := by
    cases hkind
    exact h.citing

/-- A shared property cites the reference results of the properties behind it. -/
theorem tieComposite_does {elements : List RecordId} {anchor : FileId}
    (h : s.Opened faults u (.composite elements anchor) scope hub) :
    Does faults (tieComposite w s.nextRecord elements anchor) u
      fun _ t => ∃ facts, u.Posts faults t facts ∧
        (u.Lasting → s.Tied t (.composite elements anchor) hub.id facts) := by
  have hkind : u.kind? s.nextRecord = some (.composite elements anchor) := by
    rw [h.kinds, if_pos rfl]
  -- The results of the properties done so far are cited.
  refine (Does.forM (fun rest t => ∃ done facts, elements = done ++ rest ∧
    u.Posts faults t facts ∧ u.Stable t ∧ t.Shares s.nextRecord done facts) ?_ ?_
    ⟨[], ∅, rfl, .refl h.leads.sound, .refl u, nofun, nofun, nofun⟩).mono ?_
  · rintro rest t ⟨done, facts, -, hposts, -⟩
    exact hposts.leads
  · rintro e rest t ⟨done, facts, hsplit, hposts, hstable, hshares⟩
    have he : e ∈ elements := by
      rw [hsplit]
      exact List.mem_append_right _ List.mem_cons_self
    have hneeds : t.Needs e :=
      .inr ⟨s.nextRecord, elements, anchor, by rw [hposts.kinds]; exact hkind, he⟩
    refine (referenceResult_does hposts.sound hneeds).bind ?_
    rintro result t₁ ⟨hposts₁, hstable₁, hresult, hdelivered⟩
    have hcite : Does faults (addOwnReference w s.nextRecord anchor (.result result.id) .references)
        t₁ _ := addOwnReference_does hposts₁.sound ((hstable.trans hstable₁).opened _ h.isOpen)
      hdelivered
    refine ⟨hposts₁.leads, hcite.mono ?_⟩
    rintro _ t₂ ⟨d, -, hposts₂, hstable₂⟩
    refine ⟨done ++ [e], _, ?_, (hposts.trans_right hposts₁).trans hposts₂,
      (hstable.trans hstable₁).trans hstable₂,
      hshares.snoc (hposts₁.grows.trans hposts₂.grows) (hposts₂.grows.citing? hresult)⟩
    rw [hsplit, List.append_assoc]
    rfl
  · rintro _ t ⟨done, facts, hdone, hposts, -, hshares⟩
    rw [List.append_nil] at hdone
    subst hdone
    exact ⟨facts, hposts, fun _ => hshares.tied⟩

/-- A record that keeps everything is tied to nothing. -/
theorem tied_none (halias : ∀ b renames, kind ≠ .aliased b renames)
    (hmethod : ∀ base bases anchor, kind ≠ .method (base :: bases) anchor)
    (hcomposite : ∀ elements anchor, kind ≠ .composite elements anchor) :
    s.Tied t kind hub.id ∅ := by
  refine ⟨nofun, fun source target => ⟨nofun, ?_⟩, fun i x => iff_of_false ?_ ?_,
    fun _ _ _ hkind => absurd hkind (hmethod _ _ _), fun _ _ hkind => absurd hkind (hcomposite _ _)⟩
  · rintro ⟨-, b, renames, v, hkind, -⟩
    exact absurd hkind (halias b renames)
  · rintro ⟨document, hfact⟩
    cases hfact
  · rintro (⟨base, bases, anchor, b, v, hkind, -⟩ | ⟨elements, anchor, e, v, hkind, -⟩)
    · exact absurd hkind (hmethod base bases anchor)
    · exact absurd hkind (hcomposite elements anchor)

/-- **Storing a record opens it and ties it** to the records it passes on to. -/
theorem insert_does (hs : s.Sound faults) (hdescends : ∀ ids, kind.passesTo = some ids →
      ∀ id ∈ ids, id.index < s.records.size) :
    Does faults (insert w { key, kind, scope }) s fun id t => id = s.nextRecord ∧
      ∃ hub u facts, s.Opened faults u kind scope hub ∧ u.Posts faults t facts ∧
        (u.Lasting → s.Tied t kind hub.id facts) := by
  unfold insert begin
  refine ensures_bind.mpr (ensures_get.mpr (ensures_bind.mpr (ensures_modify.mpr
    (ensures_bind.mpr (ensures_bind.mpr (Ensures.mono (open_does key scope hs hdescends) ?_
      fun _ _ h => h))))))
  intro hub u hopened
  have hleads := hopened.leads
  -- What is left ties the record, whatever its kind, and so posts some facts.
  refine Ensures.mono (show Does faults _ u (fun _ t => ∃ facts, u.Posts faults t facts ∧
    (u.Lasting → s.Tied t kind hub.id facts)) from ?_) ?_ fun _ _ h => ⟨hleads.trans h.1, h.2⟩
  rotate_left
  · rintro _ t ⟨facts, hposts, htied⟩
    exact ensures_pure.mpr ⟨rfl, hub, u, facts, hopened, hposts, htied⟩
  refine (record_does hleads.sound s.nextRecord).bind ?_
  rintro r _ ⟨rfl, hr⟩
  refine ⟨.refl hleads.sound, ?_⟩
  have hkind : r.kind = kind := by
    obtain ⟨r', hr', hkind, -⟩ := hopened.new
    cases hr.symm.trans hr'
    exact hkind
  rw [hkind]
  have hnone : s.Tied u kind hub.id ∅ → ∃ facts, u.Posts faults u facts ∧
      (u.Lasting → s.Tied u kind hub.id facts) :=
    fun htied => ⟨∅, .refl hleads.sound, fun _ => htied⟩
  cases kind with
  | aliased target renames =>
      exact tieAlias_does hs hopened (hdescends [target] rfl target (List.mem_singleton_self _))
  | standard => exact does_pure (hnone (tied_none (by simp) (by simp) (by simp)))
  | transient => exact does_pure (hnone (tied_none (by simp) (by simp) (by simp)))
  | composite elements anchor => exact tieComposite_does hopened
  | method bases anchor =>
      cases bases with
      | nil => exact does_pure (hnone (tied_none (by simp) (by simp) (by simp)))
      | cons base bases => exact tieMethod_does hs hopened (hdescends _ rfl)

end SymbolGraph.Store
