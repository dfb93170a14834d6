import SymbolGraph.Proofs.Session.Gathering
import SymbolGraph.Proofs.Store.Retaining
import SymbolGraph.Session.Walk

/-!
# Proofs — Session — one record for each symbol

A symbol is known by its key, and has one record however often it is met, whatever fails on the way
and whoever else is being resolved meanwhile.  While a record is being made its key is reserved, and
nobody but the one who reserved it gives it up; so no other record can get the key in between, and a
new record is stored only where there was none.

* `Store.Identified`: the cache knows every record, no two records have one key, and every result
  set that was delivered belongs to a record.
* `Store.Tracks`: records keep their keys, and reserved keys stay reserved, apart from those that
  are `free`.
* `Session.resolve_tracks`: resolving a symbol gives the record with its key.
* `Session.visitFile_tracks` and the others: every other call tracks, however it ends.
-/

namespace SymbolGraph

open SymbolGraph.Action

namespace Store

variable {α : Type} {w : Setting} {s t u : Store} {id : RecordId} {key : SymbolKey}
  {free : Set SymbolKey}

/-- The cache knows every record, no two records have one key, and every result set that was
delivered belongs to a record. -/
structure Identified (s : Store) : Prop where
  keyed : s.Keyed
  hubs  : ∀ hub ∈ hubsIn s.elements, ∃ (i : Nat) (r : Record),
    s.records[i]? = some r ∧ r.resultSet = some ⟨hub, .resultSet⟩

/-- Records keep their keys, and reserved keys stay reserved unless they are free. -/
structure Tracks (free : Set SymbolKey) (s t : Store) : Prop where
  identified : t.Identified
  names      : ∀ id key, s.Names id key → t.Names id key
  reserved   : ∀ key ∉ free, s.cache.get? key = some .resolving →
    t.cache.get? key = some .resolving

theorem Tracks.refl (h : s.Identified) : s.Tracks free s := ⟨h, fun _ _ h => h, fun _ _ h => h⟩

/-- Keys that are reserved stay so over both steps, but for those that are free in either. -/
theorem Tracks.trans (h : s.Tracks free t) (h' : t.Tracks free u) : s.Tracks free u where
  identified := h'.identified
  names id key hid := h'.names id key (h.names id key hid)
  reserved key hkey hreserved := h'.reserved key hkey (h.reserved key hkey hreserved)

/-- More keys may be free. -/
theorem Tracks.mono {free' : Set SymbolKey} (h : s.Tracks free t) (hfree : free ⊆ free') :
    s.Tracks free' t :=
  ⟨h.identified, h.names, fun key hkey => h.reserved key fun hmem => hkey (hfree hmem)⟩

/-- A key that was not reserved at first may be given up: it is not the caller's. -/
theorem Tracks.give_up (hkey : s.cache.get? key = none) (h : s.Tracks ∅ t)
    (h' : t.Tracks {key} u) : s.Tracks ∅ u := by
  have htrans := (h.mono (Set.empty_subset {key})).trans h'
  refine ⟨htrans.identified, htrans.names, fun other _ hreserved => ?_⟩
  refine htrans.reserved other ?_ hreserved
  rintro rfl
  cases hkey.symm.trans hreserved

/-- A store in which who is who is settled is left in such a state. -/
def Tracking (free : Set SymbolKey) (s t : Store) : Prop := s.Identified → s.Tracks free t

instance : IsPreorder Store (Tracking free) where
  refl _ h := .refl h
  trans _ _ _ h h' hs := (h hs).trans (h' (h hs).identified)

/-! ### Operations that leave the cache alone -/

/-- A record keeps its key, and a result set once it has one. -/
def KeepsMark (r r' : Record) : Prop :=
  r'.key = r.key ∧ (r.resultSet ≠ none → r'.resultSet = r.resultSet)

/-- Records keep their marks, and a result set that is new belongs to a record. -/
theorem tracks_records (hs : s.Identified) (hcache : t.cache = s.cache)
    (hrecords : Renews KeepsMark s.records t.records)
    (hhubs : ∀ hub ∈ hubsIn t.elements, hub ∈ hubsIn s.elements ∨
      ∃ (i : Nat) (r : Record), t.records[i]? = some r ∧ r.resultSet = some ⟨hub, .resultSet⟩) :
    s.Tracks free t := by
  refine ⟨⟨hs.keyed.renew hcache hrecords fun _ _ h => h.1, fun hub hhub => ?_⟩, fun id key hid => ?_,
    fun _ _ hreserved => hcache ▸ hreserved⟩
  · rcases hhubs hub hhub with hold | hnew
    · obtain ⟨i, r, hr, hset⟩ := hs.hubs hub hold
      obtain ⟨r', hr', -, hsame⟩ := hrecords.forward hr
      exact ⟨i, r', hr', (hsame (by simp [hset])).trans hset⟩
    · exact hnew
  · obtain ⟨r, hr, rfl⟩ := hid
    obtain ⟨r', hr', hkey, -⟩ := hrecords.forward hr
    exact ⟨r', hr', hkey⟩

/-- Records that keep who they are keep their keys and result sets. -/
theorem Retains.renews (h : s.Retains t) : Renews KeepsMark s.records t.records := by
  intro i
  have hmark := h.marks i
  cases hs : s.records[i]? with
  | none =>
      rw [hs, Option.map_none, Option.map_eq_none_iff] at hmark
      rw [hmark]
      exact .none
  | some r =>
      rw [hs, Option.map_some] at hmark
      obtain ⟨r', hr', heq⟩ := Option.map_eq_some_iff.mp hmark
      rw [hr']
      exact .some ⟨congrArg Prod.fst heq, fun _ => congrArg Prod.snd heq⟩

/-- Where nobody changes who he is, every reserved key stays reserved. -/
theorem Retains.tracks (h : s.Retains t) : Tracking free s t :=
  fun hs => tracks_records hs h.cache h.renews fun _ hhub => .inl (h.graph.hubs ▸ hhub)

/-- What an operation that retains does in a store where who is who is settled. -/
theorem ensures_tracks {act : Storing α} (h : Stays Retains act) (hs : s.Identified) :
    Ensures act s (fun _ t => s.Tracks free t) fun _ t => s.Tracks free t :=
  (h s).mono (fun _ _ ht => ht.tracks hs) fun _ _ ht => ht.tracks hs

/-! ### The cache -/

/-- The cache says something else of one key.  The key has no record, or counts as cleared. -/
theorem tracks_cache {cache : Table SymbolKey CacheSlot} (hs : s.Identified)
    (hkeyed : Keyed { s with cache })
    (hother : ∀ key' ∉ free, s.cache.get? key' = some .resolving →
      cache.get? key' = some .resolving) : s.Tracks free { s with cache } :=
  ⟨⟨hkeyed, hs.hubs⟩, fun _ _ h => h, hother⟩

/-- A key without a record is reserved. -/
theorem reserve_tracks (hs : s.Identified) (hkey : s.cache.get? key = none) :
    s.Tracks ∅ { s with cache := s.cache.insert key .resolving } := by
  refine tracks_cache hs (hs.keyed.recache (not_knows_of_none hkey) (fun key' hne => ?_)
    fun id => ?_) fun key' _ hreserved => ?_
  · rw [Table.get?_insert, if_neg hne]
  · simp [Table.get?_insert]
  · rw [Table.get?_insert]
    split
    · rfl
    · exact hreserved

/-- Giving up a key touches no other. -/
theorem abandon_tracks (key : SymbolKey) : Stays (Tracking {key}) (abandon key) := by
  refine stays_modify fun s hs => ?_
  by_cases hkey : s.cache.get? key = some .resolving
  · rw [if_pos hkey]
    refine tracks_cache hs (hs.keyed.recache (not_knows_of_resolving hkey) (fun key' hne => ?_)
      fun id => ?_) fun key' hfree hreserved => ?_
    · rw [Table.get?_erase, if_neg hne]
    · simp [Table.get?_erase]
    · have hne : key' ≠ key := hfree
      rw [Table.get?_erase, if_neg hne]
      exact hreserved
  · rw [if_neg hkey]
    exact .refl hs

/-! ### Closing -/

/-- A record that there is has the key it is named by. -/
theorem record_tracks (hs : s.Identified) (id : RecordId) :
    Ensures (record id) s (fun r t => t = s ∧ s.Names id r.key) fun _ t => s.Tracks free t := by
  refine ensures_bind.mpr (ensures_get.mpr ?_)
  split
  · rename_i r hr
    exact ensures_pure.mpr ⟨rfl, r, hr, rfl⟩
  · exact ensures_throw.mpr (.refl hs)

/-- A key that has a record is not reserved, so it may count as cleared. -/
theorem clear_tracks (hs : s.Identified) (hid : s.Names id key) :
    s.Tracks free { s with cache := s.cache.insert key .cleared } := by
  refine tracks_cache hs (hs.keyed.clear key) fun key' _ hreserved => ?_
  rw [Table.get?_insert, if_neg]
  · exact hreserved
  · rintro rfl
    exact not_knows_of_resolving hreserved (hid.knows hs.keyed)

/-- A record that is closed counts as cleared from then on. -/
theorem leave_tracks (node : NodeId) (id : RecordId) : Stays (Tracking ∅) (leave w node id) := by
  refine stays_of_ready fun s hs => ?_
  refine ensures_bind.mpr ((record_tracks hs id).mono ?_ fun _ _ h => h)
  rintro r t ⟨rfl, hid⟩
  dsimp only
  split
  · exact ensures_pure.mpr (.refl hs)
  · split
    · split
      · exact ensures_pure.mpr (.refl hs)
      · refine ensures_bind.mpr ((ensures_tracks (onRecord_retains Ledger.close_retains) hs).mono
          (fun _ u hu => ?_) fun _ _ h => h)
        exact ensures_modify.mpr (hu.trans (clear_tracks hu.identified (hu.names _ _ hid)))
    · split
      · exact ensures_tracks (onRecord_retains (Ledger.endPartition_retains _)) hs
      · exact ensures_pure.mpr (.refl hs)

/-- A node that is left clears the keys of records that are local to it, and no reserved one. -/
theorem nodeProcessed_tracks (node : NodeId) : Stays (Tracking ∅) (nodeProcessed w node) := by
  refine stays_get.bind fun s => ?_
  split
  · exact stays_pure
  · refine Stays.bind ?_ fun _ => Stays.forM fun id _ => leave_tracks node id
    refine stays_modify fun _ => Retains.tracks ?_
    exact retains_of_eq rfl rfl rfl

/-! ### A new record -/

/-- A reserved key gets its record. -/
theorem push_tracks {fresh : Record} (hs : s.Identified)
    (hkey : s.cache.get? fresh.key = some .resolving) : s.Tracks {fresh.key} (s.pushed fresh) := by
  refine ⟨⟨hs.keyed.push hkey, fun hub hhub => ?_⟩, fun id key hid => ?_,
    fun key hfree hreserved => ?_⟩
  · obtain ⟨i, r, hr, hset⟩ := hs.hubs hub hhub
    exact ⟨i, r, getElem?_pushed.mpr (.inl hr), hset⟩
  · obtain ⟨r, hr, rfl⟩ := hid
    exact ⟨r, getElem?_pushed.mpr (.inl hr), rfl⟩
  · have hne : key ≠ fresh.key := hfree
    exact (get?_insert_of_ne _ key hne).trans hreserved

/-- The record keeps its key and has a result set; no other was delivered. -/
def OpensHub (s t : Ledger) : Prop :=
  ∃ hub, t.record.key = s.record.key ∧ t.record.resultSet = some ⟨hub, .resultSet⟩ ∧
    ∀ id ∈ hubsIn t.graph.elements, id ∈ hubsIn s.graph.elements ∨ id = hub

/-- A record that begins gets a result set, the only one that is delivered. -/
theorem begin_opensHub (s : Ledger) :
    Ensures Ledger.begin s (fun _ t => OpensHub s t) fun _ t => s.Retains t := by
  unfold Ledger.begin
  refine ensures_bind.mpr (ensures_get.mpr ?_)
  dsimp only
  split
  · exact ensures_bind.mpr (ensures_throw.mpr (refl_of Ledger.Retains s))
  · refine ensures_bind.mpr (ensures_onPart.mpr ((Graph.vertex_hubs s.graph).mono
      (fun vertex g hg => ?_) fun _ g hg => ⟨rfl, hg⟩))
    refine ensures_bind.mpr (ensures_modify.mpr (ensures_pure.mpr ⟨vertex.id, rfl, ?_, ?_⟩))
    · rw [← hg.1]
    · intro id hid
      rcases hg.2 with hmore | hsame
      · simpa [hmore] using hid
      · exact .inl (hsame.hubs ▸ hid)

/-- Opening a record without a result set gives it the one that is delivered. -/
theorem opens_tracks (hs : s.Identified) {r : Record} (hr : s.records[id.index]? = some r)
    (hnew : r.resultSet = none) :
    Ensures (onRecord id Ledger.begin) s (fun _ t => s.Tracks free t) fun _ t => s.Tracks free t := by
  have hrenews (ledger : Ledger) (hkeeps : KeepsMark r ledger.record) :
      Renews KeepsMark s.records (s.putBack id ledger).records := by
    refine .modify (fun _ => ⟨rfl, fun _ => rfl⟩) fun r' hr' => ?_
    cases hr.symm.trans hr'
    exact hkeeps
  refine (ensures_onRecord hr).mpr ((begin_opensHub ⟨r, s.graph⟩).mono ?_ ?_)
  · rintro - ledger ⟨hub, hkey, hset, hhubs⟩
    refine tracks_records hs rfl (hrenews ledger ⟨hkey, fun hne => absurd hnew hne⟩) ?_
    intro hub' hhub'
    rcases hhubs hub' hhub' with hold | rfl
    · exact .inl hold
    · exact .inr ⟨id.index, ledger.record, by simp [getElem?_putBack, hr], hset⟩
  · rintro - ledger hledger
    refine tracks_records hs rfl (hrenews ledger ⟨congrArg Prod.fst hledger.mark,
      fun _ => congrArg Prod.snd hledger.mark⟩) fun _ hhub => .inl ?_
    rw [← hledger.graph.hubs]
    exact hhub

/-- Once a record is open, tying it to what it passes on to leaves who is who alone. -/
theorem tie_retains (id : RecordId) (hub : VertexRef) : Stays Retains (tie w id hub) := by
  refine (record_retains id).bind fun known => ?_
  split
  · exact resultSet_retains.bind fun _ => link_retains _ _ _
  · exact (onRecord_retains Ledger.referenceResult_retains).bind fun _ => Stays.forM fun base _ =>
      addReference_retains base _ _ _
  · exact Stays.forM fun element _ =>
      (onRecord_retains Ledger.referenceResult_retains).bind fun _ => addOwnReference_retains _ _
  · exact stays_pure

/-- A record without a result set gets one of its own. -/
theorem begin_tracks (hs : s.Identified) {r : Record} (hr : s.records[id.index]? = some r)
    (hnew : r.resultSet = none) :
    Ensures (begin w id) s (fun _ t => s.Tracks free t) fun _ t => s.Tracks free t := by
  refine ensures_bind.mpr ((opens_tracks hs hr hnew).mono (fun hub t ht => ?_) fun _ _ h => h)
  exact (ensures_tracks (tie_retains id hub) ht.identified).mono (fun _ u hu => ht.trans hu)
    fun _ u hu => ht.trans hu

/-- A new record takes the key that was reserved for it, and no other. -/
theorem insert_tracks {fresh : Record} (hs : s.Identified)
    (hkey : s.cache.get? fresh.key = some .resolving) (hnew : fresh.resultSet = none) :
    Ensures (insert w fresh) s (fun id t => s.Tracks {fresh.key} t ∧ t.Names id fresh.key)
      fun _ t => s.Tracks {fresh.key} t := by
  have hpush := push_tracks hs hkey
  have hplace : (s.pushed fresh).records[s.records.size]? = some fresh :=
    getElem?_pushed.mpr (.inr ⟨rfl, rfl⟩)
  refine ensures_bind.mpr (ensures_get.mpr (ensures_bind.mpr (ensures_modify.mpr
    (ensures_bind.mpr ?_))))
  refine Ensures.mono (begin_tracks hpush.identified hplace hnew) (fun _ t ht => ?_)
    fun _ t ht => hpush.trans ht
  exact ensures_pure.mpr ⟨hpush.trans ht, ht.names _ _ ⟨fresh, hplace, rfl⟩⟩

end Store

namespace Session

variable {α : Type} {w : Setting} {s t : Session} {id : RecordId} {free : Set SymbolKey}

/-- Who is who stays in the store of a session. -/
def Retains (s t : Session) : Prop := s.store.Retains t.store

/-- What is done to the store of a session tracks. -/
def Tracking (free : Set SymbolKey) (s t : Session) : Prop := Store.Tracking free s.store t.store

instance : IsPreorder Session Retains where
  refl s := refl_of Store.Retains s.store
  trans _ _ _ h h' := trans_of Store.Retains h h'

instance : IsPreorder Session (Tracking free) where
  refl s := refl_of (Store.Tracking free) s.store
  trans _ _ _ h h' := trans_of (Store.Tracking free) h h'

/-- Only the store says who is who. -/
theorem retains_of_eq (h : t.store = s.store) : s.Retains t := by
  unfold Retains
  rw [h]
  exact refl_of Store.Retains s.store

/-- What changes nobody keeps every key that is reserved. -/
theorem Retains.tracks {act : Running α} (h : Stays Retains act) : Stays (Tracking free) act :=
  h.mono fun _ _ hst => Store.Retains.tracks hst

theorem store_retains {act : Store.Storing α} (h : Stays Store.Retains act) :
    Stays Retains (liftM act : Running α) :=
  h.onPart fun _ _ hst => hst

theorem store_tracks {act : Store.Storing α} (h : Stays (Store.Tracking free) act) :
    Stays (Tracking free) (liftM act : Running α) :=
  h.onPart fun _ _ hst => hst

theorem emit_retains {act : Emission α} (h : Stays Graph.Retains act) :
    Stays Retains (emit act) :=
  store_retains (Store.emission_retains h)

theorem symbols_retains (act : StateM Symbols α) : Stays Retains (liftM act : Running α) :=
  stays_onPartSafely fun _ _ => retains_of_eq rfl

/-- A range is read off the text of its file. -/
theorem lineRange_retains (file : FileId) (range : TextRange) :
    Stays Retains (lineRange w file range) := by
  refine Stays.bind ?_ fun _ => stays_pure
  refine stays_get.bind fun s => ?_
  split
  · exact stays_pure
  · refine Stays.bind ?_ fun _ => stays_pure
    exact stays_modify fun _ => retains_of_eq rfl

/-- What an action that tracks does in a session where who is who is settled. -/
theorem ensures_of_tracking {act : Running α} (h : Stays (Tracking free) act)
    (hs : s.store.Identified) :
    Ensures act s (fun _ t => s.store.Tracks free t.store) fun _ t => s.store.Tracks free t.store :=
  (h s).mono (fun _ _ ht => ht hs) fun _ _ ht => ht hs

/-! ### What is emitted for a new record -/

/-- A definition range is no result set and belongs to a record that there is. -/
theorem emitDefinition_retains (resolution : Resolution) (symbol : SymbolRef)
    (declaration : NodeId) : Stays Retains (emitDefinition w resolution id symbol declaration) := by
  unfold emitDefinition
  dsimp only
  split
  · exact stays_pure
  · refine (store_retains (Store.hasInfo_retains _)).bind fun known => ?_
    split
    · exact stays_pure
    · refine (lineRange_retains _ _).bind fun _ => (lineRange_retains _ _).bind fun _ =>
        (emit_retains (Graph.vertex_retains (by simp))).bind fun _ =>
          (store_retains (Store.addRange_retains _)).bind fun _ => Stays.bind ?_ fun _ =>
            (store_retains (Store.addInfo_retains _)).bind fun _ =>
              store_retains (Store.addDefinition_retains _ _)
      exact stays_modify fun _ => retains_of_eq rfl

/-- Each of the declarations is emitted for the same record. -/
theorem emitDefinitions_retains (resolution : Resolution) (symbol : SymbolRef)
    (declarations : List NodeId) :
    Stays Retains (emitDefinitions w resolution id symbol declarations) := by
  refine (store_retains (Store.record_retains id)).bind fun known => ?_
  split
  · exact Stays.forM fun declaration _ => emitDefinition_retains resolution symbol declaration
  · exact stays_pure

/-- A hover text changes nobody. -/
theorem emitHover_retains (declarations : List NodeId) :
    Stays Retains (emitHover w id declarations) := by
  unfold emitHover
  split
  · exact stays_pure
  · exact (emit_retains (Graph.vertex_retains (by simp))).bind fun _ =>
      store_retains (Store.addHover_retains _)

/-- Monikers change nobody. -/
theorem emitMonikers_retains (files : List FileId) (kind : LocationKind) (exportPath : String) :
    Stays Retains (emitMonikers w id files kind exportPath) := by
  have hmoniker (scheme identifier : String) (kind : MonikerKind) :
      Stays Retains (emit (Graph.moniker scheme identifier kind)) :=
    emit_retains (Graph.vertex_retains (by simp))
  have hlast (moniker : ElementId) :
      Stays Retains (liftM (Store.addMoniker id moniker) : Running Unit) :=
    store_retains (Store.addMoniker_retains moniker)
  unfold emitMonikers
  dsimp only
  refine (hmoniker _ _ _).bind fun moniker => ?_
  split
  · split
    · exact (hmoniker _ _ _).bind fun attached =>
        (emit_retains (Graph.edge_retains _)).discard.bind fun _ => hlast _
    · exact hlast _
  · exact hlast _

/-- The monikers of a record are emitted, and no record changes its key. -/
theorem emitExported_retains (resolution : Resolution) (declarations : List NodeId)
    (exportPath : Option String) :
    Stays Retains (emitExported w resolution id declarations exportPath) := by
  unfold emitExported
  dsimp only
  split
  · split
    · exact emitMonikers_retains _ _ _
    · exact stays_pure
  · exact stays_pure

/-- What is known of a record besides its definitions changes nobody. -/
theorem emitExtras_retains (resolution : Resolution) (declarations : List NodeId)
    (exportPath : Option String) :
    Stays Retains (emitExtras w resolution id declarations exportPath) := by
  unfold emitExtras
  dsimp only
  split
  · exact (emitHover_retains _).bind fun _ => emitExported_retains _ _ _
  · exact emitExported_retains _ _ _

theorem describe_retains (resolution : Resolution) (symbol : SymbolRef)
    (declarations : List NodeId) (exportPath : Option String) :
    Stays Retains (describe w resolution id symbol declarations exportPath) :=
  (emitDefinitions_retains _ _ _).bind fun _ => emitExtras_retains _ _ _

/-- Whatever is emitted for a new record, who is who stays. -/
theorem announce_retains (resolution : Resolution) (symbol : SymbolRef)
    (declarations : List NodeId) (scope : Option NodeId) (exportPath : Option String) :
    Stays Retains (announce w resolution id symbol declarations scope exportPath) := by
  cases scope with
  | none => exact describe_retains _ _ _ _
  | some node => exact (store_retains (Store.watch_retains _ _)).bind fun _ =>
      describe_retains _ _ _ _

/-! ### Resolving -/

section Create

variable {resolve : Resolver} (hr : ∀ symbol location, Stays (Tracking ∅) (resolve symbol location))

include hr

/-- By induction on the methods: a circle is skipped, and other keys stay as they were. -/
theorem resolveBases_tracks (bases : List SymbolRef) :
    Stays (Tracking ∅) (resolveBases resolve bases) := by
  induction bases with
  | nil => exact stays_pure
  | cons base bases ih =>
      unfold resolveBases
      refine (hr base none).attempt.bind fun result => ?_
      cases result with
      | ok id => exact ih.bind fun _ => stays_pure
      | error fault =>
          cases fault with
          | cyclicResolution key => exact ih
          | _ => exact stays_throw

/-- By induction on the types: each property gets a record of its own key. -/
theorem resolveProperties_tracks (name : String) (location : NodeId) (types : List TypeRef) :
    ∀ known, Stays (Tracking ∅) (resolveProperties w resolve name location known types) := by
  induction types with
  | nil => exact fun _ => stays_pure
  | cons type types ih =>
      intro known
      unfold resolveProperties
      split
      · exact ih known
      · exact (hr _ _).bind fun id => ih _

/-- A method needs the records of those that it overrides. -/
theorem methodKind_tracks (symbol : SymbolRef) (site : Option NodeId) (bases : List SymbolRef) :
    Stays (Tracking ∅) (methodKind w resolve symbol site bases) := by
  cases site with
  | none => exact stays_pure
  | some node => exact (resolveBases_tracks hr _).bind fun _ => stays_pure

/-- By cases of the resolution: a kind needs records of other symbols, and none of its own key. -/
theorem recordKind_tracks (resolution : Resolution) (symbol : SymbolRef)
    (location : Option NodeId) (declarations : List NodeId) :
    Stays (Tracking ∅) (recordKind w resolve resolution symbol location declarations) := by
  unfold recordKind
  dsimp only
  split
  · exact stays_pure
  · exact stays_pure
  · exact stays_pure
  · split
    · exact stays_pure
    · exact (hr _ _).bind fun _ => stays_pure
  · have hmethod := methodKind_tracks (w := w) hr symbol (declarations.head?.or location)
    split
    · exact stays_pure.bind hmethod
    · exact (Retains.tracks (symbols_retains _)).bind fun found => stays_pure.bind hmethod
  · split
    · exact stays_pure
    · exact (resolveProperties_tracks hr _ _ _ _).bind fun _ => stays_pure

omit hr

/-- The record of a symbol was made. -/
def Made (w : Setting) (s : Session) (symbol : SymbolRef) (id : RecordId) (t : Session) : Prop :=
  s.store.Tracks {w.program.key symbol} t.store ∧ t.store.Names id (w.program.key symbol)

/-- A record that was made stays as it is while other things are done. -/
theorem Made.then {symbol : SymbolRef} (h : Made w s symbol id t) {act : Running α}
    (hact : Stays Retains act) {f : α → Running RecordId}
    (hf : ∀ a u, Made w s symbol id u → Ensures (f a) u (fun id u => Made w s symbol id u)
      fun _ u => s.store.Tracks {w.program.key symbol} u.store) :
    Ensures (act >>= f) t (fun id u => Made w s symbol id u)
      fun _ u => s.store.Tracks {w.program.key symbol} u.store := by
  refine ensures_bind.mpr ((ensures_of_tracking (Retains.tracks hact) h.1.identified).mono
    (fun a u hu => hf a u ?_) fun _ u hu => h.1.trans hu)
  exact ⟨h.1.trans hu, hu.names _ _ h.2⟩

include hr

/-- Making a record: its key stays reserved until it is stored, so that it is the only one with the
key. -/
theorem create_tracks (symbol : SymbolRef) (location : Option NodeId) (hs : s.store.Identified)
    (hkey : s.store.cache.get? (w.program.key symbol) = some .resolving) :
    Ensures (create w resolve symbol location) s (fun id t => Made w s symbol id t)
      fun _ t => s.store.Tracks {w.program.key symbol} t.store := by
  unfold create
  dsimp only
  refine ensures_bind.mpr ((ensures_of_tracking stays_ofExcept hs).mono (fun declarations s₁ h₁ => ?_)
    fun _ _ h => h.mono (Set.empty_subset _))
  refine ensures_bind.mpr ((ensures_of_tracking (Retains.tracks (symbols_retains _))
    h₁.identified).mono (fun exportPath s₂ h₂ => ?_) fun _ _ h => (h₁.trans h).mono (Set.empty_subset _))
  refine ensures_bind.mpr ((ensures_of_tracking (recordKind_tracks hr _ _ _ _)
    h₂.identified).mono (fun kind s₃ h₃ => ?_)
    fun _ _ h => ((h₁.trans h₂).trans h).mono (Set.empty_subset _))
  have hbefore := (h₁.trans h₂).trans h₃
  have htracks := hbefore.mono (Set.empty_subset {w.program.key symbol})
  refine ensures_bind.mpr (ensures_onPart.mpr ((Store.insert_tracks h₃.identified
    (hbefore.reserved _ (Set.notMem_empty _) hkey) rfl).mono ?_ fun _ _ h => htracks.trans h))
  rintro id store ⟨h₄, hid⟩
  -- The record is stored; whatever is emitted for it now changes nothing about it.
  have hmade : Made w s symbol id { s₃ with store } := ⟨htracks.trans h₄, hid⟩
  exact hmade.then (announce_retains _ _ _ _ _) fun _ _ hu => ensures_pure.mpr hu

end Create

/-- What the cache says of a key: a live record, or nothing. -/
theorem lookup_ensures (s : Session) (key : SymbolKey) :
    Ensures (liftM (Store.lookup key) : Running (Option RecordId)) s
      (fun found t => t = s ∧ s.store.cache.get? key = found.map .live) fun _ t => t = s := by
  refine ensures_onPart.mpr ?_
  unfold Store.lookup
  refine ensures_bind.mpr (ensures_get.mpr ?_)
  split
  · rename_i hfound
    exact ensures_pure.mpr ⟨rfl, hfound⟩
  · rename_i id hfound
    exact ensures_pure.mpr ⟨rfl, hfound⟩
  · exact ensures_throw.mpr rfl
  · exact ensures_throw.mpr rfl

/-- Resolving tracks, and gives the record with the key of the symbol. -/
theorem resolveWithin_tracks (fuel : Nat) : ∀ symbol location (s : Session), s.store.Identified →
    Ensures (resolveWithin w fuel symbol location) s
      (fun id t => s.store.Tracks ∅ t.store ∧ t.store.Names id (w.program.key symbol))
      fun _ t => s.store.Tracks ∅ t.store := by
  induction fuel with
  | zero => exact fun _ _ s hs => ensures_throw.mpr (.refl hs)
  | succ fuel ih =>
      intro symbol location s hs
      have hr (symbol : SymbolRef) (location : Option NodeId) :
          Stays (Tracking ∅) (resolveWithin w fuel symbol location) :=
        stays_of_ready fun s hs => (ih symbol location s hs).mono (fun _ _ h => h.1) fun _ _ h => h
      unfold resolveWithin seek
      dsimp only
      refine ensures_bind.mpr ((lookup_ensures s _).mono ?_ fun _ t ht => ?_)
      swap
      · rw [ht]
        exact .refl hs
      rintro found t ⟨rfl, hfound⟩
      cases found with
      | some id => exact ensures_pure.mpr ⟨.refl hs, hs.keyed.live _ _ hfound⟩
      | none =>
          refine ensures_bind.mpr (ensures_onPart.mpr (ensures_modify.mpr ?_))
          -- The reservation is under a key that had no slot, so the steps from it onwards track the
          -- session before it.
          have hreserve := Store.reserve_tracks hs hfound
          refine ensures_onFailure.mpr ((create_tracks hr symbol location hreserve.identified
            ((Table.get?_insert _ _ _ _).trans (if_pos rfl))).mono (fun id u hu => ?_)
            fun fault u hu => ?_)
          · exact ⟨hreserve.give_up hfound hu.1, hu.2⟩
          · exact (ensures_of_tracking (store_tracks (Store.abandon_tracks _)) hu.identified).mono
              (fun _ v hv => hreserve.give_up hfound (hu.trans hv))
              fun _ v hv => hreserve.give_up hfound (hu.trans hv)

/-- **Resolving a symbol gives the record with its key**, and no other record gets that key. -/
theorem resolve_tracks (symbol : SymbolRef) (location : Option NodeId) (hs : s.store.Identified) :
    Ensures (resolve w symbol location) s
      (fun id t => s.store.Tracks ∅ t.store ∧ t.store.Names id (w.program.key symbol))
      fun _ t => s.store.Tracks ∅ t.store :=
  resolveWithin_tracks _ symbol location s hs

/-- Looking for a record reserves its key and frees it or makes the record. -/
theorem resolve_stays (symbol : SymbolRef) (location : Option NodeId) :
    Stays (Tracking ∅) (resolve w symbol location) :=
  stays_of_ready fun _ hs => (resolve_tracks symbol location hs).mono (fun _ _ h => h.1) fun _ _ h => h

/-! ### Walking -/

theorem symbols_tracks (act : StateM Symbols α) : Stays (Tracking ∅) (liftM act : Running α) :=
  Retains.tracks (symbols_retains act)

/-- Overrides of a file concern export paths only. -/
theorem assertExports_tracks (module : SymbolRef) (targets : List SymbolRef) :
    Stays (Tracking ∅) (assertExports w module targets) := by
  induction targets with
  | nil => exact stays_pure
  | cons target targets ih =>
      exact (symbols_tracks _).bind fun _ => (symbols_tracks _).bind fun _ =>
        ih.bind fun _ => stays_pure

/-- Overrides are released, whatever the walk has done. -/
theorem underOverrides_tracks (overrides : List Override) {walk : Running Unit}
    (hwalk : Stays (Tracking ∅) walk) : Stays (Tracking ∅) (underOverrides overrides walk) :=
  hwalk.andThen (Stays.forM fun _ _ => symbols_tracks _)

/-- The record of a file is looked for before the walk below it. -/
theorem insideSourceFile_tracks (root : NodeId) {walk : Running Unit}
    (hwalk : Stays (Tracking ∅) walk) : Stays (Tracking ∅) (insideSourceFile w root walk) := by
  refine (Retains.tracks (store_retains (Store.document_retains _))).discard.bind fun _ => ?_
  split
  · exact hwalk
  · exact (assertExports_tracks _ _).bind fun overrides => underOverrides_tracks overrides
      ((resolve_stays _ _).discard.bind fun _ => hwalk)

/-- The record of an identifier is looked for, and then referred to. -/
theorem visitIdentifier_tracks (node : NodeId) : Stays (Tracking ∅) (visitIdentifier w node) := by
  unfold visitIdentifier
  dsimp only
  split
  · exact stays_pure
  · refine (resolve_stays _ _).bind fun id => ?_
    refine (Retains.tracks (store_retains (Store.hasInfo_retains _))).bind fun known => ?_
    split
    · exact stays_pure
    · exact Retains.tracks ((lineRange_retains _ _).bind fun _ =>
        (emit_retains (Graph.vertex_retains (by simp))).bind fun _ =>
          (store_retains (Store.addRange_retains _)).bind fun _ =>
            (store_retains Store.resultSet_retains).bind fun _ =>
              (emit_retains (Graph.edge_retains _)).discard.bind fun _ =>
                store_retains (Store.addReference_retains _ _ _ _))

/-- Document symbols are no records. -/
theorem insideNamed_tracks (file : FileId) (name : NodeId) {walk : Running Unit}
    (hwalk : Stays (Tracking ∅) walk) : Stays (Tracking ∅) (insideNamed w file name walk) := by
  refine (stays_get.bind fun _ => stays_pure).bind fun found => ?_
  split
  · exact hwalk
  · exact (Retains.tracks (store_retains (Store.beginContainer_retains _))).bind fun _ =>
      hwalk.andThen (Retains.tracks (store_retains Store.endContainer_retains))

/-- The record of a declaration is looked for before the walk below it. -/
theorem insideDocumentSymbol_tracks (declaration : NodeId) {walk : Running Unit}
    (hwalk : Stays (Tracking ∅) walk) :
    Stays (Tracking ∅) (insideDocumentSymbol w declaration walk) := by
  unfold insideDocumentSymbol
  split
  · exact hwalk
  · split
    · exact (resolve_stays _ _).discard.bind fun _ => insideNamed_tracks _ _ hwalk
    · exact insideNamed_tracks _ _ hwalk

/-- Forwards of a type alias concern export paths only. -/
theorem assertForwards_tracks (declaration : NodeId) :
    Stays (Tracking ∅) (assertForwards w declaration) := by
  unfold assertForwards
  dsimp only
  split
  · exact stays_pure
  · exact symbols_tracks _

/-- By cases of the node: it looks for at most one record and walks on. -/
theorem inside_tracks (node : NodeId) {walk : Running Unit} (hwalk : Stays (Tracking ∅) walk) :
    Stays (Tracking ∅) (inside w node walk) := by
  unfold inside
  split
  · exact insideSourceFile_tracks node hwalk
  · exact (visitIdentifier_tracks node).bind fun _ => hwalk
  · exact (assertForwards_tracks node).bind fun overrides =>
      underOverrides_tracks overrides (insideDocumentSymbol_tracks node hwalk)
  · split
    · exact insideDocumentSymbol_tracks node hwalk
    · exact hwalk

/-- A node that is left may clear keys, but no reserved one. -/
theorem leave_tracks (node : NodeId) : Stays (Tracking ∅) (leave w node) := by
  refine (store_tracks (Store.nodeProcessed_tracks node)).bind fun _ => ?_
  split
  · refine (Retains.tracks (store_retains (Store.endDocument_retains _))).bind fun _ => ?_
    exact stays_modify fun _ => Store.Retains.tracks (refl_of Store.Retains _)
  · exact stays_pure

/-- By induction on the depth: a node, what is below it, and leaving it. -/
theorem visitWithin_tracks (fuel : Nat) : ∀ node, Stays (Tracking ∅) (visitWithin w fuel node) := by
  induction fuel with
  | zero => exact fun _ => stays_throw
  | succ fuel ih =>
      intro node
      exact (inside_tracks node (Stays.forM fun child _ => ih child)).bind fun _ => leave_tracks node

theorem visitFile_tracks (file : FileId) : Stays (Tracking ∅) (visitFile w file) :=
  visitWithin_tracks _ _

end Session

end SymbolGraph
