import SymbolGraph.Proofs.Session.Keeping
import SymbolGraph.Session.Resolve

/-!
# Proofs — Session — resolving keeps a session in order

Making a record files its definition ranges, and before that makes the records it passes on to.  A
symbol that needs itself is found out before anything of its record has been begun.

* `Session.emitDefinition_runs`: a definition range is emitted and filed.
* `Session.resolve_runs`: resolving a symbol keeps the session in order and gives a record.
-/

namespace SymbolGraph.Session

open SymbolGraph.Action

variable {faults : Nat → Option SinkFault} {s t : Session} {w : Setting} {id : RecordId}

/-! ### What is emitted for a new record -/

theorem emit_vertex_does (hs : s.Sound faults) (v : Vertex) :
    Does faults (emit (Graph.vertex v)) s fun ref t => ∃ store, t = { s with store } ∧
      ref.label = v.label ∧ s.store.Posts faults store (Store.said [.vertex ref.id v]) ∧
      Delivered store.elements v.label ref.id ∧ ∀ e ∈ s.store.elements, e.id ≠ ref.id := by
  refine (does_store hs (Store.vertex_does hs.store v)).mono ?_
  rintro ref _ ⟨_, rfl, g, rfl, hlabel, hposts, helements, hfresh⟩
  refine ⟨_, rfl, hlabel, hposts, ?_, hfresh⟩
  rw [helements]
  exact ⟨v, rfl, List.mem_append_right _ (List.mem_singleton_self _)⟩

/-- A definition range is kept for the document symbols. -/
theorem leads_definition (hs : s.Sound faults) (name : NodeId) {range : VertexRef}
    (hrange : Delivered s.store.elements .range range.id) :
    s.Leads faults { s with definitions := s.definitions.insert name range } := by
  refine ⟨⟨hs.store, fun entry hentry => ?_⟩, .refl _⟩
  rcases Table.mem_entries_insert hentry with rfl | hentry
  · exact hrange
  · exact hs.definitions entry hentry

/-- **A definition range is emitted and filed** under its record. -/
theorem emitDefinition_runs (hs : s.Sound faults) {kind : RecordKind}
    (hk : s.store.kind? id = some kind) (haccepts : kind.acceptsDefinitions = true)
    (resolution : Resolution) (symbol : SymbolRef) (declaration : NodeId) :
    Runs faults (emitDefinition w resolution id symbol declaration) s fun _ _ => True := by
  unfold emitDefinition
  dsimp only
  split
  · exact runs_pure hs trivial
  · rename_i name text hname
    refine Does.runs ((does_store hs (Store.hasInfo_does hs.store _)).bind ?_)
    rintro known _ ⟨_, rfl, rfl, -⟩
    refine ⟨.refl hs, ?_⟩
    split
    · exact does_pure ⟨.refl hs, trivial⟩
    · -- The range is emitted, then its document has it, then it is filed: three steps that only
      -- together keep the books.
      refine Does.bind (lineRange_does w _ _) ?_
      rintro fullRange _ ⟨lines, rfl⟩
      have hs₁ : Sound faults { s with lineIndexes := lines } := ⟨hs.store, hs.definitions⟩
      refine ⟨⟨hs₁, .refl _⟩, Does.bind (lineRange_does w _ _) ?_⟩
      rintro span _ ⟨lines', rfl⟩
      have hs₂ : Sound faults { s with lineIndexes := lines' } := ⟨hs.store, hs.definitions⟩
      refine ⟨⟨hs₂, .refl _⟩, (emit_vertex_does hs₂ _).bind ?_⟩
      rintro range _ ⟨store₁, rfl, -, hposts₁, hrange, hfresh⟩
      have hs₃ := leads_store hs₂ hposts₁.leads
      refine ⟨hs₃, (does_store hs₃.sound (Store.addRange_does hs₃.sound.store hrange)).bind ?_⟩
      rintro _ _ ⟨store₂, rfl, document, hdocument, hposts₂, -⟩
      have hs₄ := leads_store hs₃.sound hposts₂.leads
      refine ⟨hs₄, does_modify.bind ?_⟩
      rintro _ _ rfl
      have hs₅ := leads_definition hs₄.sound name (hrange.mono hposts₂.grows.elements)
      refine ⟨hs₅, (does_store hs₅.sound (Store.addInfo_does hs₅.sound.store _)).bind ?_⟩
      rintro _ _ ⟨store₃, rfl, hposts₃, hstable⟩
      have hs₆ := leads_store hs₅.sound hposts₃.leads
      have hposts₂₃ := hposts₂.trans_right hposts₃
      have hk₃ : store₃.kind? id = some kind := by
        rw [hposts₂₃.kinds, hposts₁.kinds]
        exact hk
      refine ⟨hs₆, (does_store hs₆.sound (Store.addDefinition_does hs₆.sound.store
        (hrange.mono hposts₂₃.grows.elements) (hstable.documents _ document hdocument) hk₃
        haccepts)).mono ?_⟩
      rintro _ _ ⟨store₄, rfl, v, hv, hposts₄⟩
      rw [Store.said_range] at hposts₁
      have hleads := leads_store hs₆.sound hposts₄.leads
      refine ⟨⟨⟨hleads.sound, hposts₁.grows.trans (hposts₂₃.grows.trans hposts₄.grows)⟩,
        fun ho => ⟨?_, ?_⟩⟩, trivial⟩
      · exact hposts₄.lasting (hposts₂₃.lasting (hposts₁.lasting ho.lasting))
      · exact ho.balanced.file_steps hs.store ho.lasting hk hfresh hposts₁ haccepts hposts₂₃ hv
          hposts₄

/-- Records keep their kinds. -/
theorem Keeps.kind? (h : s.Keeps faults t) {kind : RecordKind} (hk : s.store.kind? id = some kind) :
    t.store.kind? id = some kind :=
  (h.leads.grows.kind? (Store.lt_of_kind? hk)).trans hk

theorem emitDefinitions_runs (hs : s.Sound faults) (resolution : Resolution) (symbol : SymbolRef)
    (declarations : List NodeId) :
    Runs faults (emitDefinitions w resolution id symbol declarations) s fun _ _ => True := by
  unfold emitDefinitions
  have hrecord : Runs faults (liftM (Store.record id) : Running Record) s
      fun r t => t.store.kind? id = some r.kind := by
    refine runs_store (fun r store => store.kind? id = some r.kind) hs
      ((Store.record_does hs.store id).mono ?_)
    rintro r _ ⟨rfl, hr⟩
    exact ⟨.refl hs.store, Store.kind?_of_record hr⟩
  refine hrecord.bind fun r t hkeeps hk => ?_
  split
  · rename_i haccepts
    -- The kind of the record is the same in every round.
    refine (runs_forM (fun u => u.store.kind? id = some r.kind) hkeeps.sound hk
      fun declaration u hu hk' => ?_).mono fun _ _ _ _ => trivial
    exact (emitDefinition_runs hu hk' haccepts resolution symbol declaration).mono
      fun _ _ hkeeps' _ => hkeeps'.kind? hk'
  · exact runs_pure hkeeps.sound trivial

/-- A vertex that says nothing by itself. -/
theorem emit_vertex_runs (hs : s.Sound faults) (v : Vertex) (hv : v.label ≠ .range) :
    Runs faults (emit (Graph.vertex v)) s fun ref t =>
      Delivered t.store.elements v.label ref.id := by
  refine Does.runs ((emit_vertex_does hs v).mono ?_)
  rintro ref _ ⟨store, rfl, -, hposts, hdelivered, -⟩
  rw [Store.said_vertex hv] at hposts
  exact ⟨keeps_store hs hposts, hdelivered⟩

theorem emitHover_runs (hs : s.Sound faults) (declarations : List NodeId) :
    Runs faults (emitHover w id declarations) s fun _ _ => True := by
  unfold emitHover
  split
  · exact runs_pure hs trivial
  · refine (emit_vertex_runs hs (.hoverResult _) nofun).bind fun hover t hkeeps hdelivered => ?_
    exact runs_store (fun _ _ => True) hkeeps.sound
      ((Store.addHover_does hkeeps.sound.store hdelivered).mono
        fun _ _ hposts => ⟨hposts, trivial⟩)

theorem emitMonikers_runs (hs : s.Sound faults) (files : List FileId) (kind : LocationKind)
    (exportPath : String) :
    Runs faults (emitMonikers w id files kind exportPath) s fun _ _ => True := by
  unfold emitMonikers Graph.moniker
  dsimp only
  refine (emit_vertex_runs hs (.moniker _) nofun).bind fun moniker t hkeeps hmoniker => ?_
  -- The moniker of the record itself comes last.
  have hlast : ∀ u, t.Keeps faults u →
      Runs faults (liftM (Store.addMoniker id moniker.id) : Running Unit) u fun _ _ => True := by
    intro u hu
    exact runs_store (fun _ _ => True) hu.sound ((Store.addMoniker_does hu.sound.store
      (hmoniker.mono hu.leads.grows.elements)).mono fun _ _ hposts => ⟨hposts, trivial⟩)
  split
  · split
    · refine (emit_vertex_runs hkeeps.sound (.moniker _) nofun).bind
        fun attached u hkeeps' hattached => ?_
      have hjoins : LinkKind.attach.Joins u.store.elements attached.id moniker.id :=
        ⟨hattached, hmoniker.mono hkeeps'.leads.grows.elements⟩
      have hattach : Runs faults (emit (Graph.link .attach attached.id moniker.id)) u
          fun _ _ => True :=
        runs_store (fun _ _ => True) hkeeps'.sound ((Store.quietLink_does hkeeps'.sound.store
          (by decide) hjoins).mono fun _ _ hposts => ⟨hposts, trivial⟩)
      exact hattach.discard.bind fun _ v hkeeps'' _ => hlast v (hkeeps'.trans hkeeps'')
    · exact hlast t (.refl hkeeps.sound)
  · exact hlast t (.refl hkeeps.sound)

/-! ### What a record passes on to -/

/-- A resolver that keeps a session in order and gives a record. -/
def Resolver.Sound (faults : Nat → Option SinkFault) (resolve : Resolver) : Prop :=
  ∀ symbol location (s : Session), s.Sound faults →
    Runs faults (resolve symbol location) s fun id t => id.index < t.store.records.size

/-- Records that exist go on existing. -/
theorem Keeps.lt (h : s.Keeps faults t) (hid : id.index < s.store.records.size) :
    id.index < t.store.records.size :=
  Nat.lt_of_lt_of_le hid h.leads.grows.size

/-- A base that needs the symbol itself is left out, and nothing has happened then. -/
theorem resolveBases_runs {resolve : Resolver} (hr : resolve.Sound faults) :
    ∀ (bases : List SymbolRef) {s : Session}, s.Sound faults →
      Runs faults (resolveBases resolve bases) s fun ids t =>
        ∀ id ∈ ids, id.index < t.store.records.size
  | [], s, hs => runs_pure hs nofun
  | base :: bases, s, hs => by
      unfold resolveBases
      refine ensures_bind.mpr (ensures_attempt.mpr (Ensures.mono (hr base none s hs) ?_ ?_))
      · rintro id t ⟨hkeeps, hid⟩
        refine hkeeps.runs ((resolveBases_runs hr bases hkeeps.sound).bind
          fun ids u hkeeps' hids => ?_)
        refine runs_pure hkeeps'.sound fun id' hid' => ?_
        rcases List.mem_cons.mp hid' with rfl | hid'
        · exact hkeeps'.lt hid
        · exact hids id' hid'
      · rintro fault t ⟨hleads, hcyclic⟩
        cases fault with
        | cyclicResolution key =>
            have hkeeps := hcyclic fun hplain => hplain key rfl
            exact hkeeps.runs (resolveBases_runs hr bases hkeeps.sound)
        | _ => exact ensures_throw.mpr ⟨hleads, hcyclic⟩

theorem resolveProperties_runs {resolve : Resolver} (hr : resolve.Sound faults) (name : String)
    (location : NodeId) :
    ∀ (types : List TypeRef) (known : List RecordId) {s : Session}, s.Sound faults →
      (∀ id ∈ known, id.index < s.store.records.size) →
      Runs faults (resolveProperties w resolve name location known types) s fun ids t =>
        ∀ id ∈ ids, id.index < t.store.records.size
  | [], known, s, hs, hknown => runs_pure hs hknown
  | type :: types, known, s, hs, hknown => by
      unfold resolveProperties
      split
      · exact resolveProperties_runs hr name location types known hs hknown
      · rename_i property hproperty
        refine (hr property (some location) s hs).bind fun id t hkeeps hid => ?_
        refine resolveProperties_runs hr name location types _ hkeeps.sound fun id' hid' => ?_
        split at hid'
        · exact hkeeps.lt (hknown id' hid')
        · rcases List.mem_append.mp hid' with hid' | hid'
          · exact hkeeps.lt (hknown id' hid')
          · rw [List.mem_singleton.mp hid']
            exact hid

/-- The records that a new record passes on to exist. -/
def PassesOn (kind : RecordKind) (s : Session) : Prop :=
  ∀ ids, kind.passesTo = some ids → ∀ id ∈ ids, id.index < s.store.records.size

/-- A method passes on to the records of the methods that it overrides. -/
theorem methodKind_runs {resolve : Resolver} (hs : s.Sound faults) (hr : resolve.Sound faults)
    (symbol : SymbolRef) (site : Option NodeId) (bases : List SymbolRef) :
    Runs faults (methodKind w resolve symbol site bases) s PassesOn := by
  cases site with
  | none => exact runs_pure hs nofun
  | some node =>
      refine (resolveBases_runs hr _ hs).bind fun ids u hkeeps hids => runs_pure hkeeps.sound ?_
      rintro ids' hids' id hid
      cases ids with
      | nil => cases hids'
      | cons base bases =>
          cases hids'
          exact hids id hid

theorem recordKind_runs {resolve : Resolver} (hs : s.Sound faults) (hr : resolve.Sound faults)
    (resolution : Resolution) (symbol : SymbolRef) (location : Option NodeId)
    (declarations : List NodeId) :
    Runs faults (recordKind w resolve resolution symbol location declarations) s PassesOn := by
  unfold recordKind
  dsimp only
  split
  · exact runs_pure hs nofun
  · exact runs_pure hs nofun
  · exact runs_pure hs nofun
  · split
    · exact runs_pure hs nofun
    · rename_i target htarget
      refine (hr target none s hs).bind fun id t hkeeps hid => runs_pure hkeeps.sound ?_
      rintro ids hids id' hid'
      cases hids
      rw [List.mem_singleton.mp hid']
      exact hid
  · split
    · rw [pure_bind]
      exact methodKind_runs hs hr symbol _ []
    · refine (runs_symbols hs _).bind fun found t hkeeps _ => ?_
      rw [pure_bind]
      exact methodKind_runs hkeeps.sound hr symbol _ _
  · split
    · exact runs_pure hs nofun
    · rename_i node hnode
      refine (resolveProperties_runs hr _ _ _ [] hs nofun).bind fun ids t hkeeps hids =>
        runs_pure hkeeps.sound ?_
      rintro ids' hids' id hid
      cases hids'
      exact hids id hid

/-! ### Making a record -/

/-- A new record keeps a session in order, if one without definitions is local to nothing. -/
theorem insert_runs (hs : s.Sound faults) (key : SymbolKey) {kind : RecordKind}
    {scope : Option NodeId} (hpasses : PassesOn kind s)
    (hscope : kind.acceptsDefinitions = false → scope = none) :
    Runs faults (liftM (Store.insert w { key, kind, scope }) : Running RecordId) s
      fun id t => id.index < t.store.records.size := by
  refine Does.runs ((does_store hs (Store.insert_does hs.store hpasses)).mono ?_)
  rintro id _ ⟨store, rfl, rfl, hub, opened, facts, hopened, hposts, htied⟩
  refine ⟨⟨leads_store hs (hopened.leads.trans hposts.leads), fun ho => ?_⟩, ?_⟩
  · have hlasting := hopened.lasting hscope ho.lasting
    have hextended :=
      Store.extended_of_opened ho.balanced hopened hposts hlasting (htied hlasting)
    have hwarranted := hposts.warranted hlasting (hopened.warranted ho.balanced.warranted)
    exact ⟨hposts.lasting hlasting, ho.balanced.open hs.store hextended hpasses hwarranted⟩
  · show s.store.records.size < store.records.size
    rw [hposts.size, hopened.size]
    exact Nat.lt_succ_self _

theorem emitExported_runs (hs : s.Sound faults) (resolution : Resolution)
    (declarations : List NodeId) (exportPath : Option String) :
    Runs faults (emitExported w resolution id declarations exportPath) s fun _ _ => True := by
  unfold emitExported
  dsimp only
  split
  · split
    · exact emitMonikers_runs hs _ _ _
    · exact runs_pure hs trivial
  · exact runs_pure hs trivial

theorem emitExtras_runs (hs : s.Sound faults) (resolution : Resolution)
    (declarations : List NodeId) (exportPath : Option String) :
    Runs faults (emitExtras w resolution id declarations exportPath) s fun _ _ => True := by
  unfold emitExtras
  dsimp only
  split
  · exact (emitHover_runs hs _).bind fun _ _ hkeeps _ => emitExported_runs hkeeps.sound _ _ _
  · exact emitExported_runs hs _ _ _

theorem describe_runs (hs : s.Sound faults) (resolution : Resolution) (symbol : SymbolRef)
    (declarations : List NodeId) (exportPath : Option String) :
    Runs faults (describe w resolution id symbol declarations exportPath) s fun _ _ => True :=
  (emitDefinitions_runs hs _ _ _).bind fun _ _ hkeeps _ => emitExtras_runs hkeeps.sound _ _ _

/-- What is emitted for a new record keeps a session in order. -/
theorem announce_runs (hs : s.Sound faults) (resolution : Resolution) (symbol : SymbolRef)
    (declarations : List NodeId) (scope : Option NodeId) (exportPath : Option String) :
    Runs faults (announce w resolution id symbol declarations scope exportPath) s
      fun _ _ => True := by
  unfold announce
  cases scope with
  | none => exact describe_runs hs _ _ _ _
  | some node =>
      have hwatch : Runs faults (liftM (Store.watch node id) : Running Unit) s fun _ _ => True :=
        runs_store (fun _ _ => True) hs ((Store.watch_does hs.store).mono
          fun _ _ h => ⟨h.1, trivial⟩)
      exact hwatch.bind fun _ t hkeeps _ => describe_runs hkeeps.sound _ _ _ _

theorem create_runs {resolve : Resolver} (hs : s.Sound faults) (hr : resolve.Sound faults)
    (symbol : SymbolRef) (location : Option NodeId) :
    Runs faults (create w resolve symbol location) s fun id t =>
      id.index < t.store.records.size := by
  unfold create
  dsimp only
  refine Runs.bind (show Runs faults _ s fun _ _ => True from ?_) fun declarations s₁ h₁ _ => ?_
  · cases Resolution.declarations (w.program.resolution symbol location) w.program symbol
      location with
    | ok declarations => exact ensures_ofExcept_ok.mpr ⟨.refl hs, trivial⟩
    | error fault => exact ensures_ofExcept_error.mpr ⟨.refl hs, fun _ => .refl hs⟩
  refine (runs_symbols h₁.sound _).bind fun exportPath s₂ h₂ _ => ?_
  refine (recordKind_runs h₂.sound hr _ _ _ _).bind fun kind s₃ h₃ hpasses => ?_
  refine (insert_runs h₃.sound _ hpasses ?_).bind fun id s₄ h₄ hid => ?_
  · -- A record without definitions gets no scope.
    intro hdefinitions
    simp only [hdefinitions, Bool.not_false, Bool.true_or, if_true]
  exact (announce_runs h₄.sound _ _ _ _ _).bind fun _ s₅ h₅ _ =>
    runs_pure h₅.sound (h₅.lt hid)

/-! ### Resolving -/

/-- What is found in the cache exists; otherwise nothing has happened. -/
theorem lookup_runs (hs : s.Sound faults) (key : SymbolKey) :
    Runs faults (liftM (Store.lookup key) : Running (Option RecordId)) s
      fun found t => ∀ id, found = some id → id.index < t.store.records.size := by
  have hlookup : Ensures (Store.lookup key) s.store
      (fun found store => store = s.store ∧
        ∀ id, found = some id → id.index < s.store.records.size)
      fun _ store => store = s.store := by
    unfold Store.lookup
    refine ensures_bind.mpr (ensures_get.mpr ?_)
    split
    · exact ensures_pure.mpr ⟨rfl, nofun⟩
    · rename_i id hid
      refine ensures_pure.mpr ⟨rfl, ?_⟩
      rintro id' hid'
      cases hid'
      exact hs.store.cached key id hid
    · exact ensures_throw.mpr rfl
    · exact ensures_throw.mpr rfl
  refine ensures_onPart.mpr (Ensures.mono hlookup ?_ ?_)
  · rintro found _ ⟨rfl, hfound⟩
    exact ⟨.refl hs, hfound⟩
  · rintro fault _ rfl
    exact ⟨.refl hs, fun _ => .refl hs⟩

theorem reserve_runs (hs : s.Sound faults) (key : SymbolKey) :
    Runs faults (liftM (Store.reserve key) : Running Unit) s fun _ _ => True :=
  runs_store (fun _ _ => True) hs
    ((Store.mark_does hs.store (fun _ h => by cases h)).mono fun _ _ h => ⟨h, trivial⟩)

/-- Giving up a record cannot fail. -/
theorem abandon_keeps (hs : s.Sound faults) (key : SymbolKey) :
    Ensures (liftM (Store.abandon key) : Running Unit) s (fun _ t => s.Keeps faults t)
      fun _ _ => False := by
  refine ensures_onPart.mpr (ensures_modify.mpr (keeps_store hs ?_))
  split
  · refine Store.cache_posts hs.store fun key' id hid => .inl ?_
    rw [Table.get?_erase] at hid
    split at hid
    · cases hid
    · exact hid
  · exact .refl hs.store

theorem resolveWithin_sound : ∀ fuel, Resolver.Sound faults (resolveWithin w fuel)
  | 0, _, _, _, hs => ensures_throw.mpr ⟨.refl hs, fun _ => .refl hs⟩
  | fuel + 1, symbol, location, s, hs => by
      unfold resolveWithin seek
      dsimp only
      refine (lookup_runs hs _).bind fun found t hkeeps hfound => ?_
      split
      · exact runs_pure hkeeps.sound (hfound _ rfl)
      · -- A failure on the way gives the place in the cache free, and stays the failure it was.
        refine (reserve_runs hkeeps.sound _).bind fun _ u hkeeps' _ => ?_
        refine ensures_onFailure.mpr (Ensures.mono
          (create_runs hkeeps'.sound (resolveWithin_sound fuel) symbol location)
          (fun _ _ h => h) fun fault v ⟨hleads, hcyclic⟩ => ?_)
        refine Ensures.mono (abandon_keeps hleads.sound _) (fun _ _ habandon => ?_)
          fun _ _ hfalse => hfalse.elim
        exact ⟨hleads.trans habandon.leads, fun hnot => (hcyclic hnot).trans habandon⟩

/-- **Resolving a symbol keeps the session in order** and gives a record. -/
theorem resolve_sound : Resolver.Sound faults (resolve w) := resolveWithin_sound _

end SymbolGraph.Session
