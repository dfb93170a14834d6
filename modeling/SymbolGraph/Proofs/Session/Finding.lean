import SymbolGraph.Proofs.Session.Gathering

/-!
# Proofs — Session — finding the record of a symbol

Resolving a symbol is gathering, and gives a record with the key of the symbol.  What it writes to
are the files that declare the symbol, which nobody has met until its record is stored, and the file
it was met in.

* `Session.emitRange_works`: a range is emitted and placed in its document.
* `Session.emitDefinition_works`: a definition is noted and recorded.
* `Session.resolve_works`: resolving a symbol.
-/

namespace SymbolGraph.Session

open SymbolGraph.Action SymbolGraph.Discipline

variable {α β : Type} {w : Setting} {here : FileId → Prop} {s t : Session} {id : RecordId}
  {file : FileId} {symbol : SymbolRef} {location : Option NodeId} {resolution : Resolution}

theorem here_self (file : FileId) (h : here file) : here file ∨ s.Undiscovered w.program file := .inl h

/-- Two operations on the store are one. -/
theorem liftM_bind {act : Store.Storing α} {f : α → Store.Storing β} :
    (liftM (act >>= f) : Running β) = (liftM act : Running α) >>= fun a => (liftM (f a) : Running β) := by
  funext s
  have hlift {γ : Type} (act : Store.Storing γ) (s : Session) : (liftM act : Running γ) s
      = onPart Session.store (fun store s => { s with store }) act s := rfl
  simp only [hlift, onPart, bind, EStateM.bind]
  cases act s.store <;> rfl

/-! ### Ranges -/

/-- A range is emitted and placed in its document; nothing leads on from it yet. -/
theorem emitRange_works {span : LineRange} {tag : RangeTag} {f : VertexRef → Running β}
    {post : β → Session → Prop} (hfile : here file)
    (hf : ∀ range t, Element.vertex range.id (.range span (some tag)) ∈ t.store.elements →
      t.store.Shelved file range.id → range.id ∉ nextSourcesIn t.store.elements →
      range.id.value ≤ t.store.graph.issued → t.store.records = s.store.records →
      Works w here (f range) t post) :
    Works w here (do
      let range ← emit (Graph.vertex (.range span (some tag)))
      Store.addRange w file range.id
      f range) s post := by
  intro hs
  refine Follows.bind (works_store (fun _ => Store.vertex_works (by nofun) (by nofun)) here_self)
    (fun range t _ ht hemitted => ?_) hs
  obtain ⟨store, rfl, -, hsame, hd⟩ := hemitted
  have hmem := List.mem_singleton_self (Element.vertex range.id (.range span (some tag)))
  have hquiet : ∀ e ∈ [Element.vertex range.id (.range span (some tag))], e.IsQuiet := by
    intro e he
    rw [List.mem_singleton.mp he]
    exact Element.isQuiet_vertex (by nofun) (by nofun)
  have hplaced : store.placed = s.store.placed := by
    rw [hsame]
    exact Store.placed_quiet hd hquiet
  have hnew : range.id ∉ store.placed := by
    rw [hplaced]
    exact hs.store.counted.placed.not_mem hd hmem
  have hfree : range.id ∉ nextSourcesIn store.elements := by
    rw [Store.elements, hd.elements, nextSourcesIn_quiet hquiet]
    exact hs.store.counted.leading.not_mem hd hmem
  refine Follows.bind (works_store (fun _ => Store.addRange_works hfile hnew (hd.ids _ hmem).2)
    here_self) fun _ u _ _ hplaces => ?_
  obtain ⟨store', rfl, hgains, hshelved, hnext, hrecords⟩ := hplaces
  have hin : Element.vertex range.id (.range span (some tag)) ∈ store.elements := by
    rw [Store.elements, hd.elements]
    exact List.mem_append_right _ hmem
  have hin' := hgains.lasts.elements.subset hin
  refine hf range _ hin' hshelved (hnext ▸ hfree) ?_ ?_
  · exact (hgains.orderly ht.store).counted.ids _ hin'
  · rw [hrecords, hsame]

/-! ### What is emitted for a new record -/

/-- A record that takes definitions. -/
def Accepts (s : Session) (id : RecordId) : Prop :=
  ∃ r, s.store.records[id.index]? = some r ∧ r.kind.acceptsDefinitions = true

theorem Accepts.lasts (h : s.Accepts id) (hlasts : s.store.Lasts t.store) : t.Accepts id := by
  obtain ⟨r, hr, haccepts⟩ := h
  obtain ⟨r', hr', hendures⟩ := hlasts.records _ r hr
  exact ⟨r', hr', hendures.kind ▸ haccepts⟩

/-- **A definition is noted and recorded**, unless it was. -/
theorem emitDefinition_works {declaration : NodeId}
    (hfile : here (w.program.fileOf declaration)) (haccepts : s.Accepts id) :
    Works w here (emitDefinition w resolution id symbol declaration) s fun _ _ => True := by
  unfold emitDefinition
  dsimp only
  split
  · exact follows_pure trivial
  · rename_i name text _
    refine (works_store (fun _ => Store.hasInfo_works) here_self).bind fun known t _ _ hknown => ?_
    obtain ⟨_, rfl, -, rfl, -⟩ := hknown
    split
    · exact follows_pure trivial
    · refine lineRange_works.bind fun fullRange t₁ _ _ ht₁ => ?_
      refine lineRange_works.bind fun span t₂ _ _ ht₂ => ?_
      refine emitRange_works hfile fun range t₃ hin hshelved hfree _ hrecords => ?_
      have hnames : Works w here (modify fun s : Session =>
          { s with definitions := s.definitions.insert name range }) t₃
          fun _ t => t.store = t₃.store :=
        fun _ => ensures_modify.mpr ⟨⟨.single .names, .of_cache rfl⟩, rfl⟩
      refine hnames.bind fun _ t₄ _ _ ht₄ => ?_
      rw [ht₂.2.2] at hin
      rw [← ht₄] at hin hshelved hfree hrecords
      -- Noting the coordinates and leading the range to the record are one step.
      have hdefine : Store.Works w here (do
          Store.addInfo id { file := w.program.fileOf declaration, range := w.program.range name }
          Store.addDefinition w id (w.program.fileOf declaration) range.id true) t₄.store
          fun _ _ => True := by
        refine Store.define_works hfile (fun r hr => ?_) hin hshelved hfree
        obtain ⟨r', hr', htakes⟩ := haccepts
        rw [hrecords, ht₂.1, ht₁.1, hr'] at hr
        exact Option.some.inj hr ▸ htakes
      rw [← liftM_bind]
      exact (works_store (fun _ => hdefine) here_self).mono fun _ _ _ => trivial

theorem emitDefinitions_works {declarations : List NodeId}
    (hfiles : ∀ declaration ∈ declarations, here (w.program.fileOf declaration)) :
    Works w here (emitDefinitions w resolution id symbol declarations) s fun _ _ => True := by
  refine (works_store (fun _ => Store.record_works) here_self).bind fun r t _ _ hr => ?_
  obtain ⟨_, rfl, -, rfl, hr⟩ := hr
  split
  · rename_i htakes
    refine (Follows.forM (fun u : Session => u.Accepts id) declarations
      (fun declaration hmem u haccepts hu => ?_) ⟨r, hr, htakes⟩).mono fun _ _ _ => trivial
    exact Ensures.mono (emitDefinition_works (hfiles declaration hmem) haccepts hu)
      (fun _ v hv => ⟨hv.1, haccepts.lasts hv.1.1.lasts⟩) fun _ _ hfault => hfault
  · exact follows_pure trivial

/-- A vertex that is no document and no range. -/
theorem emit_vertex_works {v : Vertex} (hd : v.label ≠ .document) (hr : v.label ≠ .range) :
    Works w here (emit (Graph.vertex v)) s fun _ _ => True := by
  refine (works_store (fun _ => Store.vertex_works hd ?_) here_self).mono fun _ _ _ => trivial
  rintro span rfl
  exact hr rfl

theorem emitHover_works {declarations : List NodeId} :
    Works w here (emitHover w id declarations) s fun _ _ => True := by
  unfold emitHover
  split
  · exact follows_pure trivial
  · refine (emit_vertex_works (by nofun) (by nofun)).bind fun hover t _ _ _ => ?_
    exact (works_store (fun _ => Store.addHover_works) here_self).mono fun _ _ _ => trivial

theorem emitMonikers_works {files : List FileId} {kind : LocationKind} {exportPath : String} :
    Works w here (emitMonikers w id files kind exportPath) s fun _ _ => True := by
  have hlast (t : Session) (moniker : ElementId) :
      Works w here (liftM (Store.addMoniker id moniker) : Running Unit) t fun _ _ => True :=
    (works_store (fun _ => Store.addMoniker_works) here_self).mono fun _ _ _ => trivial
  refine (emit_vertex_works (by nofun) (by nofun)).bind fun moniker t _ _ _ => ?_
  split
  · split
    · refine (emit_vertex_works (by nofun) (by nofun)).bind fun attached u _ _ _ => ?_
      have hattach : Works w here (emit (Graph.link .attach attached.id moniker.id)) u
          fun _ _ => True :=
        (works_store (fun _ => Store.link_works (by decide)) here_self).mono fun _ _ _ => trivial
      exact hattach.discard.bind fun _ v _ _ _ => hlast v moniker.id
    · exact hlast t moniker.id
  · exact hlast t moniker.id

/-! ### What a record passes on to -/

/-- A resolver gathers and finds a record with the key of the symbol, for symbols that were met in
one of these files. -/
def Resolver.Finds (w : Setting) (here : FileId → Prop) (resolve : Resolver) : Prop :=
  ∀ symbol location (s : Session), (∀ node, location = some node → here (w.program.fileOf node)) →
    Works w here (resolve symbol location) s fun id t => t.store.Names id (w.program.key symbol)

variable {resolve : Resolver}

/-- A base that needs the symbol itself is left out, and gathering goes on. -/
theorem resolveBases_works (hr : resolve.Finds w here) : ∀ (bases : List SymbolRef) (s : Session),
    Works w here (resolveBases resolve bases) s fun _ _ => True
  | [], _ => follows_pure trivial
  | base :: bases, s => by
      intro hs
      refine ensures_bind.mpr (ensures_attempt.mpr (Ensures.mono (hr base none s nofun hs)
        (fun id t ht => ?_) fun fault t hfault => ?_))
      · have hrest : Works w here (do return id :: (← resolveBases resolve bases)) t
            fun _ _ => True :=
          (resolveBases_works hr bases t).bind fun _ _ _ _ _ => follows_pure trivial
        exact hrest.after hs ht.1
      · cases fault with
        | cyclicResolution key =>
            exact (resolveBases_works hr bases t).after hs (hfault.2 fun hplain => hplain key rfl)
        | _ => exact ensures_throw.mpr hfault

theorem resolveProperties_works (hr : resolve.Finds w here) {name : String} {node : NodeId}
    (hnode : here (w.program.fileOf node)) : ∀ (types : List TypeRef) (known : List RecordId)
      (s : Session), Works w here (resolveProperties w resolve name node known types) s
        fun _ _ => True
  | [], _, _ => follows_pure trivial
  | type :: types, known, s => by
      unfold resolveProperties
      split
      · exact resolveProperties_works hr hnode types known s
      · refine (hr _ (some node) s fun node' heq => Option.some.inj heq ▸ hnode).bind
          fun id t _ _ _ => ?_
        exact resolveProperties_works hr hnode types _ t

/-- The files that making a record writes to: those where its symbol was met, and those of its
declarations. -/
def Touches (p : Program) (here : FileId → Prop) (declarations : List NodeId) (file : FileId) :
    Prop :=
  here file ∨ ∃ declaration ∈ declarations, p.fileOf declaration = file

/-- What the kind of a new record says of where its symbol was met: one that is recorded at its place
takes no definitions, and records are tied for a file that declares the symbol or where it was
met. -/
structure Placed (p : Program) (here : FileId → Prop) (resolution : Resolution)
    (declarations : List NodeId) (kind : RecordKind) : Prop where
  located : resolution.requiresLocation = true → kind.acceptsDefinitions = false
  anchor  : ∀ file, kind.anchor? = some file → Touches p here declarations file

/-- A method is tied for the file that declares it, or for that in which it was met. -/
theorem methodKind_works (hr : resolve.Finds w here) {declarations : List NodeId}
    (hlocation : ∀ node, location = some node → here (w.program.fileOf node))
    (bases : List SymbolRef) :
    Works w here (methodKind w resolve symbol (declarations.head?.or location) bases) s
      fun kind _ => Placed w.program here .method declarations kind := by
  cases hplace : declarations.head?.or location with
  | none => exact follows_pure ⟨fun heq => (by cases heq), fun _ heq => (by cases heq)⟩
  | some node =>
      refine (resolveBases_works hr _ s).bind fun ids u _ _ _ => follows_pure
        ⟨fun heq => (by cases heq), fun file hfile => ?_⟩
      rw [← Option.some.inj hfile]
      rcases Option.or_eq_some_iff.mp hplace with hhead | ⟨-, hlocated⟩
      · exact .inr ⟨node, List.mem_of_mem_head? hhead, rfl⟩
      · exact .inl (hlocation node hlocated)

theorem recordKind_works (hr : resolve.Finds w here) {declarations : List NodeId}
    (hlocation : ∀ node, location = some node → here (w.program.fileOf node)) :
    Works w here (recordKind w resolve resolution symbol location declarations) s
      fun kind _ => Placed w.program here resolution declarations kind := by
  have hplain {kind : RecordKind} (hlocated : resolution.requiresLocation = false)
      (hanchor : kind.anchor? = none) : Placed w.program here resolution declarations kind :=
    ⟨fun hrequires => absurd (hlocated.symm.trans hrequires) Bool.false_ne_true, fun _ h => by
      rw [hanchor] at h
      cases h⟩
  cases resolution with
  | standard => exact follows_pure (hplain rfl rfl)
  | typeAlias => exact follows_pure (hplain rfl rfl)
  | transient => exact follows_pure ⟨fun _ => rfl, fun _ heq => by cases heq⟩
  | ofAlias =>
      unfold recordKind
      dsimp only
      split
      · exact follows_pure (hplain rfl rfl)
      · refine (hr _ none s fun _ heq => by cases heq).bind fun id t _ _ _ => ?_
        exact follows_pure (hplain rfl rfl)
  | composite =>
      unfold recordKind
      dsimp only
      split
      · exact follows_pure ⟨fun _ => rfl, fun _ heq => by cases heq⟩
      · rename_i node
        have hnode := hlocation node rfl
        refine (resolveProperties_works hr hnode _ [] s).bind fun ids t _ _ _ => ?_
        exact follows_pure ⟨fun _ => rfl, fun file hfile => .inl (Option.some.inj hfile ▸ hnode)⟩
  | method =>
      unfold recordKind
      dsimp only
      split
      · rw [pure_bind]
        exact methodKind_works hr hlocation []
      · refine (works_symbols Symbols.findBaseMembers_asks).bind fun found t _ _ _ => ?_
        rw [pure_bind]
        exact methodKind_works hr hlocation _

/-! ### Making a record -/

/-- The nodes that count as declarations declare the symbol, or are where it was met. -/
theorem mem_declarations {declarations : List NodeId} (hresolution : resolution.declarations
    w.program symbol location = .ok declarations) (hlocation : ∀ node, location = some node →
      here (w.program.fileOf node)) {declaration : NodeId} (hmem : declaration ∈ declarations) :
    here (w.program.fileOf declaration) ∨ declaration ∈ w.program.declarations symbol := by
  unfold Resolution.declarations at hresolution
  split at hresolution
  · split at hresolution
    · cases hresolution
      rw [List.mem_singleton.mp hmem]
      exact .inl (hlocation _ rfl)
    · cases hresolution
  · cases hresolution
    exact .inr hmem

theorem declarations_of_not_located (h : resolution.requiresLocation = false) :
    resolution.declarations w.program symbol location = .ok (w.program.declarations symbol) := by
  simp [Resolution.declarations, h]

theorem missingLocation_of_error {fault : Fault}
    (h : resolution.declarations w.program symbol location = .error fault) :
    ∃ place, fault = .missingLocation place := by
  unfold Resolution.declarations at h
  split at h
  · split at h
    · cases h
    · exact ⟨_, (Except.error.inj h).symm⟩
  · cases h

/-- A record is local to a node around the only declaration of its symbol. -/
theorem encloses_of_scopeOf {node : NodeId}
    (h : scopeOf w.program symbol (w.program.declarations symbol) = some node) :
    w.program.Encloses (w.program.key symbol) node := by
  unfold scopeOf at h
  split at h
  · rename_i declaration hdeclared
    split at h
    · cases h
    · exact ⟨symbol, declaration, rfl, hdeclared, List.mem_of_find?_eq_some h⟩
  · cases h

theorem emitExported_works {declarations : List NodeId} {exportPath : Option String} :
    Works w here (emitExported w resolution id declarations exportPath) s fun _ _ => True := by
  unfold emitExported
  dsimp only
  split
  · split
    · exact emitMonikers_works
    · exact follows_pure trivial
  · exact follows_pure trivial

theorem emitExtras_works {declarations : List NodeId} {exportPath : Option String} :
    Works w here (emitExtras w resolution id declarations exportPath) s fun _ _ => True := by
  unfold emitExtras
  dsimp only
  split
  · exact emitHover_works.bind fun _ _ _ _ _ => emitExported_works
  · exact emitExported_works

/-- What is known of a record is emitted. -/
theorem describe_works {declarations : List NodeId} {exportPath : Option String}
    (hfiles : ∀ declaration ∈ declarations, here (w.program.fileOf declaration)) :
    Works w here (describe w resolution id symbol declarations exportPath) s fun _ _ => True :=
  (emitDefinitions_works hfiles).bind fun _ _ _ _ _ => emitExtras_works

/-- What is emitted for a new record. -/
theorem announce_works {declarations : List NodeId} {scope : Option NodeId}
    {exportPath : Option String}
    (hfiles : ∀ declaration ∈ declarations, here (w.program.fileOf declaration)) :
    Works w here (announce w resolution id symbol declarations scope exportPath) s
      fun _ _ => True := by
  unfold announce
  cases scope with
  | none => exact describe_works hfiles
  | some node =>
      exact (works_store (fun _ => Store.watch_works) here_self).bind fun _ _ _ _ _ =>
        describe_works hfiles

/-- What the cache says of all other keys stays. -/
def RestsBut (key : SymbolKey) (s t : Session) : Prop :=
  ∀ other slot, other ≠ key → s.store.cache.get? other = some slot →
    t.store.cache.get? other = some slot

/-- What is said of a session after gathering is said of the one before. -/
theorem Advances.ensures {act : Running RecordId} {key : SymbolKey} (hst : Advances w s t)
    (hrests : s.Rests t) (h : Ensures act t
      (fun id u => Advances w t u ∧ t.RestsBut key u ∧ u.store.Names id key)
      fun fault u => t.Blames w here fault ∧
        (¬ fault.IsPlain → Advances w t u ∧ t.RestsBut key u)) :
    Ensures act t (fun id u => Advances w s u ∧ s.RestsBut key u ∧ u.store.Names id key)
      fun fault u => s.Blames w here fault ∧
        (¬ fault.IsPlain → Advances w s u ∧ s.RestsBut key u) := by
  have hthen {u : Session} (hu : t.RestsBut key u) : s.RestsBut key u :=
    fun other slot hne hslot => hu other slot hne (hrests other slot hslot)
  refine h.mono (fun id u hu => ⟨hst.trans hu.1, hthen hu.2.1, hu.2.2⟩) fun fault u hfault => ?_
  refine ⟨hfault.1.spared hst.lasts hst.spares fun _ hfile => .inl hfile, fun hnot => ?_⟩
  exact ⟨hst.trans (hfault.2 hnot).1, hthen (hfault.2 hnot).2⟩

/-- A new record is stored and what belongs to it is emitted.  Until it is stored nobody has met its
symbol, so the files that declare the symbol may be blamed. -/
theorem establish_ensures {kind : RecordKind} {scope : Option NodeId} {declarations : List NodeId}
    {exportPath : Option String} (hs : s.Ready w)
    (hkey : s.store.cache.get? (w.program.key symbol) = some .resolving)
    (hdeclared : ∀ declaration ∈ declarations, here (w.program.fileOf declaration) ∨
      declaration ∈ w.program.declarations symbol)
    (hplaced : Placed w.program here resolution declarations kind)
    (hscope : ∀ node, scope = some node → w.program.Encloses (w.program.key symbol) node)
    (hsheltered : ∀ module, s.symbols.Shelters w.program module (w.program.key symbol) →
      scope = none) :
    Ensures (establish w resolution symbol declarations kind scope exportPath) s
      (fun id t => Advances w s t ∧ s.RestsBut (w.program.key symbol) t ∧
        t.store.Names id (w.program.key symbol))
      fun fault t => s.Blames w here fault ∧
        (¬ fault.IsPlain → Advances w s t ∧ s.RestsBut (w.program.key symbol) t) := by
  -- The symbol is being resolved and hence not yet known, so the files of its declarations are
  -- undiscovered where the walk has not reached them.
  have hunmet : ∀ file, Touches w.program here declarations file →
      here file ∨ s.Undiscovered w.program file := by
    intro file hfile
    rcases hfile with hfile | ⟨declaration, hmem, rfl⟩
    · exact .inl hfile
    · refine (hdeclared declaration hmem).imp_right fun hmem' => ?_
      exact ⟨symbol, declaration, hmem', rfl, Store.not_knows_of_resolving hkey⟩
  refine ensures_bind.mpr (ensures_onPart.mpr (Ensures.mono (Store.insert_ensures hs.store hkey rfl
    rfl rfl hplaced.anchor) (fun id store hstore => ?_) fun fault store hfault => ?_))
  · obtain ⟨rfl, hgains⟩ := hstore
    have hstored : Advances w s { s with store } :=
      .head (.inserts hkey hscope hsheltered) (advances_store hgains)
    have hnames : Store.Names store ⟨s.store.records.size⟩ (w.program.key symbol) :=
      hgains.lasts.names ⟨_, Store.getElem?_pushed.mpr (.inr ⟨rfl, rfl⟩), rfl⟩
    -- Under every other key the cache is as it was.
    have hrests : s.RestsBut (w.program.key symbol) { s with store } := by
      intro other slot hne hslot
      show store.cache.get? other = some slot
      rw [hgains.cache]
      exact (Store.get?_insert_of_ne _ other hne).trans hslot
    have hfiles : ∀ declaration ∈ declarations,
        Touches w.program here declarations (w.program.fileOf declaration) :=
      fun declaration hmem => .inr ⟨declaration, hmem, rfl⟩
    refine ensures_bind.mpr (Ensures.mono (announce_works hfiles (hstored.ready hs))
      (fun _ t ht => ensures_pure.mpr ?_) fun fault t hfault => ?_)
    · obtain ⟨⟨hadvances, hrests'⟩, -⟩ := ht
      refine ⟨hstored.trans hadvances, fun other slot hne hslot => ?_, hadvances.lasts.names hnames⟩
      exact hrests' other slot (hrests other slot hne hslot)
    · refine ⟨hfault.1.spared hstored.lasts hstored.spares hunmet, fun hnot => ?_⟩
      refine ⟨hstored.trans (hfault.2 hnot).1, fun other slot hne hslot => ?_⟩
      exact (hfault.2 hnot).2 other slot (hrests other slot hne hslot)
  · exact ⟨blames_of_excuses hfault hunmet, fun hnot => absurd (isPlain_of_excuses hfault) hnot⟩

/-- **The record of a reserved key is made.** -/
theorem create_ensures (hr : resolve.Finds w here) (hs : s.Ready w)
    (hkey : s.store.cache.get? (w.program.key symbol) = some .resolving)
    (hlocation : ∀ node, location = some node → here (w.program.fileOf node)) :
    Ensures (create w resolve symbol location) s
      (fun id t => Advances w s t ∧ s.RestsBut (w.program.key symbol) t ∧
        t.store.Names id (w.program.key symbol))
      fun fault t => s.Blames w here fault ∧
        (¬ fault.IsPlain → Advances w s t ∧ s.RestsBut (w.program.key symbol) t) := by
  -- A fault of the parts before the record is inserted leaves the whole cache as it was.
  have hfails {fault : Fault} {t : Session} (h : (gathering w here).blames s fault t) :
      s.Blames w here fault ∧
        (¬ fault.IsPlain → Advances w s t ∧ s.RestsBut (w.program.key symbol) t) :=
    ⟨h.1, fun hnot => ⟨(h.2 hnot).1, fun other slot _ hslot => (h.2 hnot).2 other slot hslot⟩⟩
  unfold create
  dsimp only
  cases hdeclarations : (w.program.resolution symbol location).declarations w.program symbol
      location with
  | error fault =>
      refine ensures_bind.mpr (ensures_ofExcept_error.mpr ?_)
      obtain ⟨place, rfl⟩ := missingLocation_of_error hdeclarations
      exact ⟨trivial, fun hnot => absurd (by nofun) hnot⟩
  | ok declarations =>
      refine ensures_bind.mpr (ensures_ofExcept_ok.mpr (ensures_bind.mpr ?_))
      refine Ensures.mono (works_symbols Symbols.exportPath_asks hs) (fun path s₁ hs₁ => ?_)
        fun fault t hfault => hfails hfault
      refine ensures_bind.mpr (Ensures.mono ((recordKind_works hr hlocation).after hs hs₁.1)
        (fun kind s₂ hs₂ => ?_) fun fault t hfault => hfails hfault)
      refine hs₂.1.1.ensures hs₂.1.2 (establish_ensures (hs₂.1.1.ready hs) (hs₂.1.2 _ _ hkey)
        (fun declaration hmem => mem_declarations hdeclarations hlocation hmem) hs₂.2
        (fun node hnode => ?_) fun module hshelters => ?_)
      · split at hnode
        · cases hnode
        · rename_i hlocal
          -- A record whose symbol needs a location accepts no definitions, so it has no scope.
          have hplace : (w.program.resolution symbol location).requiresLocation = false := by
            by_contra hrequires
            rw [hs₂.2.located (Bool.of_not_eq_false hrequires)] at hlocal
            exact hlocal rfl
          rw [declarations_of_not_located hplace] at hdeclarations
          cases hdeclarations
          exact encloses_of_scopeOf hnode
      · obtain ⟨_, -, hpath⟩ := hs₁.2
        have hsome := Option.isSome_iff_ne_none.mpr (hpath module (hs₂.1.1.learns.sheltered hshelters))
        rw [hsome, Bool.or_true, if_pos rfl]

/-! ### Resolving -/

/-- A reservation is given up, if there is one. -/
theorem abandon_ensures (w : Setting) {key : SymbolKey} : Ensures (liftM (Store.abandon key) : Running Unit) s
    (fun _ t => Advances w s t ∧ s.RestsBut key t) fun _ _ => False := by
  refine ensures_onPart.mpr (ensures_modify.mpr ?_)
  split
  · rename_i hresolving
    refine ⟨.single (.abandons hresolving), fun other slot hne hslot => ?_⟩
    exact (Store.get?_erase_of_ne other hne).trans hslot
  · exact ⟨.refl, fun _ _ _ hslot => hslot⟩

/-- What is found in the cache has its key.  A symbol that is being resolved needs itself. -/
theorem lookup_works {key : SymbolKey} :
    Works w here (liftM (Store.lookup key) : Running (Option RecordId)) s fun found t => t = s ∧
      (∀ id, found = some id → s.store.Names id key) ∧
        (found = none → s.store.cache.get? key = none) := by
  intro hs
  have hrefl := (gathering w here).refl hs
  unfold Store.lookup
  refine ensures_onPart.mpr (ensures_bind.mpr (ensures_get.mpr ?_))
  split
  · rename_i hnone
    exact ensures_pure.mpr ⟨hrefl, rfl, fun _ heq => (by cases heq), fun _ => hnone⟩
  · rename_i id hlive
    refine ensures_pure.mpr ⟨hrefl, rfl, fun id' heq => ?_, fun heq => by cases heq⟩
    exact Option.some.inj heq ▸ hs.store.keyed.live key id hlive
  · exact ensures_throw.mpr ⟨trivial, fun _ => hrefl⟩
  · rename_i hcleared
    exact ensures_throw.mpr ⟨hcleared, fun hnot => absurd (fun _ heq => by cases heq) hnot⟩

/-- **Resolving gathers**, and gives a record with the key of the symbol. -/
theorem resolveWithin_finds : ∀ fuel, Resolver.Finds w here (resolveWithin w fuel)
  | 0, _, _, _, _ => works_throw trivial nofun
  | fuel + 1, symbol, location, s, hlocation => by
      refine lookup_works.bind fun found t _ _ hfound => ?_
      obtain ⟨rfl, hlive, hnone⟩ := hfound
      cases found with
      | some id => exact follows_pure (hlive id rfl)
      | none =>
          intro hs
          have hcache := hnone rfl
          refine ensures_bind.mpr (ensures_onPart.mpr (ensures_modify.mpr ?_))
          have hreserved : Gathers w t _ := .reserves hcache
          -- Nothing was said of the key before, so whatever is said of it now rests.
          have hrests {u : Session} (hu : RestsBut (w.program.key symbol) { t with
              store := { t.store with
                cache := t.store.cache.insert (w.program.key symbol) .resolving } } u) :
              t.Rests u := by
            intro other slot hslot
            have hne : other ≠ w.program.key symbol := by
              rintro rfl
              rw [hcache] at hslot
              cases hslot
            exact hu other slot hne ((Store.get?_insert_of_ne _ other hne).trans hslot)
          have hkey : (t.store.cache.insert (w.program.key symbol) .resolving).get?
              (w.program.key symbol) = some .resolving :=
            (Table.get?_insert _ _ _ _).trans (if_pos rfl)
          refine ensures_onFailure.mpr (Ensures.mono (create_ensures (resolveWithin_finds fuel)
            (hreserved.ready hs) hkey hlocation) (fun id u hu => ?_) fun fault u hfault => ?_)
          · exact ⟨⟨.head hreserved hu.1, hrests hu.2.1⟩, hu.2.2⟩
          · refine Ensures.mono (abandon_ensures w) (fun _ v hv => ?_) fun _ _ hfalse => hfalse.elim
            refine ⟨hfault.1.spared hreserved.lasts hreserved.spares fun _ hfile => .inl hfile,
              fun hnot => ?_⟩
            obtain ⟨hadvances, hkept⟩ := hfault.2 hnot
            refine ⟨.head hreserved (hadvances.trans hv.1), hrests fun other slot hne hslot => ?_⟩
            exact hv.2 other slot hne (hkept other slot hne hslot)

theorem resolve_works (hlocation : ∀ node, location = some node → here (w.program.fileOf node)) :
    Works w here (Session.resolve w symbol location) s fun id t =>
      t.store.Names id (w.program.key symbol) :=
  resolveWithin_finds _ symbol location s hlocation

end SymbolGraph.Session
