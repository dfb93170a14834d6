import SymbolGraph.Proofs.Store.Bracing
import SymbolGraph.Proofs.Symbol.Needs
import SymbolGraph.Proofs.Symbol.Sheltering
import SymbolGraph.Session.Resolve

/-!
# Proofs — Session — why a record cannot be made

Looking for the record of a symbol leaves the session as sturdy as it was, over any sink and however
it ends: the same keys are reserved after it as before, and the same keys are cleared.  The search
goes no deeper than there are keys, because each level reserves another one.  And a failure has a
reason in the program or in the session: a symbol that is needed was cleared or is being made, needs
one with its own key, or has to be met somewhere and was not.

* `Session.Sturdy`, `Session.Steadies`: what is never broken, and what a search leaves as it was.
* `Session.Explains`: the reasons for a failure.
* `Session.unreserved`: how many keys are not reserved; this bounds the depth of the search.
* `Session.resolveWithin_explained`, `Session.resolve_explained`: every failure is explained, and
  nothing is left reserved.
-/

namespace SymbolGraph.Session

open SymbolGraph.Action SymbolGraph.Discipline

variable {α β : Type} {w : Setting} {p : Program} {s t u : Session} {apart : SymbolKey → Prop}
  {id : RecordId} {file : FileId} {symbol : SymbolRef}

/-! ### What is kept -/

/-- The store is sturdy, what the cache knows is there, scopes are those of symbols, and the tables
about symbols follow from the program. -/
structure Sturdy (p : Program) (s : Session) : Prop where
  store   : s.store.Sturdy
  cached  : ∀ key id, s.store.cache.get? key = some (.live id) → id.index < s.store.records.size
  locals  : ∀ (i : Nat) (r : Record), s.store.records[i]? = some r → ∀ node, r.scope = some node →
    ∃ symbol, p.key symbol = r.key ∧ scopeOf p symbol (p.declarations symbol) = some node
  symbols : s.symbols.Founded p

/-- Records keep their keys and scopes. -/
theorem Sturdy.locals_of (hs : s.Sturdy p) {records : Array Record}
    (h : Store.Renews Record.Endures s.store.records records) (i : Nat) (r : Record)
    (hr : records[i]? = some r) (node : NodeId) (hnode : r.scope = some node) :
    ∃ symbol, p.key symbol = r.key ∧ scopeOf p symbol (p.declarations symbol) = some node := by
  obtain ⟨r', hr', hendures⟩ := h.backward hr
  rw [hendures.key]
  exact hs.locals i r' hr' node (hendures.scope ▸ hnode)

/-- The store changes, but not its cache. -/
theorem Sturdy.maintain (hs : s.Sturdy p) {store : Store} (h : s.store.Maintains store) :
    Sturdy p { s with store } where
  store := h.sturdy
  cached key id hid := by
    change store.cache.get? key = _ at hid
    rw [h.cache] at hid
    show id.index < store.records.size
    rw [h.records.size]
    exact hs.cached key id hid
  locals := hs.locals_of h.records
  symbols := hs.symbols

/-- Nothing is broken, no container is opened or closed, no override comes or goes, and all keys but
some are reserved and cleared as before. -/
structure Steadies (p : Program) (apart : SymbolKey → Prop) (s t : Session) : Prop where
  sturdy    : t.Sturdy p
  overrides : t.symbols.overrides = s.symbols.overrides
  depth     : ∀ file, t.store.depth file = s.store.depth file
  size      : s.store.records.size ≤ t.store.records.size
  resolving : ∀ key, ¬ apart key →
    (t.store.cache.get? key = some .resolving ↔ s.store.cache.get? key = some .resolving)
  cleared   : ∀ key, ¬ apart key →
    (t.store.cache.get? key = some .cleared ↔ s.store.cache.get? key = some .cleared)

/-- All keys are reserved and cleared as before. -/
abbrev Abides (p : Program) : Session → Session → Prop := Steadies p fun _ => False

/-- Nothing was done, so nothing was broken. -/
theorem Steadies.refl (h : s.Sturdy p) : Steadies p apart s s :=
  ⟨h, rfl, fun _ => rfl, Nat.le_refl _, fun _ _ => Iff.rfl, fun _ _ => Iff.rfl⟩

/-- What is steady twice is steady. -/
theorem Steadies.trans (h : Steadies p apart s t) (h' : Steadies p apart t u) :
    Steadies p apart s u where
  sturdy := h'.sturdy
  overrides := h'.overrides.trans h.overrides
  depth file := (h'.depth file).trans (h.depth file)
  size := Nat.le_trans h.size h'.size
  resolving key hkey := (h'.resolving key hkey).trans (h.resolving key hkey)
  cleared key hkey := (h'.cleared key hkey).trans (h.cleared key hkey)

/-- All keys are as before, also those that need not be. -/
theorem Steadies.mono (h : Abides p s t) : Steadies p apart s t :=
  ⟨h.sturdy, h.overrides, h.depth, h.size, fun key _ => h.resolving key id,
    fun key _ => h.cleared key id⟩

/-- The store is steady. -/
theorem Sturdy.settle (hs : s.Sturdy p) {store : Store} (h : s.store.Steadies store) :
    Abides p s { s with store } where
  sturdy := hs.maintain h.toMaintains
  overrides := rfl
  depth := h.depth
  size := Nat.le_of_eq h.records.size.symm
  resolving key _ := by
    show store.cache.get? key = _ ↔ _
    rw [h.cache]
  cleared key _ := by
    show store.cache.get? key = _ ↔ _
    rw [h.cache]

/-- The store has no part in it. -/
theorem Sturdy.beside (hs : s.Sturdy p) (hstore : t.store = s.store)
    (hsymbols : t.symbols.Founded p) (hoverrides : t.symbols.overrides = s.symbols.overrides) :
    Abides p s t := by
  refine ⟨⟨hstore ▸ hs.store, hstore ▸ hs.cached, hstore ▸ hs.locals, hsymbols⟩, hoverrides,
    ?_, ?_, ?_, ?_⟩
  all_goals rw [hstore]
  · exact fun _ => rfl
  · exact fun _ _ => Iff.rfl
  · exact fun _ _ => Iff.rfl

/-! ### Operations -/

/-- From a sturdy session an operation settles, with ordinary faults. -/
def bracing (p : Program) : Discipline Session Fault where
  ready := Sturdy p
  steps := Abides p
  blames s fault t := fault.IsOrdinary ∧ Abides p s t
  refl := .refl
  trans := Steadies.trans
  keeps _ h := h.sturdy
  carries h h' := ⟨h'.1, h.trans h'.2⟩

/-- An operation that breaks nothing, with ordinary faults. -/
abbrev Braces (p : Program) (act : Running α) (s : Session) (post : α → Session → Prop) : Prop :=
  (bracing p).Follows act s post

/-- What breaks nothing in the store breaks nothing in the session. -/
theorem store_braces {act : Store.Storing α} {post : α → Store → Prop}
    (h : Store.Braces act s.store post) : Braces p (liftM act) s fun a t => post a t.store :=
  fun hs => ensures_onPart.mpr ((h hs.store).mono (fun _ _ ht => ⟨hs.settle ht.1, ht.2⟩)
    fun _ _ hfault => ⟨hfault.1, hs.settle hfault.2⟩)

/-- A question about symbols. -/
theorem symbols_braces {act : StateM Symbols α} {post : α → Prop}
    (h : Symbols.Grounds p act s.symbols post)
    (hasks : Symbols.Asks p act s.symbols fun _ _ => True) :
    Braces p (liftM act) s fun a _ => post a := by
  intro hs
  obtain ⟨hfounded, hpost⟩ := h hs.symbols
  exact ensures_onPartSafely.mpr ⟨hs.beside rfl hfounded hasks.1.overrides, hpost⟩

/-- The store and what is known of symbols are all that can break. -/
theorem modify_braces {f : Session → Session} (hstore : (f s).store = s.store)
    (hsymbols : (f s).symbols = s.symbols) : Braces p (modify f) s fun _ _ => True :=
  (follows_modify fun hs => Sturdy.beside hs hstore (hsymbols ▸ Sturdy.symbols hs)
    (congrArg Symbols.overrides hsymbols)).mono fun _ _ _ => trivial

theorem vertex_braces {v : Vertex} : Braces p (emit (Graph.vertex v)) s fun _ _ => True :=
  (store_braces (Store.emission_braces (Graph.vertex_labels v _))).mono fun _ _ _ => trivial

theorem link_braces {kind : LinkKind} {source target : ElementId} :
    Braces p (discard (emit (Graph.link kind source target))) s fun _ _ => True :=
  ((store_braces (Store.emission_braces (Graph.edge_faults _ _))).mono
    fun _ _ _ => trivial).discard

/-- Reading off a range fails as its document does. -/
theorem lineRange_braces {range : TextRange} :
    Braces p (lineRange w file range) s fun _ _ => True := by
  have hindex : Braces p (lineIndex w file) s fun _ _ => True := by
    refine follows_get ?_
    cases s.lineIndexes.get? file with
    | some index => exact follows_pure trivial
    | none => exact (modify_braces rfl rfl).bind fun _ _ _ _ _ => follows_pure trivial
  exact hindex.bind fun _ _ _ _ _ => follows_pure trivial

/-- A definition range is emitted for a record that is there. -/
theorem emitDefinition_braces {resolution : Resolution} {declaration : NodeId} :
    Braces p (emitDefinition w resolution id symbol declaration) s fun _ _ => True := by
  unfold emitDefinition
  dsimp only
  split
  · exact follows_pure trivial
  · refine (store_braces Store.hasInfo_braces).bind fun known t _ _ _ => ?_
    split
    · exact follows_pure trivial
    · refine lineRange_braces.bind fun _ _ _ _ _ => lineRange_braces.bind fun _ _ _ _ _ => ?_
      refine vertex_braces.bind fun range _ _ _ _ => ?_
      refine (store_braces Store.addRange_braces).bind fun _ _ _ _ _ => ?_
      refine Follows.bind (modify_braces ?_ ?_) fun _ _ _ _ _ => ?_
      · rfl
      · rfl
      refine (store_braces Store.addInfo_braces).bind fun _ _ _ _ _ => ?_
      exact (store_braces Store.addDefinition_braces).mono fun _ _ _ => trivial

/-- So are those of all declarations. -/
theorem emitDefinitions_braces {resolution : Resolution} {declarations : List NodeId} :
    Braces p (emitDefinitions w resolution id symbol declarations) s fun _ _ => True := by
  refine (store_braces Store.record_braces).bind fun r t _ _ _ => ?_
  split
  · exact .forM (fun _ => True) _ (fun _ _ _ _ => emitDefinition_braces) trivial
  · exact follows_pure trivial

theorem emitHover_braces {declarations : List NodeId} :
    Braces p (emitHover w id declarations) s fun _ _ => True := by
  unfold emitHover
  split
  · exact follows_pure trivial
  · exact vertex_braces.bind fun _ _ _ _ _ =>
      (store_braces Store.addHover_braces).mono fun _ _ _ => trivial

/-- Monikers are linked to a record that is there. -/
theorem emitMonikers_braces {files : List FileId} {kind : LocationKind} {exportPath : String} :
    Braces p (emitMonikers w id files kind exportPath) s fun _ _ => True := by
  have hlast (t : Session) (moniker : ElementId) :
      Braces p (liftM (Store.addMoniker id moniker) : Running Unit) t fun _ _ => True :=
    (store_braces Store.addMoniker_braces).mono fun _ _ _ => trivial
  refine vertex_braces.bind fun moniker t _ _ _ => ?_
  split
  · split
    · refine vertex_braces.bind fun attached u _ _ _ => ?_
      exact link_braces.bind fun _ v _ _ _ => hlast v moniker.id
    · exact hlast t moniker.id
  · exact hlast t moniker.id

/-- With or without an export path, nothing is broken. -/
theorem emitExported_braces {resolution : Resolution} {declarations : List NodeId}
    {exportPath : Option String} :
    Braces p (emitExported w resolution id declarations exportPath) s fun _ _ => True := by
  unfold emitExported
  dsimp only
  split
  · split
    · exact emitMonikers_braces
    · exact follows_pure trivial
  · exact follows_pure trivial

/-- What is known of a record besides its definitions breaks nothing. -/
theorem emitExtras_braces {resolution : Resolution} {declarations : List NodeId}
    {exportPath : Option String} :
    Braces p (emitExtras w resolution id declarations exportPath) s fun _ _ => True := by
  unfold emitExtras
  dsimp only
  split
  · exact emitHover_braces.bind fun _ _ _ _ _ => emitExported_braces
  · exact emitExported_braces

theorem describe_braces {resolution : Resolution} {declarations : List NodeId}
    {exportPath : Option String} :
    Braces p (describe w resolution id symbol declarations exportPath) s fun _ _ => True :=
  emitDefinitions_braces.bind fun _ _ _ _ _ => emitExtras_braces

/-- What is emitted for a new record, and the node that it is told of, leave the other records and
what is reserved alone. -/
theorem announce_braces {resolution : Resolution} {declarations : List NodeId}
    {scope : Option NodeId} {exportPath : Option String} :
    Braces p (announce w resolution id symbol declarations scope exportPath) s
      fun _ _ => True := by
  cases scope with
  | none => exact describe_braces
  | some node => exact (store_braces Store.watch_braces).bind fun _ _ _ _ _ => describe_braces

/-! ### Reasons -/

/-- The reasons why the record of a symbol cannot be found or made. -/
inductive Explains (p : Program) (s : Session) (x : Request) : Fault → Prop
  /-- Something has ended or has not begun, or the sink refused an element. -/
  | ordinary {fault : Fault} : fault.IsOrdinary → Explains p s x fault
  /-- The key of a symbol that is needed was cleared. -/
  | cleared {y : Request} : p.Reaches x y →
      s.store.cache.get? (p.key y.symbol) = some .cleared →
      Explains p s x (.recordCleared (p.key y.symbol))
  /-- The key of a symbol that is needed was reserved before. -/
  | reserved {y : Request} : p.Reaches x y →
      s.store.cache.get? (p.key y.symbol) = some .resolving →
      Explains p s x (.cyclicResolution (p.key y.symbol))
  /-- A symbol that is needed needs one with its own key. -/
  | circular {y z : Request} : p.Reaches x y → Relation.TransGen p.Needs y z →
      p.key z.symbol = p.key y.symbol → Explains p s x (.cyclicResolution (p.key z.symbol))
  /-- A symbol that is needed has to be met somewhere and was not. -/
  | placeless {y : Request} : p.Reaches x y → y.location = none →
      (p.resolution y.symbol none).requiresLocation = true →
      Explains p s x (.missingLocation (p.resolution y.symbol none))

variable {x y : Request} {fault : Fault}

/-- A fault is explained at the stop before, since all keys were reserved there as well. -/
theorem Explains.of_abides (h : Explains p t x fault) (hst : Abides p s t) :
    Explains p s x fault := by
  cases h with
  | ordinary hfault => exact .ordinary hfault
  | cleared hreach hkey => exact .cleared hreach ((hst.cleared _ id).mp hkey)
  | reserved hreach hkey => exact .reserved hreach ((hst.resolving _ id).mp hkey)
  | circular hreach hneeds hkey => exact .circular hreach hneeds hkey
  | placeless hreach hnone hrequires => exact .placeless hreach hnone hrequires

/-- Why a record cannot be made once its key is reserved: it has to be met somewhere, or one that it
needs cannot be found. -/
def Fails (p : Program) (s : Session) (x : Request) (fault : Fault) : Prop :=
  fault.IsOrdinary ∨
    x.location = none ∧ (p.resolution x.symbol none).requiresLocation = true ∧
      fault = .missingLocation (p.resolution x.symbol none) ∨
    ∃ y, p.Needs x y ∧ Explains p s y fault

/-- **A record that is being made explains what it needs in vain**: where its own key is in the way,
it needs a symbol with that key. -/
theorem Fails.explains (h : Fails p t x fault)
    (hkey : t.store.cache.get? (p.key x.symbol) = some .resolving)
    (hother : ∀ key, key ≠ p.key x.symbol → t.store.cache.get? key = s.store.cache.get? key) :
    Explains p s x fault := by
  rcases h with hfault | ⟨hnone, hrequires, rfl⟩ | ⟨y, hneeds, hy⟩
  · exact .ordinary hfault
  · exact .placeless .refl hnone hrequires
  · cases hy with
    | ordinary hfault => exact .ordinary hfault
    | cleared hreach hcleared =>
        rename_i z
        have hne : p.key z.symbol ≠ p.key x.symbol := by
          intro heq
          rw [heq, hkey] at hcleared
          cases hcleared
        exact .cleared (.head hneeds hreach) (hother _ hne ▸ hcleared)
    | reserved hreach hresolving =>
        rename_i z
        by_cases heq : p.key z.symbol = p.key x.symbol
        · exact .circular .refl (.head' hneeds hreach) heq
        · exact .reserved (.head hneeds hreach) (hother _ heq ▸ hresolving)
    | circular hreach hcircle heq => exact .circular (.head hneeds hreach) hcircle heq
    | placeless hreach hnone hrequires => exact .placeless (.head hneeds hreach) hnone hrequires

/-! ### How deep the search goes -/

/-- How many keys are not reserved. -/
def unreserved (p : Program) (s : Session) : Nat :=
  (p.keys.filter fun key => s.store.cache.get? key ≠ some .resolving).card

/-- There are no more keys than symbols, and one for those without coordinates. -/
theorem unreserved_le (p : Program) (s : Session) : s.unreserved p ≤ p.symbols.size + 1 :=
  (Finset.card_filter_le _ _).trans p.card_keys_le

/-- The keys that are not reserved are the same. -/
theorem Steadies.unreserved (h : Abides p s t) : t.unreserved p = s.unreserved p := by
  unfold Session.unreserved
  congr 1
  exact Finset.filter_congr fun key _ => not_congr (h.resolving key id)

/-- **Reserving a key leaves one less.** -/
theorem unreserved_lt (symbol : SymbolRef)
    (hfree : s.store.cache.get? (p.key symbol) ≠ some .resolving)
    (hreserved : t.store.cache.get? (p.key symbol) = some .resolving)
    (hother : ∀ key, key ≠ p.key symbol → t.store.cache.get? key = s.store.cache.get? key) :
    t.unreserved p < s.unreserved p := by
  refine Program.card_filter_lt symbol (fun key hfree' => ?_) hfree (not_not.mpr hreserved)
  have hne : key ≠ p.key symbol := by
    rintro rfl
    exact hfree' hreserved
  rw [← hother key hne]
  exact hfree'

/-! ### Making a record -/

/-- From a sturdy session with few enough keys that are not reserved, an action on the way to a
record settles, and fails with a reason. -/
def making (p : Program) (fuel : Nat) (x : Request) : Discipline Session Fault where
  ready s := s.Sturdy p ∧ s.unreserved p < fuel
  steps := Abides p
  blames s fault t := Abides p s t ∧ Fails p s x fault
  refl h := .refl h.1
  trans := Steadies.trans
  keeps hs h := ⟨h.sturdy, h.unreserved ▸ hs.2⟩
  carries h h' := by
    refine ⟨h.trans h'.1, h'.2.imp_right (Or.imp_right ?_)⟩
    rintro ⟨y, hneeds, hy⟩
    exact ⟨y, hneeds, hy.of_abides h⟩

/-- An action on the way to a record. -/
abbrev Makes (p : Program) (fuel : Nat) (x : Request) (act : Running α) (s : Session)
    (post : α → Session → Prop) : Prop :=
  (making p fuel x).Follows act s post

variable {fuel : Nat} {resolve : Resolver}

/-- Where nothing is broken, nothing needs an explanation. -/
theorem Braces.makes {act : Running α} {post : α → Session → Prop} (h : Braces p act s post) :
    Makes p fuel x act s post :=
  fun hs => Ensures.mono (h hs.1) (fun _ _ ht => ht) fun _ _ hfault => ⟨hfault.2, .inl hfault.1⟩

/-- A record with this number is there. -/
def Holds (s : Session) (id : RecordId) : Prop := id.index < s.store.records.size

/-- A resolver that finds records and has reasons for its failures. -/
def Resolver.IsExplained (p : Program) (fuel : Nat) (resolve : Resolver) : Prop :=
  ∀ (y : Request) (s : Session), s.Sturdy p → s.unreserved p < fuel →
    Ensures (resolve y.symbol y.location) s (fun id t => Abides p s t ∧ t.Holds id)
      fun fault t => Abides p s t ∧ Explains p s y fault

/-- A record that is needed. -/
theorem Resolver.IsExplained.makes (h : resolve.IsExplained p fuel) (hneeds : p.Needs x y) :
    Makes p fuel x (resolve y.symbol y.location) s fun id t => t.Holds id :=
  fun hs => (h y s hs.1 hs.2).mono (fun _ _ ht => ht)
    fun _ _ hfault => ⟨hfault.1, .inr (.inr ⟨y, hneeds, hfault.2⟩)⟩

/-- By induction on the methods: each is a symbol that the method needs. -/
theorem resolveBases_makes (h : resolve.IsExplained p fuel) (bases : List SymbolRef)
    (hneeds : ∀ base ∈ bases, p.Needs x ⟨base, none⟩) :
    Makes p fuel x (resolveBases resolve bases) s fun ids t => ∀ id ∈ ids, t.Holds id := by
  induction bases generalizing s with
  | nil => exact follows_pure nofun
  | cons base bases ih =>
      have hrest (t : Session) := ih (s := t) fun other hother =>
        hneeds other (List.mem_cons_of_mem _ hother)
      intro hs
      refine ensures_bind.mpr (ensures_attempt.mpr ((h.makes (hneeds base List.mem_cons_self)
        hs).mono (fun id t ht => ?_) fun fault t hfault => ?_))
      · -- What was found stays there while the others are looked for.
        refine Follows.after (Follows.bind (hrest t) fun ids u htu _ hids => follows_pure ?_) hs ht.1
        intro other hother
        rcases List.mem_cons.mp hother with rfl | hother
        · exact Nat.lt_of_lt_of_le ht.2 htu.size
        · exact hids other hother
      · cases fault with
        | cyclicResolution => exact (hrest t).after hs hfault.1
        | _ => exact ensures_throw.mpr hfault

/-- By induction on the types: each property is a symbol that the name needs. -/
theorem resolveProperties_makes (h : resolve.IsExplained w.program fuel) {name : String}
    {node : NodeId} (types : List TypeRef)
    (hneeds : ∀ type ∈ types, ∀ property, w.program.propertyOf type name = some property →
      w.program.Needs x ⟨property, some node⟩) : ∀ (known : List RecordId) (s : Session),
      (∀ id ∈ known, s.Holds id) →
      Makes w.program fuel x (resolveProperties w resolve name node known types) s
        fun ids t => ∀ id ∈ ids, t.Holds id := by
  induction types with
  | nil => exact fun _ _ hknown => follows_pure hknown
  | cons type types ih =>
      intro known s hknown
      have hrest := ih fun other hother => hneeds other (List.mem_cons_of_mem _ hother)
      unfold resolveProperties
      cases hproperty : w.program.propertyOf type name with
      | none => exact hrest known s hknown
      | some property =>
          refine (h.makes (hneeds type List.mem_cons_self property hproperty)).bind
            fun id t hst _ hid => hrest _ t fun other hother => ?_
          have hkept : ∀ other ∈ known, t.Holds other := fun other hother =>
            Nat.lt_of_lt_of_le (hknown other hother) hst.size
          split at hother
          · exact hkept other hother
          · rcases List.mem_append.mp hother with hother | hother
            · exact hkept other hother
            · exact List.mem_singleton.mp hother ▸ hid

/-- A kind passes on to records that are there, and accepts no definitions if its symbol has to be
met somewhere. -/
structure Fits (s : Session) (resolution : Resolution) (kind : RecordKind) : Prop where
  links : ∀ ids, kind.passesTo = some ids → ∀ id ∈ ids, s.Holds id
  met   : resolution.requiresLocation = true → kind.acceptsDefinitions = false

/-- A method passes on to the members that it overrides. -/
theorem methodKind_makes (h : resolve.IsExplained w.program fuel) {symbol : SymbolRef}
    (site : Option NodeId) (bases : List SymbolRef)
    (hneeds : ∀ base ∈ bases, base ≠ symbol → w.program.Needs x ⟨base, none⟩) :
    Makes w.program fuel x (methodKind w resolve symbol site bases) s
      fun kind t => t.Fits .method kind := by
  cases site with
  | none => exact follows_pure ⟨nofun, nofun⟩
  | some node =>
      refine (resolveBases_makes h _ fun base hbase => ?_).bind fun ids u _ _ hids => ?_
      · obtain ⟨hmem, hne⟩ := List.mem_filter.mp hbase
        exact hneeds base hmem (of_decide_eq_true hne)
      · refine follows_pure ⟨fun links hlinks => ?_, nofun⟩
        cases ids with
        | nil => cases hlinks
        | cons first rest =>
            cases hlinks
            exact hids

/-- **The kind of a record**: what it passes on to is found first. -/
theorem recordKind_makes (h : resolve.IsExplained w.program fuel) {symbol : SymbolRef}
    {location : Option NodeId} {declarations : List NodeId} :
    Makes w.program fuel ⟨symbol, location⟩
      (recordKind w resolve (w.program.resolution symbol location) symbol location declarations) s
      fun kind t => t.Fits (w.program.resolution symbol location) kind := by
  unfold recordKind
  dsimp only
  cases hresolution : w.program.resolution symbol location with
  | standard => exact follows_pure ⟨nofun, nofun⟩
  | typeAlias => exact follows_pure ⟨nofun, nofun⟩
  | transient => exact follows_pure ⟨nofun, fun _ => rfl⟩
  | ofAlias =>
      dsimp only
      cases htarget : w.program.aliasedSymbol symbol with
      | none => exact follows_pure ⟨nofun, nofun⟩
      | some target =>
          refine (h.makes (.target hresolution htarget)).bind fun id t _ _ hid =>
            follows_pure ⟨fun links hlinks => ?_, nofun⟩
          cases hlinks
          -- The alias links to its target alone, which has just been resolved.
          exact fun other hother => List.mem_singleton.mp hother ▸ hid
  | method =>
      dsimp only
      cases hparent : w.program.parentSymbol symbol with
      | none => exact methodKind_makes h _ [] nofun
      | some parent =>
          refine (symbols_braces Symbols.findBaseMembers_grounds
            Symbols.findBaseMembers_asks).makes.bind fun found t _ _ hfound =>
            methodKind_makes h _ _ fun base hbase hne => ?_
          exact .overridden hresolution hparent (hfound base hbase) hne
  | composite =>
      dsimp only
      cases location with
      | none => exact follows_pure ⟨nofun, fun _ => rfl⟩
      | some node =>
          refine (resolveProperties_makes h _ (fun type htype property hproperty => ?_) [] s
            nofun).bind fun ids t _ _ hids => follows_pure ⟨fun links hlinks => ?_, fun _ => rfl⟩
          · exact .property hresolution htype hproperty
          · cases hlinks
            exact hids

/-- A record is stored under a key, and nothing happens to the others. -/
theorem Sturdy.push (hs : s.Sturdy p) {key : SymbolKey} {kind : RecordKind} {scope : Option NodeId}
    {store : Store} (hscope : ∀ node, scope = some node →
      ∃ symbol, p.key symbol = key ∧ scopeOf p symbol (p.declarations symbol) = some node)
    (h : (s.store.pushed { key, kind, scope }).Steadies store) :
    Steadies p (· = key) s { s with store } ∧
      store.cache.get? key = some (.live ⟨s.store.records.size⟩) := by
  have hcache : store.cache = s.store.cache.insert key (.live ⟨s.store.records.size⟩) := h.cache
  have hsize : store.records.size = s.store.records.size + 1 :=
    h.records.size.trans (Array.size_push _)
  have hother (other : SymbolKey) (hne : other ≠ key) :
      store.cache.get? other = s.store.cache.get? other := by
    rw [hcache, Table.get?_insert, if_neg hne]
  have hown : store.cache.get? key = some (.live ⟨s.store.records.size⟩) := by
    rw [hcache, Table.get?_insert, if_pos rfl]
  refine ⟨⟨⟨h.sturdy, fun other id hid => ?_, fun i r hr node hnode => ?_, hs.symbols⟩, rfl,
    h.depth, ?_, fun other hne => ?_, fun other hne => ?_⟩, hown⟩
  · show id.index < store.records.size
    rw [hsize]
    by_cases hkey : other = key
    · have hid : store.cache.get? other = some (.live id) := hid
      rw [hkey, hown] at hid
      cases hid
      exact Nat.lt_succ_self _
    · exact Nat.lt_succ_of_lt (hs.cached other id ((hother other hkey).symm.trans hid))
  · obtain ⟨r', hr', hendures⟩ := h.records.backward hr
    rw [hendures.key]
    rw [hendures.scope] at hnode
    rcases Store.getElem?_pushed.mp hr' with hr' | ⟨-, rfl⟩
    · exact hs.locals i r' hr' node hnode
    · exact hscope node hnode
  · show s.store.records.size ≤ store.records.size
    omega
  · show store.cache.get? other = _ ↔ _
    rw [hother other hne]
  · show store.cache.get? other = _ ↔ _
    rw [hother other hne]

/-- The scope of a record is that of its symbol. -/
theorem scopeOf_declarations {symbol : SymbolRef} {location : Option NodeId}
    {declarations : List NodeId} {kind : RecordKind} {exported : Bool} {node : NodeId}
    (hdeclarations : (p.resolution symbol location).declarations p symbol location = .ok declarations)
    (hmet : (p.resolution symbol location).requiresLocation = true → kind.acceptsDefinitions = false)
    (h : (if !kind.acceptsDefinitions || exported then none else scopeOf p symbol declarations)
      = some node) : scopeOf p symbol (p.declarations symbol) = some node := by
  cases haccepts : kind.acceptsDefinitions with
  | false =>
      rw [haccepts] at h
      cases h
  | true =>
      rw [haccepts] at h hmet
      have hplain : (p.resolution symbol location).requiresLocation = false := by
        simpa using hmet
      unfold Resolution.declarations at hdeclarations
      rw [hplain] at hdeclarations
      cases hdeclarations
      cases exported with
      | true => cases h
      | false => exact h

/-- **The record of a reserved key is made**, or there is a reason why not.  Its key is reserved as
long as it is not stored. -/
theorem create_explained (h : resolve.IsExplained w.program fuel) {location : Option NodeId}
    (hs : s.Sturdy w.program) (hfree : s.unreserved w.program < fuel)
    (hkey : s.store.cache.get? (w.program.key symbol) = some .resolving) :
    Ensures (create w resolve symbol location) s
      (fun id t => Steadies w.program (· = w.program.key symbol) s t ∧ t.Holds id ∧
        t.store.cache.get? (w.program.key symbol) ≠ some .resolving ∧
        t.store.cache.get? (w.program.key symbol) ≠ some .cleared)
      fun fault t => Steadies w.program (· = w.program.key symbol) s t ∧
        t.store.cache.get? (w.program.key symbol) ≠ some .cleared ∧
        Fails w.program s ⟨symbol, location⟩ fault := by
  -- Until the record is stored, its key stays reserved.
  have hbefore {fault : Fault} {t : Session} (hfault : Abides w.program s t ∧
      Fails w.program s ⟨symbol, location⟩ fault) :
      Steadies w.program (· = w.program.key symbol) s t ∧
        t.store.cache.get? (w.program.key symbol) ≠ some .cleared ∧
        Fails w.program s ⟨symbol, location⟩ fault := by
    refine ⟨hfault.1.mono, ?_, hfault.2⟩
    rw [(hfault.1.resolving _ id).mpr hkey]
    nofun
  unfold create
  dsimp only
  rw [ensures_bind]
  cases hdeclarations :
    (w.program.resolution symbol location).declarations w.program symbol location with
  | error fault =>
      refine ensures_throw.mpr (hbefore ⟨.refl hs, .inr (.inl ?_)⟩)
      unfold Resolution.declarations at hdeclarations
      split at hdeclarations
      · rename_i hrequires
        cases location with
        | some node => cases hdeclarations
        | none =>
            cases hdeclarations
            exact ⟨rfl, hrequires, rfl⟩
      · cases hdeclarations
  | ok declarations =>
      refine ensures_ofExcept_ok.mpr (ensures_bind.mpr
        (((symbols_braces Symbols.exportPath_grounds
          (Symbols.exportPath_asks.mono fun _ _ _ => trivial)).makes ⟨hs, hfree⟩).mono
          (fun path t ht => ?_) fun _ _ hfault => hbefore hfault))
      refine ensures_bind.mpr (((recordKind_makes h).after ⟨hs, hfree⟩ ht.1).mono
        (fun kind u hu => ?_) fun _ _ hfault => hbefore hfault)
      obtain ⟨hsu, hfits⟩ := hu
      have hlocal (node : NodeId) (hnode : (if !kind.acceptsDefinitions || path.isSome then none
          else scopeOf w.program symbol declarations) = some node) :
          ∃ other, w.program.key other = w.program.key symbol ∧
            scopeOf w.program other (w.program.declarations other) = some node :=
        ⟨symbol, rfl, scopeOf_declarations hdeclarations hfits.met hnode⟩
      refine ensures_bind.mpr (ensures_onPart.mpr ((Store.insert_braces hsu.sturdy.store
        hfits.links).mono (fun id store hstore => ?_) fun fault store hstore => ?_))
      · obtain ⟨rfl, hstore⟩ := hstore
        obtain ⟨hpushed, hlive⟩ := hsu.sturdy.push hlocal hstore
        have hstored := hsu.mono.trans hpushed
        refine ensures_bind.mpr ((announce_braces hpushed.sturdy).mono (fun _ v hv => ?_)
          fun fault v hfault => ?_)
        · obtain ⟨hv, -⟩ := hv
          refine ensures_pure.mpr ⟨hstored.trans hv.mono, Nat.lt_of_lt_of_le ?_ hv.size, fun hslot => ?_,
            fun hslot => ?_⟩
          · exact hpushed.sturdy.cached _ _ hlive
          · cases hlive.symm.trans ((hv.resolving _ id).mp hslot)
          · cases hlive.symm.trans ((hv.cleared _ id).mp hslot)
        · refine ⟨hstored.trans hfault.2.mono, fun hslot => ?_, .inl hfault.1⟩
          cases hlive.symm.trans ((hfault.2.cleared _ id).mp hslot)
      · obtain ⟨hpushed, hlive⟩ := hsu.sturdy.push hlocal hstore.2
        refine ⟨hsu.mono.trans hpushed, fun hslot => ?_, .inl hstore.1⟩
        cases hlive.symm.trans hslot

/-! ### Looking for a record -/

/-- A key is not known, or its slot says what comes of it. -/
theorem lookup_slots {key : SymbolKey} {post : Option RecordId → Session → Prop}
    {fail : Fault → Session → Prop} (hnone : s.store.cache.get? key = none → post none s)
    (hlive : ∀ id, s.store.cache.get? key = some (.live id) → post (some id) s)
    (hresolving : s.store.cache.get? key = some .resolving → fail (.cyclicResolution key) s)
    (hcleared : s.store.cache.get? key = some .cleared → fail (.recordCleared key) s) :
    Ensures (liftM (Store.lookup key) : Running (Option RecordId)) s post fail := by
  refine ensures_onPart.mpr ?_
  show Ensures (Store.lookup key) s.store _ _
  unfold Store.lookup
  rw [ensures_bind, ensures_get]
  cases hslot : s.store.cache.get? key with
  | none => exact hnone hslot
  | some slot =>
      cases slot with
      | live id => exact hlive id hslot
      | resolving => exact hresolving hslot
      | cleared => exact hcleared hslot

/-- The session with a key reserved. -/
def reserving (s : Session) (key : SymbolKey) : Session :=
  { s with store := { s.store with cache := s.store.cache.insert key .resolving } }

/-- Reserving a key leaves a sturdy session sturdy. -/
theorem Sturdy.reserve (hs : s.Sturdy p) (key : SymbolKey) : (s.reserving key).Sturdy p where
  store := ⟨hs.store.project, hs.store.documents, hs.store.records, hs.store.descends⟩
  cached other id hid := by
    change (s.store.cache.insert key .resolving).get? other = _ at hid
    rw [Table.get?_insert] at hid
    split at hid
    · cases hid
    · exact hs.cached other id hid
  locals := hs.locals
  symbols := hs.symbols

theorem slot_reserving {key other : SymbolKey} : (s.reserving key).store.cache.get? other
    = if other = key then some .resolving else s.store.cache.get? other :=
  Table.get?_insert _ _ _ _

/-- Once a key is reserved, less depth is left, and enough for the keys that are not. -/
theorem reserving_ready {symbol : SymbolRef} (hslot : s.store.cache.get? (p.key symbol) = none)
    (hfree : s.unreserved p < fuel + 1) :
    (s.reserving (p.key symbol)).store.cache.get? (p.key symbol) = some .resolving ∧
    (∀ key, key ≠ p.key symbol →
      (s.reserving (p.key symbol)).store.cache.get? key = s.store.cache.get? key) ∧
    (s.reserving (p.key symbol)).unreserved p < fuel := by
  have hkey : (s.reserving (p.key symbol)).store.cache.get? (p.key symbol) = some .resolving :=
    slot_reserving.trans (if_pos rfl)
  have hother (key : SymbolKey) (hne : key ≠ p.key symbol) :
      (s.reserving (p.key symbol)).store.cache.get? key = s.store.cache.get? key :=
    slot_reserving.trans (if_neg hne)
  have hlt := unreserved_lt symbol (by rw [hslot]; nofun) hkey hother
  exact ⟨hkey, hother, by omega⟩

/-- What is done under a reservation, once the reservation is gone. -/
theorem Steadies.unreserve {key : SymbolKey} (h : Steadies p (· = key) (s.reserving key) t)
    (hkey : s.store.cache.get? key = none)
    (hresolving : t.store.cache.get? key ≠ some .resolving)
    (hcleared : t.store.cache.get? key ≠ some .cleared) : Abides p s t := by
  refine ⟨h.sturdy, h.overrides, h.depth, h.size, fun other _ => ?_, fun other _ => ?_⟩
  · by_cases hother : other = key
    · rw [hother, hkey]
      exact iff_of_false hresolving nofun
    · rw [h.resolving other hother, slot_reserving, if_neg hother]
  · by_cases hother : other = key
    · rw [hother, hkey]
      exact iff_of_false hcleared nofun
    · rw [h.cleared other hother, slot_reserving, if_neg hother]

/-- A key is dropped from the cache. -/
theorem Sturdy.forget (hs : s.Sturdy p) (key : SymbolKey) :
    Sturdy p { s with store := { s.store with cache := s.store.cache.erase key } } where
  store := ⟨hs.store.project, hs.store.documents, hs.store.records, hs.store.descends⟩
  cached other id hid := by
    change (s.store.cache.erase key).get? other = _ at hid
    rw [Table.get?_erase] at hid
    split at hid
    · cases hid
    · exact hs.cached other id hid
  locals := hs.locals
  symbols := hs.symbols

/-- Giving up a reservation leaves its key alone. -/
theorem abandon_abides {key : SymbolKey} {fail : Fault → Session → Prop}
    (h : Steadies p (· = key) (s.reserving key) t) (hkey : s.store.cache.get? key = none)
    (hcleared : t.store.cache.get? key ≠ some .cleared) :
    Ensures (liftM (Store.abandon key) : Running Unit) t (fun _ u => Abides p s u) fail := by
  refine ensures_onPart.mpr (ensures_modify.mpr ?_)
  split
  · -- The key itself is gone from the cache, and the others are as they were.
    have hslot (other : SymbolKey) : (t.store.cache.erase key).get? other
        = if other = key then none else t.store.cache.get? other := Table.get?_erase _ _ _
    have herased : Steadies p (· = key) t
        { t with store := { t.store with cache := t.store.cache.erase key } } := by
      refine ⟨h.sturdy.forget key, rfl, fun _ => rfl, Nat.le_refl _, fun other hne => ?_,
        fun other hne => ?_⟩
      · show (t.store.cache.erase key).get? other = _ ↔ _
        rw [hslot, if_neg hne]
      · show (t.store.cache.erase key).get? other = _ ↔ _
        rw [hslot, if_neg hne]
    refine (h.trans herased).unreserve hkey ?_ ?_
    · show (t.store.cache.erase key).get? key ≠ _
      rw [hslot, if_pos rfl]
      exact (Option.some_ne_none _).symm
    · show (t.store.cache.erase key).get? key ≠ _
      rw [hslot, if_pos rfl]
      exact (Option.some_ne_none _).symm
  · rename_i hresolving
    exact h.unreserve hkey hresolving hcleared

/-- **One level of the search** reserves a key that was not reserved, and so may leave one less to the
levels below. -/
theorem seek_explained {find : Request → Running RecordId}
    (h : Resolver.IsExplained w.program fuel fun symbol location => find ⟨symbol, location⟩) :
    Resolver.IsExplained w.program (fuel + 1)
      fun symbol location => seek w find ⟨symbol, location⟩ := by
  intro x s hs hfree
  refine ensures_bind.mpr (lookup_slots (fun hslot => ?_) (fun id hslot => ?_)
    (fun hslot => ?_) fun hslot => ?_)
  · refine ensures_bind.mpr (ensures_onPart.mpr (ensures_modify.mpr (ensures_onFailure.mpr ?_)))
    obtain ⟨hkey, hother, hless⟩ := reserving_ready hslot hfree
    refine (create_explained h (hs.reserve _) hless hkey).mono (fun id t ht => ?_)
      fun fault t hfault => ?_
    · obtain ⟨hsteadies, hid, hresolving, hcleared⟩ := ht
      exact ⟨hsteadies.unreserve hslot hresolving hcleared, hid⟩
    · obtain ⟨hsteadies, hcleared, hfails⟩ := hfault
      exact (abandon_abides hsteadies hslot hcleared).mono
        (fun _ _ hu => ⟨hu, hfails.explains hkey hother⟩) fun _ _ hfalse => hfalse
  · exact ensures_pure.mpr ⟨.refl hs, hs.cached _ id hslot⟩
  · exact ⟨.refl hs, .reserved .refl hslot⟩
  · exact ⟨.refl hs, .cleared .refl hslot⟩

/-- **The record of a symbol is found or made, or there is a reason why not**, as long as fewer keys
than the search may go deep are not reserved. -/
theorem resolveWithin_explained (fuel : Nat) :
    Resolver.IsExplained w.program fuel (resolveWithin w fuel) := by
  induction fuel with
  | zero => exact fun _ _ _ hfree => absurd hfree (Nat.not_lt_zero _)
  | succ fuel ih =>
      exact seek_explained ih

/-- **The record of a symbol is found or made, or there is a reason why not**; either way the same
keys are reserved after the search as before. -/
theorem resolve_explained (hs : s.Sturdy w.program) (symbol : SymbolRef) (location : Option NodeId) :
    Ensures (Session.resolve w symbol location) s (fun id t => Abides w.program s t ∧ t.Holds id)
      fun fault t => Abides w.program s t ∧ Explains w.program s ⟨symbol, location⟩ fault := by
  refine resolveWithin_explained _ ⟨symbol, location⟩ s hs ?_
  have hle := s.unreserved_le w.program
  omega

end SymbolGraph.Session
