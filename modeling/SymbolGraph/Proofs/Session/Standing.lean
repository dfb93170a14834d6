import SymbolGraph.Proofs.Session.Calm

/-!
# Proofs — Session — a session stands at every stop

Between any two operations of a run the session is sturdy, also in the middle of the making of a
record, when keys are reserved, and while a failed operation is tidied up after.

* `Session.Plan.Stands`: a plan that leaves a sturdy session after each of its operations.
* `Session.Plan.resolve_stands`, `Session.Plan.visitWithin_stands`: looking for records, and walking.
* `Session.Plan.walkAll_stands`: a run leaves a sturdy session after each of its operations.
-/

namespace SymbolGraph.Session

open SymbolGraph.Action SymbolGraph.Agenda SymbolGraph.Discipline

variable {α β : Type} {w : Setting} {p : Program} {s t u : Session}

/-- The session is sturdy, and no record is gone. -/
structure Persists (p : Program) (s t : Session) : Prop where
  sturdy : t.Sturdy p
  size   : s.store.records.size ≤ t.store.records.size

/-- What is sturdy at the end is so also for who came earlier, and no record is gone. -/
theorem Persists.trans (h : Persists p s t) (h' : Persists p t u) : Persists p s u :=
  ⟨h'.sturdy, Nat.le_trans h.size h'.size⟩

/-- Nothing was done, so nothing is gone. -/
theorem Sturdy.stay (h : s.Sturdy p) : Persists p s s := ⟨h, Nat.le_refl _⟩

/-- Where nothing is broken, the session is sturdy and no record is gone. -/
theorem Steadies.persists {apart : SymbolKey → Prop} (h : Steadies p apart s t) : Persists p s t :=
  ⟨h.sturdy, h.size⟩

/-- The store changes, but not its cache. -/
theorem Sturdy.persist (hs : s.Sturdy p) {store : Store} (h : s.store.Maintains store) :
    Persists p s { s with store } :=
  ⟨hs.maintain h, Nat.le_of_eq h.records.size.symm⟩

/-- A record that is held stays held, since none is gone. -/
theorem Holds.persist {id : RecordId} (h : s.Holds id) (hst : Persists p s t) : t.Holds id :=
  Nat.lt_of_lt_of_le h hst.size

namespace Plan

/-! ### Plans -/

section Stands

variable {plan : Plan α} {post post' : α → Session → Prop}

/-- From a sturdy session, each operation of the plan leaves it sturdy. -/
def Stands (p : Program) (plan : Plan α) (s : Session) (post : α → Session → Prop) : Prop :=
  s.Sturdy p → plan.Obeys (fun _ _ t => t.Sturdy p) s (fun a t => Persists p s t ∧ post a t)
    fun _ t => Persists p s t

/-- A plan that stands, stands with less said of its end. -/
theorem Stands.mono (h : Stands p plan s post) (hp : ∀ a t, post a t → post' a t) :
    Stands p plan s post' :=
  fun hs => (h hs).mono (fun a t ht => ⟨ht.1, hp a t ht.2⟩) fun _ _ ht => ht

/-- What a plan does after some operations, seen from where they began. -/
theorem Stands.after (h : Stands p plan t post) (hst : Persists p s t) :
    plan.Obeys (fun _ _ t => t.Sturdy p) t (fun a u => Persists p s u ∧ post a u)
      fun _ u => Persists p s u :=
  (h hst.sturdy).mono (fun _ _ hu => ⟨hst.trans hu.1, hu.2⟩) fun _ _ hu => hst.trans hu

/-- What comes next starts from a sturdy session with the records of the first. -/
theorem Stands.bind {go : α → Plan β} {post' : β → Session → Prop} (h : Stands p plan s post)
    (hgo : ∀ a t, Persists p s t → post a t → Stands p (go a) t post') :
    Stands p (plan >>= go) s post' :=
  fun hs => obeys_bind.mpr ((h hs).mono (fun a t ht => (hgo a t ht.1 ht.2).after ht.1)
    fun _ _ ht => ht)

/-- A plan that has ended leaves a sturdy session as it is. -/
theorem stands_halt {result : Except Fault α} (h : ∀ a, result = .ok a → post a s) :
    Stands p (halt result) s post := by
  intro hs
  cases result with
  | ok a => exact ⟨hs.stay, h a rfl⟩
  | error fault => exact hs.stay

theorem stands_pure {a : α} (h : post a s) : Stands p (pure a) s post :=
  fun hs => ⟨hs.stay, h⟩

/-- A fault leaves a sturdy session as it is. -/
theorem stands_fail {fault : Fault} : Stands p (fail fault : Plan α) s post :=
  fun hs => hs.stay

/-- A plan stands whether its value is looked at or not. -/
theorem Stands.discard {post : Session → Prop} (h : Stands p plan s fun _ t => post t) :
    Stands p (discard plan) s fun _ t => post t :=
  fun hs => obeys_discard.mpr (h hs)

/-- A fault that is caught leaves a sturdy session behind as well. -/
theorem Stands.attempt (h : Stands p plan s post) :
    Stands p plan.attempt s fun result t => ∀ a, result = .ok a → post a t := by
  refine fun hs => obeys_attempt.mpr ((h hs).mono (fun a t ht => ⟨ht.1, ?_⟩)
    fun _ _ ht => ⟨ht, nofun⟩)
  rintro b ⟨⟩
  exact ht.2

/-- Tidying up begins in a sturdy session, so it only has to stand itself. -/
theorem Stands.onFailure {tidy : Plan Unit} (h : Stands p plan s post)
    (htidy : ∀ t, Stands p tidy t fun _ _ => True) : Stands p (plan.onFailure tidy) s post :=
  fun hs => obeys_onFailure.mpr ((h hs).mono (fun _ _ ht => ht)
    fun _ t ht => ((htidy t).after ht).mono (fun _ _ hu => hu.1) fun _ _ hu => hu)

/-- So does what comes last, well or not. -/
theorem Stands.andThen {plan last : Plan Unit} (h : Stands p plan s fun _ _ => True)
    (hlast : ∀ t, Stands p last t fun _ _ => True) :
    Stands p (plan.andThen last) s fun _ _ => True :=
  fun hs => obeys_andThen.mpr ((h hs).mono (fun _ t ht => (hlast t).after ht.1)
    fun _ t ht => ((hlast t).after ht).mono (fun _ _ hu => hu.1) fun _ _ hu => hu)

/-- By induction on the list: every round begins in a sturdy session. -/
theorem Stands.forM {go : α → Plan PUnit} (h : ∀ a t, Stands p (go a) t fun _ _ => True) :
    ∀ (list : List α) (s : Session), Stands p (list.forM go) s fun _ _ => True
  | [], _ => stands_pure trivial
  | a :: rest, s => (h a s).bind fun _ t _ _ => Stands.forM h rest t

/-! ### Operations -/

variable {act : Running α} {mark : Option Milestone}

/-- A single operation stands if a sturdy session is sturdy after it. -/
theorem stands_single (h : s.Sturdy p → Ensures act s (fun a t => Persists p s t ∧ post a t)
    fun _ t => Persists p s t) : Stands p (single mark act) s post :=
  fun hs => obeys_single ((h hs).mono (fun _ _ ht => ⟨ht.1.sturdy, ht⟩)
    fun _ _ ht => ⟨ht.sturdy, ht⟩)

/-- An operation that breaks nothing stands. -/
theorem stands_braces (h : Braces p act s post) : Stands p (single mark act) s post :=
  stands_single fun hs => Ensures.mono (h hs) (fun _ _ ht => ⟨ht.1.persists, ht.2⟩)
    fun _ _ hfault => hfault.2.persists

/-- So does one on the store. -/
theorem stands_store {act : Store.Storing α} {post : α → Store → Prop}
    (h : Store.Braces act s.store post) : Stands p (single mark (liftM act)) s fun _ _ => True :=
  stands_braces ((store_braces h).mono fun _ _ _ => trivial)

/-- The store changes, but not its cache. -/
theorem stands_maintains {act : Store.Storing α} (h : s.store.Sturdy →
    Ensures act s.store (fun _ t => s.store.Maintains t) fun _ t => s.store.Maintains t) :
    Stands p (single mark (liftM act)) s fun _ _ => True :=
  stands_single fun hs => ensures_onPart.mpr ((h hs.store).mono
    (fun _ _ hstore => ⟨hs.persist hstore, trivial⟩) fun _ _ hstore => hs.persist hstore)

/-- Overrides may be asserted, as long as they come from the program. -/
theorem stands_asserts (h : Asserts p act s) :
    Stands p (single mark act) s fun _ _ => True := by
  refine stands_single fun hs => (h hs.symbols).mono (fun _ t ht => ⟨⟨?_, ?_⟩, trivial⟩)
    fun _ _ hfalse => hfalse.elim
  all_goals obtain ⟨⟨hstore, hfounded⟩, -⟩ := ht
  · exact ⟨hstore ▸ hs.store, hstore ▸ hs.cached, hstore ▸ hs.locals, hfounded⟩
  · rw [hstore]

end Stands

/-! ### Making a record -/

variable {find : Finder} {symbol : SymbolRef} {location : Option NodeId} {id : RecordId}

/-- A finder that leaves sturdy sessions, and finds records. -/
def Finder.Stands (p : Program) (find : Finder) : Prop :=
  ∀ symbol location s, Plan.Stands p (find symbol location) s fun id t => t.Holds id

/-- By induction on the methods: the records that were found are held to the end, also past a circle
that was skipped. -/
theorem resolveBases_stands (h : find.Stands p) : ∀ (bases : List SymbolRef) (s : Session),
    Stands p (resolveBases find bases) s fun ids t => ∀ id ∈ ids, t.Holds id
  | [], _ => stands_pure nofun
  | base :: bases, s => by
      refine (h base none s).attempt.bind fun result t _ hfound => ?_
      cases result with
      | ok id =>
          refine (resolveBases_stands h bases t).bind fun ids u htu hids => stands_pure ?_
          intro other hother
          rcases List.mem_cons.mp hother with rfl | hother
          · exact (hfound other rfl).persist htu
          · exact hids other hother
      | error fault =>
          cases fault with
          | cyclicResolution => exact resolveBases_stands h bases t
          | _ => exact stands_fail

/-- By induction on the types: the records of properties are held to the end. -/
theorem resolveProperties_stands (h : find.Stands p) {name : String} {node : NodeId} :
    ∀ (types : List TypeRef) (known : List RecordId) (s : Session), (∀ id ∈ known, s.Holds id) →
      Stands p (resolveProperties w find name node known types) s
        fun ids t => ∀ id ∈ ids, t.Holds id
  | [], _, _, hknown => stands_pure hknown
  | type :: types, known, s, hknown => by
      unfold resolveProperties
      cases w.program.propertyOf type name with
      | none => exact resolveProperties_stands h types known s hknown
      | some property =>
          refine (h property (some node) s).bind fun id t hst hid =>
            resolveProperties_stands h types _ t fun other hother => ?_
          split at hother
          · exact (hknown other hother).persist hst
          · rcases List.mem_append.mp hother with hother | hother
            · exact (hknown other hother).persist hst
            · exact List.mem_singleton.mp hother ▸ hid

/-- The records of overridden methods are held, so the method overrides records that there are. -/
theorem methodKind_stands (h : find.Stands w.program) (site : Option NodeId)
    (bases : List SymbolRef) : Stands w.program (methodKind w find symbol site bases) s
      fun kind t => t.Fits .method kind := by
  cases site with
  | none => exact stands_pure ⟨nofun, nofun⟩
  | some node =>
      refine (resolveBases_stands h _ s).bind fun ids u _ hids => stands_pure ⟨?_, nofun⟩
      intro links hlinks
      cases ids with
      | nil => cases hlinks
      | cons first rest =>
          cases hlinks
          exact hids

/-- **The kind of a record**: what it passes on to is there. -/
theorem recordKind_stands (h : find.Stands w.program) {declarations : List NodeId} :
    Stands w.program
      (recordKind w find (w.program.resolution symbol location) symbol location declarations) s
      fun kind t => t.Fits (w.program.resolution symbol location) kind := by
  unfold recordKind
  dsimp only
  cases w.program.resolution symbol location with
  | standard => exact stands_pure ⟨nofun, nofun⟩
  | typeAlias => exact stands_pure ⟨nofun, nofun⟩
  | transient => exact stands_pure ⟨nofun, fun _ => rfl⟩
  | ofAlias =>
      dsimp only
      cases w.program.aliasedSymbol symbol with
      | none => exact stands_pure ⟨nofun, nofun⟩
      | some target =>
          refine (h target none s).bind fun id t _ hid => stands_pure ⟨?_, nofun⟩
          intro links hlinks
          cases hlinks
          exact fun other hother => List.mem_singleton.mp hother ▸ hid
  | method =>
      dsimp only
      cases w.program.parentSymbol symbol with
      | none => exact methodKind_stands h _ []
      | some parent =>
          exact (stands_braces (symbols_braces Symbols.findBaseMembers_grounds
            Symbols.findBaseMembers_asks)).bind fun found t _ _ => methodKind_stands h _ _
  | composite =>
      dsimp only
      cases location with
      | none => exact stands_pure ⟨nofun, fun _ => rfl⟩
      | some node =>
          refine (resolveProperties_stands h _ [] s nofun).bind fun ids t _ hids =>
            stands_pure ⟨fun links hlinks => ?_, fun _ => rfl⟩
          cases hlinks
          exact hids

/-- A definition is emitted for a record that is held; nothing of it is reserved. -/
theorem emitDefinition_stands {resolution : Resolution} {declaration : NodeId} :
    Stands p (emitDefinition w resolution id symbol declaration) s fun _ _ => True := by
  unfold emitDefinition
  dsimp only
  split
  · exact stands_pure trivial
  · refine (stands_store Store.hasInfo_braces).bind fun known t _ _ => ?_
    split
    · exact stands_pure trivial
    · refine (stands_braces lineRange_braces).bind fun _ _ _ _ => ?_
      refine (stands_braces lineRange_braces).bind fun _ _ _ _ => ?_
      refine (stands_braces vertex_braces).bind fun _ _ _ _ => ?_
      refine (stands_store Store.addRange_braces).bind fun _ _ _ _ => ?_
      refine (stands_braces (modify_braces rfl rfl)).bind fun _ _ _ _ => ?_
      refine (stands_store Store.addInfo_braces).bind fun _ _ _ _ => ?_
      exact stands_store Store.addDefinition_braces

/-- Each of the declarations is emitted in a sturdy session. -/
theorem emitDefinitions_stands {resolution : Resolution} {declarations : List NodeId} :
    Stands p (emitDefinitions w resolution id symbol declarations) s fun _ _ => True := by
  refine (stands_store Store.record_braces).bind fun r t _ _ => ?_
  split
  · exact Stands.forM (fun _ _ => emitDefinition_stands) _ t
  · exact stands_pure trivial

/-- A hover text concerns the record alone. -/
theorem emitHover_stands {declarations : List NodeId} :
    Stands p (emitHover w id declarations) s fun _ _ => True := by
  unfold emitHover
  split
  · exact stands_pure trivial
  · exact (stands_braces vertex_braces).bind fun _ _ _ _ =>
      stands_store Store.addHover_braces

/-- Monikers concern the record alone. -/
theorem emitMonikers_stands {files : List FileId} {kind : LocationKind} {exportPath : String} :
    Stands p (emitMonikers w id files kind exportPath) s fun _ _ => True := by
  have hlast (t : Session) (moniker : ElementId) :
      Stands p (take (Store.addMoniker id moniker)) t fun _ _ => True :=
    stands_store Store.addMoniker_braces
  refine (stands_braces vertex_braces).bind fun moniker t _ _ => ?_
  split
  · split
    · refine (stands_braces vertex_braces).bind fun _ _ _ _ => ?_
      exact (stands_braces link_braces).bind fun _ u _ _ => hlast u moniker.id
    · exact hlast t moniker.id
  · exact hlast t moniker.id

/-- Whether there is an export path or not, the session stays sturdy. -/
theorem emitExported_stands {resolution : Resolution} {declarations : List NodeId}
    {exportPath : Option String} :
    Stands p (emitExported w resolution id declarations exportPath) s fun _ _ => True := by
  unfold emitExported
  dsimp only
  split
  · split
    · exact emitMonikers_stands
    · exact stands_pure trivial
  · exact stands_pure trivial

/-- What is known of a record besides its definitions is emitted in a sturdy session. -/
theorem emitExtras_stands {resolution : Resolution} {declarations : List NodeId}
    {exportPath : Option String} :
    Stands p (emitExtras w resolution id declarations exportPath) s fun _ _ => True := by
  unfold emitExtras
  dsimp only
  split
  · exact emitHover_stands.bind fun _ _ _ _ => emitExported_stands
  · exact emitExported_stands

theorem describe_stands {resolution : Resolution} {declarations : List NodeId}
    {exportPath : Option String} :
    Stands p (describe w resolution id symbol declarations exportPath) s fun _ _ => True :=
  emitDefinitions_stands.bind fun _ _ _ _ => emitExtras_stands

/-- The session is sturdy after each operation of what is emitted for a new record. -/
theorem announce_stands {resolution : Resolution} {declarations : List NodeId}
    {scope : Option NodeId} {exportPath : Option String} :
    Stands p (announce w resolution id symbol declarations scope exportPath) s
      fun _ _ => True := by
  cases scope with
  | none => exact describe_stands
  | some node => exact (stands_store Store.watch_braces).bind fun _ _ _ _ => describe_stands

/-- A record is stored that passes on to records that are there. -/
theorem insert_stands {key : SymbolKey} {kind : RecordKind} {scope : Option NodeId}
    (hlinks : ∀ ids, kind.passesTo = some ids → ∀ id ∈ ids, s.Holds id)
    (hscope : ∀ node, scope = some node →
      ∃ symbol, p.key symbol = key ∧ scopeOf p symbol (p.declarations symbol) = some node) :
    Stands p (take (Store.insert w { key, kind, scope })) s fun id t => t.Holds id := by
  refine stands_single fun hs => ensures_onPart.mpr ((Store.insert_braces hs.store hlinks).mono
    (fun id store hstore => ?_) fun fault store hstore => ?_)
  · obtain ⟨rfl, hstore⟩ := hstore
    obtain ⟨hpushed, hlive⟩ := hs.push hscope hstore
    exact ⟨hpushed.persists, hpushed.sturdy.cached _ _ hlive⟩
  · exact (hs.push hscope hstore.2).1.persists

/-- A record is made of what its kind needs, and is held from then on. -/
theorem create_stands (h : find.Stands w.program) :
    Stands w.program (create w find symbol location) s fun id t => t.Holds id := by
  unfold create
  dsimp only
  have hhalt : Stands w.program
      (halt ((w.program.resolution symbol location).declarations w.program symbol location)) s
      fun declarations _ => (w.program.resolution symbol location).declarations w.program symbol
        location = .ok declarations :=
    stands_halt fun _ hok => hok
  refine hhalt.bind fun declarations t _ hdeclarations => ?_
  refine (stands_braces (symbols_braces Symbols.exportPath_grounds
    (Symbols.exportPath_asks.mono fun _ _ _ => trivial))).bind fun path u _ _ => ?_
  refine (recordKind_stands h).bind fun kind v _ hfits => ?_
  have hlocal (node : NodeId) (hnode : (if !kind.acceptsDefinitions || path.isSome then none
      else scopeOf w.program symbol declarations) = some node) :
      ∃ other, w.program.key other = w.program.key symbol ∧
        scopeOf w.program other (w.program.declarations other) = some node :=
    ⟨symbol, rfl, scopeOf_declarations hdeclarations hfits.met hnode⟩
  refine (insert_stands hfits.links hlocal).bind fun id x _ hid => ?_
  exact announce_stands.bind fun _ y hxy _ => stands_pure (hid.persist hxy)

/-- A record that is found is held. -/
theorem lookup_stands {key : SymbolKey} : Stands p (take (Store.lookup key)) s
    fun found t => ∀ id, found = some id → t.Holds id := by
  refine stands_single fun hs => lookup_slots (fun _ => ⟨hs.stay, nofun⟩) (fun id hslot => ?_)
    (fun _ => hs.stay) fun _ => hs.stay
  refine ⟨hs.stay, ?_⟩
  rintro other ⟨⟩
  exact hs.cached _ id hslot

/-- Reserving a key breaks nothing. -/
theorem reserve_stands {key : SymbolKey} :
    Stands p (take (Store.reserve key)) s fun _ _ => True :=
  stands_single fun hs => ensures_onPart.mpr (ensures_modify.mpr
    ⟨⟨hs.reserve key, Nat.le_refl _⟩, trivial⟩)

/-- Nor does giving it up. -/
theorem abandon_stands {key : SymbolKey} :
    Stands p (take (Store.abandon key)) s fun _ _ => True := by
  refine stands_single fun hs => ensures_onPart.mpr (ensures_modify.mpr ⟨?_, trivial⟩)
  split
  · exact ⟨hs.forget key, Nat.le_refl _⟩
  · exact hs.stay

/-- **Looking for a record**, one level after the other. -/
theorem resolveWithin_stands (fuel : Nat) : (resolveWithin w fuel).Stands w.program := by
  induction fuel with
  | zero => exact fun _ _ _ => stands_fail
  | succ fuel ih =>
      intro symbol location s
      unfold resolveWithin
      dsimp only
      refine lookup_stands.bind fun found t _ hfound => ?_
      cases found with
      | some id => exact stands_pure (hfound id rfl)
      | none => exact reserve_stands.bind fun _ _ _ _ =>
          (create_stands ih).onFailure fun _ => abandon_stands

/-- A record is found or made within the bound, and is held from then on. -/
theorem resolve_stands : Stands w.program (resolve w symbol location) s fun id t => t.Holds id :=
  resolveWithin_stands _ symbol location s

/-! ### Walking -/

variable {walk : Plan Unit} {node : NodeId} {mark : Option Milestone}

/-- Overrides that are released leave a sturdy session. -/
theorem underOverrides_stands {overrides : List Override} (h : Stands p walk s fun _ _ => True) :
    Stands p (underOverrides overrides walk) s fun _ _ => True :=
  h.andThen fun t => Stands.forM (fun _ _ => stands_asserts (symbols_asserts
    Symbols.release_grounds)) _ t

/-- A container that is closed leaves a sturdy session. -/
theorem insideContainer_stands {file : FileId} (h : Stands p walk s fun _ _ => True) :
    Stands p (insideContainer w file walk) s fun _ _ => True :=
  h.andThen fun _ => stands_maintains fun ht =>
    (Store.endContainer_braces ht).mono (fun _ _ hstore => hstore.1) fun _ _ hfault => hfault.1

/-- The overrides of a file come from the program, so it is walked in a sturdy session. -/
theorem insideSourceFile_stands (hkind : w.program.kind node = .sourceFile)
    (hwalk : ∀ t, Stands w.program walk t fun _ _ => True) :
    Stands w.program (insideSourceFile w node walk) s fun _ _ => True := by
  have hdocument : Braces w.program
      (discard (Store.document w (w.program.fileOf node) : Running Document)) s fun _ _ => True :=
    ((store_braces Store.document_braces).mono fun _ _ _ => trivial).discard
  unfold insideSourceFile
  dsimp only
  refine (stands_braces hdocument).bind fun _ t _ _ => ?_
  cases hmodule : w.program.fileSymbol (w.program.fileOf node) with
  | none => exact hwalk t
  | some module =>
      refine (stands_asserts (exportTargets_asserts hkind hmodule)).bind
        fun overrides u _ _ => underOverrides_stands ?_
      exact (Stands.discard (resolve_stands.mono fun _ _ _ => trivial)).bind fun _ v _ _ => hwalk v

/-- An identifier is recorded with the record of its symbol, which is held. -/
theorem visitIdentifier_stands : Stands w.program (visitIdentifier w node) s fun _ _ => True := by
  unfold visitIdentifier
  dsimp only
  split
  · exact stands_pure trivial
  · refine resolve_stands.bind fun id _ _ _ => ?_
    refine (stands_store Store.hasInfo_braces).bind fun known _ _ _ => ?_
    split
    · exact stands_pure trivial
    · refine (stands_braces lineRange_braces).bind fun _ _ _ _ => ?_
      refine (stands_braces vertex_braces).bind fun _ _ _ _ => ?_
      refine (stands_store Store.addRange_braces).bind fun _ _ _ _ => ?_
      refine (stands_store Store.resultSet_braces).bind fun _ _ _ _ => ?_
      refine (stands_braces link_braces).bind fun _ _ _ _ => ?_
      exact stands_store Store.addReference_braces

/-- The body of a declaration, inside a container for the range of its name. -/
theorem insideNamed_stands {name : NodeId} {file : FileId}
    (hwalk : ∀ t, Stands w.program walk t fun _ _ => True) :
    Stands w.program (insideNamed w file name walk) s fun _ _ => True := by
  have hrange : Braces w.program (definitionRange name) s fun _ _ => True :=
    follows_get (follows_pure trivial)
  refine (stands_braces hrange).bind fun found t _ _ => ?_
  cases found with
  | none => exact hwalk t
  | some range =>
      refine (stands_maintains fun ht => (Store.beginContainer_braces ht).mono
        (fun _ _ hstore => hstore.1) fun _ _ hfault => hfault.2).bind fun _ u _ _ => ?_
      exact insideContainer_stands (hwalk u)

/-- A declaration is walked in a sturdy session, inside a document symbol or not. -/
theorem insideDocumentSymbol_stands (hwalk : ∀ t, Stands w.program walk t fun _ _ => True) :
    Stands w.program (insideDocumentSymbol w node walk) s fun _ _ => True := by
  unfold insideDocumentSymbol
  cases w.program.nameOf node with
  | none => exact hwalk s
  | some name =>
      dsimp only
      cases w.program.symbolAt name with
      | none => exact insideNamed_stands hwalk
      | some symbol =>
          exact (Stands.discard (resolve_stands.mono fun _ _ _ => trivial)).bind
            fun _ _ _ _ => insideNamed_stands hwalk

/-- By cases of the node: what comes before its children leaves a sturdy session. -/
theorem inside_stands (hwalk : ∀ t, Stands w.program walk t fun _ _ => True) :
    Stands w.program (inside w node walk) s fun _ _ => True := by
  unfold inside
  split
  · rename_i hkind
    exact insideSourceFile_stands hkind hwalk
  · have harrives : Stands w.program (single (some (.identifier node)) (pure () : Running Unit)) s
        fun _ _ => True := stands_single fun hs => ⟨hs.stay, trivial⟩
    exact harrives.bind fun _ _ _ _ => visitIdentifier_stands.bind fun _ t _ _ => hwalk t
  · rename_i hkind
    exact (stands_asserts (assertForwards_asserts hkind)).bind fun _ t _ _ =>
      underOverrides_stands (insideDocumentSymbol_stands hwalk)
  · split
    · exact insideDocumentSymbol_stands hwalk
    · exact hwalk s

/-- A node that is left closes records and breaks none. -/
theorem nodeProcessed_stands :
    Stands w.program (single mark (Store.nodeProcessed w node : Running Unit)) s
      fun _ _ => True := by
  have hclears (hs : s.Sturdy w.program) {store : Store} (h : s.store.Clears node store) :
      Persists w.program s { s with store } :=
    ⟨hs.clear h, Nat.le_of_eq h.records.size.symm⟩
  exact stands_single fun hs => ensures_onPart.mpr ((Store.nodeProcessed_clears hs.store).mono
    (fun _ _ hstore => ⟨hclears hs hstore.1, trivial⟩) fun _ _ hfault => hclears hs hfault.2)

/-- A file that is left is closed, and its symbols are forgotten. -/
theorem leave_stands : Stands w.program (leave w node) s fun _ _ => True := by
  refine nodeProcessed_stands.bind fun _ t _ _ => ?_
  split
  · refine (stands_maintains fun ht => (Store.endDocument_concludes ht).mono
      (fun _ _ hstore => hstore.1.1) fun _ _ hfault => hfault.1).bind fun _ u _ _ => ?_
    exact stands_braces (modify_braces rfl rfl)
  · exact stands_pure trivial

/-- By induction on the depth, a node and what is below it are walked in a sturdy session. -/
theorem visitWithin_stands (fuel : Nat) : ∀ (node : NodeId) (s : Session),
    Stands w.program (visitWithin w fuel node) s fun _ _ => True := by
  induction fuel with
  | zero => exact fun _ _ => stands_fail
  | succ fuel ih =>
      intro node s
      exact (inside_stands fun t => Stands.forM ih _ t).bind fun _ _ _ _ => leave_stands

/-- **Every operation of a run leaves a sturdy session.** -/
theorem walkAll_stands : Stands w.program (walkAll w) s fun _ _ => True := by
  refine (Stands.forM (fun _ t => visitWithin_stands _ _ t) _ s).bind fun _ t _ _ => ?_
  refine (stands_maintains fun ht => (Store.projectProcessed_concludes ht).mono
    (fun _ _ hstore => hstore.1.1) fun _ _ hfault => hfault.1).bind fun _ u _ _ => ?_
  refine (stands_store (Store.emission_braces (Graph.flush_faults _))).bind fun _ v _ _ => ?_
  have hget : Stands w.program (take get) v fun _ _ => True :=
    stands_single fun hv => ⟨hv.stay, trivial⟩
  exact hget.bind fun _ _ _ _ => stands_pure trivial

end Plan

end SymbolGraph.Session
