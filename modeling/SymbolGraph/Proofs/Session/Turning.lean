import SymbolGraph.Proofs.Session.Identity
import SymbolGraph.Proofs.Session.Plan
import SymbolGraph.Proofs.Store.Watching

/-!
# Proofs — Session — the steps of a run

Every operation of a run turns the store in one of a few ways, over any sink and however it ends: it
edits, deals with the reservation of a key, admits a record whose key is reserved, closes what the
walk has left, or ends a file or the project.  What is reserved stays so until its own record is
admitted, also while the records that it needs are made; and when the walk leaves a file, nothing is
left open for it.

* `Session.Turns`: one operation.
* `Session.Bears`: what is kept from one operation to the next.
* `Session.Plan.resolve_bearing`: looking for records.
* `Session.Plan.visitWithin_strides`: walking a tree.
* `Session.Plan.walkAll_turns`: every operation of a run is a step.
* `Run.stops_keep`, `Run.stops_pairwise`: what the steps keep and relate, throughout a run.
-/

namespace SymbolGraph.Session

open SymbolGraph.Action SymbolGraph.Agenda

variable {α : Type} {w : Setting} {kept more : SymbolKey → Prop} {s t u : Session}

/-! ### Steps -/

/-- One operation of a run. -/
inductive Turns (w : Setting) : Option Milestone → Session → Session → Prop
  /-- The store is edited. -/
  | edits {s t : Session} : Store.Edited w s.store t.store → Turns w none s t
  /-- A key that is not known is reserved. -/
  | reserves {s : Session} {key : SymbolKey} : s.store.cache.get? key = none →
      Turns w none s
        { s with store := { s.store with cache := s.store.cache.insert key .resolving } }
  /-- A reservation is given up. -/
  | abandons {s : Session} {key : SymbolKey} : s.store.cache.get? key = some .resolving →
      Turns w none s { s with store := { s.store with cache := s.store.cache.erase key } }
  /-- A record whose key is reserved is stored open. -/
  | admits {s t : Session} {key : SymbolKey} {kind : RecordKind} {scope : Option NodeId}
      {hub : VertexRef} {admitted : Store} : s.store.cache.get? key = some .resolving →
      s.store.Admits key kind scope hub admitted → Store.Edited w admitted t.store →
      Turns w none s t
  /-- A record whose key is reserved is stored, but the sink refused its result set. -/
  | refuses {s t : Session} {key : SymbolKey} {kind : RecordKind} {scope : Option NodeId} :
      s.store.cache.get? key = some .resolving → s.store.Refuses key kind scope t.store →
      Turns w none s t
  /-- The walk has come to an identifier. -/
  | arrives {s : Session} {node : NodeId} : Turns w (some (.identifier node)) s s
  /-- The walk leaves a node. -/
  | leaves {s t : Session} {node : NodeId} : Store.Departed w (some node) s.store t.store →
      Turns w (some (.node node)) s t
  /-- The walk leaves a file: its document ends, and nothing is left open for it. -/
  | ends {s t : Session} {file : FileId} : Store.Edited w s.store t.store →
      t.store.documents.get? file = some .cleared →
      (w.program.Rooted → t.store.Flushed w file) → Turns w (some (.file file)) s t
  /-- The project ends. -/
  | concludes {s t : Session} : Store.Departed w none s.store t.store →
      Turns w (some .project) s t

/-- Who is watched stays so, documents stay known, and keys stay reserved if they are to be kept. -/
structure Bears (w : Setting) (kept : SymbolKey → Prop) (s t : Session) : Prop where
  watched    : s.store.Watched w → t.store.Watched w
  documented : ∀ file, s.store.documents.get? file ≠ none → t.store.documents.get? file ≠ none
  resolving  : ∀ key, kept key → s.store.cache.get? key = some .resolving →
    t.store.cache.get? key = some .resolving

instance : IsPreorder Session (Bears w kept) where
  refl _ := ⟨fun h => h, fun _ h => h, fun _ _ h => h⟩
  trans _ _ _ h h' := ⟨fun hs => h'.watched (h.watched hs),
    fun file hfile => h'.documented file (h.documented file hfile),
    fun key hkey hslot => h'.resolving key hkey (h.resolving key hkey hslot)⟩

/-- Fewer keys may be asked to be kept. -/
theorem Bears.mono (h : Bears w more s t) (himp : ∀ key, kept key → more key) : Bears w kept s t :=
  ⟨h.watched, h.documented, fun key hkey => h.resolving key (himp key hkey)⟩

/-- Edits bear, since they leave the cache alone. -/
theorem bears_of_edited (h : Store.Edited w s.store t.store) : Bears w kept s t :=
  ⟨h.watched, fun _ => h.documented, fun _ _ hslot => h.cache ▸ hslot⟩

/-- The cache changes at one key. -/
theorem bears_cache {cache : Table SymbolKey CacheSlot}
    (h : ∀ key, kept key → s.store.cache.get? key = some .resolving →
      cache.get? key = some .resolving) :
    Bears w kept s { s with store := { s.store with cache } } :=
  ⟨fun hs => hs.congr rfl rfl, fun _ hfile => hfile, h⟩

/-- A record is stored and its own key is reserved no more. -/
theorem bears_of_pushed {key : SymbolKey} {fresh : Record} {graph : Graph} {store : Store}
    (hkey : fresh.key = key) (hwatched : s.store.Watched w → store.Watched w)
    (hstore : store = { s.store.pushed fresh with graph }) :
    Bears w (· ≠ key) s { s with store } := by
  subst hkey hstore
  exact ⟨hwatched, fun _ hfile => hfile,
    fun other hne hslot => (Store.get?_insert_of_ne _ other hne).trans hslot⟩

/-! ### Operations -/

namespace Plan

/-- From wherever it starts and however it ends, a plan takes steps, and what is reserved stays
reserved. -/
abbrev Bearing (w : Setting) (plan : Plan α) : Prop :=
  plan.Upholds (Turns w) (Bears w fun _ => True)

/-- An operation that edits the store. -/
theorem bearing_of_edits {act : Running α}
    (h : Stays (fun s t => Store.Edited w s.store t.store) act) : (take act).Bearing w :=
  upholds_single (h.mono fun _ _ hst => ⟨.edits hst, bears_of_edited hst⟩)

/-- What a store does by edits, its session does. -/
theorem stays_edited {act : Store.Storing α} {post : Store → α → Store → Prop}
    (h : ∀ s, Store.Handles w act s (post s)) :
    Stays (fun s t => Store.Edited w s.store t.store) (liftM act : Running α) :=
  (Store.stays_of_handles h).onPart fun _ _ hst => hst

/-- A single operation that edits the store bears. -/
theorem edit_bearing {act : Store.Storing α} {post : Store → α → Store → Prop}
    (h : ∀ s, Store.Handles w act s (post s)) : (take (liftM act)).Bearing w :=
  bearing_of_edits (stays_edited h)

/-- So does one that emits elements which list nothing. -/
theorem emit_bearing {act : Emission α} (h : Stays Graph.GrowsPlainly act) :
    (take (emit act)).Bearing w :=
  edit_bearing fun _ => Store.emission_handles h

/-- A link lists nothing. -/
theorem link_bearing {kind : LinkKind} {source target : ElementId} :
    (take (discard (emit (Graph.link kind source target)))).Bearing w :=
  bearing_of_edits (Stays.discard (stays_edited fun _ =>
    Store.emission_handles (Graph.link_grows kind source target)))

/-- The store has no part in an operation. -/
def Beside (s t : Session) : Prop := t.store = s.store

instance : IsPreorder Session Beside where
  refl _ := rfl
  trans _ _ _ h h' := Eq.trans h' h

/-- What happens beside the store bears. -/
theorem beside_bearing {act : Running α} (h : Stays Beside act) : (take act).Bearing w :=
  bearing_of_edits (h.mono fun _ _ hst => hst ▸ .refl)

/-- So does a change beside the store. -/
theorem modify_bearing {f : Session → Session} (h : ∀ s, Beside s (f s)) :
    (take (modify f)).Bearing w :=
  beside_bearing (stays_modify h)

/-- What is known of symbols stands beside the store. -/
theorem symbols_bearing {act : StateM Symbols α} : (take (liftM act)).Bearing w :=
  beside_bearing (stays_onPartSafely fun _ _ => rfl)

/-- Reading off a range may need its document, and so edits. -/
theorem lineRange_bearing {file : FileId} {range : TextRange} :
    (take (lineRange w file range)).Bearing w := by
  have hindex : Stays Beside (lineIndex w file) := by
    refine Stays.bind stays_get fun s => ?_
    cases s.lineIndexes.get? file with
    | some index => exact stays_pure
    | none => exact Stays.bind (stays_modify fun _ => rfl) fun _ => stays_pure
  exact beside_bearing (Stays.bind hindex fun _ => stays_pure)

/-! ### Making a record -/

variable {find : Finder}

/-- By induction on the methods: looking for each of them bears, and a circle is skipped. -/
theorem resolveBases_bearing (h : ∀ symbol location, (find symbol location).Bearing w)
    (bases : List SymbolRef) : (resolveBases find bases).Bearing w := by
  induction bases with
  | nil => exact upholds_pure
  | cons base bases ih =>
      refine (h base none).attempt.bind fun result => ?_
      cases result with
      | ok id => exact ih.bind fun _ => upholds_pure
      | error fault =>
          cases fault with
          | cyclicResolution => exact ih
          | _ => exact upholds_fail

/-- By induction on the types: looking for each property bears. -/
theorem resolveProperties_bearing (h : ∀ symbol location, (find symbol location).Bearing w)
    (name : String) (location : NodeId) (types : List TypeRef) : ∀ known,
      (resolveProperties w find name location known types).Bearing w := by
  induction types with
  | nil => exact fun _ => upholds_pure
  | cons type types ih =>
      intro known
      unfold resolveProperties
      cases w.program.propertyOf type name with
      | none => exact ih known
      | some property => exact (h property _).bind fun _ => ih _

/-- The kind of a method, once the members it overrides are known. -/
theorem methodKind_bearing (h : ∀ symbol location, (find symbol location).Bearing w)
    (symbol : SymbolRef) (site : Option NodeId) (bases : List SymbolRef) :
    (methodKind w find symbol site bases).Bearing w := by
  cases site with
  | none => exact upholds_pure
  | some node => exact (resolveBases_bearing h _).bind fun _ => upholds_pure

/-- By cases of the resolution: a kind needs no more than looking for other records. -/
theorem recordKind_bearing (h : ∀ symbol location, (find symbol location).Bearing w)
    (resolution : Resolution) (symbol : SymbolRef) (location : Option NodeId)
    (declarations : List NodeId) :
    (recordKind w find resolution symbol location declarations).Bearing w := by
  have hmethod := methodKind_bearing h symbol (declarations.head?.or location)
  cases resolution with
  | standard => exact upholds_pure
  | typeAlias => exact upholds_pure
  | transient => exact upholds_pure
  | ofAlias =>
      unfold recordKind
      dsimp only
      cases w.program.aliasedSymbol symbol with
      | none => exact upholds_pure
      | some target => exact (h target none).bind fun _ => upholds_pure
  | method =>
      unfold recordKind
      dsimp only
      cases w.program.parentSymbol symbol with
      | none => exact upholds_pure.bind hmethod
      | some parent => exact symbols_bearing.bind fun _ => upholds_pure.bind hmethod
  | composite =>
      unfold recordKind
      dsimp only
      cases location with
      | none => exact upholds_pure
      | some node => exact (resolveProperties_bearing h _ _ _ _).bind fun _ => upholds_pure

/-- A definition range is emitted and collected by edits. -/
theorem emitDefinition_bearing (resolution : Resolution) (id : RecordId) (symbol : SymbolRef)
    (declaration : NodeId) : (emitDefinition w resolution id symbol declaration).Bearing w := by
  unfold emitDefinition
  dsimp only
  cases resolution.identifierOf w.program symbol declaration with
  | none => exact upholds_pure
  | some found =>
      refine (edit_bearing fun _ => Store.hasInfo_handles).bind fun known => ?_
      cases known with
      | true => exact upholds_pure
      | false =>
          refine lineRange_bearing.bind fun _ => lineRange_bearing.bind fun _ => ?_
          refine (emit_bearing (Graph.vertex_stays _)).bind fun range => ?_
          refine (edit_bearing fun _ => Store.addRange_handles).bind fun _ => ?_
          refine Upholds.bind (modify_bearing ?_) fun _ => ?_
          · exact fun _ => rfl
          refine (edit_bearing fun _ => Store.addInfo_handles).bind fun _ => ?_
          exact edit_bearing fun _ => Store.addDefinition_handles

/-- So are those of all declarations. -/
theorem emitDefinitions_bearing (resolution : Resolution) (id : RecordId) (symbol : SymbolRef)
    (declarations : List NodeId) :
    (emitDefinitions w resolution id symbol declarations).Bearing w := by
  refine (edit_bearing fun _ => Store.record_handles).bind fun record => ?_
  split
  · exact .forM _ (emitDefinition_bearing resolution id symbol)
  · exact upholds_pure

/-- A hover text and its link are edits. -/
theorem emitHover_bearing (id : RecordId) (declarations : List NodeId) :
    (emitHover w id declarations).Bearing w := by
  unfold emitHover
  cases hoverText w.program declarations with
  | none => exact upholds_pure
  | some contents =>
      exact (emit_bearing (Graph.vertex_stays _)).bind fun _ =>
        edit_bearing fun _ => Store.addHover_handles

/-- Monikers and their links are edits. -/
theorem emitMonikers_bearing (id : RecordId) (files : List FileId) (kind : LocationKind)
    (exportPath : String) : (emitMonikers w id files kind exportPath).Bearing w := by
  have hadd (moniker : VertexRef) : (take (Store.addMoniker id moniker.id)).Bearing w :=
    edit_bearing fun _ => Store.addMoniker_handles
  refine (emit_bearing (Graph.vertex_stays _)).bind fun moniker => ?_
  cases w.linker with
  | none => exact hadd moniker
  | some linker =>
      dsimp only
      cases linker.link _ with
      | none => exact hadd moniker
      | some linked =>
          refine (emit_bearing (Graph.vertex_stays _)).bind fun attached => ?_
          exact link_bearing.bind fun _ => hadd moniker

/-- With or without an export path, there are only edits. -/
theorem emitExported_bearing (resolution : Resolution) (id : RecordId)
    (declarations : List NodeId) (exportPath : Option String) :
    (emitExported w resolution id declarations exportPath).Bearing w := by
  unfold emitExported
  dsimp only
  split
  · split
    · exact emitMonikers_bearing id _ _ _
    · exact upholds_pure
  · exact upholds_pure

/-- Everything that is known of a record besides its definitions comes by edits. -/
theorem emitExtras_bearing (resolution : Resolution) (id : RecordId) (declarations : List NodeId)
    (exportPath : Option String) :
    (emitExtras w resolution id declarations exportPath).Bearing w := by
  unfold emitExtras
  dsimp only
  split
  · exact (emitHover_bearing id declarations).bind fun _ => emitExported_bearing _ _ _ _
  · exact emitExported_bearing _ _ _ _

theorem describe_bearing (resolution : Resolution) (id : RecordId) (symbol : SymbolRef)
    (declarations : List NodeId) (exportPath : Option String) :
    (describe w resolution id symbol declarations exportPath).Bearing w :=
  (emitDefinitions_bearing _ _ _ _).bind fun _ => emitExtras_bearing _ _ _ _

/-- Everything that is emitted for a new record edits the store. -/
theorem announce_bearing (resolution : Resolution) (id : RecordId) (symbol : SymbolRef)
    (declarations : List NodeId) (scope : Option NodeId) (exportPath : Option String) :
    (announce w resolution id symbol declarations scope exportPath).Bearing w := by
  cases scope with
  | none => exact describe_bearing _ _ _ _ _
  | some node =>
      exact (edit_bearing fun _ => Store.watch_handles).bind fun _ => describe_bearing _ _ _ _ _

/-- A record whose key is reserved is stored. -/
theorem insert_obeys {key : SymbolKey} {kind : RecordKind} {scope : Option NodeId}
    (hkey : s.store.cache.get? key = some .resolving) :
    (take (Store.insert w { key, kind, scope } : Running RecordId)).Obeys (Turns w) s
      (fun _ t => Bears w (· ≠ key) s t) fun _ t => Bears w (· ≠ key) s t := by
  have hadmits {t : Store} (h : ∃ hub u, s.store.Admits key kind scope hub u ∧ Store.Edited w u t) :
      Turns w none s { s with store := t } ∧ Bears w (· ≠ key) s { s with store := t } := by
    obtain ⟨hub, u, hu, hut⟩ := h
    refine ⟨.admits hkey hu hut, trans_of (Bears w (· ≠ key)) (b := { s with store := u }) ?_ ?_⟩
    · exact bears_of_pushed rfl hu.watched hu.store
    · exact bears_of_edited hut
  refine obeys_single (ensures_onPart.mpr ((Store.insert_admits key kind scope s.store).mono
    (fun id t ht => hadmits ht.2) fun _ t ht => ?_))
  rcases ht with hadmitted | hrefused
  · exact hadmits hadmitted
  · exact ⟨.refuses hkey hrefused, bears_of_pushed rfl hrefused.watched hrefused.store⟩

/-- **A record is made.**  What else is reserved stays so, while the records that it needs are made
and however it ends. -/
theorem create_obeys (hfind : ∀ symbol location, (find symbol location).Bearing w)
    (symbol : SymbolRef) (location : Option NodeId)
    (hkey : s.store.cache.get? (w.program.key symbol) = some .resolving) :
    (create w find symbol location).Obeys (Turns w) s
      (fun _ t => Bears w (· ≠ w.program.key symbol) s t)
      fun _ t => Bears w (· ≠ w.program.key symbol) s t := by
  have hweaken {a b : Session} (h : Bears w (fun _ => True) a b) :
      Bears w (· ≠ w.program.key symbol) a b := h.mono fun _ _ => trivial
  refine obeys_bind.mpr ((upholds_halt s).mono (fun declarations s₁ h₁ => ?_)
    fun _ _ h => hweaken h)
  refine obeys_bind.mpr ((symbols_bearing.after h₁).mono (fun exportPath s₂ h₂ => ?_)
    fun _ _ h => hweaken h)
  refine obeys_bind.mpr (((recordKind_bearing hfind _ _ _ _).after h₂).mono (fun kind s₃ h₃ => ?_)
    fun _ _ h => hweaken h)
  have hslot := h₃.resolving _ trivial hkey
  have hbefore := hweaken h₃
  refine obeys_bind.mpr ((insert_obeys hslot).mono (fun id s₄ h₄ => ?_)
    fun _ _ h => trans_of (Bears w _) hbefore h)
  have hstored := trans_of (Bears w _) hbefore h₄
  refine obeys_bind.mpr ((announce_bearing _ _ _ _ _ _ s₄).mono (fun _ s₅ h₅ => ?_)
    fun _ _ h => trans_of (Bears w _) hstored (hweaken h))
  exact obeys_pure (trans_of (Bears w _) hstored (hweaken h₅))

/-- **The record of a symbol is looked for.**  What is reserved stays so: a symbol that needs itself
is refused, and one that is not known is reserved for itself. -/
theorem resolveWithin_bearing (fuel : Nat) : ∀ symbol location,
    (resolveWithin w fuel symbol location).Bearing w := by
  induction fuel with
  | zero => exact fun _ _ => upholds_fail
  | succ fuel ih =>
      intro symbol location s
      have hself : Bears w (fun _ => True) s s := refl_of _ s
      refine obeys_bind.mpr (obeys_single ((lookup_ensures s (w.program.key symbol)).mono
        (fun found t ht => ?_) fun _ t ht => ⟨.edits (ht ▸ .refl), ht ▸ hself⟩))
      obtain ⟨rfl, hslot⟩ := ht
      refine ⟨.edits .refl, ?_⟩
      cases found with
      | some id => exact obeys_pure hself
      | none =>
          refine obeys_bind.mpr (obeys_single (ensures_onPart.mpr (ensures_modify.mpr
            ⟨.reserves hslot, ?_⟩)))
          have hreserved : (t.store.cache.insert (w.program.key symbol) .resolving).get?
              (w.program.key symbol) = some .resolving :=
            (Table.get?_insert _ _ _ _).trans (if_pos rfl)
          -- The key was not reserved before, so it is none of those that are to be kept.
          have hkept {u : Session} (hu : Bears w (· ≠ w.program.key symbol) { t with store :=
              { t.store with cache := t.store.cache.insert (w.program.key symbol) .resolving } } u) :
              Bears w (fun _ => True) t u := by
            refine ⟨fun h => hu.watched (h.congr rfl rfl), hu.documented, fun key _ hkey => ?_⟩
            have hne : key ≠ w.program.key symbol := by
              intro heq
              rw [heq, hslot] at hkey
              cases hkey
            exact hu.resolving key hne ((Store.get?_insert_of_ne _ key hne).trans hkey)
          refine obeys_onFailure.mpr ((create_obeys ih symbol location hreserved).mono
            (fun _ _ hu => hkept hu) fun _ u hu => ?_)
          refine obeys_single (ensures_onPart.mpr (ensures_modify.mpr ?_))
          split
          · rename_i hresolving
            refine ⟨.abandons hresolving, hkept (trans_of (Bears w _) hu (bears_cache ?_))⟩
            exact fun key hne hkey => (Store.get?_erase_of_ne key hne).trans hkey
          · exact ⟨.edits .refl, hkept hu⟩

/-- Looking for a record bears at every depth. -/
theorem resolve_bearing (symbol : SymbolRef) (location : Option NodeId) :
    (resolve w symbol location).Bearing w :=
  resolveWithin_bearing _ symbol location

/-! ### Walking -/

/-- From a session in which everybody is watched a plan takes steps to another one.  When it fails,
all that is left to the run is tidying up. -/
def Strides (w : Setting) (plan : Plan α) : Prop :=
  ∀ s, s.store.Watched w →
    plan.Obeys (Turns w) s (fun _ t => Bears w (fun _ => False) s t) fun _ _ => True

variable {β : Type} {plan : Plan α} {walk : Plan Unit} {node : NodeId} {file : FileId}

/-- What bears strides: it keeps everybody watched. -/
theorem Bearing.strides (h : plan.Bearing w) : plan.Strides w := fun s _ =>
  (h s).mono (fun _ _ hst => hst.mono fun _ => False.elim) fun _ _ _ => trivial

/-- What comes next strides from where the first has come to. -/
theorem Strides.bind {go : α → Plan β} (h : plan.Strides w) (hgo : ∀ a, (go a).Strides w) :
    (plan >>= go).Strides w := by
  intro s hs
  refine obeys_bind.mpr ((h s hs).mono (fun a t hst => ?_) fun _ _ _ => trivial)
  exact (hgo a t (hst.watched hs)).mono (fun _ _ htu => trans_of (Bears w _) hst htu)
    fun _ _ _ => trivial

/-- By induction on the list, every round strides. -/
theorem Strides.forM {go : α → Plan PUnit} (list : List α) (hgo : ∀ a, (go a).Strides w) :
    (list.forM go).Strides w := by
  induction list with
  | nil => exact Bearing.strides upholds_pure
  | cons a rest ih => exact (hgo a).bind fun _ => ih

/-- What is tidied up at the end is tidied up also after a failure. -/
theorem Strides.andThen {last : Plan Unit} (h : walk.Strides w) (hlast : last.Bearing w) :
    Strides w (walk.andThen last) := by
  intro s hs
  refine obeys_andThen.mpr ((h s hs).mono (fun _ t hst => ?_) fun _ t _ => ?_)
  · refine (hlast.strides t (hst.watched hs)).mono (fun _ _ htu => ?_) fun _ _ _ => trivial
    exact trans_of (Bears w _) hst htu
  · exact (hlast t).mono (fun _ _ _ => trivial) fun _ _ _ => trivial

/-- Overrides are released in the end, and that bears. -/
theorem underOverrides_strides {overrides : List Override} (h : walk.Strides w) :
    (underOverrides overrides walk).Strides w :=
  h.andThen (.forM _ fun _ => symbols_bearing)

/-- A container is closed in the end, and that bears. -/
theorem insideContainer_strides (h : walk.Strides w) : (insideContainer w file walk).Strides w :=
  h.andThen (edit_bearing fun _ => Store.endContainer_handles)

/-- An identifier is recorded by looking for a record and by edits. -/
theorem visitIdentifier_bearing : (visitIdentifier w node).Bearing w := by
  unfold visitIdentifier
  dsimp only
  cases w.program.symbolAt node with
  | none => exact upholds_pure
  | some symbol =>
      refine (resolve_bearing symbol _).bind fun id => ?_
      refine (edit_bearing fun _ => Store.hasInfo_handles).bind fun known => ?_
      cases known with
      | true => exact upholds_pure
      | false =>
          refine lineRange_bearing.bind fun _ => ?_
          refine (emit_bearing (Graph.vertex_stays _)).bind fun range => ?_
          refine (edit_bearing fun _ => Store.addRange_handles).bind fun _ => ?_
          refine (edit_bearing fun _ => Store.resultSet_handles).bind fun hub => ?_
          exact link_bearing.bind fun _ => edit_bearing fun _ => Store.addReference_handles

/-- Exports are asserted beside the store. -/
theorem assertExports_bearing (module : SymbolRef) (targets : List SymbolRef) :
    (take (assertExports w module targets)).Bearing w := by
  refine beside_bearing ?_
  induction targets with
  | nil => exact stays_pure
  | cons target targets ih =>
      have hsymbols {γ : Type} (act : StateM Symbols γ) : Stays Beside (liftM act : Running γ) :=
        stays_onPartSafely fun _ _ => rfl
      exact (hsymbols _).bind fun _ => (hsymbols _).bind fun _ => ih.bind fun _ => stays_pure

/-- What is inside a module, under the overrides of what it exports. -/
theorem insideModule_strides (hwalk : walk.Strides w) (node : NodeId) (module : SymbolRef) :
    (insideModule w node module walk).Strides w := by
  refine (assertExports_bearing module _).strides.bind fun overrides => ?_
  refine underOverrides_strides ?_
  exact (Bearing.strides (Upholds.discard (resolve_bearing module _))).bind fun _ => hwalk

/-- The document of a file is there as long as the walk is inside the file. -/
theorem insideSourceFile_obeys (hwalk : walk.Strides w) (hs : s.store.Watched w) :
    (insideSourceFile w node walk).Obeys (Turns w) s
      (fun _ t => Bears w (fun _ => False) s t ∧
        t.store.documents.get? (w.program.fileOf node) ≠ none) fun _ _ => True := by
  refine obeys_bind.mpr (obeys_single (ensures_discard.mpr (ensures_onPart.mpr
    ((Store.document_handles trivial).mono (fun _ t ht => ?_) fun _ t ht => ?_))))
  · obtain ⟨hedited, hlive, -⟩ := ht
    have hbears : Bears w (fun _ => False) s { s with store := t } := bears_of_edited hedited
    have hbelow {act : Plan Unit} (hact : act.Strides w) : act.Obeys (Turns w) { s with store := t }
        (fun _ u => Bears w (fun _ => False) s u ∧
          u.store.documents.get? (w.program.fileOf node) ≠ none) fun _ _ => True := by
      refine (hact _ (hbears.watched hs)).mono (fun _ u hu => ?_) fun _ _ _ => trivial
      refine ⟨trans_of (Bears w _) hbears hu, hu.documented _ ?_⟩
      exact hlive ▸ Option.some_ne_none _
    refine ⟨.edits hedited, ?_⟩
    cases w.program.fileSymbol (w.program.fileOf node) with
    | none => exact hbelow hwalk
    | some module => exact hbelow (insideModule_strides hwalk node module)
  · exact ⟨.edits ht, trivial⟩

/-- The body of a declaration, inside a container for the range of its name. -/
theorem insideNamed_strides (name : NodeId) (file : FileId) (hwalk : walk.Strides w) :
    (insideNamed w file name walk).Strides w := by
  refine (beside_bearing (Stays.bind stays_get fun _ => stays_pure)).strides.bind fun found => ?_
  cases found with
  | none => exact hwalk
  | some range =>
      exact (edit_bearing fun _ => Store.beginContainer_handles).strides.bind fun _ =>
        insideContainer_strides hwalk

/-- A declaration strides, since it looks for a record, edits and walks on. -/
theorem insideDocumentSymbol_strides (hwalk : walk.Strides w) :
    (insideDocumentSymbol w node walk).Strides w := by
  unfold insideDocumentSymbol
  cases w.program.nameOf node with
  | none => exact hwalk
  | some name =>
      dsimp only
      cases w.program.symbolAt name with
      | none => exact insideNamed_strides name _ hwalk
      | some symbol =>
          exact (Bearing.strides (Upholds.discard (resolve_bearing symbol _))).bind fun _ =>
            insideNamed_strides name _ hwalk

/-- Forwards are asserted beside the store. -/
theorem assertForwards_bearing : (take (assertForwards w node)).Bearing w := by
  refine beside_bearing ?_
  unfold assertForwards
  dsimp only
  cases (w.program.nameOf node).bind w.program.symbolAt with
  | none => exact stays_pure
  | some symbol => exact stays_onPartSafely fun _ _ => rfl

/-- Coming to an identifier changes nothing. -/
theorem arrives_strides :
    Strides w (single (some (Milestone.identifier node)) (pure () : Running Unit)) :=
  fun _ _ => obeys_single (ensures_pure.mpr ⟨.arrives, refl_of (Bears w _) _⟩)

/-- By cases of the node: what comes before its children strides. -/
theorem inside_strides (hwalk : walk.Strides w) : (inside w node walk).Strides w := by
  unfold inside
  cases w.program.kind node with
  | sourceFile =>
      intro s hs
      exact (insideSourceFile_obeys hwalk hs).mono (fun _ _ h => h.1) fun _ _ h => h
  | identifier =>
      exact arrives_strides.bind fun _ => visitIdentifier_bearing.strides.bind fun _ => hwalk
  | typeAliasDeclaration =>
      exact assertForwards_bearing.strides.bind fun _ =>
        underOverrides_strides (insideDocumentSymbol_strides hwalk)
  | _ =>
      dsimp only
      split
      · exact insideDocumentSymbol_strides hwalk
      · exact hwalk

/-- **The walk leaves a node.**  With the root of a file its document ends, and nothing is left open
for it. -/
theorem leave_obeys (hs : s.store.Watched w) (hdocument : w.program.kind node = .sourceFile →
    s.store.documents.get? (w.program.fileOf node) ≠ none) :
    (leave w node).Obeys (Turns w) s (fun _ t => Bears w (fun _ => False) s t)
      fun _ _ => True := by
  refine obeys_bind.mpr (obeys_single (ensures_onPart.mpr
    ((Store.nodeProcessed_watched hs).mono (fun _ t ht => ?_) fun _ t ht => ⟨.leaves ht, trivial⟩)))
  obtain ⟨hdeparted, hwatched, hflushed⟩ := ht
  have hleft : Bears w (fun _ => False) s { s with store := t } :=
    ⟨fun _ => hwatched, fun _ => hdeparted.documented, fun _ => False.elim⟩
  refine ⟨.leaves hdeparted, ?_⟩
  split
  · rename_i hkind
    have hthere : t.documents.get? (w.program.fileOf node) ≠ none :=
      hdeparted.documented (hdocument hkind)
    -- The records are as the walk left them.
    have hends {u : Store} (hu : Store.Edited w t u ∧ u.records = t.records ∧
        u.documents.get? (w.program.fileOf node) = some .cleared) :
        Turns w (some (.file (w.program.fileOf node))) { s with store := t }
          { s with store := u } := by
      refine .ends hu.1 hu.2.2 fun hrooted => ?_
      obtain ⟨file, hfile, hroot⟩ := hrooted.only node hkind
      have hof : w.program.fileOf node = file := hroot ▸ (hrooted.root file hfile).1
      exact hof ▸ (hflushed hrooted file hfile hroot).congr hu.2.1
    refine obeys_bind.mpr (obeys_single (ensures_onPart.mpr ((Store.endDocument_ends hthere).mono
      (fun _ u hu => ⟨hends hu, ?_⟩) fun _ u hu => ⟨hends hu, trivial⟩)))
    have hlast : Bears w (fun _ => False) { s with store := t } { s with store := u } :=
      bears_of_edited hu.1
    have hended := trans_of (Bears w _) hleft hlast
    exact obeys_single (ensures_modify.mpr
      ⟨.edits .refl, hended.watched, hended.documented, hended.resolving⟩)
  · exact obeys_pure hleft

/-- By induction on the depth: a node strides, what is below it, and leaving it. -/
theorem visitWithin_strides (fuel : Nat) : ∀ node, (visitWithin w fuel node).Strides w := by
  induction fuel with
  | zero => exact fun _ => Bearing.strides upholds_fail
  | succ fuel ih =>
      intro node s hs
      have hwalk : ((w.program.children node).forM (visitWithin w fuel)).Strides w := .forM _ ih
      have hinside : (inside w node ((w.program.children node).forM (visitWithin w fuel))).Obeys
          (Turns w) s (fun _ t => Bears w (fun _ => False) s t ∧
            (w.program.kind node = .sourceFile →
              t.store.documents.get? (w.program.fileOf node) ≠ none)) fun _ _ => True := by
        by_cases hkind : w.program.kind node = .sourceFile
        · unfold inside
          rw [hkind]
          exact (insideSourceFile_obeys hwalk hs).mono (fun _ _ h => ⟨h.1, fun _ => h.2⟩)
            fun _ _ h => h
        · exact (inside_strides hwalk s hs).mono (fun _ _ h => ⟨h, fun hroot => absurd hroot hkind⟩)
            fun _ _ h => h
      refine obeys_bind.mpr (hinside.mono (fun _ t ht => ?_) fun _ _ _ => trivial)
      exact (leave_obeys (ht.1.watched hs) ht.2).mono
        (fun _ _ htu => trans_of (Bears w _) ht.1 htu) fun _ _ h => h

/-- **Every operation of a run is a step.** -/
theorem walkAll_turns (hs : s.store.Watched w) :
    (walkAll w).Obeys (Turns w) s (fun _ _ => True) fun _ _ => True := by
  have hfiles : ((Run.walkedFiles w.program).forM (visitFile w)).Strides w :=
    .forM _ fun _ => visitWithin_strides _ _
  refine obeys_bind.mpr ((hfiles s hs).mono (fun _ t _ => ?_) fun _ _ _ => trivial)
  refine obeys_bind.mpr (obeys_single (ensures_onPart.mpr
    ((Store.projectProcessed_departs t.store).mono (fun _ u hu => ⟨.concludes hu, ?_⟩)
      fun _ u hu => ⟨.concludes hu, trivial⟩)))
  have hflush : (take (emit Graph.flush)).Bearing w := emit_bearing Graph.flush_grows
  have hget : (take (get : Running Session)).Bearing w := beside_bearing stays_get
  refine obeys_bind.mpr ((hflush _).mono (fun _ v _ => ?_) fun _ _ _ => trivial)
  exact obeys_bind.mpr ((hget v).mono (fun _ _ _ => trivial) fun _ _ _ => trivial)

end Plan

end SymbolGraph.Session

namespace SymbolGraph.Run

open SymbolGraph.Action SymbolGraph.Session

variable {w : Setting} {sink : Sink}

/-- A run starts with a store that only has a project. -/
theorem start_plain (w : Setting) (g : Graph) : Ensures (start w) g
    (fun s g' => g.GrowsPlainly g' ∧ ∃ project, s = { store := { graph := g', project } })
    fun _ _ => True := by
  refine ensures_bind.mpr (ensures_bind.mpr (ensures_discard.mpr
    ((Graph.vertex_grows _ g).mono (fun _ g₁ h₁ => ?_) fun _ _ _ => trivial)))
  refine ensures_bind.mpr ((Graph.vertex_grows _ g₁).mono (fun project g₂ h₂ => ?_)
    fun _ _ _ => trivial)
  exact ⟨trans_of Graph.GrowsPlainly h₁.1 h₂.1, { vertex := project }, rfl⟩

/-- Nobody has a partition at the start. -/
theorem watched_fresh {graph : Graph} {project : Project} : Store.Watched w { graph, project } := by
  have hnone {i : Nat} {r : Record} (hr : (#[] : Array Record)[i]? = some r) : False := by
    simp at hr
  exact ⟨fun _ _ hr => (hnone hr).elim, fun _ _ _ _ ⟨_, hr, _⟩ => (hnone hr).elim⟩

/-- **What holds at the start and is kept by every step holds throughout a run.** -/
theorem stops_keep (inv : List Milestone → Session → Prop)
    (hstart : ∀ graph project, (Graph.ofSink sink).GrowsPlainly graph →
      inv [] { store := { graph, project } })
    (hstep : ∀ past mark s t, Turns w mark s t → inv past s → inv (past ++ mark.toList) t) :
    ∀ stop ∈ stops w sink, inv stop.1 stop.2 := by
  intro stop hstop
  unfold stops at hstop
  cases hrun : start w (Graph.ofSink sink) with
  | error fault g =>
      rw [hrun] at hstop
      cases hstop
  | ok s g =>
      obtain ⟨hgrows, project, rfl⟩ := (start_plain w _).of_ok hrun
      rw [hrun] at hstop
      exact (Plan.walkAll_turns watched_fresh).stops inv hstep (hstart g project hgrows) stop hstop

/-- **What every step relates is related from each stop of a run to all later ones.** -/
theorem stops_pairwise (inv : List Milestone → Session → Prop)
    {rel : List Milestone × Session → List Milestone × Session → Prop}
    [IsPreorder (List Milestone × Session) rel]
    (hstart : ∀ graph project, inv [] { store := { graph, project } })
    (hstep : ∀ past mark s t, Turns w mark s t → inv past s →
      inv (past ++ mark.toList) t ∧ rel (past, s) (past ++ mark.toList, t)) :
    (stops w sink).Pairwise rel := by
  unfold stops
  cases hrun : start w (Graph.ofSink sink) with
  | error fault g => exact List.Pairwise.nil
  | ok s g =>
      obtain ⟨-, project, rfl⟩ := (start_plain w _).of_ok hrun
      exact (Plan.walkAll_turns watched_fresh).pairwise inv hstep (hstart g project)

end SymbolGraph.Run
