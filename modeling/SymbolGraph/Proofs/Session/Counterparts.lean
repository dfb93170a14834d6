import SymbolGraph.Proofs.Session.Turning
import SymbolGraph.Proofs.Store.Counterparts

/-!
# Proofs — Session — sessions side by side

Two runs that are asked for different extras ask the same questions about symbols, make the same
records and walk alike.  Only a new record is treated differently: once it has its definitions it
may get a hover text and monikers.  It is open then and has its result set, so that these can only
succeed, and nothing is kept of them but the elements.

* `Session.Matches`: sessions with the same tables, under paired ids.
* `Session.Adds`, `Session.emitExtras_adds`: the extras of a new record.
* `Session.resolve_alike`, `Session.visitFile_alike`: making records and walking.
-/

namespace SymbolGraph.Session

open SymbolGraph.Action SymbolGraph.Counterparts

variable {α β : Type} {V : Pairing → α → β → Prop} {ρ ρ' : Pairing} {w w' : Setting}
  {s t u : Session}

/-- Sessions with the same tables, under paired ids. -/
structure Matches (ρ : Pairing) (s t : Session) : Prop where
  store       : s.store.Matches ρ t.store
  symbols     : t.symbols = s.symbols
  lineIndexes : t.lineIndexes = s.lineIndexes
  definitions : s.definitions.Matches (VertexRef.Matches ρ) t.definitions

instance : Counterparts Session := ⟨Matches⟩

/-! ### Operations -/

/-- What two stores do alike, their sessions do alike. -/
theorem store_alike {act : Store.Storing α} {act' : Store.Storing β} (h : Alike ρ V act act') :
    Alike ρ V (liftM act : Running α) (liftM act' : Running β) := by
  refine h.onPart (fun _ _ _ _ hst => hst.store) fun _ _ _ _ _ _ hρ hst hstore => ?_
  exact { hst with
    store := hstore
    definitions := hst.definitions.imp fun _ _ hv => hv.later hρ }

/-- What two graphs do alike, their sessions do alike. -/
theorem emit_alike {act : Emission α} {act' : Emission β} (h : Alike ρ V act act') :
    Alike ρ V (emit act) (emit act') :=
  store_alike (Store.emission_alike h)

/-- Both sessions know the same of symbols, so the answers are the same. -/
theorem symbols_alike (act : StateM Symbols α) :
    Alike ρ Same (liftM act : Running α) (liftM act : Running α) :=
  alike_onPartSafely (fun _ _ _ hst => hst.symbols) fun _ _ _ _ hst => { hst with symbols := rfl }

/-- The definition ranges of one name are paired, or there is none on either side. -/
theorem definitionRange_alike (name : NodeId) :
    Alike ρ (fun ρ' => Option.Rel (VertexRef.Matches ρ')) (definitionRange name)
      (definitionRange name) := by
  refine alike_get.bind fun ρ₁ s t _ hst => alike_pure fun ρ₂ hρ => ?_
  exact (hst.definitions.imp fun _ _ hv => hv.later hρ).get? name

section Walk

variable (hw : w.Similar w')

include hw

/-- A range is read off the same text. -/
theorem lineRange_alike (file : FileId) (range : TextRange) :
    Alike ρ Same (lineRange w file range) (lineRange w' file range) := by
  unfold lineRange lineIndex
  rw [hw.program]
  refine Alike.next (alike_get.bind fun ρ₁ s t _ hst => ?_) fun _ => alike_same
  rw [hst.lineIndexes]
  cases s.lineIndexes.get? file with
  | some index => exact alike_same
  | none =>
      refine Alike.next (alike_modify ?_) fun _ => alike_same
      intro ρ₂ u v _ huv
      rw [huv.lineIndexes]
      exact { huv with lineIndexes := rfl }

/-- Both sessions forget the definition ranges of the file. -/
theorem fileProcessed_alike (file : FileId) :
    Alike ρ Same (fileProcessed w file) (fileProcessed w' file) := by
  unfold fileProcessed
  rw [hw.program]
  refine alike_modify fun _ s t _ hst => ?_
  rw [hst.lineIndexes]
  exact { hst with
    lineIndexes := rfl
    definitions := hst.definitions.filter fun name => decide (w.program.fileOf name ≠ file) }

/-! ### Making a record -/

/-- A definition range is emitted on both sides or on neither, and its ids are paired. -/
theorem emitDefinition_alike (resolution : Resolution) (id : RecordId) (symbol : SymbolRef)
    (declaration : NodeId) : Alike ρ Same (emitDefinition w resolution id symbol declaration)
      (emitDefinition w' resolution id symbol declaration) := by
  unfold emitDefinition
  rw [hw.program]
  dsimp only
  cases resolution.identifierOf w.program symbol declaration with
  | none => exact alike_same
  | some found =>
      refine (store_alike (Store.hasInfo_alike id _)).next fun known => ?_
      refine alike_ite (fun _ => alike_same) fun _ => ?_
      refine (lineRange_alike hw _ _).next fun _ => (lineRange_alike hw _ _).next fun _ => ?_
      refine (emit_alike (Graph.vertex_alike _ rfl)).bind fun ρ₁ range range' _ hrange => ?_
      refine (store_alike (Store.addRange_alike hw _ hrange.id)).next fun _ => ?_
      refine Alike.next (alike_modify ?_) fun _ => ?_
      · exact fun ρ₂ s t hρ hst => { hst with
          definitions := hst.definitions.insert (hrange.later hρ) }
      refine (store_alike (Store.addInfo_alike id _)).next fun _ => ?_
      exact store_alike (Store.addDefinition_alike hw id _ hrange.id true)

theorem emitDefinitions_alike (resolution : Resolution) (id : RecordId) (symbol : SymbolRef)
    (declarations : List NodeId) :
    Alike ρ Same (emitDefinitions w resolution id symbol declarations)
      (emitDefinitions w' resolution id symbol declarations) := by
  refine (store_alike (Store.record_alike id)).bind fun ρ₁ r r' _ hr => ?_
  rw [hr.kind]
  exact alike_ite (fun _ => .forEach (emitDefinition_alike hw resolution id symbol))
    fun _ => alike_same

end Walk

/-! ### The extras of a record -/

/-- A record of a session over a memory that never fails is open and has its result set. -/
structure IsReady (s : Session) (id : RecordId) : Prop where
  plain  : s.store.graph.sink.IsPlain
  record : s.store.IsReady id

/-- A session whose graph has taken extras only. -/
def Silently (s t : Session) : Prop := ∃ store, t = { s with store } ∧ s.store.Silently store

/-- A record stays ready while extras are taken. -/
theorem IsReady.silently {id : RecordId} (h : s.IsReady id) (hst : s.Silently t) :
    t.IsReady id := by
  obtain ⟨_, rfl, g, rfl, hg⟩ := hst
  exact ⟨hg.plain, h.record⟩

/-- Extras may be taken twice. -/
theorem Silently.trans (hst : s.Silently t) (htu : t.Silently u) : s.Silently u := by
  obtain ⟨_, rfl, g, rfl, hg⟩ := hst
  obtain ⟨_, rfl, g', rfl, hg'⟩ := htu
  exact ⟨_, rfl, g', rfl, hg.trans hg'⟩

/-- What each of two sessions does for itself. -/
theorem Matches.silently (h : s.Matches ρ t) {s' t' : Session} (hs : s.Silently s')
    (ht : t.Silently t') : s'.Matches ρ t' := by
  obtain ⟨_, rfl, g, rfl, hg⟩ := hs
  obtain ⟨_, rfl, g', rfl, hg'⟩ := ht
  exact { h with
    store := h.store.regraph le_rfl ((h.store.graph.silent_first hg).silent_second hg') }

/-- Wherever a record is ready the action ends well, and it adds extras only. -/
def Adds (id : RecordId) (act : Running α) : Prop :=
  ∀ s : Session, s.IsReady id → Ensures act s (fun _ t => s.Silently t) fun _ _ => False

section Adds

variable {id : RecordId} {act : Running α} {f : α → Running β}

/-- Returning a value adds nothing. -/
theorem adds_pure {a : α} : Adds id (pure a : Running α) := fun s hs =>
  ensures_pure.mpr ⟨s.store, rfl, s.store.graph, rfl, .refl hs.plain⟩

/-- The record is ready for what comes next as well. -/
theorem Adds.bind (h : Adds id act) (hf : ∀ a, Adds id (f a)) : Adds id (act >>= f) := by
  intro s hs
  refine ensures_bind.mpr ((h s hs).mono (fun a t hst => ?_) fun _ _ hfalse => hfalse)
  exact (hf a t (hs.silently hst)).mono (fun _ _ htu => hst.trans htu) fun _ _ hfalse => hfalse

/-- Something that is only done when it is asked for. -/
theorem adds_when {c : Prop} [Decidable c] {rest : Running β} (h : Adds id act)
    (hrest : Adds id rest) : Adds id (if c then act >>= fun _ => rest else rest) := by
  split
  · exact h.bind fun _ => hrest
  · exact hrest

/-- Extras are added whether the value is looked at or not. -/
theorem Adds.discard (h : Adds id act) : Adds id (discard act) := fun s hs =>
  ensures_discard.mpr (h s hs)

/-- What a graph does silently adds extras. -/
theorem emit_adds {act : Emission α} (h : ∀ g : Graph, g.sink.IsPlain →
    Ensures act g (fun _ g' => g.Silently g') fun _ _ => False) : Adds id (emit act) := by
  intro s hs
  refine ensures_onPart.mpr (ensures_onPart.mpr ((h _ hs.plain).mono (fun _ g hg => ?_)
    fun _ _ hfalse => hfalse))
  exact ⟨_, rfl, g, rfl, hg⟩

/-- What a store does silently, where the record is ready, adds extras. -/
theorem store_adds {act : Store.Storing α} (h : ∀ s : Store, s.graph.sink.IsPlain → s.IsReady id →
    Ensures act s (fun _ t => s.Silently t) fun _ _ => False) : Adds id (liftM act : Running α) :=
  fun s hs => ensures_onPart.mpr ((h s.store hs.plain hs.record).mono
    (fun _ store hstore => ⟨store, rfl, hstore⟩) fun _ _ hfalse => hfalse)

/-- A hover text is an extra, with the link to it. -/
theorem emitHover_adds (declarations : List NodeId) : Adds id (emitHover w id declarations) := by
  unfold emitHover
  cases hoverText w.program declarations with
  | none => exact adds_pure
  | some contents =>
      refine (emit_adds fun g hg => Graph.vertex_silent hg rfl).bind fun hover => ?_
      exact store_adds fun s hg hs => Store.attach_silent hg hs rfl hover.id

/-- A moniker is an extra, and what is attached to it. -/
theorem emitMonikers_adds (files : List FileId) (kind : LocationKind) (exportPath : String) :
    Adds id (emitMonikers w id files kind exportPath) := by
  have hmoniker (scheme identifier : String) (kind : MonikerKind) :
      Adds id (emit (Graph.moniker scheme identifier kind)) :=
    emit_adds fun g hg => Graph.vertex_silent hg rfl
  have hadd (moniker : ElementId) : Adds id (liftM (Store.addMoniker id moniker) : Running Unit) :=
    store_adds fun s hg hs => Store.attach_silent hg hs rfl moniker
  unfold emitMonikers
  dsimp only
  refine (hmoniker _ _ _).bind fun moniker => ?_
  cases w.linker with
  | none => exact hadd _
  | some linker =>
      dsimp only
      cases linker.link _ with
      | none => exact hadd _
      | some linked =>
          refine (hmoniker _ _ _).bind fun attached => ?_
          refine Adds.bind (Adds.discard (emit_adds fun g hg => ?_)) fun _ => hadd _
          exact Graph.link_silent hg rfl attached.id moniker.id

/-- Without an export path there is no moniker. -/
theorem emitExported_adds (resolution : Resolution) (declarations : List NodeId)
    (exportPath : Option String) :
    Adds id (emitExported w resolution id declarations exportPath) := by
  unfold emitExported
  dsimp only
  split
  · split
    · exact emitMonikers_adds _ _ _
    · exact adds_pure
  · exact adds_pure

/-- **The extras of a record**, whichever are asked for. -/
theorem emitExtras_adds (resolution : Resolution) (declarations : List NodeId)
    (exportPath : Option String) :
    Adds id (emitExtras w resolution id declarations exportPath) :=
  adds_when (emitHover_adds declarations) (emitExported_adds resolution declarations exportPath)

end Adds

/-! ### A new record is ready -/

/-- The store has been edited. -/
def Edited (w : Setting) (s t : Session) : Prop := Store.Edited w s.store t.store

instance : IsPreorder Session (Edited w) where
  refl _ := .refl
  trans _ _ _ := Relation.ReflTransGen.trans

/-- Reading off a range edits nothing. -/
theorem lineRange_edits (file : FileId) (range : TextRange) :
    Stays (Edited w) (lineRange w file range) := by
  refine Stays.bind (stays_get.bind fun s => ?_) fun _ => stays_pure
  split
  · exact stays_pure
  · exact Stays.bind (stays_modify fun _ => .refl) fun _ => stays_pure

/-- A definition range is an edit, so the record that was made stays ready. -/
theorem emitDefinition_edits (resolution : Resolution) (id : RecordId) (symbol : SymbolRef)
    (declaration : NodeId) :
    Stays (Edited w) (emitDefinition w resolution id symbol declaration) := by
  unfold emitDefinition
  dsimp only
  split
  · exact stays_pure
  · refine Stays.bind (Plan.stays_edited fun _ => Store.hasInfo_handles) fun known => ?_
    split
    · exact stays_pure
    · refine (lineRange_edits _ _).bind fun _ => (lineRange_edits _ _).bind fun _ => ?_
      refine Stays.bind (Plan.stays_edited fun _ => Store.emission_handles (Graph.vertex_stays _))
        fun range => ?_
      refine Stays.bind (Plan.stays_edited fun _ => Store.addRange_handles) fun _ => ?_
      refine Stays.bind (stays_modify fun _ => .refl) fun _ => ?_
      refine Stays.bind (Plan.stays_edited fun _ => Store.addInfo_handles) fun _ => ?_
      exact Plan.stays_edited fun _ => Store.addDefinition_handles

/-- So are the definition ranges of all declarations. -/
theorem emitDefinitions_edits (resolution : Resolution) (id : RecordId) (symbol : SymbolRef)
    (declarations : List NodeId) :
    Stays (Edited w) (emitDefinitions w resolution id symbol declarations) := by
  refine Stays.bind (Plan.stays_edited fun _ => Store.record_handles) fun known => ?_
  split
  · exact .forM fun declaration _ => emitDefinition_edits resolution id symbol declaration
  · exact stays_pure

/-- A record is ready once it has been stored. -/
theorem insert_ready {key : SymbolKey} {kind : RecordKind} {scope : Option NodeId} :
    Ensures (liftM (Store.insert w { key, kind, scope }) : Running RecordId) s
      (fun id t => t.store.IsReady id) fun _ _ => True := by
  refine ensures_onPart.mpr ((Store.insert_admits key kind scope s.store).mono
    (fun id store h => ?_) fun _ _ _ => trivial)
  obtain ⟨rfl, hub, admitted, hadmits, hedited⟩ := h
  exact hadmits.isReady.edited hedited

/-- A record that is ready gets its definitions, and then the extras that are asked for. -/
theorem describe_alike (hw : w.Similar w') {id : RecordId} (hready : s.store.IsReady id)
    (hst : s.Matches ρ t) (resolution : Resolution) (symbol : SymbolRef)
    (declarations : List NodeId) (exportPath : Option String) :
    Outcomes Same ρ (describe w resolution id symbol declarations exportPath s)
      (describe w' resolution id symbol declarations exportPath t) := by
  refine (emitDefinitions_alike hw resolution id symbol declarations ρ s t le_rfl hst).bind
    fun ρ₁ _ _ s₁ t₁ _ _ hdefinitions hst₁ => ?_
  have hedited : Edited w s s₁ :=
    (emitDefinitions_edits resolution id symbol declarations s).of_ok hdefinitions
  have hfirst : s₁.IsReady id := ⟨hst₁.store.graph.first, hready.edited hedited⟩
  have hsecond : t₁.IsReady id := ⟨hst₁.store.graph.second, hst₁.store.isReady hfirst.record⟩
  exact outcomes_apart (emitExtras_adds resolution declarations exportPath s₁ hfirst)
    (emitExtras_adds resolution declarations exportPath t₁ hsecond) fun _ _ => hst₁.silently

/-- **A new record that is ready is announced alike**, apart from its extras. -/
theorem announce_alike (hw : w.Similar w') {id : RecordId} (hready : s.store.IsReady id)
    (hst : s.Matches ρ t) (resolution : Resolution) (symbol : SymbolRef)
    (declarations : List NodeId) (scope : Option NodeId) (exportPath : Option String) :
    Outcomes Same ρ (announce w resolution id symbol declarations scope exportPath s)
      (announce w' resolution id symbol declarations scope exportPath t) := by
  cases scope with
  | none => exact describe_alike hw hready hst _ _ _ _
  | some node =>
      refine (store_alike (Store.watch_alike node id) ρ s t le_rfl hst).bind
        fun ρ₁ _ _ s₁ t₁ _ _ hwatch hst₁ => ?_
      have hedited : Edited w s s₁ :=
        (Plan.stays_edited (fun _ => Store.watch_handles) s).of_ok hwatch
      exact describe_alike hw (hready.edited hedited) hst₁ _ _ _ _

/-! ### Making records -/

section Create

variable (hw : w.Similar w') {resolver resolver' : Resolver}
  (hr : ∀ {ρ : Pairing} symbol location,
    Alike ρ Same (resolver symbol location) (resolver' symbol location))

include hr

/-- By induction on the methods: each is found on both sides, skipped on both, or ends both with one
fault. -/
theorem resolveBases_alike (bases : List SymbolRef) :
    Alike ρ Same (resolveBases resolver bases) (resolveBases resolver' bases) := by
  induction bases generalizing ρ with
  | nil => exact alike_same
  | cons base bases ih =>
      refine (hr base none).attempt.bind fun ρ₁ result result' _ hresult => ?_
      cases hresult with
      | ok hid => exact hid ▸ ih.next fun _ => alike_same
      | @error fault =>
          cases fault with
          | cyclicResolution => exact ih
          | _ => exact alike_throw

include hw

/-- The kind of a method, once the members it overrides are known. -/
theorem methodKind_alike (symbol : SymbolRef) (site : Option NodeId) (bases : List SymbolRef) :
    Alike ρ Same (methodKind w resolver symbol site bases)
      (methodKind w' resolver' symbol site bases) := by
  unfold methodKind
  rw [hw.program]
  cases site with
  | none => exact alike_same
  | some node => exact (resolveBases_alike hr _).next fun _ => alike_same

/-- By induction on the types: each property is found on both sides under one id. -/
theorem resolveProperties_alike (name : String) (location : NodeId) (types : List TypeRef) :
    ∀ known, Alike ρ Same (resolveProperties w resolver name location known types)
      (resolveProperties w' resolver' name location known types) := by
  induction types with
  | nil => exact fun _ => alike_same
  | cons type types ih =>
      intro known
      unfold resolveProperties
      rw [hw.program]
      cases w.program.propertyOf type name with
      | none => exact ih known
      | some property => exact (hr property _).next fun id => ih _

/-- By cases of the resolution: what the kind needs is found alike on both sides. -/
theorem recordKind_alike (resolution : Resolution) (symbol : SymbolRef) (location : Option NodeId)
    (declarations : List NodeId) :
    Alike ρ Same (recordKind w resolver resolution symbol location declarations)
      (recordKind w' resolver' resolution symbol location declarations) := by
  unfold recordKind
  rw [hw.program]
  dsimp only
  cases resolution with
  | standard => exact alike_same
  | typeAlias => exact alike_same
  | transient => exact alike_same
  | ofAlias =>
      dsimp only
      cases w.program.aliasedSymbol symbol with
      | none => exact alike_same
      | some target => exact (hr target none).next fun _ => alike_same
  | method =>
      have hmethod := methodKind_alike (ρ := ρ) hw hr symbol (declarations.head?.or location)
      dsimp only
      cases w.program.parentSymbol symbol with
      | none => exact alike_same.next hmethod
      | some parent => exact (symbols_alike _).next fun _ => alike_same.next hmethod
  | composite =>
      dsimp only
      cases location with
      | none => exact alike_same
      | some node => exact (resolveProperties_alike hw hr _ _ _ _).next fun _ => alike_same

omit hr in
/-- A record is stored on both sides, and then described. -/
theorem establish_alike (resolution : Resolution) (symbol : SymbolRef) (declarations : List NodeId)
    (kind : RecordKind) (scope : Option NodeId) (exportPath : Option String) :
    Alike ρ Same (establish w resolution symbol declarations kind scope exportPath)
      (establish w' resolution symbol declarations kind scope exportPath) := by
  unfold establish
  rw [hw.program]
  intro ρ₁ s t _ hst
  refine (store_alike (Store.insert_alike hw _ _ _) ρ₁ s t le_rfl hst).bind
    fun ρ₂ id id' s₁ t₁ _ hid hinsert hst₁ => ?_
  cases hid
  have hready : s₁.store.IsReady id := insert_ready.of_ok hinsert
  refine (announce_alike hw hready hst₁ _ _ _ _ _).bind fun _ _ _ _ _ _ _ _ hst₂ => ?_
  exact .ok le_rfl hst₂ rfl

/-- **A record is made**, with the extras that are asked for. -/
theorem create_alike (symbol : SymbolRef) (location : Option NodeId) :
    Alike ρ Same (create w resolver symbol location) (create w' resolver' symbol location) := by
  unfold create
  rw [hw.program]
  refine alike_ofExcept_same.next fun declarations => (symbols_alike _).next fun exportPath => ?_
  exact (recordKind_alike hw hr _ _ _ _).next fun kind => establish_alike hw _ _ _ _ _ _

end Create

section Walk

variable (hw : w.Similar w')

include hw

/-- By induction on the depth: a record is found on both sides, or reserved, made and given up
alike. -/
theorem resolveWithin_alike (fuel : Nat) : ∀ {ρ : Pairing} symbol location,
    Alike ρ Same (resolveWithin w fuel symbol location)
      (resolveWithin w' fuel symbol location) := by
  induction fuel with
  | zero => exact fun _ _ => alike_throw
  | succ fuel ih =>
      intro ρ symbol location
      unfold resolveWithin seek
      rw [hw.program]
      refine (store_alike (Store.lookup_alike _)).next fun found => ?_
      cases found with
      | some id => exact alike_same
      | none =>
          refine (store_alike (Store.mark_alike _ _)).next fun _ => ?_
          exact (create_alike hw ih symbol location).onFailure (store_alike (Store.abandon_alike _))

/-- **The record of a symbol.** -/
theorem resolve_alike (symbol : SymbolRef) (location : Option NodeId) :
    Alike ρ Same (resolve w symbol location) (resolve w' symbol location) := by
  unfold resolve
  rw [hw.program]
  exact resolveWithin_alike hw _ symbol location

/-! ### Walking -/

omit hw in
/-- Both walks release the same overrides. -/
theorem underOverrides_alike {walk walk' : Running Unit} (overrides : List Override)
    (hwalk : Alike ρ Same walk walk') :
    Alike ρ Same (underOverrides overrides walk) (underOverrides overrides walk') :=
  hwalk.andThen (.forEach fun _ => symbols_alike _)

/-- Both sessions assert the same exports. -/
theorem assertExports_alike (module : SymbolRef) (targets : List SymbolRef) :
    Alike ρ Same (assertExports w module targets) (assertExports w' module targets) := by
  induction targets with
  | nil => exact alike_same
  | cons target targets ih =>
      unfold assertExports
      rw [hw.program]
      refine (symbols_alike _).next fun _ => (symbols_alike _).next fun _ => ?_
      exact ih.next fun _ => alike_same

/-- Both sessions assert the same forwards. -/
theorem assertForwards_alike (declaration : NodeId) :
    Alike ρ Same (assertForwards w declaration) (assertForwards w' declaration) := by
  unfold assertForwards
  rw [hw.program]
  dsimp only
  cases (w.program.nameOf declaration).bind w.program.symbolAt with
  | none => exact alike_same
  | some symbol => exact symbols_alike _

/-- An identifier is recorded on both sides, and the range and its links are plain. -/
theorem visitIdentifier_alike (node : NodeId) :
    Alike ρ Same (visitIdentifier w node) (visitIdentifier w' node) := by
  unfold visitIdentifier
  rw [hw.program]
  dsimp only
  cases w.program.symbolAt node with
  | none => exact alike_same
  | some symbol =>
      refine (resolve_alike hw symbol _).next fun id => ?_
      refine (store_alike (Store.hasInfo_alike id _)).next fun known => ?_
      refine alike_ite (fun _ => alike_same) fun _ => (lineRange_alike hw _ _).next fun _ => ?_
      refine (emit_alike (Graph.vertex_alike _ rfl)).bind fun ρ₁ range range' _ hrange => ?_
      refine (store_alike (Store.addRange_alike hw _ hrange.id)).next fun _ => ?_
      refine (store_alike (Store.resultSet_alike id)).bind fun ρ₂ hub hub' hρ hhub => ?_
      have hid := hρ _ _ hrange.id
      refine (emit_alike (Graph.link_alike rfl hid hhub.id)).discard.next fun _ => ?_
      exact store_alike (Store.addReference_alike hw id _ (.range hid) _)

section Inside

variable {walk walk' : Running Unit} (hwalk : ∀ {ρ : Pairing}, Alike ρ Same walk walk')

include hwalk

/-- The record of a file is found alike before the walks go on alike. -/
theorem insideSourceFile_alike (root : NodeId) :
    Alike ρ Same (insideSourceFile w root walk) (insideSourceFile w' root walk') := by
  unfold insideSourceFile
  rw [hw.program]
  refine (store_alike (Store.document_alike hw _)).discard.next fun _ => ?_
  cases w.program.fileSymbol (w.program.fileOf root) with
  | none => exact hwalk
  | some module =>
      unfold insideModule
      rw [hw.program]
      refine (assertExports_alike hw module _).next fun overrides => underOverrides_alike _ ?_
      exact (resolve_alike hw module _).discard.next fun _ => hwalk

/-- The body of a declaration, inside a container for the range of its name. -/
theorem insideNamed_alike (name : NodeId) (file : FileId) :
    Alike ρ Same (insideNamed w file name walk) (insideNamed w' file name walk') := by
  refine (definitionRange_alike name).bind fun ρ₁ found found' _ hfound => ?_
  cases hfound with
  | none => exact hwalk
  | some =>
      refine (store_alike (Store.beginContainer_alike hw file _ _)).next fun _ => ?_
      exact hwalk.andThen (store_alike (Store.endContainer_alike hw file))

/-- Whether a declaration opens a document symbol shows only in documents, which match either
way. -/
theorem insideDocumentSymbol_alike (declaration : NodeId) :
    Alike ρ Same (insideDocumentSymbol w declaration walk)
      (insideDocumentSymbol w' declaration walk') := by
  unfold insideDocumentSymbol
  rw [hw.program]
  cases w.program.nameOf declaration with
  | none => exact hwalk
  | some name =>
      dsimp only
      cases w.program.symbolAt name with
      | none => exact insideNamed_alike hw hwalk name _
      | some symbol =>
          exact (resolve_alike hw symbol _).discard.next fun _ => insideNamed_alike hw hwalk name _

/-- By cases of the node: what comes before its children is done alike. -/
theorem inside_alike (node : NodeId) :
    Alike ρ Same (inside w node walk) (inside w' node walk') := by
  unfold inside
  rw [hw.program]
  cases w.program.kind node with
  | sourceFile => exact insideSourceFile_alike hw hwalk node
  | identifier => exact (visitIdentifier_alike hw node).next fun _ => hwalk
  | typeAliasDeclaration =>
      exact (assertForwards_alike hw node).next fun overrides =>
        underOverrides_alike overrides (insideDocumentSymbol_alike hw hwalk node)
  | _ => exact alike_ite (fun _ => insideDocumentSymbol_alike hw hwalk node) fun _ => hwalk

end Inside

/-- Both stores are told that the walk has left a node. -/
theorem leave_alike (node : NodeId) : Alike ρ Same (leave w node) (leave w' node) := by
  unfold leave
  rw [hw.program]
  refine (store_alike (Store.nodeProcessed_alike hw node)).next fun _ => ?_
  refine alike_ite (fun _ => ?_) fun _ => alike_same
  exact (store_alike (Store.endDocument_alike hw _)).next fun _ => fileProcessed_alike hw _

/-- By induction on the depth: two walks of a node do the same. -/
theorem visitWithin_alike (fuel : Nat) : ∀ {ρ : Pairing} node,
    Alike ρ Same (visitWithin w fuel node) (visitWithin w' fuel node) := by
  induction fuel with
  | zero => exact fun _ => alike_throw
  | succ fuel ih =>
      intro ρ node
      unfold visitWithin
      rw [hw.program]
      exact (inside_alike hw (.forEach ih) node).next fun _ => leave_alike hw node

/-- **A file is walked.** -/
theorem visitFile_alike (file : FileId) : Alike ρ Same (visitFile w file) (visitFile w' file) := by
  unfold visitFile
  rw [hw.program]
  exact visitWithin_alike hw _ _

end Walk

end SymbolGraph.Session
