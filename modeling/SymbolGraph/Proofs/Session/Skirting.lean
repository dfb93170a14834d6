import SymbolGraph.Proofs.Store.Outlining
import SymbolGraph.Session.Walk

/-!
# Proofs — Session — what leaves the symbols of documents alone

Symbols of documents are dealt with where the walk enters a declaration and where it leaves one.  In
between records are made and mentions recorded, and none of that opens or closes a container or leads a
document to its symbols, however it ends.

* `Session.Skirts`: no outline changes and no document is led to its symbols.
* `Session.resolve_skirts`, `Session.visitIdentifier_skirts`: making records and recording mentions skirt.
-/

namespace SymbolGraph.Session

open SymbolGraph.Action

variable {α : Type} {w : Setting}

/-- No outline changes, and no document is led to its symbols. -/
def Skirts (s t : Session) : Prop := s.store.Skirts t.store

instance : IsPreorder Session Skirts where
  refl s := refl_of Store.Skirts s.store
  trans _ _ _ h h' := trans_of Store.Skirts h h'

/-- What skirts the outlines of a store skirts those of its session. -/
theorem store_skirts {act : Store.Storing α} (h : Stays Store.Skirts act) :
    Stays Skirts (liftM act : Running α) :=
  h.onPart fun _ _ hst => hst

/-- What is known of symbols has no outlines. -/
theorem symbols_skirts (act : StateM Symbols α) : Stays Skirts (liftM act : Running α) :=
  stays_onPartSafely fun s _ => refl_of Store.Skirts s.store

theorem emit_skirts {act : Emission α} (h : Stays Graph.Skirts act) : Stays Skirts (emit act) :=
  store_skirts (Store.emission_skirts h)

theorem modify_skirts {f : Session → Session} (h : ∀ s, (f s).store = s.store) :
    Stays Skirts (modify f : Running PUnit) := by
  refine stays_modify fun s => ?_
  unfold Skirts
  rw [h s]
  exact refl_of Store.Skirts s.store

/-- Reading off a range may need its document, whose outline is empty. -/
theorem lineRange_skirts (file : FileId) (range : TextRange) :
    Stays Skirts (lineRange w file range) := by
  refine Stays.bind (stays_get.bind fun s => ?_) fun _ => stays_pure
  split
  · exact stays_pure
  · refine Stays.bind (modify_skirts ?_) fun _ => stays_pure
    exact fun _ => rfl

/-- A definition range is no document symbol by itself. -/
theorem emitDefinition_skirts (resolution : Resolution) (id : RecordId) (symbol : SymbolRef)
    (declaration : NodeId) :
    Stays Skirts (emitDefinition w resolution id symbol declaration) := by
  unfold emitDefinition
  dsimp only
  split
  · exact stays_pure
  · refine (store_skirts (Store.hasInfo_skirts _)).bind fun known => ?_
    split
    · exact stays_pure
    · refine (lineRange_skirts _ _).bind fun _ => (lineRange_skirts _ _).bind fun _ => ?_
      refine (emit_skirts (Graph.vertex_skirts _)).bind fun _ =>
        (store_skirts (Store.addRange_skirts _)).bind fun _ => ?_
      refine Stays.bind (modify_skirts ?_) fun _ =>
        (store_skirts (Store.addInfo_skirts _)).bind fun _ =>
          store_skirts (Store.addDefinition_skirts _ _)
      exact fun _ => rfl

/-- Nor are those of all declarations. -/
theorem emitDefinitions_skirts (resolution : Resolution) (id : RecordId) (symbol : SymbolRef)
    (declarations : List NodeId) :
    Stays Skirts (emitDefinitions w resolution id symbol declarations) := by
  refine (store_skirts (Store.record_skirts _)).bind fun known => ?_
  split
  · exact .forM fun declaration _ => emitDefinition_skirts resolution id symbol declaration
  · exact stays_pure

theorem emitHover_skirts (id : RecordId) (declarations : List NodeId) :
    Stays Skirts (emitHover w id declarations) := by
  unfold emitHover
  split
  · exact stays_pure
  · exact (emit_skirts (Graph.vertex_skirts _)).bind fun _ => store_skirts (Store.addHover_skirts _)

theorem emitMonikers_skirts (id : RecordId) (files : List FileId) (kind : LocationKind)
    (exportPath : String) : Stays Skirts (emitMonikers w id files kind exportPath) := by
  have hmoniker (scheme identifier : String) (kind : MonikerKind) :
      Stays Skirts (emit (Graph.moniker scheme identifier kind)) :=
    emit_skirts (Graph.vertex_skirts _)
  have hadd (moniker : ElementId) : Stays Skirts (Store.addMoniker id moniker : Running Unit) :=
    store_skirts (Store.addMoniker_skirts moniker)
  unfold emitMonikers
  dsimp only
  refine (hmoniker _ _ _).bind fun moniker => ?_
  split
  · split
    · exact (hmoniker _ _ _).bind fun _ =>
        (emit_skirts (Graph.link_skirts (by simp) _ _)).discard.bind fun _ => hadd _
    · exact hadd _
  · exact hadd _

section Create

variable {resolver : Resolver} (hr : ∀ symbol location, Stays Skirts (resolver symbol location))

include hr

/-- By induction on the methods: looking for each of them skirts, and a circle is skipped. -/
theorem resolveBases_skirts (bases : List SymbolRef) :
    Stays Skirts (resolveBases resolver bases) := by
  induction bases with
  | nil => exact stays_pure
  | cons base bases ih =>
      unfold resolveBases
      refine (hr base none).attempt.bind fun result => ?_
      cases result with
      | ok id => exact ih.bind fun _ => stays_pure
      | error fault =>
          cases fault with
          | cyclicResolution => exact ih
          | _ => exact stays_throw

/-- By induction on the types: looking for each property skirts. -/
theorem resolveProperties_skirts (name : String) (location : NodeId) (types : List TypeRef) :
    ∀ known, Stays Skirts (resolveProperties w resolver name location known types) := by
  induction types with
  | nil => exact fun _ => stays_pure
  | cons type types ih =>
      intro known
      unfold resolveProperties
      split
      · exact ih known
      · exact (hr _ _).bind fun id => ih _

theorem methodKind_skirts (symbol : SymbolRef) (site : Option NodeId) (bases : List SymbolRef) :
    Stays Skirts (methodKind w resolver symbol site bases) := by
  cases site with
  | none => exact stays_pure
  | some node => exact (resolveBases_skirts hr _).bind fun _ => stays_pure

/-- By cases of the resolution: a kind needs no more than looking for other records. -/
theorem recordKind_skirts (resolution : Resolution) (symbol : SymbolRef) (location : Option NodeId)
    (declarations : List NodeId) :
    Stays Skirts (recordKind w resolver resolution symbol location declarations) := by
  have hmethod (bases : List SymbolRef) :=
    methodKind_skirts hr (w := w) symbol (declarations.head?.or location) bases
  unfold recordKind
  dsimp only
  split
  · exact stays_pure
  · exact stays_pure
  · exact stays_pure
  · split
    · exact stays_pure
    · exact (hr _ _).bind fun _ => stays_pure
  · split
    · exact stays_pure.bind fun _ => hmethod _
    · exact (symbols_skirts _).bind fun _ => stays_pure.bind fun _ => hmethod _
  · split
    · exact stays_pure
    · exact (resolveProperties_skirts hr _ _ _ _).bind fun _ => stays_pure

omit hr in
theorem emitExported_skirts (resolution : Resolution) (id : RecordId) (declarations : List NodeId)
    (exportPath : Option String) :
    Stays Skirts (emitExported w resolution id declarations exportPath) := by
  unfold emitExported
  dsimp only
  split
  · split
    · exact emitMonikers_skirts _ _ _ _
    · exact stays_pure
  · exact stays_pure

omit hr in
/-- Hover texts and monikers are in no outline. -/
theorem emitExtras_skirts (resolution : Resolution) (id : RecordId) (declarations : List NodeId)
    (exportPath : Option String) :
    Stays Skirts (emitExtras w resolution id declarations exportPath) := by
  unfold emitExtras
  dsimp only
  split
  · exact (emitHover_skirts _ _).bind fun _ => emitExported_skirts _ _ _ _
  · exact emitExported_skirts _ _ _ _

omit hr in
theorem describe_skirts (resolution : Resolution) (id : RecordId) (symbol : SymbolRef)
    (declarations : List NodeId) (exportPath : Option String) :
    Stays Skirts (describe w resolution id symbol declarations exportPath) :=
  (emitDefinitions_skirts _ _ _ _).bind fun _ => emitExtras_skirts _ _ _ _

omit hr in
theorem announce_skirts (resolution : Resolution) (id : RecordId) (symbol : SymbolRef)
    (declarations : List NodeId) (scope : Option NodeId) (exportPath : Option String) :
    Stays Skirts (announce w resolution id symbol declarations scope exportPath) := by
  cases scope with
  | none => exact describe_skirts _ _ _ _ _
  | some node => exact (store_skirts (Store.watch_skirts _ _)).bind fun _ => describe_skirts _ _ _ _ _

/-- A record is made without opening a container. -/
theorem create_skirts (symbol : SymbolRef) (location : Option NodeId) :
    Stays Skirts (create w resolver symbol location) := by
  unfold create
  dsimp only
  refine stays_ofExcept.bind fun declarations => (symbols_skirts _).bind fun exportPath => ?_
  exact (recordKind_skirts hr _ _ _ _).bind fun kind =>
    (store_skirts (Store.insert_skirts _)).bind fun id =>
      (announce_skirts _ _ _ _ _ _).bind fun _ => stays_pure

end Create

/-- By induction on the depth: looking for records opens and closes no container. -/
theorem resolveWithin_skirts (fuel : Nat) : ∀ symbol location,
    Stays Skirts (resolveWithin w fuel symbol location) := by
  induction fuel with
  | zero => exact fun _ _ => stays_throw
  | succ fuel ih =>
      intro symbol location
      refine (store_skirts (Store.lookup_skirts _)).bind fun found => ?_
      split
      · exact stays_pure
      · refine (store_skirts (Store.mark_skirts _ _)).bind fun _ =>
          (create_skirts ih _ _).attempt.bind fun result => ?_
        split
        · exact stays_pure
        · exact (store_skirts (Store.abandon_skirts _)).bind fun _ => stays_throw

/-- **Making records leaves the symbols of documents alone.** -/
theorem resolve_skirts (symbol : SymbolRef) (location : Option NodeId) :
    Stays Skirts (resolve w symbol location) :=
  resolveWithin_skirts _ symbol location

theorem assertExports_skirts (module : SymbolRef) (targets : List SymbolRef) :
    Stays Skirts (assertExports w module targets) := by
  induction targets with
  | nil => exact stays_pure
  | cons target targets ih =>
      exact (symbols_skirts _).bind fun _ => (symbols_skirts _).bind fun _ =>
        ih.bind fun _ => stays_pure

theorem assertForwards_skirts (declaration : NodeId) :
    Stays Skirts (assertForwards w declaration) := by
  unfold assertForwards
  dsimp only
  split
  · exact stays_pure
  · exact symbols_skirts _

/-- An identifier is no document symbol. -/
theorem visitIdentifier_skirts (node : NodeId) : Stays Skirts (visitIdentifier w node) := by
  unfold visitIdentifier
  dsimp only
  split
  · exact stays_pure
  · refine (resolve_skirts _ _).bind fun id =>
      (store_skirts (Store.hasInfo_skirts _)).bind fun known => ?_
    split
    · exact stays_pure
    · exact (lineRange_skirts _ _).bind fun _ =>
        (emit_skirts (Graph.vertex_skirts _)).bind fun _ =>
          (store_skirts (Store.addRange_skirts _)).bind fun _ =>
            (store_skirts Store.resultSet_skirts).bind fun _ =>
              (emit_skirts (Graph.link_skirts (by simp) _ _)).discard.bind fun _ =>
                store_skirts (Store.addReference_skirts _ _ _ _)

end SymbolGraph.Session
