import SymbolGraph.Proofs.Discipline
import SymbolGraph.Proofs.Session.Identity
import SymbolGraph.Proofs.Session.Walking
import SymbolGraph.Proofs.Store.Tallying

/-!
# Proofs — Session — how often records receive one id

A range is emitted, put into its document and recorded under one record, all within one operation on
a symbol; so nothing has been received of it when it is recorded.  A session that can be audited stays
so: by what ends well, and also when a symbol turns out to need itself.

* `Session.Audited`: there is a log that accounts for what every record received.
* `Session.Tallies`: an action that keeps this, unless it fails plainly.
* `Session.emitDefinition_tallies`, `Session.visitIdentifier_tallies`: what records a range.
* `Session.resolve_tallies`: looking for records.
* `Session.Reckons`, `Session.visitFile_reckons`: walking, which keeps it when it ends well.
-/

namespace SymbolGraph.Session

open SymbolGraph.Action SymbolGraph.Discipline

variable {faults : Nat → Option SinkFault} {s t u : Session} {w : Setting} {α β : Type}
  {id : RecordId} {file : FileId} {node : NodeId}

/-! ### Sessions that can be audited -/

/-- There is a log with a property that accounts for what every record received. -/
def Logs (s : Session) (which : List Receipt → Prop) : Prop :=
  ∃ log, s.store.Tallied log ∧ which log

/-- Records are written to in their time, and a log accounts for what they received. -/
structure Audited (faults : Nat → Option SinkFault) (s : Session) : Prop where
  sound   : s.Sound faults
  lasting : s.store.Lasting
  logs    : s.Logs fun _ => True

/-- What an action leaves that keeps this. -/
structure Audits (faults : Nat → Option SinkFault) (s t : Session) : Prop where
  audited : t.Audited faults
  grows   : s.store.Grows t.store

theorem Audited.stay (h : s.Audited faults) : Audits faults s s := ⟨h, .refl _⟩

/-- What can be audited at the end could be at both steps. -/
theorem Audits.trans (h : Audits faults s t) (h' : Audits faults t u) : Audits faults s u :=
  ⟨h'.audited, h.grows.trans h'.grows⟩

/-- The store stays the same. -/
theorem Audited.beside (h : s.Audited faults) (hstore : t.store = s.store)
    (hdefinitions : ∀ entry ∈ t.definitions.entries,
      Delivered s.store.elements .range entry.2.id) : Audits faults s t := by
  refine ⟨⟨⟨?_, ?_⟩, ?_, ?_⟩, ?_⟩
  · exact hstore ▸ h.sound.store
  · exact hstore ▸ hdefinitions
  · exact hstore ▸ h.lasting
  · unfold Logs
    exact hstore ▸ h.logs
  · exact hstore ▸ .refl _

/-- From a session that can be audited an action keeps this; nothing is said of faults that are not
blamed. -/
def auditing (faults : Nat → Option SinkFault) (blamed : Fault → Prop) :
    Discipline Session Fault where
  ready := Audited faults
  steps := Audits faults
  blames s fault t := blamed fault → Audits faults s t
  refl := Audited.stay
  trans := Audits.trans
  keeps _ h := h.audited
  carries h h' hblamed := h.trans (h' hblamed)

/-- An action that keeps a session that can be audited, unless it fails plainly. -/
abbrev Tallies (faults : Nat → Option SinkFault) (act : Running α) (s : Session)
    (post : α → Session → Prop) : Prop :=
  (auditing faults fun fault => ¬ fault.IsPlain).Follows act s post

section Tallies

variable {act : Running α} {post post' : α → Session → Prop} {which : List Receipt → Prop}

theorem tallies_of_does (h : s.Audited faults →
    Does faults act s fun a t => Audits faults s t ∧ post a t) : Tallies faults act s post :=
  fun hs => Ensures.mono (h hs) (fun _ _ ht => ht) fun _ _ hf hnot => absurd hf.2 hnot

/-- What else is known of an action. -/
theorem Tallies.and_runs (h : Tallies faults act s post)
    (hr : s.Sound faults → Runs faults act s post') :
    Tallies faults act s fun a t => post a t ∧ post' a t :=
  fun hs => ((h hs).and (hr hs.sound)).mono (fun _ _ ht => ⟨ht.1.1, ht.1.2, ht.2.2⟩)
    fun _ _ hf => hf.1

/-- An action on the store after which there is a log with a property. -/
theorem store_tallies {act : Store.Storing α} (post : α → Store → Prop)
    (which : List Receipt → Prop) (hdoes : s.Audited faults → Store.Does faults act s.store
      fun a t => s.store.Leads faults t ∧ t.Lasting ∧ post a t)
    (hlogs : s.Audited faults →
      Ensures act s.store (fun _ t => ∃ log, t.Tallied log ∧ which log) fun _ _ => True) :
    Tallies faults (liftM act) s fun a t => post a t.store ∧ t.Logs which := by
  refine fun hs => ensures_onPart.mpr (((hdoes hs).and (hlogs hs)).mono (fun a t ht => ?_)
    fun _ _ hf hnot => absurd hf.1.2 hnot)
  obtain ⟨⟨hleads, hlasting, hpost⟩, log, hlog, hwhich⟩ := ht
  have hsound := (leads_store hs.sound hleads).sound
  exact ⟨⟨⟨hsound, hlasting, log, hlog, trivial⟩, hleads.grows⟩, hpost, log, hlog, hwhich⟩

/-- An action on the store that gives something, and of which nothing else is asked. -/
theorem gives_tallies {act : Store.Storing α}
    (hdoes : s.Audited faults → Store.Does faults act s.store fun _ t =>
      s.store.Leads faults t ∧ t.Lasting)
    (hlogs : s.Audited faults →
      Ensures act s.store (fun _ t => ∃ log, t.Tallied log) fun _ _ => True) :
    Tallies faults (liftM act) s fun _ _ => True := by
  refine (store_tallies (fun _ _ => True) (fun _ => True)
    (fun hs => (hdoes hs).mono fun _ _ ht => ⟨ht.1, ht.2, trivial⟩)
    fun hs => (hlogs hs).mono (fun _ t ht => ?_) fun _ _ hf => hf).mono fun _ _ _ => trivial
  obtain ⟨log, hlog⟩ := ht
  exact ⟨log, hlog, trivial⟩

/-- An action on the store that keeps every log. -/
theorem spare_tallies {act : Store.Storing α} (post : α → Store → Prop)
    (hdoes : s.Audited faults → Store.Does faults act s.store fun a t =>
      (∃ facts, s.store.Posts faults t facts) ∧ post a t)
    (hgives : ∀ log, s.store.Conserves log →
      Ensures act s.store (fun _ t => t.Conserves log) fun _ _ => True)
    (hlogs : s.Logs which) :
    Tallies faults (liftM act) s fun a t => post a t.store ∧ t.Logs which := by
  obtain ⟨log, hlog, hwhich⟩ := hlogs
  refine store_tallies post which (fun hs => (hdoes hs).mono fun a t ht => ?_)
    fun hs => ?_
  · obtain ⟨⟨facts, hposts⟩, hpost⟩ := ht
    exact ⟨hposts.leads, hposts.lasting hs.lasting, hpost⟩
  · refine ((hdoes hs).and (hgives log hlog.conserves)).mono (fun a t ht => ?_)
      fun _ _ _ => trivial
    obtain ⟨⟨⟨facts, hposts⟩, -⟩, hconserves⟩ := ht
    exact ⟨log, hlog.settle hs.sound.store hposts.grows hposts.size hconserves, hwhich⟩

/-- An action on the store that gives nothing. -/
theorem receives_tallies {act : Store.Storing α} {given : α → Store → Prop}
    (post : α → Store → Prop) (hdoes : s.Audited faults → Store.Does faults act s.store
      fun a t => (∃ facts, s.store.Posts faults t facts) ∧ post a t)
    (hgives : Store.Receives act s.store [] given) (hlogs : s.Logs which) :
    Tallies faults (liftM act) s fun a t => post a t.store ∧ t.Logs which := by
  refine spare_tallies post hdoes (fun log hlog => ?_) hlogs
  exact (hgives log hlog).mono (fun _ t ht => List.append_nil log ▸ ht.1) fun _ _ _ => trivial

/-- An action on the store that gives nothing and of which nothing else is asked. -/
theorem quiet_tallies {act : Store.Storing α} {given : α → Store → Prop}
    (hdoes : s.store.Sound faults → Store.Does faults act s.store
      fun _ t => s.store.Posts faults t ∅) (hgives : Store.Receives act s.store [] given) :
    Tallies faults (liftM act) s fun _ _ => True := by
  intro hs
  have hkept := receives_tallies (fun _ _ => True)
    (fun h => (hdoes h.sound.store).mono fun _ _ ht => ⟨⟨∅, ht⟩, trivial⟩) hgives hs.logs
  exact hkept.mono (fun _ _ _ => trivial) hs

/-- An action that reads the store. -/
theorem read_tallies {act : Store.Storing α} {post : α → Prop} (hdoes : s.store.Sound faults →
    Store.Does faults act s.store fun a t => s.store = t ∧ post a) :
    Tallies faults (liftM act) s fun a t => t = s ∧ post a := by
  refine tallies_of_does fun hs => (does_store hs.sound (hdoes hs.sound.store)).mono ?_
  rintro a _ ⟨_, rfl, rfl, hpost⟩
  exact ⟨hs.stay, rfl, hpost⟩

theorem symbols_tallies {act : StateM Symbols α} :
    Tallies faults (liftM act : Running α) s fun _ _ => True :=
  fun hs => ensures_onPartSafely.mpr ⟨hs.beside rfl hs.sound.definitions, trivial⟩

/-- Reading off a range leaves the store alone. -/
theorem lineRange_tallies {range : TextRange} :
    Tallies faults (lineRange w file range) s fun _ t => t.store = s.store := by
  refine tallies_of_does fun hs => (lineRange_does w file range).mono fun _ t ht => ?_
  obtain ⟨lineIndexes, rfl⟩ := ht
  exact ⟨hs.beside rfl hs.sound.definitions, rfl⟩

/-- A vertex of which nothing has been received. -/
theorem vertex_tallies (v : Vertex) (hv : v.label ≠ .document) :
    Tallies faults (emit (Graph.vertex v)) s fun ref t =>
      Delivered t.store.elements v.label ref.id ∧
        t.Logs fun log => ∀ receipt ∈ log, receipt.id ≠ ref.id := by
  intro hs
  obtain ⟨log, hlog, -⟩ := hs.logs
  have hquiet : Ensures (emit (Graph.vertex v)) s (fun _ t => t.store.Conserves (log ++ []))
      fun _ _ => True :=
    ensures_onPart.mpr ((Store.vertex_receives hv log hlog.conserves).mono (fun _ _ ht => ht.1)
      fun _ _ _ => trivial)
  refine ((emit_vertex_does hs.sound v).and hquiet).mono (fun ref t ht => ?_)
    fun _ _ hf hnot => absurd hf.1.2 hnot
  obtain ⟨⟨store, rfl, -, hposts, hdelivered, hfresh⟩, hconserves⟩ := ht
  have hkept : store.Tallied log := hlog.settle hs.sound.store hposts.grows hposts.size
    (List.append_nil log ▸ hconserves)
  have hsound := (leads_store hs.sound hposts.leads).sound
  refine ⟨⟨⟨hsound, hposts.lasting hs.lasting, log, hkept, trivial⟩, hposts.grows⟩, hdelivered, log,
    hkept, fun receipt hreceipt heq => ?_⟩
  obtain ⟨label, v', -, hmem⟩ := hlog.delivered receipt hreceipt
  exact hfresh _ hmem heq

end Tallies

/-- Records keep their kinds. -/
theorem Audits.kind? (h : Audits faults s t) {kind : RecordKind}
    (hk : s.store.kind? id = some kind) : t.store.kind? id = some kind :=
  (h.grows.kind? (Store.lt_of_kind? hk)).trans hk

/-! ### What is emitted for a new record -/

/-- A range is put into the document of its file. -/
theorem addRange_tallies {range : ElementId} {which : List Receipt → Prop}
    (hrange : Delivered s.store.elements .range range) (hlogs : s.Logs which) :
    Tallies faults (liftM (Store.addRange w file range)) s fun _ t =>
      (∃ document, t.store.documents.get? file = some (.live document)) ∧ t.Logs which := by
  refine receives_tallies (fun _ t => ∃ document, t.documents.get? file = some (.live document))
    (fun hs => (Store.addRange_does hs.sound.store hrange).mono fun _ t ht => ?_)
    Store.addRange_receives hlogs
  obtain ⟨document, hdocument, hposts, -⟩ := ht
  exact ⟨⟨_, hposts⟩, document, hdocument⟩

/-- **A definition range is recorded** under its record, for the first time. -/
theorem emitDefinition_tallies {kind : RecordKind} (hk : s.store.kind? id = some kind)
    (haccepts : kind.acceptsDefinitions = true) {resolution : Resolution} {symbol : SymbolRef}
    {declaration : NodeId} :
    Tallies faults (emitDefinition w resolution id symbol declaration) s fun _ _ => True := by
  unfold emitDefinition
  dsimp only
  split
  · exact follows_pure trivial
  · rename_i name text hname
    refine (read_tallies fun hs => (Store.hasInfo_does hs _).mono fun _ _ ht => ht).bind
      fun known s₀ h₀ _ hread => ?_
    obtain ⟨rfl, -⟩ := hread
    split
    · exact follows_pure trivial
    · refine lineRange_tallies.bind fun fullRange s₁ h₁ _ _ => ?_
      refine lineRange_tallies.bind fun span s₂ h₂ _ _ => ?_
      refine (vertex_tallies (.range _ _) nofun).bind fun range s₃ h₃ _ hrange => ?_
      obtain ⟨hrange, hlogs₃⟩ := hrange
      refine (addRange_tallies hrange hlogs₃).bind fun _ s₄ h₄ _ hadded => ?_
      obtain ⟨⟨document, hdocument⟩, hlogs₄⟩ := hadded
      have hrange₄ := hrange.mono h₄.grows.elements
      have hdefine : Tallies faults (modify fun s => { s with
          definitions := s.definitions.insert name range }) s₄ fun _ t => t.store = s₄.store :=
        fun hs => ensures_modify.mpr
          ⟨hs.beside rfl (leads_definition hs.sound name hrange₄).sound.definitions, rfl⟩
      refine hdefine.bind fun _ s₅ h₅ _ hsame => ?_
      have hlogs₅ : s₅.Logs fun log => ∀ receipt ∈ log, receipt.id ≠ range.id := by
        unfold Logs
        exact hsame ▸ hlogs₄
      have hdocument₅ : s₅.store.documents.get? (w.program.fileOf declaration)
          = some (.live document) := hsame ▸ hdocument
      refine (receives_tallies (fun _ t => t.documents.get? (w.program.fileOf declaration)
          = some (.live document)) (fun hs => (Store.addInfo_does hs.sound.store _).mono fun _ _ ht =>
            ⟨⟨_, ht.1⟩, ht.2.documents _ document hdocument₅⟩) Store.addInfo_receives hlogs₅).bind
        fun _ s₆ h₆ _ hinfo => ?_
      obtain ⟨hdocument₆, log, hlog, hnew⟩ := hinfo
      -- The range has no receipt yet: it has just been issued, and `addInfo` gives none.
      have hsteps := ((((h₁.trans h₂).trans h₃).trans h₄).trans h₅).trans h₆
      have hk₆ := hsteps.kind? hk
      have hrange₆ := hrange₄.mono (h₅.trans h₆).grows.elements
      refine gives_tallies (fun hs => ?_) fun hs => Store.addDefinition_tallies hlog hs.sound.store
        hs.lasting hrange₆ hdocument₆ hk₆ haccepts hnew
      refine (Store.addDefinition_does hs.sound.store hrange₆ hdocument₆ hk₆ haccepts).mono
        fun _ t ht => ?_
      obtain ⟨hub, -, hposts⟩ := ht
      exact ⟨hposts.leads, hposts.lasting hs.lasting⟩

/-- The definition ranges of declarations are emitted and received one by one. -/
theorem emitDefinitions_tallies {resolution : Resolution} {symbol : SymbolRef}
    {declarations : List NodeId} :
    Tallies faults (emitDefinitions w resolution id symbol declarations) s fun _ _ => True := by
  refine (read_tallies fun hs => Store.record_does hs id).bind fun r t _ _ hread => ?_
  obtain ⟨rfl, hr⟩ := hread
  split
  · rename_i haccepts
    -- The kind of the record is the same in every round.
    refine (Follows.forM (fun u => u.store.kind? id = some r.kind) declarations
      (fun declaration _ u hu => ?_) (Store.kind?_of_record hr)).mono fun _ _ _ => trivial
    exact (emitDefinition_tallies hu haccepts).imp fun _ v huv _ => huv.kind? hu
  · exact follows_pure trivial

/-- A hover text is received by no list. -/
theorem emitHover_tallies {declarations : List NodeId} :
    Tallies faults (emitHover w id declarations) s fun _ _ => True := by
  unfold emitHover
  split
  · exact follows_pure trivial
  · exact (vertex_tallies (.hoverResult _) nofun).bind fun hover t _ _ ht =>
      quiet_tallies (fun hs => Store.addHover_does hs ht.1) Store.addHover_receives

/-- Monikers are received by no list. -/
theorem emitMonikers_tallies {files : List FileId} {kind : LocationKind} {exportPath : String} :
    Tallies faults (emitMonikers w id files kind exportPath) s fun _ _ => True := by
  refine (vertex_tallies (.moniker _) nofun).bind fun moniker t _ _ ht => ?_
  -- The moniker of the record itself comes last.
  have hlast (u : Session) (htu : Audits faults t u) :
      Tallies faults (liftM (Store.addMoniker id moniker.id) : Running Unit) u fun _ _ => True :=
    quiet_tallies (fun hs => Store.addMoniker_does hs (ht.1.mono htu.grows.elements))
      Store.addMoniker_receives
  split
  · split
    · refine (vertex_tallies (.moniker _) nofun).bind fun attached u htu _ hu => ?_
      have hjoins : LinkKind.attach.Joins u.store.elements attached.id moniker.id :=
        ⟨hu.1, ht.1.mono htu.grows.elements⟩
      have hattach : Tallies faults (emit (Graph.link .attach attached.id moniker.id)) u
          fun _ _ => True :=
        quiet_tallies (fun hs => Store.quietLink_does hs (by decide) hjoins)
          fun log hlog => ensures_discard.mp (Store.link_receives _ _ _ log hlog)
      exact hattach.discard.bind fun _ v huv _ _ => hlast v (htu.trans huv)
    · exact fun hready => hlast t hready.stay hready
  · exact fun hready => hlast t hready.stay hready

/-- With or without an export path, nothing is received. -/
theorem emitExported_tallies {resolution : Resolution} {declarations : List NodeId}
    {exportPath : Option String} :
    Tallies faults (emitExported w resolution id declarations exportPath) s fun _ _ => True := by
  unfold emitExported
  dsimp only
  split
  · split
    · exact emitMonikers_tallies
    · exact follows_pure trivial
  · exact follows_pure trivial

/-- Hover text and monikers are received by no list. -/
theorem emitExtras_tallies {resolution : Resolution} {declarations : List NodeId}
    {exportPath : Option String} :
    Tallies faults (emitExtras w resolution id declarations exportPath) s fun _ _ => True := by
  unfold emitExtras
  dsimp only
  split
  · exact emitHover_tallies.bind fun _ _ _ _ _ => emitExported_tallies
  · exact emitExported_tallies

theorem describe_tallies {resolution : Resolution} {symbol : SymbolRef}
    {declarations : List NodeId} {exportPath : Option String} :
    Tallies faults (describe w resolution id symbol declarations exportPath) s fun _ _ => True :=
  emitDefinitions_tallies.bind fun _ _ _ _ _ => emitExtras_tallies

/-- **Only definition ranges are received** of what is emitted for a new record, and each of them
for the first time. -/
theorem announce_tallies {resolution : Resolution} {symbol : SymbolRef}
    {declarations : List NodeId} {scope : Option NodeId} {exportPath : Option String} :
    Tallies faults (announce w resolution id symbol declarations scope exportPath) s
      fun _ _ => True := by
  cases scope with
  | none => exact describe_tallies
  | some node =>
      exact (quiet_tallies (fun hs => (Store.watch_does hs).mono fun _ _ ht => ht.1)
        (Store.watch_receives node)).bind fun _ _ _ _ _ => describe_tallies

/-! ### Making a record -/

/-- A resolver that keeps a session that can be audited. -/
def Resolver.Tallies (faults : Nat → Option SinkFault) (resolve : Resolver) : Prop :=
  ∀ symbol location (s : Session),
    Session.Tallies faults (resolve symbol location) s fun _ _ => True

section Making

variable {resolve : Resolver} (hr : resolve.Tallies faults)

include hr

/-- A base that needs the symbol itself is left out, and the session can be audited then. -/
theorem resolveBases_tallies : ∀ (bases : List SymbolRef) (s : Session),
    Tallies faults (resolveBases resolve bases) s fun _ _ => True
  | [], _ => follows_pure trivial
  | base :: bases, s => by
      intro hs
      refine ensures_bind.mpr (ensures_attempt.mpr ((hr base none s hs).mono (fun id t ht => ?_)
        fun fault t hf => ?_))
      · have hrest : Tallies faults (do return id :: (← resolveBases resolve bases)) t
            fun _ _ => True :=
          (resolveBases_tallies bases t).bind fun _ _ _ _ _ => follows_pure trivial
        exact hrest.after hs ht.1
      · cases fault with
        | cyclicResolution key =>
            exact (resolveBases_tallies bases t).after hs (hf fun hplain => hplain key rfl)
        | _ => exact ensures_throw.mpr hf

/-- The properties behind a shared one are collected once each. -/
theorem resolveProperties_tallies {name : String} {location : NodeId} :
    ∀ (types : List TypeRef) (known : List RecordId) (s : Session), known.Nodup →
      Tallies faults (resolveProperties w resolve name location known types) s
        fun ids _ => ids.Nodup
  | [], _, _, hknown => follows_pure hknown
  | type :: types, known, s, hknown => by
      unfold resolveProperties
      split
      · exact resolveProperties_tallies types known s hknown
      · refine (hr _ _ s).bind fun id t _ _ _ => resolveProperties_tallies types _ t ?_
        split
        · exact hknown
        · rename_i hnew
          exact List.concat_eq_append ▸ hknown.concat hnew

/-- A method is given the records of its bases, each once. -/
theorem methodKind_tallies {symbol : SymbolRef} (site : Option NodeId) (bases : List SymbolRef)
    (s : Session) : Tallies faults (methodKind w resolve symbol site bases) s
      fun kind _ => kind.arms.Nodup := by
  cases site with
  | none => exact follows_pure List.nodup_nil
  | some node =>
      exact (resolveBases_tallies hr _ s).bind fun _ _ _ _ _ => follows_pure List.nodup_nil

/-- No property is twice behind a new record. -/
theorem recordKind_tallies {resolution : Resolution} {symbol : SymbolRef} {location : Option NodeId}
    {declarations : List NodeId} :
    Tallies faults (recordKind w resolve resolution symbol location declarations) s
      fun kind _ => kind.arms.Nodup := by
  cases resolution with
  | standard => exact follows_pure List.nodup_nil
  | typeAlias => exact follows_pure List.nodup_nil
  | transient => exact follows_pure List.nodup_nil
  | ofAlias =>
      unfold recordKind
      dsimp only
      cases w.program.aliasedSymbol symbol with
      | none => exact follows_pure List.nodup_nil
      | some target =>
          exact (hr target none s).bind fun _ _ _ _ _ => follows_pure List.nodup_nil
  | method =>
      unfold recordKind
      dsimp only
      cases w.program.parentSymbol symbol with
      | none => exact methodKind_tallies hr _ [] s
      | some parent =>
          exact symbols_tallies.bind fun found t _ _ _ =>
            methodKind_tallies hr (declarations.head?.or location) _ t
  | composite =>
      unfold recordKind
      dsimp only
      cases location with
      | none => exact follows_pure List.nodup_nil
      | some node =>
          exact (resolveProperties_tallies hr _ [] s List.nodup_nil).bind fun _ _ _ _ hids =>
            follows_pure hids

end Making

/-- **A new record is tied to those that it passes on to.** -/
theorem insert_tallies {key : SymbolKey} {kind : RecordKind} {scope : Option NodeId}
    (hpasses : PassesOn kind s) (hscope : kind.acceptsDefinitions = false → scope = none)
    (hdistinct : kind.arms.Nodup) :
    Tallies faults (liftM (Store.insert w { key, kind, scope }) : Running RecordId) s
      fun _ _ => True := by
  refine gives_tallies (fun hs => ?_) fun hs => ?_
  · refine (Store.insert_does hs.sound.store hpasses).mono fun id t ht => ?_
    obtain ⟨-, hub, u, facts, hopened, hposts, -⟩ := ht
    exact ⟨hopened.leads.trans hposts.leads, hposts.lasting (hopened.lasting hscope hs.lasting)⟩
  · obtain ⟨log, hlog, -⟩ := hs.logs
    exact Store.insert_tallies hlog hs.sound.store hs.lasting hscope hpasses hdistinct

/-- A record is new when its definitions are received, so nothing was received of them. -/
theorem create_tallies {resolve : Resolver} (hr : resolve.Tallies faults)
    (hsound : resolve.Sound faults) {symbol : SymbolRef} {location : Option NodeId} :
    Tallies faults (create w resolve symbol location) s fun _ _ => True := by
  unfold create
  dsimp only
  refine Follows.bind (show Tallies faults _ s fun _ _ => True from ?_)
    fun declarations s₁ _ _ _ => ?_
  · cases Resolution.declarations (w.program.resolution symbol location) w.program symbol
      location with
    | ok declarations => exact follows_pure trivial
    | error fault => exact fun hs => ensures_ofExcept_error.mpr fun _ => hs.stay
  refine symbols_tallies.bind fun exportPath s₂ _ _ _ => ?_
  refine ((recordKind_tallies hr).and_runs fun hs => recordKind_runs hs hsound _ _ _ _).bind
    fun kind s₃ _ _ hkind => ?_
  refine (insert_tallies hkind.2 ?_ hkind.1).bind fun id s₄ _ _ _ => ?_
  · -- A record without definitions gets no scope.
    intro hdefinitions
    simp only [hdefinitions, Bool.not_false, Bool.true_or, if_true]
  exact announce_tallies.bind fun _ _ _ _ _ => follows_pure trivial

/-- The cache changes. -/
theorem Audited.cache (h : s.Audited faults) {cache : Table SymbolKey CacheSlot}
    (hcache : ∀ key id, cache.get? key = some (.live id) → s.store.cache.get? key = some (.live id)) :
    Audits faults s { s with store := { s.store with cache } } := by
  obtain ⟨log, hlog, -⟩ := h.logs
  have hposts := Store.cache_posts h.sound.store fun key id hid => .inl (hcache key id hid)
  have hconserves : Store.Conserves log { s.store with cache } :=
    hlog.conserves.aside (.of_remarks (.refl hlog.conserves.dated.memory) rfl rfl)
  exact ⟨⟨(leads_store h.sound hposts.leads).sound, hposts.lasting h.lasting, log,
    hlog.settle h.sound.store hposts.grows hposts.size hconserves, trivial⟩, hposts.grows⟩

/-- By induction on the depth: looking for a record keeps the log in step, also where a symbol needs
itself. -/
theorem resolveWithin_tallies : ∀ fuel, Resolver.Tallies faults (resolveWithin w fuel)
  | 0, _, _, _ => follows_throw fun hnot => absurd nofun hnot
  | fuel + 1, symbol, location, s => by
      unfold resolveWithin seek
      dsimp only
      intro hs
      refine ensures_bind.mpr ((lookup_ensures s _).mono (fun found t ht => ?_)
        fun fault t ht _ => ht ▸ hs.stay)
      obtain ⟨rfl, -⟩ := ht
      cases found with
      | some id => exact ensures_pure.mpr ⟨hs.stay, trivial⟩
      | none =>
          have hreserve : Audits faults t { t with store := { t.store with
              cache := t.store.cache.insert (w.program.key symbol) .resolving } } := by
            refine hs.cache fun key id hid => ?_
            rw [Table.get?_insert] at hid
            split at hid
            · cases hid
            · exact hid
          refine ensures_bind.mpr (ensures_onPart.mpr (ensures_modify.mpr
            (ensures_onFailure.mpr (((create_tallies (resolveWithin_tallies fuel)
              (resolveWithin_sound fuel)).after hs hreserve).mono (fun _ _ hu => hu)
                fun fault u hf => ?_))))
          -- A failure on the way gives the place in the cache free.
          refine ensures_onPart.mpr (ensures_modify.mpr fun hnot => (hf hnot).trans ?_)
          split
          · refine (hf hnot).audited.cache fun key id hid => ?_
            rw [Table.get?_erase] at hid
            split at hid
            · cases hid
            · exact hid
          · exact (hf hnot).audited.stay

/-- **Resolving a symbol keeps a session that can be audited.** -/
theorem resolve_tallies {symbol : SymbolRef} {location : Option NodeId} :
    Tallies faults (resolve w symbol location) s fun _ _ => True :=
  resolveWithin_tallies _ symbol location s

/-! ### Walking -/

/-- **A reference is recorded** under the record of its symbol, for the first time. -/
theorem visitIdentifier_tallies :
    Tallies faults (visitIdentifier w node) s fun _ _ => True := by
  unfold visitIdentifier
  dsimp only
  split
  · exact follows_pure trivial
  · refine resolve_tallies.bind fun id s₀ _ _ _ => ?_
    refine (read_tallies fun hs => Store.hasInfo_does hs _).bind fun known s₁ _ _ hread => ?_
    obtain ⟨rfl, -⟩ := hread
    split
    · exact follows_pure trivial
    · refine lineRange_tallies.bind fun span s₂ _ _ _ => ?_
      refine (vertex_tallies (.range _ _) nofun).bind fun range s₃ _ _ hrange => ?_
      obtain ⟨hrange, hlogs₃⟩ := hrange
      refine (addRange_tallies hrange hlogs₃).bind fun _ s₄ h₄ _ hadded => ?_
      obtain ⟨-, hlogs₄⟩ := hadded
      have hrange₄ := hrange.mono h₄.grows.elements
      refine (read_tallies fun hs => Store.resultSet_does hs).bind fun hub s₅ _ _ hread => ?_
      obtain ⟨rfl, hhub, hset⟩ := hread
      -- The `next` edge precedes the reference, so the range has a hub when the receipt is given.
      have hlink : Tallies faults (emit (Graph.link .next range.id hub.id)) s₅ fun _ t =>
          Linked t.store.elements .next range.id hub.id ∧
            t.Logs fun log => ∀ receipt ∈ log, receipt.id ≠ range.id := by
        refine receives_tallies (fun _ t => Linked t.elements .next range.id hub.id) (fun hs =>
          (Store.next_does hs.sound.store (.inl hrange₄) hset).mono fun _ t ht => ?_)
          (fun log hlog => ensures_discard.mp (Store.link_receives _ _ _ log hlog)) hlogs₄
        obtain ⟨g, -, hposts⟩ := ht
        exact ⟨⟨_, hposts⟩, (hposts.holds hs.lasting _).mpr (.inr rfl)⟩
      refine hlink.discard.bind fun _ s₆ h₆ _ hlinked => ?_
      obtain ⟨hnext, log, hlog, hnew⟩ := hlinked
      have hrange₆ := hrange₄.mono h₆.grows.elements
      refine gives_tallies (fun hs => ?_) fun hs => Store.addReference_tallies hlog hs.sound.store
        hs.lasting hrange₆ (h₆.grows.hub? hhub) hnext hnew
      refine (Store.addRangeReference_does hs.sound.store hrange₆).mono fun _ t ht => ?_
      obtain ⟨facts, hposts, -⟩ := ht
      exact ⟨hposts.leads, hposts.lasting hs.lasting⟩

/-- An action that keeps a session that can be audited when it ends well. -/
abbrev Reckons (faults : Nat → Option SinkFault) (act : Running α) (s : Session) : Prop :=
  (auditing faults fun _ => False).Follows act s fun _ _ => True

section Reckons

variable {act last walk : Running Unit}

/-- What tallies reckons. -/
theorem Tallies.reckons {act : Running α} {post : α → Session → Prop}
    (h : Tallies faults act s post) : Reckons faults act s :=
  fun hs => (h hs).mono (fun _ _ ht => ⟨ht.1, trivial⟩) fun _ _ _ => False.elim

/-- What has to be done at the end is done also after a failure. -/
theorem Reckons.andThen (h : Reckons faults act s) (hlast : ∀ t, Reckons faults last t) :
    Reckons faults (andThen act last) s := by
  refine fun hs => ensures_andThen.mpr ((h hs).mono (fun _ t ht => ?_) fun _ t _ => ?_)
  · exact (hlast t).after hs ht.1
  · exact (ensures_true last t).mono (fun _ _ _ => False.elim) fun _ _ _ => False.elim

/-- By induction on the list, every round reckons. -/
theorem reckons_forM {go : α → Running PUnit} (list : List α) (h : ∀ a t, Reckons faults (go a) t) :
    Reckons faults (list.forM go) s :=
  Follows.forM (fun _ => True) list (fun a _ t _ => h a t) trivial

/-- An action on the store that gives nothing. -/
theorem quiet_reckons {act : Store.Storing α} {given : α → Store → Prop}
    (hdoes : s.store.Sound faults → Store.Does faults act s.store
      fun _ t => s.store.Posts faults t ∅) (hgives : Store.Receives act s.store [] given) :
    Reckons faults (liftM act) s :=
  (quiet_tallies hdoes hgives).reckons

/-! ### Entering -/

/-- Exports are asserted beside the store. -/
theorem assertExports_reckons (module : SymbolRef) (targets : List SymbolRef) :
    ∀ s, Reckons faults (assertExports w module targets) s := by
  induction targets with
  | nil => exact fun _ => follows_pure trivial
  | cons target targets ih =>
      intro s
      refine (symbols_tallies.reckons).bind fun _ t _ _ _ => ?_
      refine (symbols_tallies.reckons).bind fun _ u _ _ _ => ?_
      exact (ih u).bind fun _ _ _ _ _ => follows_pure trivial

/-- Overrides are released beside the store. -/
theorem underOverrides_reckons {overrides : List Override} (h : Reckons faults walk s) :
    Reckons faults (underOverrides overrides walk) s :=
  h.andThen fun _ => reckons_forM _ fun _ _ => symbols_tallies.reckons

theorem insideContainer_reckons (h : Reckons faults walk s) :
    Reckons faults (insideContainer w file walk) s :=
  h.andThen fun _ => quiet_reckons (fun hs => Store.endContainer_does hs) Store.endContainer_receives

/-- A file is walked under its overrides, once its record was looked for. -/
theorem insideSourceFile_reckons (hwalk : ∀ t, Reckons faults walk t) :
    Reckons faults (insideSourceFile w node walk) s := by
  have hdocument : Reckons faults
      (liftM (Store.document w (w.program.fileOf node)) : Running Document) s :=
    quiet_reckons (fun hs => (Store.document_does hs).mono fun _ _ ht => ht.1)
      (Store.document_receives _)
  refine hdocument.discard.bind fun _ t _ _ _ => ?_
  split
  · exact hwalk t
  · refine (assertExports_reckons _ _ t).bind fun overrides u _ _ _ => ?_
    exact underOverrides_reckons (resolve_tallies.reckons.discard.bind fun _ v _ _ _ => hwalk v)

/-- The body of a declaration, inside a container for the range of its name. -/
theorem insideNamed_reckons {name : NodeId} (hwalk : ∀ t, Reckons faults walk t) :
    Reckons faults (insideNamed w file name walk) s := by
  intro hs
  refine ensures_bind.mpr (ensures_bind.mpr (ensures_get.mpr (ensures_pure.mpr ?_)))
  cases hr : s.definitions.get? name with
  | none => exact hwalk s hs
  | some range =>
      have hrange := hs.sound.definitions _ (Table.mem_entries_of_get? hr)
      have hbegin : Reckons faults (liftM (Store.beginContainer w file range.id) : Running Unit) s :=
        quiet_reckons (fun h => Store.beginContainer_does h hrange) Store.beginContainer_receives
      exact (hbegin.bind fun _ t _ _ _ => insideContainer_reckons (hwalk t)) hs

/-- A declaration is walked, once its record was looked for. -/
theorem insideDocumentSymbol_reckons (hwalk : ∀ t, Reckons faults walk t) :
    Reckons faults (insideDocumentSymbol w node walk) s := by
  unfold insideDocumentSymbol
  split
  · exact hwalk s
  · split
    · exact resolve_tallies.reckons.discard.bind fun _ _ _ _ _ => insideNamed_reckons hwalk
    · exact insideNamed_reckons hwalk

theorem assertForwards_reckons : Reckons faults (assertForwards w node) s := by
  unfold assertForwards
  dsimp only
  split
  · exact follows_pure trivial
  · exact symbols_tallies.reckons

/-- By cases of the node: what comes before its children reckons. -/
theorem inside_reckons (hwalk : ∀ t, Reckons faults walk t) :
    Reckons faults (inside w node walk) s := by
  unfold inside
  split
  · exact insideSourceFile_reckons hwalk
  · exact visitIdentifier_tallies.reckons.bind fun _ t _ _ _ => hwalk t
  · exact assertForwards_reckons.bind fun _ _ _ _ _ =>
      underOverrides_reckons (insideDocumentSymbol_reckons hwalk)
  · split
    · exact insideDocumentSymbol_reckons hwalk
    · exact hwalk s

/-! ### Leaving -/

/-- A node that is left closes records, which lists what was received and receives nothing. -/
theorem leave_reckons : Reckons faults (leave w node) s := by
  have hprocessed : Reckons faults (liftM (Store.nodeProcessed w node) : Running Unit) s := by
    intro hs
    have hkept : Tallies faults (liftM (Store.nodeProcessed w node) : Running Unit) s _ :=
      spare_tallies (fun _ _ => True) (fun hs => (Store.nodeProcessed_does hs.sound.store).mono
        fun _ _ ht => ⟨⟨_, ht⟩, trivial⟩) (fun _ hlog => Store.nodeProcessed_conserves node hlog)
        hs.logs
    exact hkept.reckons hs
  refine hprocessed.bind fun _ t _ _ _ => ?_
  split
  · have hend : Reckons faults
        (liftM (Store.endDocument w (w.program.fileOf node)) : Running Unit) t :=
      quiet_reckons (fun hs => (Store.endDocument_does hs).mono fun _ _ ht =>
        ht.1.posts (Store.lasting_of_records ht.2.1)) (Store.endDocument_receives _)
    refine hend.bind fun _ u _ _ _ hu => ensures_modify.mpr ⟨hu.beside rfl fun entry hentry => ?_,
      trivial⟩
    exact hu.sound.definitions entry (List.mem_filter.mp hentry).1
  · exact follows_pure trivial

/-- By induction on the depth: a node, what is below it, and leaving it. -/
theorem visitWithin_reckons : ∀ (fuel : Nat) (node : NodeId) (s : Session),
    Reckons faults (visitWithin w fuel node) s
  | 0, _, _ => follows_throw False.elim
  | fuel + 1, _, _ =>
      (inside_reckons fun _ => reckons_forM _ (visitWithin_reckons fuel)).bind fun _ _ _ _ _ =>
        leave_reckons

/-- **Walking a file keeps a session that can be audited.** -/
theorem visitFile_reckons : Reckons faults (visitFile w file) s := visitWithin_reckons _ _ s

end Reckons

end SymbolGraph.Session
