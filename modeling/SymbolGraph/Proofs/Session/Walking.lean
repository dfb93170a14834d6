import SymbolGraph.Proofs.Session.Resolving
import SymbolGraph.Session.Walk

/-!
# Proofs — Session — walking keeps a session in order

The walk of a file makes records and files a reference for every identifier; on its way out it closes
what is over.  A walk that fails leaves a sound session, and one that ends well keeps a session in
order.

* `Session.visitIdentifier_runs`: a reference is emitted and filed.
* `Session.visitFile_walks`: walking a file.
* `Session.projectProcessed_ends`: the end of the project writes out all that is left.
-/

namespace SymbolGraph.Session

open SymbolGraph.Action

variable {faults : Nat → Option SinkFault} {s t : Session} {w : Setting} {id : RecordId}
  {file : FileId} {node : NodeId} {walk : Running Unit}

/-- Looking for a record in a sound session ends with a record that there is. -/
theorem resolve_runs (hs : s.Sound faults) (symbol : SymbolRef) (location : Option NodeId) :
    Runs faults (resolve w symbol location) s fun id t => id.index < t.store.records.size :=
  resolve_sound symbol location s hs

/-- An action on the store that posts nothing. -/
theorem walks_store {α : Type} {act : Store.Storing α} (hs : s.Sound faults)
    (h : Store.Does faults act s.store fun _ store => s.store.Posts faults store ∅) :
    Walks faults (liftM act : Running α) s :=
  (runs_store (fun _ _ => True) hs (h.mono fun _ _ hposts => ⟨hposts, trivial⟩)).walks

/-! ### Entering -/

/-- By induction on the targets: each of them is asserted. -/
theorem assertExports_runs (module : SymbolRef) :
    ∀ (targets : List SymbolRef) {s : Session}, s.Sound faults →
      Runs faults (assertExports w module targets) s fun _ _ => True
  | [], _, hs => runs_pure hs trivial
  | _ :: targets, _, hs => by
      unfold assertExports
      refine (runs_symbols hs _).bind fun parent t h _ => ?_
      refine (runs_symbols h.sound _).bind fun exported u h' _ => ?_
      exact (assertExports_runs module targets h'.sound).bind fun _ v h'' _ =>
        runs_pure h''.sound trivial

/-- Overrides are about symbols only. -/
theorem underOverrides_walks (overrides : List Override) (h : Walks faults walk s) :
    Walks faults (underOverrides overrides walk) s := by
  refine Walks.andThen h fun t ht => walks_forM ht fun override u hu => ?_
  exact (runs_symbols hu _).walks

/-- A file is walked under its overrides, which are released whatever happens. -/
theorem insideSourceFile_walks (hs : s.Sound faults) (root : NodeId)
    (hwalk : ∀ t, t.Sound faults → Walks faults walk t) :
    Walks faults (insideSourceFile w root walk) s := by
  unfold insideSourceFile
  dsimp only
  refine Walks.bind (Walks.discard (walks_store hs ((Store.document_does hs.store).mono
    fun _ _ h => h.1))) fun _ t hkeeps => ?_
  split
  · exact hwalk t hkeeps.sound
  · refine (assertExports_runs _ _ hkeeps.sound).walks.bind fun overrides u hkeeps' => ?_
    refine underOverrides_walks overrides ?_
    exact ((resolve_runs hkeeps'.sound _ _).walks.discard).bind fun _ v hkeeps'' =>
      hwalk v hkeeps''.sound

/-- The facts of a reference, as a filing. -/
theorem filing_reference {kinds : RecordId → Option RecordKind} {hub document range : ElementId} :
    {.next range hub} ∪ { fact | ∃ a ∈ [id], ∃ i, Route kinds RecordKind.passesTo a i ∧
        fact = .cited i ReferenceRole.references.property document range } =
      Store.filing kinds id hub document range (some .references) false := by
  ext fact
  constructor
  · rintro (hfact | ⟨a, ha, i, hroute, rfl⟩)
    · exact .inl hfact
    · rw [List.mem_singleton.mp ha] at hroute
      exact .inr (.inl ⟨.references, i, rfl, hroute, rfl⟩)
  · rintro (hfact | ⟨role, i, hrole, hroute, rfl⟩ | ⟨hfalse, -⟩)
    · exact .inl hfact
    · cases hrole
      exact .inr ⟨id, List.mem_singleton_self _, i, hroute, rfl⟩
    · cases hfalse

/-- **A reference is emitted and filed** under the record of its symbol. -/
theorem visitIdentifier_runs (hs : s.Sound faults) :
    Runs faults (visitIdentifier w node) s fun _ _ => True := by
  unfold visitIdentifier
  dsimp only
  split
  · exact runs_pure hs trivial
  · refine (resolve_runs hs _ _).bind fun id s₀ h₀ hid => ?_
    have hs₀ := h₀.sound
    refine Does.runs ((does_store hs₀ (Store.hasInfo_does hs₀.store _)).bind ?_)
    rintro known _ ⟨_, rfl, rfl, r, hr⟩
    have hk : s₀.store.kind? id = some r.kind := Store.kind?_of_record hr
    -- A mention where the record has a definition is no reference.
    refine ⟨.refl hs₀, ?_⟩
    split
    · exact does_pure ⟨.refl hs₀, trivial⟩
    · refine Does.bind (lineRange_does w _ _) ?_
      rintro span _ ⟨lines, rfl⟩
      have hs₁ : Sound faults { s₀ with lineIndexes := lines } := ⟨hs₀.store, hs₀.definitions⟩
      refine ⟨⟨hs₁, .refl _⟩, (emit_vertex_does hs₁ _).bind ?_⟩
      rintro range _ ⟨store₁, rfl, -, hposts₁, hrange, hfresh⟩
      have hs₂ := leads_store hs₁ hposts₁.leads
      refine ⟨hs₂, (does_store hs₂.sound (Store.addRange_does hs₂.sound.store hrange)).bind ?_⟩
      rintro _ _ ⟨store₂, rfl, document, hdocument, hposts₂, -⟩
      have hs₃ := leads_store hs₂.sound hposts₂.leads
      refine ⟨hs₃, (does_store hs₃.sound (Store.resultSet_does hs₃.sound.store)).bind ?_⟩
      rintro hub _ ⟨_, rfl, rfl, hhub, hset⟩
      have hrange₂ := hrange.mono hposts₂.grows.elements
      refine ⟨.refl hs₃.sound, Does.bind (Does.discard (does_store hs₃.sound
        (Store.next_does hs₃.sound.store (.inl hrange₂) hset))) ?_⟩
      rintro _ _ ⟨store₃, rfl, g, hstore₃, hposts₃⟩
      have hdocument₃ : store₃.documents.get? (w.program.fileOf node) = some (.live document) := by
        rw [hstore₃]
        exact hdocument
      have hs₄ := leads_store hs₃.sound hposts₃.leads
      refine ⟨hs₄, (does_store hs₄.sound (Store.addRangeReference_does hs₄.sound.store
        (hrange₂.mono hposts₃.grows.elements))).mono ?_⟩
      rintro _ _ ⟨store₄, rfl, hspreads⟩
      obtain ⟨hposts₄, -⟩ := hspreads.posts hdocument₃
      have hfiling := hposts₃.trans hposts₄
      rw [hposts₃.kinds, filing_reference] at hfiling
      rw [Store.said_range] at hposts₁
      refine ⟨⟨⟨(leads_store hs₄.sound hposts₄.leads).sound,
        hposts₁.grows.trans (hposts₂.grows.trans hfiling.grows)⟩, fun ho => ⟨?_, ?_⟩⟩, trivial⟩
      · exact hfiling.lasting (hposts₂.lasting (hposts₁.lasting ho.lasting))
      · exact ho.balanced.file_steps hs₀.store ho.lasting hk hfresh hposts₁ rfl hposts₂ hhub hfiling

/-- A container is closed whatever happens inside. -/
theorem insideContainer_walks (h : Walks faults walk s) :
    Walks faults (insideContainer w file walk) s :=
  Walks.andThen h fun _ ht => walks_store ht (Store.endContainer_does ht.store)

/-- A document symbol stands for a range that was delivered. -/
theorem insideNamed_walks (hs : s.Sound faults) (name : NodeId)
    (hwalk : ∀ t, t.Sound faults → Walks faults walk t) :
    Walks faults (insideNamed w file name walk) s := by
  refine ensures_bind.mpr (ensures_bind.mpr (ensures_get.mpr (ensures_pure.mpr ?_)))
  cases hr : s.definitions.get? name with
  | none => exact hwalk s hs
  | some range =>
      have hrange := hs.definitions _ (Table.mem_entries_of_get? hr)
      exact Walks.bind (walks_store hs (Store.beginContainer_does hs.store hrange))
        fun _ t hkeeps => insideContainer_walks (hwalk t hkeeps.sound)

/-- A declaration is walked inside a document symbol, if its name has a definition range. -/
theorem insideDocumentSymbol_walks (hs : s.Sound faults) (declaration : NodeId)
    (hwalk : ∀ t, t.Sound faults → Walks faults walk t) :
    Walks faults (insideDocumentSymbol w declaration walk) s := by
  unfold insideDocumentSymbol
  split
  · exact hwalk s hs
  · split
    · exact (resolve_runs hs _ _).walks.discard.bind fun _ t hkeeps =>
        insideNamed_walks hkeeps.sound _ hwalk
    · exact insideNamed_walks hs _ hwalk

/-- The forwards of a type alias are asserted. -/
theorem assertForwards_runs (hs : s.Sound faults) (declaration : NodeId) :
    Runs faults (assertForwards w declaration) s fun _ _ => True := by
  unfold assertForwards
  dsimp only
  split
  · exact runs_pure hs trivial
  · exact runs_symbols hs _

/-- By cases of the node: it is entered, walked and left as its kind asks for. -/
theorem inside_walks (hs : s.Sound faults) (hwalk : ∀ t, t.Sound faults → Walks faults walk t) :
    Walks faults (inside w node walk) s := by
  unfold inside
  split
  · exact insideSourceFile_walks hs node hwalk
  · exact (visitIdentifier_runs hs).walks.bind fun _ t hkeeps => hwalk t hkeeps.sound
  · exact (assertForwards_runs hs node).walks.bind fun overrides t hkeeps =>
      underOverrides_walks overrides (insideDocumentSymbol_walks hkeeps.sound node hwalk)
  · split
    · exact insideDocumentSymbol_walks hs node hwalk
    · exact hwalk s hs

/-! ### Leaving -/

/-- Leaving a node closes the records that are local to it. -/
theorem nodeProcessed_walks (hs : s.Sound faults) :
    Walks faults (liftM (Store.nodeProcessed w node) : Running Unit) s :=
  walks_store hs (Store.nodeProcessed_does hs.store)

/-- The document of a file ends. -/
theorem endDocument_walks (hs : s.Sound faults) :
    Walks faults (liftM (Store.endDocument w file) : Running Unit) s :=
  walks_store hs ((Store.endDocument_does hs.store).mono fun _ _ ⟨hadds, hrecords, _⟩ =>
    hadds.posts (Store.lasting_of_records hrecords))

theorem fileProcessed_walks (hs : s.Sound faults) : Walks faults (fileProcessed w file) s := by
  refine ensures_modify.mpr ⟨⟨⟨hs.store, fun entry hentry => ?_⟩, .refl _⟩,
    fun ho => ⟨ho.lasting, ho.balanced⟩⟩
  exact hs.definitions entry (List.mem_filter.mp hentry).1

/-- A node is left, and a file with its root. -/
theorem leave_walks (hs : s.Sound faults) : Walks faults (leave w node) s := by
  unfold leave
  refine (nodeProcessed_walks hs).bind fun _ t hkeeps => ?_
  split
  · exact (endDocument_walks hkeeps.sound).bind fun _ u hkeeps' => fileProcessed_walks hkeeps'.sound
  · exact ensures_pure.mpr (.refl hkeeps.sound)

/-! ### Walking -/

/-- By induction on the depth: a sound session walks a node and what is below it. -/
theorem visitWithin_walks : ∀ (fuel : Nat) (node : NodeId) {s : Session}, s.Sound faults →
    Walks faults (visitWithin w fuel node) s
  | 0, _, _, hs => ensures_throw.mpr (.refl hs)
  | fuel + 1, node, _, hs => by
      unfold visitWithin
      refine Walks.bind (inside_walks hs fun t ht => ?_) fun _ t hkeeps => leave_walks hkeeps.sound
      exact walks_forM ht fun child u hu => visitWithin_walks fuel child hu

/-- **Walking a file keeps a session in order.** -/
theorem visitFile_walks (hs : s.Sound faults) : Walks faults (visitFile w file) s :=
  visitWithin_walks _ _ hs

/-- **The end of the project keeps the books** and leaves nothing to be written. -/
theorem projectProcessed_ends (hs : s.Sound faults) :
    Ensures (liftM (Store.projectProcessed w) : Running Unit) s
      (fun _ t => s.Leads faults t ∧ (s.InOrder → t.store.Balanced ∧ t.store.Finished))
      fun _ t => s.Leads faults t := by
  refine Ensures.mono (does_store hs (Store.projectProcessed_does hs.store)) ?_ fun _ _ h => h.1
  rintro _ _ ⟨store, rfl, source, ids, hids, hadds, hfinished⟩
  exact ⟨leads_store hs hadds.leads, fun ho =>
    ⟨ho.balanced.finish hadds hids, hfinished ho.lasting⟩⟩

end SymbolGraph.Session
