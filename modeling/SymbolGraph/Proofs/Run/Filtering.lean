import SymbolGraph.Proofs.Graph.Typing
import SymbolGraph.Proofs.Session.Counterparts

/-!
# Proofs — Run — what is asked for only filters

Hover texts, monikers and document symbols can be asked for or not.  Two runs that differ in nothing
else end alike, and without these extras they deliver the same elements: only the ids differ, since
extras use up ids, and they come in the same order.

* `Element.renumber`, `Element.Renumbers`: elements under other ids, in the same order.
* `Run.walkAll_alike`, `Run.index_alike`: two whole runs.
* `Run.asked_only_filters`: without the extras both runs deliver the same.
-/

namespace SymbolGraph

open SymbolGraph.Action Counterparts

/-! ### Renumbering -/

mutual

/-- A tree under other ids. -/
def SymbolTree.renumber (f : ElementId → ElementId) : SymbolTree → SymbolTree
  | .node id children => .node (f id) (SymbolTree.renumberAll f children)

/-- Trees under other ids. -/
def SymbolTree.renumberAll (f : ElementId → ElementId) : List SymbolTree → List SymbolTree
  | []            => []
  | tree :: trees => tree.renumber f :: SymbolTree.renumberAll f trees

end

/-- What a vertex holds, under other ids. -/
def Vertex.renumber (f : ElementId → ElementId) : Vertex → Vertex
  | documentSymbolResult forest => documentSymbolResult (SymbolTree.renumberAll f forest)
  | v                           => v

/-- What an edge holds, under other ids. -/
def Edge.renumber (f : ElementId → ElementId) : Edge → Edge
  | contains source targets               => contains (f source) (targets.map f)
  | item source targets document property =>
      item (f source) (targets.map f) (f document) property
  | link kind source target               => link kind (f source) (f target)

/-- An element under other ids. -/
def Element.renumber (f : ElementId → ElementId) : Element → Element
  | vertex id v => vertex (f id) (v.renumber f)
  | edge id e   => edge (f id) (e.renumber f)

/-- The ids that a vertex holds. -/
def Vertex.ids : Vertex → List ElementId
  | documentSymbolResult forest => SymbolTree.idsOf forest
  | _                           => []

/-- The ids that an edge holds. -/
def Edge.ids : Edge → List ElementId
  | contains source targets        => source :: targets
  | item source targets document _ => source :: document :: targets
  | link _ source target           => [source, target]

/-- The ids in an element, its own first. -/
def Element.ids : Element → List ElementId
  | vertex id v => id :: v.ids
  | edge id e   => id :: e.ids

/-- Elements that are others under new ids, which are in the order of the old ones. -/
def Element.Renumbers (elements elements' : List Element) : Prop :=
  ∃ f : ElementId → ElementId,
    (∀ a ∈ elements.flatMap ids, ∀ b ∈ elements.flatMap ids, a.value < b.value →
      (f a).value < (f b).value) ∧
    elements' = elements.map (renumber f)

/-! ### From a pairing to a renumbering -/

section Pairing

variable {ρ : Pairing} {f : ElementId → ElementId}

open Classical in
/-- The id that is paired with an id. -/
noncomputable def Pairing.other (ρ : Pairing) (a : ElementId) : ElementId :=
  if h : ∃ b, ρ a b then h.choose else a

theorem map_eq_of_forall₂ {α β : Type} {R : α → β → Prop} {f : α → β}
    (hf : ∀ a b, R a b → f a = b) {list : List α} {list' : List β}
    (h : List.Forall₂ R list list') : list.map f = list' := by
  rw [← List.forall₂_eq_eq_eq]
  exact List.forall₂_map_left_iff.mpr (h.imp hf)

theorem exists_of_forall₂ {α β : Type} {R : α → β → Prop} {list : List α} {list' : List β}
    (h : List.Forall₂ R list list') : ∀ a ∈ list, ∃ b, R a b :=
  ((List.forall₂_and_left list list').mp (h.imp fun _ b hab => ⟨⟨b, hab⟩, hab⟩)).1

theorem Edge.Matches.renumber (hf : ∀ a b, ρ a b → f a = b) {e e' : Edge} (h : e.Matches ρ e') :
    e.renumber f = e' := by
  cases h with
  | contains hsource htargets =>
      rw [Edge.renumber, hf _ _ hsource, map_eq_of_forall₂ hf htargets]
  | item hsource htargets hdocument =>
      rw [Edge.renumber, hf _ _ hsource, map_eq_of_forall₂ hf htargets, hf _ _ hdocument]
  | link hsource htarget => rw [Edge.renumber, hf _ _ hsource, hf _ _ htarget]

theorem Edge.Matches.ids {e e' : Edge} (h : e.Matches ρ e') : ∀ a ∈ e.ids, ∃ b, ρ a b := by
  cases h with
  | contains hsource htargets =>
      exact List.forall_mem_cons.mpr ⟨⟨_, hsource⟩, exists_of_forall₂ htargets⟩
  | item hsource htargets hdocument =>
      exact List.forall_mem_cons.mpr ⟨⟨_, hsource⟩,
        List.forall_mem_cons.mpr ⟨⟨_, hdocument⟩, exists_of_forall₂ htargets⟩⟩
  | link hsource htarget =>
      exact List.forall_mem_cons.mpr ⟨⟨_, hsource⟩, List.forall_mem_singleton.mpr ⟨_, htarget⟩⟩

theorem Element.Matches.renumber (hf : ∀ a b, ρ a b → f a = b) {e e' : Element}
    (h : e.Matches ρ e') : e.renumber f = e' := by
  cases h with
  | edge hid hedge => rw [Element.renumber, hf _ _ hid, hedge.renumber hf]
  | @vertex id id' v hv hid =>
      have hsame : v.renumber f = v := by
        cases v with
        | documentSymbolResult forest => cases hv
        | _ => rfl
      rw [Element.renumber, hf _ _ hid, hsame]

theorem Element.Matches.ids {e e' : Element} (h : e.Matches ρ e') : ∀ a ∈ e.ids, ∃ b, ρ a b := by
  cases h with
  | edge hid hedge => exact List.forall_mem_cons.mpr ⟨⟨_, hid⟩, hedge.ids⟩
  | @vertex id id' v hv hid =>
      have hnone : v.ids = [] := by
        cases v with
        | documentSymbolResult forest => cases hv
        | _ => rfl
      exact List.forall_mem_cons.mpr ⟨⟨_, hid⟩, hnone ▸ nofun⟩

/-- **Without their extras, graphs that match differ in their ids only.** -/
theorem Graph.Matches.renumbers {g g' : Graph} (h : g.Matches ρ g') :
    Element.Renumbers (Element.plainOf g.elements) (Element.plainOf g'.elements) := by
  have hother (a b : ElementId) (hab : ρ a b) : ρ.other a = b := by
    have hsome : ∃ b, ρ a b := ⟨b, hab⟩
    -- An id that is paired with two ids would come before itself.
    have hle := (h.ordered _ _ _ _ hab hsome.choose_spec).not.mp (Nat.lt_irrefl _)
    have hge := (h.ordered _ _ _ _ hsome.choose_spec hab).not.mp (Nat.lt_irrefl _)
    unfold Pairing.other
    rw [dif_pos hsome]
    exact congrArg ElementId.mk (Nat.le_antisymm (Nat.not_lt.mp hle) (Nat.not_lt.mp hge))
  have hids : ∀ a ∈ (Element.plainOf g.elements).flatMap Element.ids, ∃ b, ρ a b := by
    intro a ha
    obtain ⟨e, he, hae⟩ := List.mem_flatMap.mp ha
    obtain ⟨e', hmatches⟩ := exists_of_forall₂ h.elements e he
    exact hmatches.ids a hae
  refine ⟨ρ.other, fun a ha b hb hlt => ?_, ?_⟩
  · obtain ⟨a', haa'⟩ := hids a ha
    obtain ⟨b', hbb'⟩ := hids b hb
    rw [hother a a' haa', hother b b' hbb']
    exact (h.ordered a a' b b' haa' hbb').mp hlt
  · exact (map_eq_of_forall₂ (fun _ _ he => he.renumber hother) h.elements).symm

end Pairing

/-! ### Runs -/

/-- What a summary counts that both runs have. -/
def Summary.counts (summary : Summary) : Nat × Nat := (summary.documents, summary.symbols)

theorem Store.start_alike {ρ : Pairing} (root : Path) :
    Alike ρ Project.Matches (Store.start root) (Store.start root) := by
  refine (Graph.vertex_alike _ rfl).discard.next fun _ => ?_
  refine (Graph.vertex_alike _ rfl).bind fun ρ₁ v v' _ hv => alike_pure fun ρ₂ hρ => ?_
  exact ⟨hv.later hρ, .nil⟩

namespace Run

variable {w w' : Setting} {ρ : Pairing}

theorem start_alike (hw : w.Similar w') : Alike ρ Session.Matches (start w) (start w') := by
  unfold start
  rw [hw.projectRoot]
  intro ρ₁ g g' _ hg
  refine (Store.start_alike _ ρ₁ g g' le_rfl hg).bind fun ρ₂ p p' h h' _ hp _ hh => ?_
  have hrecords : Store.Renews (Record.Matches ρ₂) #[] #[] := fun _ => .none
  exact .ok le_rfl hh ⟨⟨hh, hp, hrecords, rfl, Table.matches_empty, rfl⟩, rfl, rfl,
    Table.matches_empty⟩

/-- **All files are walked and everything is closed.** -/
theorem walkAll_alike (hw : w.Similar w') :
    Alike ρ (fun _ a b => Summary.counts b = Summary.counts a) (walkAll w) (walkAll w') := by
  unfold walkAll
  rw [hw.program]
  refine (Alike.forEach (Session.visitFile_alike hw)).next fun _ => ?_
  refine (Session.store_alike (Store.projectProcessed_alike hw)).next fun _ => ?_
  refine (Session.emit_alike Graph.flush_alike).next fun _ => ?_
  refine alike_get.bind fun ρ₁ s t _ hst => alike_pure fun _ _ => ?_
  exact Prod.ext hst.store.documents.size hst.store.records.size

/-- **Two runs that differ in what they are asked for.** -/
theorem index_alike (hw : w.Similar w') : ∃ ρ,
    Verdicts (fun a b => Summary.counts b = Summary.counts a) (index w .inMemory).1
        (index w' .inMemory).1 ∧
      (index w .inMemory).2.Matches ρ (index w' .inMemory).2 := by
  have hempty : Graph.Matches (fun _ _ => False) (.ofSink .inMemory) (.ofSink .inMemory) :=
    ⟨⟨_, _, rfl⟩, ⟨_, _, rfl⟩, nofun, nofun, .nil⟩
  have hstart := start_alike hw _ _ _ le_rfl hempty
  unfold index
  generalize start w (.ofSink .inMemory) = result at hstart
  generalize start w' (.ofSink .inMemory) = result' at hstart
  cases hstart with
  | error _ hg => exact ⟨_, .error, hg⟩
  | @ok _ _ _ session session' _ _ hsession =>
      have hwalk := walkAll_alike hw _ _ _ le_rfl hsession
      dsimp only
      generalize walkAll w session = result at hwalk
      generalize walkAll w' session' = result' at hwalk
      cases hwalk with
      | error _ hst => exact ⟨_, .error, hst.store.graph⟩
      | ok _ hst hcounts => exact ⟨_, .ok hcounts, hst.store.graph⟩

/-- **What is asked for only filters.**  Whichever of hover texts, monikers and document symbols are
asked for, a run ends with the same fault or counts the same documents and symbols; and without
these extras it delivers the same elements, under ids in the same order. -/
theorem asked_only_filters (w : Setting) (hover monikers documentSymbols : Bool) :
    (index { w with hover, monikers, documentSymbols } .inMemory).1.map Summary.counts
        = (index w .inMemory).1.map Summary.counts ∧
      Element.Renumbers (Element.plainOf (index w .inMemory).2.elements)
        (Element.plainOf
          (index { w with hover, monikers, documentSymbols } .inMemory).2.elements) := by
  have hw : w.Similar { w with hover, monikers, documentSymbols } := ⟨rfl, rfl⟩
  obtain ⟨ρ, hends, hgraph⟩ := index_alike hw
  refine ⟨?_, hgraph.renumbers⟩
  generalize (index w .inMemory).1 = result at hends
  generalize (index { w with hover, monikers, documentSymbols } .inMemory).1 = result' at hends
  cases hends with
  | ok hcounts => exact congrArg Except.ok hcounts
  | error => rfl

end Run

end SymbolGraph
