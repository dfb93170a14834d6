import Mathlib.Data.List.Forall2
import Mathlib.Order.Basic
import SymbolGraph.Proofs.Interruption

/-!
# Proofs — two runs side by side

Two runs that are asked for different extras number their elements differently.  They are compared
along a *pairing*, which says which id of one run stands for which id of the other, and which grows
with every element that both deliver.  Both runs end alike: both well, with values that match, or
both with the same fault; and their states agree along the pairing that was reached.

What one run does for itself is *silent*: it cannot fail, it pairs nothing, and it delivers extras
only.

* `Pairing`, `Element.isExtra`, `Graph.Matches`: graphs that differ in their extras and ids only.
* `Counterparts`: states that can be compared along a pairing.
* `Alike`: actions that do the same along every later pairing, with `Alike.bind` and the others.
* `outcomes_apart`: what each of two runs does for itself.
* `Graph.vertex_alike`, `Graph.edge_alike`, `Graph.vertex_silent`: delivering elements.
* `Document.finish_alike`, `Project.finish_alike`: documents and the project.
-/

namespace SymbolGraph

open SymbolGraph.Action

/-! ### Pairings -/

/-- Which id of one run stands for which id of another. -/
abbrev Pairing := ElementId → ElementId → Prop

/-- The pairing with one more pair. -/
def Pairing.and (ρ : Pairing) (a b : ElementId) : Pairing := fun x y => ρ x y ∨ x = a ∧ y = b

variable {ρ ρ' ρ₀ : Pairing}

/-- A pairing is part of the one with one more pair. -/
theorem Pairing.le_and {a b : ElementId} : ρ ≤ ρ.and a b := fun _ _ => .inl

/-- The new pair is paired. -/
theorem Pairing.and_self {a b : ElementId} : ρ.and a b a b := .inr ⟨rfl, rfl⟩

/-- Ids that are paired stay so. -/
theorem forall₂_later (h : ρ ≤ ρ') {ids ids' : List ElementId} (hids : List.Forall₂ ρ ids ids') :
    List.Forall₂ ρ' ids ids' :=
  hids.imp fun a b => h a b

/-- Lists of one length are empty together. -/
theorem isEmpty_eq_of_length {α β : Type} {list : List α} {list' : List β}
    (h : list'.length = list.length) : list'.isEmpty = list.isEmpty := by
  rw [Bool.eq_iff_iff, List.isEmpty_iff_length_eq_zero, List.isEmpty_iff_length_eq_zero, h]

/-- Vertices with one label whose ids are paired. -/
structure VertexRef.Matches (ρ : Pairing) (v v' : VertexRef) : Prop where
  id    : ρ v.id v'.id
  label : v'.label = v.label

/-- Vertices that match do so along every later pairing. -/
theorem VertexRef.Matches.later {v v' : VertexRef} (h : v.Matches ρ v') (hρ : ρ ≤ ρ') :
    v.Matches ρ' v' :=
  ⟨hρ _ _ h.id, h.label⟩

/-! ### Elements -/

/-- Hover texts, monikers and document symbols are extras. -/
def Vertex.isExtra : Vertex → Bool
  | hoverResult _ | moniker _ | documentSymbolResult _ => true
  | _                                                  => false

/-- The links that lead to extras, or from one to another. -/
def LinkKind.isExtra : LinkKind → Bool
  | hover | moniker | attach | documentSymbol => true
  | _                                         => false

/-- An edge that leads to an extra, or from one to another. -/
def Edge.isExtra : Edge → Bool
  | link kind _ _ => kind.isExtra
  | _             => false

/-- An element that a run only delivers when it is asked for. -/
def Element.isExtra : Element → Bool
  | vertex _ v => v.isExtra
  | edge _ e   => e.isExtra

/-- The elements that are no extras. -/
def Element.plainOf (elements : List Element) : List Element :=
  elements.filter fun e => !e.isExtra

/-- Edges of one kind whose ends are paired. -/
inductive Edge.Matches (ρ : Pairing) : Edge → Edge → Prop
  | contains {source source' : ElementId} {targets targets' : List ElementId} :
      ρ source source' → List.Forall₂ ρ targets targets' →
      Edge.Matches ρ (.contains source targets) (.contains source' targets')
  | item {source source' document document' : ElementId} {targets targets' : List ElementId}
      {property : Option ItemProperty} :
      ρ source source' → List.Forall₂ ρ targets targets' → ρ document document' →
      Edge.Matches ρ (.item source targets document property)
        (.item source' targets' document' property)
  | link {kind : LinkKind} {source source' target target' : ElementId} :
      ρ source source' → ρ target target' →
      Edge.Matches ρ (.link kind source target) (.link kind source' target')

/-- Edges that match do so along every later pairing. -/
theorem Edge.Matches.later {e e' : Edge} (h : e.Matches ρ e') (hρ : ρ ≤ ρ') : e.Matches ρ' e' := by
  cases h with
  | contains hsource htargets => exact .contains (hρ _ _ hsource) (forall₂_later hρ htargets)
  | item hsource htargets hdocument =>
      exact .item (hρ _ _ hsource) (forall₂_later hρ htargets) (hρ _ _ hdocument)
  | link hsource htarget => exact .link (hρ _ _ hsource) (hρ _ _ htarget)

/-- Edges that match are both extras or both plain. -/
theorem Edge.Matches.isExtra {e e' : Edge} (h : e.Matches ρ e') : e'.isExtra = e.isExtra := by
  cases h with
  | contains => rfl
  | item => rfl
  | link => rfl

/-- Elements that differ in paired ids only.  No vertex that is not an extra holds an id. -/
inductive Element.Matches (ρ : Pairing) : Element → Element → Prop
  | vertex {id id' : ElementId} {v : Vertex} : v.isExtra = false →
      ρ id id' → Element.Matches ρ (.vertex id v) (.vertex id' v)
  | edge {id id' : ElementId} {e e' : Edge} :
      ρ id id' → e.Matches ρ e' → Element.Matches ρ (.edge id e) (.edge id' e')

/-- Elements that match do so along every later pairing. -/
theorem Element.Matches.later {e e' : Element} (h : e.Matches ρ e') (hρ : ρ ≤ ρ') :
    e.Matches ρ' e' := by
  cases h with
  | vertex hv hid => exact .vertex hv (hρ _ _ hid)
  | edge hid hedge => exact .edge (hρ _ _ hid) (hedge.later hρ)

/-- An extra at the end is not seen among the plain elements. -/
theorem Element.plainOf_append_extra {elements : List Element} {e : Element}
    (h : e.isExtra = true) : plainOf (elements ++ [e]) = plainOf elements := by
  simp [plainOf, h]

/-- A plain element at the end is the last of the plain elements. -/
theorem Element.plainOf_append_plain {elements : List Element} {e : Element}
    (h : e.isExtra = false) : plainOf (elements ++ [e]) = plainOf elements ++ [e] := by
  simp [plainOf, h]

/-! ### Graphs -/

/-- A memory that never fails. -/
def Sink.IsPlain (sink : Sink) : Prop := ∃ calls kept, sink = .memory (fun _ => none) calls kept

namespace Graph

variable {α β : Type} {g g' h : Graph}

/-- Graphs over memories that never fail, alike but for their extras and for ids that are paired in
order. -/
structure Matches (ρ : Pairing) (g g' : Graph) : Prop where
  first    : g.sink.IsPlain
  second   : g'.sink.IsPlain
  issued   : ∀ a b, ρ a b → a.value ≤ g.issued ∧ b.value ≤ g'.issued
  ordered  : ∀ a b c d, ρ a b → ρ c d → (a.value < c.value ↔ b.value < d.value)
  elements : List.Forall₂ (Element.Matches ρ) (Element.plainOf g.elements)
    (Element.plainOf g'.elements)

/-- The graph once its sink took an element under the next id. -/
def taking (g : Graph) (make : ElementId → Element) : Graph :=
  { issued := g.issued + 1, emitted := g.emitted + 1
    sink := match g.sink with
      | .memory faults calls kept => .memory faults (calls + 1) (kept.push (make ⟨g.issued + 1⟩))
      | other                     => other }

/-- A memory that never fails takes every vertex, under the next id. -/
theorem vertex_plain (hg : g.sink.IsPlain) (v : Vertex) :
    vertex v g = .ok ⟨⟨g.issued + 1⟩, v.label⟩ (g.taking fun id => .vertex id v) := by
  obtain ⟨issued, emitted, sink⟩ := g
  obtain ⟨calls, kept, rfl⟩ := hg
  rfl

/-- It takes every edge in the same way. -/
theorem edge_plain (hg : g.sink.IsPlain) (e : Edge) :
    edge e g = .ok ⟨g.issued + 1⟩ (g.taking fun id => .edge id e) := by
  obtain ⟨issued, emitted, sink⟩ := g
  obtain ⟨calls, kept, rfl⟩ := hg
  rfl

/-- It goes on not to fail. -/
theorem taking_plain (hg : g.sink.IsPlain) (make : ElementId → Element) :
    (g.taking make).sink.IsPlain := by
  obtain ⟨issued, emitted, sink⟩ := g
  obtain ⟨calls, kept, rfl⟩ := hg
  exact ⟨_, _, rfl⟩

/-- What it took stands at the end. -/
theorem elements_taking (hg : g.sink.IsPlain) (make : ElementId → Element) :
    (g.taking make).elements = g.elements ++ [make ⟨g.issued + 1⟩] := by
  obtain ⟨issued, emitted, sink⟩ := g
  obtain ⟨calls, kept, rfl⟩ := hg
  exact Array.toList_push ..

/-- Both graphs take an element; its ids are paired. -/
theorem Matches.take (hg : Matches ρ g g') {make make' : ElementId → Element}
    (hmake : (make ⟨g.issued + 1⟩).Matches (ρ.and ⟨g.issued + 1⟩ ⟨g'.issued + 1⟩)
      (make' ⟨g'.issued + 1⟩))
    (hplain : (make ⟨g.issued + 1⟩).isExtra = false)
    (hplain' : (make' ⟨g'.issued + 1⟩).isExtra = false) :
    Matches (ρ.and ⟨g.issued + 1⟩ ⟨g'.issued + 1⟩) (g.taking make) (g'.taking make') where
  first := taking_plain hg.first make
  second := taking_plain hg.second make'
  issued := by
    rintro a b (hab | ⟨rfl, rfl⟩)
    · obtain ⟨ha, hb⟩ := hg.issued a b hab
      exact ⟨Nat.le_succ_of_le ha, Nat.le_succ_of_le hb⟩
    · exact ⟨Nat.le_refl _, Nat.le_refl _⟩
  -- The two new ids are the largest on their side, so pairing them keeps the order.
  ordered := by
    rintro a b c d (hab | ⟨rfl, rfl⟩) (hcd | ⟨rfl, rfl⟩)
    · exact hg.ordered a b c d hab hcd
    · obtain ⟨ha, hb⟩ := hg.issued a b hab
      exact ⟨fun _ => Nat.lt_succ_of_le hb, fun _ => Nat.lt_succ_of_le ha⟩
    · obtain ⟨hc, hd⟩ := hg.issued c d hcd
      exact ⟨fun hlt => absurd hlt (Nat.not_lt.mpr (Nat.le_succ_of_le hc)),
        fun hlt => absurd hlt (Nat.not_lt.mpr (Nat.le_succ_of_le hd))⟩
    · exact ⟨fun hlt => absurd hlt (Nat.lt_irrefl _), fun hlt => absurd hlt (Nat.lt_irrefl _)⟩
  elements := by
    rw [elements_taking hg.first, elements_taking hg.second, Element.plainOf_append_plain hplain,
      Element.plainOf_append_plain hplain']
    exact List.rel_append (hg.elements.imp fun _ _ he => he.later Pairing.le_and)
      (.cons hmake .nil)

/-- A graph has taken extras only. -/
structure Silently (g g' : Graph) : Prop where
  plain    : g'.sink.IsPlain
  issued   : g.issued ≤ g'.issued
  elements : Element.plainOf g'.elements = Element.plainOf g.elements

theorem Silently.refl (hg : g.sink.IsPlain) : Silently g g := ⟨hg, Nat.le_refl _, rfl⟩

/-- Extras may be taken twice. -/
theorem Silently.trans (hg : Silently g g') (hg' : Silently g' h) : Silently g h :=
  ⟨hg'.plain, Nat.le_trans hg.issued hg'.issued, hg'.elements.trans hg.elements⟩

/-- Graphs still match when the first takes extras. -/
theorem Matches.silent_first (hg : Matches ρ g g') (hsilent : Silently g h) : Matches ρ h g' where
  first := hsilent.plain
  second := hg.second
  issued a b hab := ⟨Nat.le_trans (hg.issued a b hab).1 hsilent.issued, (hg.issued a b hab).2⟩
  ordered := hg.ordered
  elements := hsilent.elements ▸ hg.elements

/-- Graphs still match when the second takes extras. -/
theorem Matches.silent_second (hg : Matches ρ g g') (hsilent : Silently g' h) : Matches ρ g h where
  first := hg.first
  second := hsilent.plain
  issued a b hab := ⟨(hg.issued a b hab).1, Nat.le_trans (hg.issued a b hab).2 hsilent.issued⟩
  ordered := hg.ordered
  elements := hsilent.elements ▸ hg.elements

/-- A graph that takes one extra has taken extras only. -/
theorem silently_taking (hg : g.sink.IsPlain) {make : ElementId → Element}
    (hmake : (make ⟨g.issued + 1⟩).isExtra = true) : Silently g (g.taking make) where
  plain := taking_plain hg make
  issued := Nat.le_succ _
  elements := by rw [elements_taking hg, Element.plainOf_append_extra hmake]

end Graph

/-! ### Actions -/

/-- States of two runs that can be compared along a pairing. -/
class Counterparts (σ : Type) where
  /-- The states are alike but for ids that are paired. -/
  Agree : Pairing → σ → σ → Prop

open Counterparts

section Alike

variable {σ τ α β γ δ : Type} [Counterparts σ] [Counterparts τ] {V : Pairing → α → β → Prop}
  {W : Pairing → γ → δ → Prop} {act : EStateM Fault σ α} {act' : EStateM Fault σ β} {s t : σ}

/-- Values that do not depend on ids. -/
abbrev Same : Pairing → α → α → Prop := fun _ => Eq

/-- Two computations without a state: both succeed, or both fail with one fault. -/
inductive Verdicts (V : α → β → Prop) : Except Fault α → Except Fault β → Prop
  | ok {a : α} {b : β} : V a b → Verdicts V (.ok a) (.ok b)
  | error {fault : Fault} : Verdicts V (.error fault) (.error fault)

/-- How two runs of an action end: both well or both with one fault, along a later pairing. -/
inductive Outcomes (V : Pairing → α → β → Prop) (ρ : Pairing) :
    EStateM.Result Fault σ α → EStateM.Result Fault σ β → Prop
  | ok {ρ' : Pairing} {s t : σ} {a : α} {b : β} : ρ ≤ ρ' → Agree ρ' s t → V ρ' a b →
      Outcomes V ρ (.ok a s) (.ok b t)
  | error {ρ' : Pairing} {s t : σ} {fault : Fault} : ρ ≤ ρ' → Agree ρ' s t →
      Outcomes V ρ (.error fault s) (.error fault t)

/-- From states that agree along any later pairing, two actions end alike. -/
def Alike (ρ₀ : Pairing) (V : Pairing → α → β → Prop) (act : EStateM Fault σ α)
    (act' : EStateM Fault σ β) : Prop :=
  ∀ ρ s t, ρ₀ ≤ ρ → Agree ρ s t → Outcomes V ρ (act s) (act' t)

/-- How two runs end may be said along an earlier pairing. -/
theorem Outcomes.since {r : EStateM.Result Fault σ α} {r' : EStateM.Result Fault σ β}
    (h : Outcomes V ρ' r r') (hρ : ρ ≤ ρ') : Outcomes V ρ r r' := by
  cases h with
  | ok hlater hst hab => exact .ok (le_trans hρ hlater) hst hab
  | error hlater hst => exact .error (le_trans hρ hlater) hst

/-- What is done alike from a pairing on is done alike from every later one. -/
theorem Alike.later (h : Alike ρ V act act') (hρ : ρ ≤ ρ') : Alike ρ' V act act' :=
  fun _ s t hlater hst => h _ s t (le_trans hρ hlater) hst

/-- Values may be returned that match from now on. -/
theorem alike_pure {a : α} {b : β} (h : ∀ ρ', ρ ≤ ρ' → V ρ' a b) :
    Alike ρ V (pure a : EStateM Fault σ α) (pure b) :=
  fun _ _ _ hρ hst => .ok le_rfl hst (h _ hρ)

/-- A value that holds no id may be returned on both sides. -/
theorem alike_same {a : α} : Alike ρ Same (pure a : EStateM Fault σ α) (pure a) :=
  alike_pure fun _ _ => rfl

/-- Both sides may fail with one fault. -/
theorem alike_throw {fault : Fault} :
    Alike ρ V (throw fault : EStateM Fault σ α) (throw fault : EStateM Fault σ β) :=
  fun _ _ _ _ hst => .error le_rfl hst

/-- Two computations without a state may be run that both succeed, or fail with one fault. -/
theorem alike_ofExcept {r : Except Fault α} {r' : Except Fault β}
    (h : ∀ ρ', ρ ≤ ρ' → Verdicts (V ρ') r r') :
    Alike ρ V (Action.ofExcept r : EStateM Fault σ α) (Action.ofExcept r') := by
  intro ρ' s t hρ hst
  cases h ρ' hρ with
  | ok hab => exact .ok le_rfl hst hab
  | error => exact .error le_rfl hst

/-- The same computation may be run on both sides. -/
theorem alike_ofExcept_same {r : Except Fault α} :
    Alike ρ Same (Action.ofExcept r : EStateM Fault σ α) (Action.ofExcept r) := by
  cases r with
  | ok a => exact alike_same
  | error fault => exact alike_throw

/-- Both sides may look at their states, which agree. -/
theorem alike_get : Alike ρ Agree (get : EStateM Fault σ σ) get :=
  fun _ _ _ _ hst => .ok le_rfl hst hst

/-- Both states may change, if they agree after it. -/
theorem alike_modify {f f' : σ → σ}
    (h : ∀ ρ' s t, ρ ≤ ρ' → Agree ρ' s t → Agree ρ' (f s) (f' t)) :
    Alike ρ Same (modify f : EStateM Fault σ PUnit) (modify f') :=
  fun ρ' s t hρ hst => .ok le_rfl (h ρ' s t hρ hst) rfl

/-- What comes next may rely on how the first of two runs has got there. -/
theorem Outcomes.bind {f : α → EStateM Fault σ γ} {f' : β → EStateM Fault σ δ}
    (h : Outcomes V ρ (act s) (act' t))
    (hf : ∀ ρ' a b s' t', ρ ≤ ρ' → V ρ' a b → act s = .ok a s' → Agree ρ' s' t' →
      Outcomes W ρ' (f a s') (f' b t')) :
    Outcomes W ρ ((act >>= f) s) ((act' >>= f') t) := by
  rw [bind_run, bind_run]
  cases hact : act s with
  | ok a s' =>
      cases hact' : act' t with
      | ok b t' =>
          rw [hact, hact'] at h
          cases h with
          | ok hρ hst hab => exact (hf _ a b s' t' hρ hab hact hst).since hρ
      | error fault t' =>
          rw [hact, hact'] at h
          cases h
  | error fault s' =>
      cases hact' : act' t with
      | ok b t' =>
          rw [hact, hact'] at h
          cases h
      | error fault' t' =>
          rw [hact, hact'] at h
          cases h with
          | error hρ hst => exact .error hρ hst

/-- What comes next goes on along the pairing that was reached. -/
theorem Alike.bind {f : α → EStateM Fault σ γ} {f' : β → EStateM Fault σ δ}
    (h : Alike ρ V act act') (hf : ∀ ρ' a b, ρ ≤ ρ' → V ρ' a b → Alike ρ' W (f a) (f' b)) :
    Alike ρ W (act >>= f) (act' >>= f') := by
  intro ρ₁ s t hρ hst
  refine (h ρ₁ s t hρ hst).bind fun ρ₂ a b s' t' hρ₂ hab _ hst' => ?_
  exact hf ρ₂ a b (le_trans hρ hρ₂) hab ρ₂ s' t' le_rfl hst'

/-- One action after another, where only the state counts. -/
theorem Alike.next {f : α → EStateM Fault σ γ} {f' : α → EStateM Fault σ δ}
    {act act' : EStateM Fault σ α} (h : Alike ρ Same act act')
    (hf : ∀ a, Alike ρ W (f a) (f' a)) : Alike ρ W (act >>= f) (act' >>= f') :=
  h.bind fun _ a _ hρ hab => hab ▸ (hf a).later hρ

/-- Values that match may be dropped. -/
theorem Alike.discard (h : Alike ρ V act act') : Alike ρ Same (discard act) (discard act') := by
  intro ρ' s t hρ hst
  have hact := h ρ' s t hρ hst
  simp only [Functor.discard, Functor.mapConst, EStateM.map, Function.comp]
  generalize act s = result at hact
  generalize act' t = result' at hact
  cases hact with
  | ok hlater hst' => exact .ok hlater hst' rfl
  | error hlater hst' => exact .error hlater hst'

/-- A loop over two lists that go together. -/
theorem Alike.forM {R : α → β → Prop} {f : α → EStateM Fault σ PUnit}
    {f' : β → EStateM Fault σ PUnit} {list : List α} {list' : List β}
    (hlist : List.Forall₂ R list list') (hf : ∀ a b, R a b → Alike ρ Same (f a) (f' b)) :
    Alike ρ Same (list.forM f) (list'.forM f') := by
  induction hlist with
  | nil => exact alike_same
  | cons hab _ ih => exact (hf _ _ hab).next fun _ => ih

/-- Both sides may go through one list. -/
theorem Alike.forEach {f f' : α → EStateM Fault σ PUnit} {list : List α}
    (hf : ∀ a, Alike ρ Same (f a) (f' a)) : Alike ρ Same (list.forM f) (list.forM f') :=
  .forM (R := Eq) (List.forall₂_refl list) fun a _ hab => hab ▸ hf a

/-- Both sides may decide by the same condition. -/
theorem alike_ite {c : Prop} [Decidable c] {other : EStateM Fault σ α}
    {other' : EStateM Fault σ β} (h : c → Alike ρ V act act') (h' : ¬ c → Alike ρ V other other') :
    Alike ρ V (if c then act else other) (if c then act' else other') := by
  by_cases hc : c
  · rw [if_pos hc, if_pos hc]
    exact h hc
  · rw [if_neg hc, if_neg hc]
    exact h' hc

/-- A fault that is caught is caught on both sides. -/
theorem Alike.attempt (h : Alike ρ V act act') :
    Alike ρ (fun ρ' => Verdicts (V ρ')) (attempt act) (attempt act') := by
  intro ρ' s t hρ hst
  have hact := h ρ' s t hρ hst
  unfold Action.attempt
  generalize act s = result at hact
  generalize act' t = result' at hact
  cases hact with
  | ok hlater hst' hab => exact .ok hlater hst' (.ok hab)
  | error hlater hst' => exact .ok hlater hst' .error

/-- Both sides tidy up, or neither does. -/
theorem Alike.onFailure {act act' : EStateM Fault σ α} {tidy tidy' : EStateM Fault σ Unit}
    (h : Alike ρ Same act act') (htidy : Alike ρ Same tidy tidy') :
    Alike ρ Same (onFailure act tidy) (onFailure act' tidy') := by
  refine h.attempt.bind fun ρ' result result' hρ hresult => ?_
  cases hresult with
  | ok hab => exact alike_pure fun _ _ => hab
  | error => exact (htidy.later hρ).next fun _ => alike_throw

/-- Both sides do what comes last, also after a fault. -/
theorem Alike.andThen {act act' last last' : EStateM Fault σ Unit} (h : Alike ρ Same act act')
    (hlast : Alike ρ Same last last') : Alike ρ Same (andThen act last) (andThen act' last') := by
  refine h.attempt.bind fun ρ₁ first first' hρ₁ hfirst => ?_
  refine ((hlast.later hρ₁).attempt).bind fun ρ₂ second second' _ hsecond => ?_
  exact (alike_ofExcept fun _ _ => hfirst).next fun _ => alike_ofExcept fun _ _ => hsecond

/-- An action on parts of the states. -/
theorem Alike.onPart {part part' : σ → τ} {replace : τ → σ → σ} {act : EStateM Fault τ α}
    {act' : EStateM Fault τ β} (h : Alike ρ V act act')
    (hpart : ∀ ρ' s t, ρ ≤ ρ' → Agree ρ' s t → Agree ρ' (part s) (part' t))
    (hreplace : ∀ ρ₁ ρ₂ s t u v, ρ₁ ≤ ρ₂ → Agree ρ₁ s t → Agree ρ₂ u v →
      Agree ρ₂ (replace u s) (replace v t)) :
    Alike ρ V (onPart part replace act) (onPart part' replace act') := by
  intro ρ₁ s t hρ hst
  have hact := h ρ₁ (part s) (part' t) hρ (hpart ρ₁ s t hρ hst)
  unfold Action.onPart
  generalize act (part s) = result at hact
  generalize act' (part' t) = result' at hact
  cases hact with
  | ok hlater huv hab => exact .ok hlater (hreplace _ _ s t _ _ hlater hst huv) hab
  | error hlater huv => exact .error hlater (hreplace _ _ s t _ _ hlater hst huv)

/-- An action on a part of the state that holds no ids. -/
theorem alike_onPartSafely {π : Type} {part : σ → π} {replace : π → σ → σ} {act : StateM π α}
    (hpart : ∀ ρ s t, Agree ρ s t → part t = part s)
    (hreplace : ∀ ρ s t p, Agree ρ s t → Agree ρ (replace p s) (replace p t)) :
    Alike ρ Same (onPartSafely part replace act : EStateM Fault σ α)
      (onPartSafely part replace act) := by
  intro ρ' s t _ hst
  show Outcomes Same ρ' (.ok (act (part s)).1 (replace (act (part s)).2 s))
    (.ok (act (part t)).1 (replace (act (part t)).2 t))
  rw [hpart ρ' s t hst]
  exact .ok le_rfl (hreplace ρ' s t _ hst) rfl

/-- Two actions that have nothing to do with each other, but cannot fail and keep the states in
agreement. -/
theorem outcomes_apart {act act' : EStateM Fault σ Unit} {first second : σ → Prop}
    (hact : Ensures act s (fun _ s' => first s') fun _ _ => False)
    (hact' : Ensures act' t (fun _ t' => second t') fun _ _ => False)
    (h : ∀ s' t', first s' → second t' → Agree ρ s' t') :
    Outcomes Same ρ (act s) (act' t) := by
  unfold Ensures at hact hact'
  generalize act s = result at hact
  generalize act' t = result' at hact'
  cases result with
  | error fault s' => exact hact.elim
  | ok b s' =>
      cases result' with
      | error fault t' => exact hact'.elim
      | ok c t' => exact .ok le_rfl (h s' t' hact hact') rfl

end Alike

/-! ### Delivering elements -/

namespace Graph

instance : Counterparts Graph := ⟨Matches⟩

/-- **A vertex that both runs deliver.** -/
theorem vertex_alike (v : Vertex) (hv : v.isExtra = false) :
    Alike ρ VertexRef.Matches (vertex v) (vertex v) := by
  intro ρ' g g' _ hg
  rw [vertex_plain hg.first, vertex_plain hg.second]
  exact .ok Pairing.le_and (hg.take (.vertex hv Pairing.and_self) hv hv) ⟨Pairing.and_self, rfl⟩

/-- **An edge that both runs deliver.** -/
theorem edge_alike {e e' : Edge} (he : e.Matches ρ e') (hplain : e.isExtra = false) :
    Alike ρ (fun ρ' => ρ') (edge e) (edge e') := by
  intro ρ' g g' hρ hg
  rw [edge_plain hg.first, edge_plain hg.second]
  exact .ok Pairing.le_and (hg.take (.edge Pairing.and_self (he.later (le_trans hρ Pairing.le_and)))
    hplain (he.isExtra.trans hplain)) Pairing.and_self

/-- A plain link between ids that are paired may be delivered. -/
theorem link_alike {kind : LinkKind} {source source' target target' : ElementId}
    (hkind : kind.isExtra = false) (hsource : ρ source source') (htarget : ρ target target') :
    Alike ρ (fun ρ' => ρ') (link kind source target) (link kind source' target') :=
  edge_alike (.link hsource htarget) hkind

/-- Both sides may say of ids that are paired that they are contained. -/
theorem contains_alike {source source' : VertexRef} {targets targets' : List ElementId}
    (hsource : source.Matches ρ source') (htargets : List.Forall₂ ρ targets targets') :
    Alike ρ (fun ρ' => ρ') (contains source targets) (contains source' targets') := by
  have hedge := edge_alike (.contains hsource.id htargets) rfl
  unfold contains Edge.containing
  rw [hsource.label]
  cases source.label with
  | project => exact hedge
  | document => exact hedge
  | _ => exact alike_throw

/-- Both sides may list ids that are paired. -/
theorem item_alike {source source' : VertexRef} {targets targets' : List ElementId}
    {document document' : ElementId} {property : ItemProperty} (hsource : source.Matches ρ source')
    (htargets : List.Forall₂ ρ targets targets') (hdocument : ρ document document') :
    Alike ρ (fun ρ' => ρ') (item source targets document property)
      (item source' targets' document' property) := by
  unfold item Edge.listing
  rw [hsource.label]
  cases source.label with
  | definitionResult => exact edge_alike (.item hsource.id htargets hdocument) rfl
  | referenceResult => exact edge_alike (.item hsource.id htargets hdocument) rfl
  | _ => exact alike_throw

/-- Memories that never fail are flushed alike. -/
theorem flush_alike : Alike ρ Same flush flush := by
  intro ρ' g g' _ hg
  have hplain (k : Graph) (hk : k.sink.IsPlain) : flush k = .ok () k := by
    obtain ⟨issued, emitted, sink⟩ := k
    obtain ⟨calls, kept, rfl⟩ := hk
    rfl
  rw [hplain g hg.first, hplain g' hg.second]
  exact .ok le_rfl hg rfl

/-- A vertex that is an extra is delivered silently. -/
theorem vertex_silent (hg : g.sink.IsPlain) {v : Vertex} (hv : v.isExtra = true) :
    Ensures (vertex v) g (fun _ g' => g.Silently g') fun _ _ => False := by
  unfold Ensures
  rw [vertex_plain hg]
  exact silently_taking hg hv

/-- So is a link that is an extra. -/
theorem link_silent (hg : g.sink.IsPlain) {kind : LinkKind} (hkind : kind.isExtra = true)
    (source target : ElementId) :
    Ensures (link kind source target) g (fun _ g' => g.Silently g') fun _ _ => False := by
  unfold Ensures link
  rw [edge_plain hg]
  exact silently_taking hg hkind

end Graph

/-! ### Documents and the project -/

/-- Documents whose ranges are paired.  Their symbols are extras, and only how deep they are nested
is the same. -/
structure Document.Matches (ρ : Pairing) (d d' : Document) : Prop where
  path       : d'.path = d.path
  vertex     : d.vertex.Matches ρ d'.vertex
  ranges     : List.Forall₂ ρ d.ranges d'.ranges
  containers : d'.containers.length = d.containers.length

namespace Document

variable {d d' : Document}

theorem Matches.later (h : d.Matches ρ d') (hρ : ρ ≤ ρ') : d.Matches ρ' d' :=
  ⟨h.path, h.vertex.later hρ, forall₂_later hρ h.ranges, h.containers⟩

/-- Documents that match may hold one more range each. -/
theorem Matches.addRange (h : d.Matches ρ d') {range range' : ElementId} (hrange : ρ range range') :
    (d.addRange range).Matches ρ (d'.addRange range') :=
  ⟨h.path, h.vertex, List.rel_append h.ranges (.cons hrange .nil), h.containers⟩

/-- Documents that match may open a container each, around any range. -/
theorem Matches.beginContainer (h : d.Matches ρ d') (range range' : ElementId) :
    (d.beginContainer range).Matches ρ (d'.beginContainer range') :=
  ⟨h.path, h.vertex, h.ranges, congrArg Nat.succ h.containers⟩

/-- Documents that match close a container each, or neither has one. -/
theorem Matches.endContainer (h : d.Matches ρ d') :
    Verdicts (Document.Matches ρ) d.endContainer d'.endContainer := by
  have hnested := h.containers
  unfold Document.endContainer
  cases hd : d.containers with
  | nil =>
      rw [hd] at hnested
      rw [List.length_eq_zero_iff.mp hnested, h.path]
      exact .error
  | cons inner outer =>
      cases hd' : d'.containers with
      | nil =>
          rw [hd, hd'] at hnested
          cases hnested
      | cons inner' outer' =>
          rw [hd, hd'] at hnested
          replace hnested : outer'.length = outer.length := Nat.succ.inj hnested
          cases outer with
          | nil =>
              rw [List.length_eq_zero_iff.mp hnested]
              exact .ok ⟨h.path, h.vertex, h.ranges, rfl⟩
          | cons next others =>
              cases outer' with
              | nil => cases hnested
              | cons next' others' => exact .ok ⟨h.path, h.vertex, h.ranges, hnested⟩

/-- The symbols are extras. -/
theorem emitSymbols_silent (d : Document) (withSymbols : Bool) {g : Graph}
    (hg : g.sink.IsPlain) :
    Ensures (d.emitSymbols withSymbols) g (fun _ g' => g.Silently g') fun _ _ => False := by
  unfold emitSymbols
  split
  · refine ensures_bind.mpr ((Graph.vertex_silent hg rfl).mono (fun result g' hg' => ?_)
      fun _ _ hfalse => hfalse)
    exact ensures_discard.mpr ((Graph.link_silent hg'.plain rfl _ _).mono
      (fun _ _ hlink => hg'.trans hlink) fun _ _ hfalse => hfalse)
  · exact .refl hg

/-- Both documents contain something, or neither. -/
theorem emitRanges_alike (h : d.Matches ρ d') : Alike ρ Same d.emitRanges d'.emitRanges := by
  unfold emitRanges
  rw [isEmpty_eq_of_length h.ranges.length_eq.symm]
  exact alike_ite (fun _ => alike_same) fun _ => (Graph.contains_alike h.vertex h.ranges).discard

theorem emitSymbols_alike (withSymbols withSymbols' : Bool) :
    Alike ρ Same (d.emitSymbols withSymbols) (d'.emitSymbols withSymbols') := by
  intro ρ' g g' _ hg
  refine outcomes_apart (d.emitSymbols_silent withSymbols hg.first)
    (d'.emitSymbols_silent withSymbols' hg.second) fun k k' hk hk' => ?_
  exact (Graph.Matches.silent_first hg hk).silent_second hk'

/-- **A document ends**, whether its symbols are asked for or not. -/
theorem finish_alike (h : d.Matches ρ d') (withSymbols withSymbols' : Bool) :
    Alike ρ Same (d.finish withSymbols) (d'.finish withSymbols') := by
  have hemits : Alike ρ Same (do d.emitRanges; d.emitSymbols withSymbols)
      (do d'.emitRanges; d'.emitSymbols withSymbols') :=
    (emitRanges_alike h).next fun _ => emitSymbols_alike withSymbols withSymbols'
  unfold Document.finish
  rw [isEmpty_eq_of_length h.containers, h.path]
  dsimp only
  exact alike_ite (fun _ => hemits) fun _ => alike_throw.next fun _ => hemits

end Document

/-- Projects whose documents are paired. -/
structure Project.Matches (ρ : Pairing) (p p' : Project) : Prop where
  vertex    : p.vertex.Matches ρ p'.vertex
  documents : List.Forall₂ ρ p.documents p'.documents

/-- Projects that match do so along every later pairing. -/
theorem Project.Matches.later {p p' : Project} (h : p.Matches ρ p') (hρ : ρ ≤ ρ') :
    p.Matches ρ' p' :=
  ⟨h.vertex.later hρ, forall₂_later hρ h.documents⟩

instance : Counterparts Project.Ledger where
  Agree ρ l l' := l.project.Matches ρ l'.project ∧ l.graph.Matches ρ l'.graph

/-- Both projects list their documents, or neither has any. -/
theorem Project.finish_alike : Alike ρ Same Project.finish Project.finish := by
  intro ρ' l l' _ hl
  obtain ⟨hproject, hgraph⟩ := hl
  have hcontains := Graph.contains_alike hproject.vertex hproject.documents ρ' _ _ le_rfl hgraph
  unfold Project.finish
  rw [isEmpty_eq_of_length hproject.documents.length_eq.symm]
  split
  · exact .ok le_rfl ⟨hproject, hgraph⟩ rfl
  · dsimp only
    generalize Graph.contains l.project.vertex l.project.documents l.graph = result at hcontains
    generalize Graph.contains l'.project.vertex l'.project.documents l'.graph = result' at hcontains
    cases hcontains with
    | ok hlater hg => exact .ok hlater ⟨⟨hproject.vertex.later hlater, .nil⟩, hg⟩ rfl
    | error hlater hg => exact .error hlater ⟨⟨hproject.vertex.later hlater, .nil⟩, hg⟩

end SymbolGraph
