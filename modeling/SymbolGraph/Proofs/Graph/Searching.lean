import Mathlib.Logic.Function.Iterate
import Mathlib.Logic.Relation
import SymbolGraph.Proofs.Graph.Reading

/-!
# Proofs — Graph — searching for references

The search for references follows reference results through the reference results that they list.  It
expands none of them twice, so each edge adds its targets to what is pending at most once, and the
search ends with everything that can be reached.

* `Query.Reaches`: one reference result leads to another.
* `Query.Shows`: a reference result lists a range that is kept.
* `Query.Search.Faithful`: what holds between two steps of a search.
* `Query.Search.advance`: one round of a search.  `Query.Search.pending_start`: it comes to an end.
* `Query.mem_referencesWith`: a search finds what the reached results show, and nothing else.
-/

namespace SymbolGraph

/-- The reference results that an edge lists. -/
def Edge.follows : Edge → List ElementId
  | .item _ targets _ property => if property = some .referenceResults then targets else []
  | _                          => []

/-- The ranges that an edge lists under a property that is kept. -/
def Edge.kept (keep : Option ItemProperty → Bool) : Edge → List ElementId
  | .item _ targets _ property =>
      if property ≠ some .referenceResults ∧ keep property = true then targets else []
  | _ => []

namespace Query

variable {elements : List Element} {keep : Option ItemProperty → Bool}

/-- From one reference result to another through those that they list. -/
def Reaches (elements : List Element) : ElementId → ElementId → Prop :=
  Relation.ReflTransGen fun a b => ∃ document, Listed elements a (some .referenceResults) document b

/-- A result lists a range under a property that is kept. -/
def Shows (elements : List Element) (keep : Option ItemProperty → Bool) (result x : ElementId) :
    Prop :=
  ∃ property document, property ≠ some .referenceResults ∧ keep property = true ∧
    Listed elements result property document x

theorem exists_follows {a b : ElementId} : (∃ e ∈ outgoing elements a .item, b ∈ e.follows) ↔
    ∃ document, Listed elements a (some .referenceResults) document b := by
  constructor
  · rintro ⟨e, he, hb⟩
    obtain ⟨⟨n, hmem⟩, rfl, -⟩ := mem_outgoing.mp he
    unfold Edge.follows at hb
    split at hb
    · split at hb
      · rename_i hproperty
        rw [hproperty] at hmem
        exact ⟨_, n, _, hmem, hb⟩
      · cases hb
    · cases hb
  · rintro ⟨document, n, targets, hmem, hb⟩
    exact ⟨_, mem_outgoing.mpr ⟨⟨n, hmem⟩, rfl, rfl⟩, hb⟩

theorem exists_kept {a x : ElementId} :
    (∃ e ∈ outgoing elements a .item, x ∈ e.kept keep) ↔ Shows elements keep a x := by
  constructor
  · rintro ⟨e, he, hx⟩
    obtain ⟨⟨n, hmem⟩, rfl, -⟩ := mem_outgoing.mp he
    unfold Edge.kept at hx
    split at hx
    · split at hx
      · rename_i hkeep
        exact ⟨_, _, hkeep.1, hkeep.2, n, _, hmem, hx⟩
      · cases hx
    · cases hx
  · rintro ⟨property, document, hproperty, hkeep, n, targets, hmem, hx⟩
    refine ⟨_, mem_outgoing.mpr ⟨⟨n, hmem⟩, rfl, rfl⟩, ?_⟩
    show x ∈ if property ≠ some .referenceResults ∧ keep property = true then targets else []
    rw [if_pos ⟨hproperty, hkeep⟩]
    exact hx

theorem mem_addNew {known more : List ElementId} {x : ElementId} :
    x ∈ addNew known more ↔ x ∈ known ∨ x ∈ more := by
  unfold addNew
  induction more generalizing known with
  | nil => simp
  | cons y more ih =>
      rw [List.foldl_cons, ih]
      split
      · rename_i hy
        rw [List.mem_cons]
        constructor
        · exact fun h => h.imp_right .inr
        · rintro (h | rfl | h)
          · exact .inl h
          · exact .inl hy
          · exact .inr h
      · rw [List.mem_append, List.mem_singleton, List.mem_cons, or_assoc]

namespace Search

variable {start : ElementId} {search : Search}

/-! ### The edges of one result -/

/-- What visiting an edge does to a search. -/
theorem visit_eq (keep : Option ItemProperty → Bool) (search : Search) (e : Edge) :
    (search.visit keep e).results = search.results ∧
    (search.visit keep e).pending = e.follows ++ search.pending ∧
    ∀ x, x ∈ (search.visit keep e).found ↔ x ∈ search.found ∨ x ∈ e.kept keep := by
  cases e with
  | contains source targets => simp [visit, Edge.follows, Edge.kept]
  | link kind source target => simp [visit, Edge.follows, Edge.kept]
  | item source targets document property =>
      simp only [visit, Edge.follows, Edge.kept]
      by_cases hproperty : property = some .referenceResults
      · simp [hproperty]
      · cases hkeep : keep property with
        | true => simp [hproperty, mem_addNew]
        | false => simp [hproperty]

/-- What visiting the edges of a result does to a search. -/
theorem foldl_visit_eq (keep : Option ItemProperty → Bool) (es : List Edge) (search : Search) :
    (es.foldl (visit keep) search).results = search.results ∧
    (∀ q, q ∈ (es.foldl (visit keep) search).pending ↔
      q ∈ search.pending ∨ ∃ e ∈ es, q ∈ e.follows) ∧
    (∀ x, x ∈ (es.foldl (visit keep) search).found ↔
      x ∈ search.found ∨ ∃ e ∈ es, x ∈ e.kept keep) ∧
    (es.foldl (visit keep) search).pending.length =
      search.pending.length + (es.flatMap Edge.follows).length := by
  induction es generalizing search with
  | nil => simp
  | cons e es ih =>
      obtain ⟨hresults, hpending, hfound, hlength⟩ := ih (search.visit keep e)
      obtain ⟨hresults', hpending', hfound'⟩ := visit_eq keep search e
      rw [List.foldl_cons]
      refine ⟨hresults.trans hresults', fun q => ?_, fun x => ?_, ?_⟩
      · rw [hpending, hpending', List.mem_append, List.exists_mem_cons_iff]
        tauto
      · rw [hfound, hfound', List.exists_mem_cons_iff, or_assoc]
      · rw [hlength, hpending', List.flatMap_cons, List.length_append, List.length_append]
        omega

/-! ### Why the search ends -/

/-- How many results the edges of results that were not expanded yet may still add. -/
def weight (elements : List Element) (results : List ElementId) : Nat :=
  (((elements.filterMap Element.edge?).filter fun e => e.2.source ∉ results).flatMap
    fun e => e.2.targets).length

theorem length_follows_le (e : Edge) : e.follows.length ≤ e.targets.length := by
  unfold Edge.follows
  split
  · split
    · exact Nat.le_refl _
    · exact Nat.zero_le _
  · exact Nat.zero_le _

/-- Expanding a result uses up its edges. -/
theorem weight_cons {result : ElementId} {results : List ElementId} (hnew : result ∉ results) :
    weight elements (result :: results) +
        ((outgoing elements result .item).flatMap Edge.follows).length ≤
      weight elements results := by
  unfold weight outgoing
  induction elements.filterMap Element.edge? with
  | nil => simp
  | cons e edges ih =>
      have hle := length_follows_le e.2
      -- An edge that leaves the result no longer counts, and any other counts as before.
      by_cases hsource : e.2.source = result
      · by_cases hlabel : e.2.label = .item <;>
          simp [hsource, hlabel, hnew] at ih ⊢ <;> omega
      · by_cases hold : e.2.source ∈ results <;>
          simp [hsource, hold] at ih ⊢ <;> omega

/-- What holds between two steps of a search from `start`. -/
structure Faithful (elements : List Element) (keep : Option ItemProperty → Bool) (start : ElementId)
    (search : Search) : Prop where
  begun   : start ∈ search.results ∨ start ∈ search.pending
  reached : ∀ q, q ∈ search.results ∨ q ∈ search.pending → Reaches elements start q
  closed  : ∀ q ∈ search.results, ∀ q', (∃ document,
    Listed elements q (some .referenceResults) document q') →
      q' ∈ search.results ∨ q' ∈ search.pending
  found   : ∀ x ∈ search.found, ∃ q, Reaches elements start q ∧ Shows elements keep q x
  shown   : ∀ q ∈ search.results, ∀ x, Shows elements keep q x → x ∈ search.found

/-- A result that was expanded before is dropped. -/
theorem Faithful.drop {result : ElementId} {later : List ElementId}
    (h : search.Faithful elements keep start) (hpending : search.pending = result :: later)
    (hold : result ∈ search.results) :
    Faithful elements keep start { search with pending := later } := by
  have hmem : ∀ q, q ∈ search.results ∨ q ∈ search.pending ↔ q ∈ search.results ∨ q ∈ later := by
    intro q
    rw [hpending, List.mem_cons]
    constructor
    · rintro (h | rfl | h)
      · exact .inl h
      · exact .inl hold
      · exact .inr h
    · exact fun h => h.imp_right .inr
  exact ⟨(hmem start).mp h.begun, fun q hq => h.reached q ((hmem q).mpr hq),
    fun q hq q' hq' => (hmem q').mp (h.closed q hq q' hq'), h.found, h.shown⟩

/-- A new result is expanded. -/
theorem Faithful.expand {result : ElementId} {later : List ElementId}
    (h : search.Faithful elements keep start) (hpending : search.pending = result :: later) :
    Faithful elements keep start ((outgoing elements result .item).foldl (visit keep)
      { search with pending := later, results := result :: search.results }) := by
  obtain ⟨hresults', hpending', hfound', -⟩ := foldl_visit_eq keep
    (outgoing elements result .item)
    { search with pending := later, results := result :: search.results }
  -- What is pending is reached, so `result` may be shown and its successors follow from it.
  have hresult : Reaches elements start result := by
    refine h.reached result (.inr ?_)
    rw [hpending]
    exact List.mem_cons_self
  simp only [exists_follows, exists_kept] at hpending' hfound'
  have hold : ∀ q, q ∈ search.results ∨ q ∈ search.pending → q ∈ result :: search.results ∨
      q ∈ later := by
    intro q hq
    rw [hpending, List.mem_cons] at hq
    rw [List.mem_cons]
    tauto
  refine
    { begun := ?begun, reached := ?reached, closed := ?closed, found := ?found, shown := ?shown }
  case begun =>
    rw [hresults', hpending']
    exact (hold start h.begun).imp_right .inl
  case reached =>
    intro q hq
    rw [hresults', hpending', List.mem_cons] at hq
    rcases hq with (rfl | hq) | hq | hq
    · exact hresult
    · exact h.reached q (.inl hq)
    · refine h.reached q (.inr ?_)
      rw [hpending]
      exact List.mem_cons_of_mem _ hq
    · exact hresult.tail hq
  case closed =>
    intro q hq q' hq'
    rw [hresults', List.mem_cons] at hq
    rw [hresults', hpending']
    rcases hq with rfl | hq
    · exact .inr (.inr hq')
    · exact (hold q' (h.closed q hq q' hq')).imp_right .inl
  case found =>
    intro x hx
    rcases (hfound' x).mp hx with hx | hx
    · exact h.found x hx
    · exact ⟨result, hresult, hx⟩
  case shown =>
    intro q hq x hx
    rw [hresults', List.mem_cons] at hq
    rw [hfound']
    rcases hq with rfl | hq
    · exact .inr hx
    · exact .inl (h.shown q hq x hx)

/-! ### Round after round -/

/-- One round of a search. -/
def advance (elements : List Element) (keep : Option ItemProperty → Bool) (search : Search) :
    Search :=
  match search.pending with
  | []              => search
  | result :: later =>
      if result ∈ search.results then { search with pending := later }
      else (outgoing elements result .item).foldl (visit keep)
        { search with pending := later, results := result :: search.results }

/-- What a round does: there is none left, a result is dropped, or a new one is expanded. -/
theorem advance_cases (elements : List Element) (keep : Option ItemProperty → Bool)
    (search : Search) :
    (search.pending = [] ∧ search.advance elements keep = search) ∨
    ∃ result later, search.pending = result :: later ∧
      ((result ∈ search.results ∧ search.advance elements keep = { search with pending := later }) ∨
        (result ∉ search.results ∧ search.advance elements keep =
          (outgoing elements result .item).foldl (visit keep)
            { search with pending := later, results := result :: search.results })) := by
  unfold advance
  split
  · exact .inl ⟨‹_›, rfl⟩
  · rename_i result later hpending
    refine .inr ⟨result, later, hpending, ?_⟩
    split
    · exact .inl ⟨‹_›, rfl⟩
    · exact .inr ⟨‹_›, rfl⟩

theorem advance_of_none (h : search.pending = []) : search.advance elements keep = search := by
  simp [advance, h]

theorem run_eq_iterate (fuel : Nat) (search : Search) :
    run elements keep fuel search = ((advance elements keep)^[fuel] search).found := by
  induction fuel generalizing search with
  | zero => rfl
  | succ fuel ih =>
      rw [Function.iterate_succ_apply, ← ih]
      cases hpending : search.pending with
      | nil =>
          have hsame : search.advance elements keep = search := advance_of_none hpending
          rw [hsame, ih, Function.iterate_fixed hsame]
          simp [run, hpending]
      | cons result later =>
          by_cases hold : result ∈ search.results
          · simp [run, advance, hpending, hold]
          · simp [run, advance, hpending, hold]

theorem Faithful.advance (h : search.Faithful elements keep start) :
    (search.advance elements keep).Faithful elements keep start := by
  rcases advance_cases elements keep search with
    ⟨-, hround⟩ | ⟨result, later, hpending, ⟨hold, hround⟩ | ⟨-, hround⟩⟩
  · rwa [hround]
  · rw [hround]
    exact h.drop hpending hold
  · rw [hround]
    exact h.expand hpending

theorem Faithful.iterate (h : search.Faithful elements keep start) (rounds : Nat) :
    ((Search.advance elements keep)^[rounds] search).Faithful elements keep start := by
  induction rounds with
  | zero => exact h
  | succ rounds ih =>
      rw [Function.iterate_succ_apply']
      exact ih.advance

/-- A round uses up a pending result; what it adds to those is taken from the weight. -/
theorem advance_lt (h : search.pending ≠ []) :
    (search.advance elements keep).pending.length +
        weight elements (search.advance elements keep).results <
      search.pending.length + weight elements search.results := by
  rcases advance_cases elements keep search with
    ⟨hnone, -⟩ | ⟨result, later, hpending, ⟨-, hround⟩ | ⟨hnew, hround⟩⟩
  · exact absurd hnone h
  · rw [hround, hpending]
    simp
  · obtain ⟨hresults, -, -, hlength⟩ := foldl_visit_eq keep (outgoing elements result .item)
      { search with pending := later, results := result :: search.results }
    have hweight : weight elements (result :: search.results) + _ ≤ _ := weight_cons hnew
    rw [hround, hresults, hlength, hpending, List.length_cons]
    dsimp only
    omega

/-- **After enough rounds nothing is pending.** -/
theorem pending_iterate {rounds : Nat}
    (h : search.pending.length + weight elements search.results ≤ rounds) :
    ((advance elements keep)^[rounds] search).pending = [] := by
  induction rounds generalizing search with
  | zero =>
      have hlength : search.pending.length = 0 := by omega
      exact List.eq_nil_of_length_eq_zero hlength
  | succ rounds ih =>
      by_cases hpending : search.pending = []
      · rw [Function.iterate_fixed (advance_of_none hpending)]
        exact hpending
      · rw [Function.iterate_succ_apply]
        have hlt : (search.advance elements keep).pending.length + _ < _ := advance_lt hpending
        exact ih (by omega)

/-- As many rounds as there are targets, and one for the result at which the search starts. -/
theorem pending_start (elements : List Element) (keep : Option ItemProperty → Bool)
    (result : ElementId) :
    ((advance elements keep)^[targetCount elements + 1] { pending := [result] }).pending = [] :=
  pending_iterate (by simp [weight, targetCount, Nat.add_comm])

end Search

/-- **A search finds what the reached results show**, and nothing else. -/
theorem mem_referencesWith {range result x : ElementId}
    (h : firstResult elements range .references = some result) :
    x ∈ referencesWith elements range keep ↔
      ∃ q, Reaches elements result q ∧ Shows elements keep q x := by
  have hstart : Search.Faithful elements keep result { pending := [result] } := by
    refine ⟨.inr List.mem_cons_self, ?_, nofun, nofun, nofun⟩
    rintro q (hq | hq)
    · cases hq
    · rw [List.mem_singleton.mp hq]
      exact .refl
  have hlast := hstart.iterate (targetCount elements + 1)
  have hpending := Search.pending_start elements keep result
  unfold referencesWith
  rw [h]
  dsimp only
  rw [Search.run_eq_iterate]
  generalize (Search.advance elements keep)^[targetCount elements + 1] { pending := [result] }
    = last at hlast hpending
  refine ⟨hlast.found x, ?_⟩
  rintro ⟨q, hreached, hshows⟩
  -- What can be reached was expanded, because nothing is pending.
  have hall : ∀ q, Reaches elements result q → q ∈ last.results := by
    intro q hq
    induction hq with
    | refl => simpa [hpending] using hlast.begun
    | tail _ hstep ih => simpa [hpending] using hlast.closed _ ih _ hstep
  exact hlast.shown q (hall q hreached) x hshows

theorem mem_referencesWith_iff {range x : ElementId} : x ∈ referencesWith elements range keep ↔
    ∃ result, firstResult elements range .references = some result ∧
      ∃ q, Reaches elements result q ∧ Shows elements keep q x := by
  cases hfirst : firstResult elements range .references with
  | none => simp [referencesWith, hfirst]
  | some result =>
      refine (mem_referencesWith hfirst).trans ⟨fun hx => ⟨result, rfl, hx⟩, ?_⟩
      rintro ⟨result', hresult', hx⟩
      cases hresult'
      exact hx

theorem mem_references {range x : ElementId} : x ∈ references elements range ↔
    ∃ result, firstResult elements range .references = some result ∧
      ∃ q, Reaches elements result q ∧ Shows elements (fun _ => true) q x :=
  mem_referencesWith_iff

end Query

end SymbolGraph
