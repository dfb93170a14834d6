import SymbolGraph.Proofs.Graph.Chains
import SymbolGraph.Proofs.Graph.Searching

/-!
# Proofs — Graph — what a reader of any list gets

A reader may be given any list of elements, one in which `next` edges or reference results lead
around in circles included.  The bounds that the reader works with are never what ends its work:
there is always one more round to spare than there are edges to use up.

* `Query.LeadsTo`: the first reference result along what is followed.
* `Query.Search.nodup_iterate`: nothing is found twice.
* `Query.references_closed`: the chain is what is followed, and the references are what the results
  behind the first one list.
-/

namespace SymbolGraph.Query

variable {elements : List Element}

/-! ### The first reference result -/

/-- The first reference result along the chain of a vertex: those before have none. -/
def LeadsTo (elements : List Element) (start result : ElementId) : Prop :=
  ∃ before v after, nextChain elements start = before ++ v :: after ∧
    (∀ u ∈ before, ∀ other, ¬ Linked elements .references u other) ∧
    FirstLink elements .references v result

theorem firstResult_eq_some_iff {start result : ElementId} :
    firstResult elements start .references = some result ↔ LeadsTo elements start result := by
  unfold firstResult LeadsTo
  rw [List.findSome?_eq_some_iff]
  simp only [firstTarget_eq_some_iff, firstTarget_eq_none]
  constructor
  · rintro ⟨before, v, after, hchain, hfirst, hbefore⟩
    exact ⟨before, v, after, hchain, hbefore, hfirst⟩
  · rintro ⟨before, v, after, hchain, hbefore, hfirst⟩
    exact ⟨before, v, after, hchain, hfirst, hbefore⟩

/-! ### Nothing is found twice -/

theorem nodup_addNew {known : List ElementId} (h : known.Nodup) (more : List ElementId) :
    (addNew known more).Nodup := by
  unfold addNew
  induction more generalizing known with
  | nil => exact h
  | cons x more ih =>
      rw [List.foldl_cons]
      split
      · exact ih h
      · rename_i hx
        refine ih ?_
        rw [← List.concat_eq_append]
        exact h.concat hx

namespace Search

variable {keep : Option ItemProperty → Bool} {search : Search}

theorem nodup_visit (h : search.found.Nodup) (e : Edge) : (search.visit keep e).found.Nodup := by
  cases e with
  | contains source targets => exact h
  | link kind source target => exact h
  | item source targets document property =>
      simp only [visit]
      split
      · exact h
      · split
        · exact nodup_addNew h targets
        · exact h

theorem nodup_foldl_visit (h : search.found.Nodup) (es : List Edge) :
    (es.foldl (visit keep) search).found.Nodup := by
  induction es generalizing search with
  | nil => exact h
  | cons e es ih => exact ih (nodup_visit h e)

theorem nodup_advance (h : search.found.Nodup) : (search.advance elements keep).found.Nodup := by
  rcases advance_cases elements keep search with
    ⟨-, hround⟩ | ⟨result, later, -, ⟨-, hround⟩ | ⟨-, hround⟩⟩
  · rwa [hround]
  · rwa [hround]
  · rw [hround]
    refine nodup_foldl_visit ?_ _
    exact h

theorem nodup_iterate (h : search.found.Nodup) (rounds : Nat) :
    ((advance elements keep)^[rounds] search).found.Nodup := by
  induction rounds with
  | zero => exact h
  | succ rounds ih =>
      rw [Function.iterate_succ_apply']
      exact nodup_advance ih

end Search

/-! ### The answers -/

/-- A search ends by itself, and what it found is the answer. -/
theorem exists_referencesWith_eq {range result : ElementId} (h : LeadsTo elements range result)
    (keep : Option ItemProperty → Bool) : ∃ rounds,
      ((Search.advance elements keep)^[rounds] { pending := [result] }).pending = [] ∧
        referencesWith elements range keep =
          ((Search.advance elements keep)^[rounds] { pending := [result] }).found := by
  refine ⟨targetCount elements + 1, Search.pending_start elements keep result, ?_⟩
  unfold referencesWith
  rw [firstResult_eq_some_iff.mpr h]
  exact Search.run_eq_iterate _ _

theorem nodup_referencesWith (elements : List Element) (range : ElementId)
    (keep : Option ItemProperty → Bool) : (referencesWith elements range keep).Nodup := by
  unfold referencesWith
  cases firstResult elements range .references with
  | none => exact .nil
  | some result =>
      dsimp only
      rw [Search.run_eq_iterate]
      refine Search.nodup_iterate ?_ _
      exact List.nodup_nil

/-- **A reader of any list gets the closure of what it asks for.**  The chain of a range is what is
followed by first `next` edges, with nothing twice.  From the first reference result along it a
search comes to an end, whatever it keeps; what it finds it finds once, and that is what is listed
by the results that are reached, under another property than the one that leads from result to
result. -/
theorem references_closed (elements : List Element) (range : ElementId) :
    (∀ chain, nextChain elements range = chain ↔ Followed elements range chain) ∧
    (∀ keep result, LeadsTo elements range result → ∃ rounds,
      ((Search.advance elements keep)^[rounds] { pending := [result] }).pending = [] ∧
        referencesWith elements range keep =
          ((Search.advance elements keep)^[rounds] { pending := [result] }).found) ∧
    ((references elements range).Nodup ∧
      ∀ x, x ∈ references elements range ↔ ∃ result q, LeadsTo elements range result ∧
        Reaches elements result q ∧ ∃ property document, property ≠ some .referenceResults ∧
          Listed elements q property document x) ∧
    ∀ property, (referencesBy elements range property).Nodup ∧
      ∀ x, x ∈ referencesBy elements range property ↔ ∃ result q, LeadsTo elements range result ∧
        Reaches elements result q ∧ property ≠ .referenceResults ∧
          ∃ document, Listed elements q (some property) document x := by
  refine ⟨fun chain => nextChain_eq_iff, fun keep result h => exists_referencesWith_eq h keep,
    ⟨nodup_referencesWith _ _ _, fun x => ?_⟩,
    fun property => ⟨nodup_referencesWith _ _ _, fun x => ?_⟩⟩
  · rw [mem_references]
    simp only [firstResult_eq_some_iff, Shows, true_and, exists_and_left]
  · unfold referencesBy
    rw [mem_referencesWith_iff]
    simp only [firstResult_eq_some_iff]
    constructor
    · rintro ⟨result, hleads, q, hreaches, property', document, hother, hkeep, hlisted⟩
      obtain rfl : property' = some property := of_decide_eq_true hkeep
      exact ⟨result, q, hleads, hreaches, fun h => hother (congrArg some h), document, hlisted⟩
    · rintro ⟨result, q, hleads, hreaches, hother, document, hlisted⟩
      exact ⟨result, hleads, q, hreaches, some property, document,
        fun h => hother (Option.some.inj h), decide_eq_true rfl, hlisted⟩

-- A range and a result set that follow one another, and two reference results that list one another.
example :
    let elements : List Element := [.edge ⟨10⟩ (.link .next ⟨1⟩ ⟨2⟩), .edge ⟨11⟩ (.link .next ⟨2⟩ ⟨1⟩),
      .edge ⟨12⟩ (.link .references ⟨2⟩ ⟨3⟩), .edge ⟨13⟩ (.item ⟨3⟩ [⟨4⟩] ⟨0⟩ (some .referenceResults)),
      .edge ⟨14⟩ (.item ⟨4⟩ [⟨3⟩] ⟨0⟩ (some .referenceResults)),
      .edge ⟨15⟩ (.item ⟨4⟩ [⟨1⟩, ⟨1⟩] ⟨0⟩ (some .references))]
    nextChain elements ⟨1⟩ = [⟨1⟩, ⟨2⟩] ∧ references elements ⟨1⟩ = [⟨1⟩] := by
  decide

end SymbolGraph.Query
