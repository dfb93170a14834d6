import SymbolGraph.Proofs.Run.Following
import SymbolGraph.Proofs.Run.References

/-!
# Proofs — Run — going to a definition

A reader who asks for the definition of a range gets the definitions of its record, or of the first
alias target on the way that has any.  What an alias is defined by counts only when the alias goes
by another name.

* `Store.DefinedBy`: the definitions that a record is to lead to.
* `Run.Ended.definitions_exactly`: a reader finds these.
-/

namespace SymbolGraph

open Query

variable {faults : Nat → Option SinkFault} {w : Setting}

namespace Store

/-- The definitions of a record: its own, if it is of a kind that is defined by them and has any,
and otherwise those of the target of an alias. -/
inductive DefinedBy (s : Store) : RecordId → ElementId → Prop
  | own {a : RecordId} {kind : RecordKind} {d x : ElementId} : s.kind? a = some kind →
      kind.ownsDefinitions = true → s.OwnsDefinition a d x → DefinedBy s a x
  | behind {a target : RecordId} {renames : Bool} {x : ElementId} :
      s.kind? a = some (.aliased target renames) →
        (renames = true → ∀ d y, ¬ s.OwnsDefinition a d y) → DefinedBy s target x → DefinedBy s a x

namespace Settled

variable {s : Store} (h : s.Settled faults) {a : RecordId} {v : VertexRef} {later : List ElementId}
  {d x : ElementId}

include h

/-- A record is defined by its own definitions, if it is of a kind that is. -/
theorem defined_own {kind : RecordKind} (hk : s.kind? a = some kind) :
    s.Holds (.defined a d x) ↔ kind.ownsDefinitions = true ∧ s.OwnsDefinition a d x := by
  rw [h.balanced.defines]
  simp only [h.filed_iff]
  constructor
  · rintro ⟨kind', tag, howns, hk', howned⟩
    cases hk.symm.trans hk'
    cases tag with
    | reference text => cases howned
    | definition text sort full => exact ⟨howned, text, sort, full, howns⟩
  · rintro ⟨howned, text, sort, full, howns⟩
    exact ⟨kind, _, howns, hk, howned⟩

/-- A definition result lists what its record is defined by. -/
theorem listed_by_definition {u : VertexRef} (hu : s.defining? a = some u) :
    (∃ property document, Listed s.elements u.id property document x) ↔
      ∃ document, s.Holds (.defined a document x) := by
  simp only [h.defined_iff]
  constructor
  · rintro ⟨property, document, hlisted⟩
    obtain ⟨r, hr, hdr⟩ := Option.bind_eq_some_iff.mp hu
    have hresult := ((h.sound.records _ r hr).definitionResult u hdr).2
    -- Only a reference result lists under a property.
    cases property with
    | none => exact ⟨document, u, hu, hlisted⟩
    | some role =>
        obtain ⟨-, hsource, -⟩ := Listed.refersTo h.sound.graph hlisted
        cases h.sound.graph.label_unique hresult hsource
  · rintro ⟨document, u', hu', hlisted⟩
    cases hu.symm.trans hu'
    exact ⟨none, document, hlisted⟩

/-- The definition result of a record lists the definitions that it is to lead to. -/
theorem definedBy_of_some {u : VertexRef} (hu : s.defining? a = some u) :
    s.DefinedBy a x ↔ ∃ property document, Listed s.elements u.id property document x := by
  rw [h.listed_by_definition hu]
  constructor
  · intro hx
    cases hx with
    | own hk howned howns => exact ⟨_, (h.defined_own hk).mpr ⟨howned, howns⟩⟩
    | @behind _ target renames _ hk hnone _ =>
        -- A result that was made lists something, and then the target is not asked.
        obtain ⟨d, y, hy⟩ := (h.balanced.warranted a).2 (by rw [hu]; exact nofun)
        obtain ⟨howned, howns⟩ := (h.defined_own hk).mp hy
        cases renames with
        | true => exact absurd howns (hnone rfl d y)
        | false => cases howned
  · rintro ⟨d, hx⟩
    obtain ⟨kind, tag, -, hk, -⟩ := (h.balanced.defines a d x).mp hx
    obtain ⟨howned, howns⟩ := (h.defined_own hk).mp hx
    exact .own hk howned howns

/-- Without a definition result a record leads to the definitions of the target of an alias. -/
theorem definedBy_of_none (hnone : s.defining? a = none) : s.DefinedBy a x ↔
    ∃ b renames, s.kind? a = some (.aliased b renames) ∧ s.DefinedBy b x := by
  have hundefined : ∀ {kind : RecordKind}, s.kind? a = some kind → kind.ownsDefinitions = true →
      ∀ d y, ¬ s.OwnsDefinition a d y := by
    intro kind hk howned d y howns
    obtain ⟨u, hu, -⟩ := h.defined_iff.mp ((h.defined_own hk).mpr ⟨howned, howns⟩)
    rw [hnone] at hu
    cases hu
  constructor
  · intro hx
    cases hx with
    | own hk howned howns => exact absurd howns (hundefined hk howned _ x)
    | behind hk _ hx => exact ⟨_, _, hk, hx⟩
  · rintro ⟨b, renames, hk, hx⟩
    refine .behind hk (fun hrenames => hundefined hk ?_) hx
    rw [hrenames]
    rfl

/-- What the first definition result from a record on lists. -/
theorem definedBy_iff (hbehind : s.Behind a later) (hv : s.hub? a = some v) :
    s.DefinedBy a x ↔ ∃ result,
      ((v.id :: later).findSome? fun y => firstTarget s.elements y .definition) = some result ∧
        ∃ property document, Listed s.elements result property document x := by
  -- A reader goes on along the chain exactly where there is no definition result.
  induction hbehind generalizing v with
  | @ends a kind hk hpasses =>
      rw [List.findSome?_cons, h.firstTarget_definition hv]
      cases hd : s.defining? a with
      | some u => simp [h.definedBy_of_some hd]
      | none =>
          rw [h.definedBy_of_none hd]
          refine iff_of_false ?_ (by simp)
          rintro ⟨b, renames, hk', -⟩
          cases hk.symm.trans hk'
          cases hpasses
  | @passes a b renames u later hk hu _ ih =>
      rw [List.findSome?_cons, h.firstTarget_definition hv]
      cases hd : s.defining? a with
      | some u => simp [h.definedBy_of_some hd]
      | none =>
          rw [h.definedBy_of_none hd, Option.map_none, ← ih hu]
          constructor
          · rintro ⟨b', renames', hk', hx⟩
            cases hk.symm.trans hk'
            exact hx
          · exact fun hx => ⟨b, renames, hk, hx⟩

end Settled

end Store

namespace Run

/-- **Going to a definition finds exactly the definitions** of the record that a range belongs
to. -/
theorem Ended.definitions_exactly {s : Session} (h : Ended w faults s) {r : ElementId}
    {a : RecordId} {v : VertexRef} (hr : Delivered s.graph.elements .range r)
    (hv : s.store.hub? a = some v)
    (hnext : Linked s.graph.elements .next r v.id) (x : ElementId) :
    x ∈ definitions s.graph.elements r ↔ s.store.DefinedBy a x := by
  have hs := h.settled
  obtain ⟨later, hbehind⟩ := hs.exists_behind hv
  have hfirst : firstResult s.graph.elements r .definition = _ :=
    hs.firstResult_eq hr hv hnext hbehind (.inl rfl)
  rw [mem_definitions, hfirst]
  exact (hs.definedBy_iff hbehind hv).symm

/-- The mention of an overriding method leads to that method, not to the one that is overridden. -/
theorem overriding_definedBy : ∃ s, Ended overriding (fun _ => none) s ∧
    ∀ x, s.store.DefinedBy ⟨3⟩ x ↔ x = ⟨16⟩ := by
  obtain ⟨s, hs, -, -, hhub, htag, hnext, hdefinitions, -⟩ := overriding_ended
  refine ⟨s, hs, fun x => ?_⟩
  rw [← hs.definitions_exactly htag.delivered hhub hnext x, hdefinitions, List.mem_singleton]

end Run

end SymbolGraph
