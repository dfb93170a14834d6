import SymbolGraph.Proofs.Graph.Chains
import SymbolGraph.Proofs.Run.Ending

/-!
# Proofs — Run — from a range to its results

At the end of a run a range leads to the result set of its record, and from there through the result
sets of the aliases to the one of a record that is no alias.  Records are numbered in order of their
making and an alias is made after its target, so the chain does not lead back.

* `Store.Behind`: the result sets behind the one of a record.
* `Store.Settled.firstResult_eq`: the first result of a range is looked for at its record and
  behind.
* `Store.Settled.firstTarget_definition`, `Store.Settled.firstTarget_references`: what is found
  there.
-/

namespace SymbolGraph.Store

open Query

variable {faults : Nat → Option SinkFault} {s : Store} {a b : RecordId} {v : VertexRef}
  {later : List ElementId}

/-- The result sets that are met by following aliases from a record. -/
inductive Behind (s : Store) : RecordId → List ElementId → Prop
  | ends {a : RecordId} {kind : RecordKind} : s.kind? a = some kind → kind.aliasOf = none →
      Behind s a []
  | passes {a b : RecordId} {renames : Bool} {u : VertexRef} {later : List ElementId} :
      s.kind? a = some (.aliased b renames) → s.hub? b = some u → Behind s b later →
        Behind s a (u.id :: later)

/-- The result sets behind a record are those of older ones. -/
theorem Behind.older (hs : s.Sound faults) (h : s.Behind a later) :
    ∀ x ∈ later, ∃ c u, s.hub? c = some u ∧ u.id = x ∧ c.index < a.index := by
  induction h with
  | ends => exact nofun
  | @passes a b renames u later hk hu _ ih =>
      have hlt := hs.descending a _ hk [b] rfl b (List.mem_singleton_self _)
      intro x hx
      rcases List.mem_cons.mp hx with rfl | hx
      · exact ⟨b, u, hu, rfl, hlt⟩
      · obtain ⟨c, u', hu', hid, hlt'⟩ := ih x hx
        exact ⟨c, u', hu', hid, Nat.lt_trans hlt' hlt⟩

theorem Behind.nodup (hs : s.Sound faults) (h : s.Behind a later) (hv : s.hub? a = some v) :
    (v.id :: later).Nodup := by
  induction h generalizing v with
  | ends => exact List.nodup_singleton _
  | @passes a b renames u later hk hu hlater ih =>
      refine List.nodup_cons.mpr ⟨fun hmem => ?_, ih hu⟩
      obtain ⟨c, u', hu', hid, hlt⟩ := (Behind.passes hk hu hlater).older hs _ hmem
      rw [hub?_inj hs hu' hv hid] at hlt
      exact Nat.lt_irrefl _ hlt

namespace Settled

variable (h : s.Settled faults)

include h

/-- Every record has a result set. -/
theorem hub_of_lt (ha : a.index < s.records.size) : ∃ v, s.hub? a = some v := by
  have hr := Array.getElem?_eq_getElem ha
  obtain ⟨v, hv⟩ := h.finished.begun _ _ hr
  exact ⟨v, Option.bind_eq_some_iff.mpr ⟨_, hr, hv⟩⟩

theorem exists_behind (hv : s.hub? a = some v) : ∃ later, s.Behind a later := by
  -- An alias is younger than its target.
  induction hn : a.index using Nat.strong_induction_on generalizing a v with
  | _ n ih =>
      obtain ⟨kind, hk⟩ := kind?_of_hub? hv
      cases hpasses : kind.aliasOf with
      | none => exact ⟨[], .ends hk hpasses⟩
      | some ids =>
          cases kind with
          | aliased b renames =>
              have hlt := h.sound.descending a _ hk [b] rfl b (List.mem_singleton_self _)
              obtain ⟨u, hu⟩ := h.hub_of_lt (Nat.lt_trans hlt (lt_of_kind? hk))
              obtain ⟨later, hlater⟩ := ih b.index (hn ▸ hlt) hu rfl
              exact ⟨_, .passes hk hu hlater⟩
          | _ => cases hpasses

/-- A `next` edge is the only one that leaves its source. -/
theorem firstTarget_next {source target : ElementId}
    (hnext : Linked s.elements .next source target) :
    firstTarget s.elements source .next = some target :=
  firstTarget_eq_some hnext fun target' hnext' =>
    h.balanced.single source target' target hnext' hnext

/-- A reader who follows `next` from the result set of a record meets those behind it. -/
theorem chain (hbehind : s.Behind a later) (hv : s.hub? a = some v) :
    Chain s.elements v.id later := by
  induction hbehind generalizing v with
  | @ends a kind hk hpasses =>
      refine .ends (firstTarget_eq_none.mpr fun target hlinked => ?_)
      obtain ⟨b, renames, u, hk', -⟩ := (h.balanced.leads a v hv target).mp hlinked
      cases hk.symm.trans hk'
      cases hpasses
  | @passes a b renames u later hk hu _ ih =>
      have hlinked : Linked s.elements .next v.id u.id :=
        (h.balanced.leads a v hv u.id).mpr ⟨b, renames, u, hk, hu, rfl⟩
      exact .next (h.firstTarget_next hlinked) (ih hu)

/-- **The first result of a range is looked for at its record and behind.** -/
theorem firstResult_eq {r : ElementId} (hr : Delivered s.elements .range r)
    (hv : s.hub? a = some v) (hnext : Linked s.elements .next r v.id) (hbehind : s.Behind a later)
    {kind : LinkKind} (hkind : kind = .definition ∨ kind = .references) :
    firstResult s.elements r kind =
      (v.id :: later).findSome? fun x => firstTarget s.elements x kind := by
  have hhubs : ∀ x ∈ v.id :: later, Delivered s.elements .resultSet x := by
    intro x hx
    rcases List.mem_cons.mp hx with rfl | hx
    · exact hub?_delivered h.sound hv
    · obtain ⟨c, u, hu, rfl, -⟩ := hbehind.older h.sound x hx
      exact hub?_delivered h.sound hu
  have hnodup : (r :: v.id :: later).Nodup := by
    refine List.nodup_cons.mpr ⟨fun hmem => ?_, hbehind.nodup h.sound hv⟩
    cases h.sound.graph.label_unique hr (hhubs r hmem)
  -- A range has no results of its own.
  have hnone : firstTarget s.elements r kind = none := by
    refine firstTarget_eq_none.mpr fun target hlinked => ?_
    have hjoins := Linked.joins h.sound.graph hlinked
    rcases hkind with rfl | rfl
    · cases h.sound.graph.label_unique hr hjoins.1
    · cases h.sound.graph.label_unique hr hjoins.1
  rw [Query.firstResult_eq (.next (h.firstTarget_next hnext) (h.chain hbehind hv)) hnodup,
    List.findSome?_cons, hnone]

theorem firstTarget_definition (hv : s.hub? a = some v) :
    firstTarget s.elements v.id .definition = (s.defining? a).map VertexRef.id :=
  firstTarget_eq_map fun _ => h.linked_definition hv

theorem firstTarget_references (hv : s.hub? a = some v) :
    firstTarget s.elements v.id .references = (s.citing? a).map VertexRef.id :=
  firstTarget_eq_map fun _ => h.linked_references hv

end Settled

end SymbolGraph.Store
