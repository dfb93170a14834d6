import SymbolGraph.Proofs.Run.Ending

/-!
# Proofs — Run — what a reference result lists

An occurrence travels from the record it was met under to the records that keep it.  At the end of a
run the reference result of such a record lists exactly what could travel there.

* `Store.Feeds`: what is recorded under one record is kept by another.
* `Store.Lists`: what the reference result of a record lists.
* `Run.Ended.lists_exactly`: which references and which definitions it lists.
-/

namespace SymbolGraph

variable {faults : Nat → Option SinkFault} {w : Setting}

namespace Store

variable {s : Store} {a t : RecordId} {d x : ElementId}

/-- By passing on, one can get from a record to another, which keeps what it is given. -/
def Feeds (s : Store) (a t : RecordId) : Prop := Route s.kind? RecordKind.passesTo a t

/-- The reference result of a record lists an id for a document under a property. -/
def Lists (s : Store) (t : RecordId) (property : ItemProperty) (document x : ElementId) : Prop :=
  ∃ v result, s.hub? t = some v ∧ Linked s.elements .references v.id result ∧
    Listed s.elements result (some property) document x

/-- A mention of what a record stands for. -/
def OwnsReference (s : Store) (a : RecordId) (document x : ElementId) : Prop :=
  ∃ text, s.Owns a document x (.reference text)

/-- A definition of what a record stands for. -/
def OwnsDefinition (s : Store) (a : RecordId) (document x : ElementId) : Prop :=
  ∃ text sort full, s.Owns a document x (.definition text sort full)

namespace Settled

variable (h : s.Settled faults)

include h

/-- What the reference result of a record lists is what the record cites. -/
theorem lists_iff {property : ItemProperty} :
    s.Lists t property d x ↔ s.Holds (.cited t property d x) := by
  rw [h.cited_iff]
  constructor
  · rintro ⟨v, result, hv, hlinked, hlisted⟩
    obtain ⟨u, hu, rfl⟩ := (h.linked_references hv).mp hlinked
    exact ⟨u, hu, hlisted⟩
  · rintro ⟨u, hu, hlisted⟩
    obtain ⟨v, hv⟩ := h.hub_of_citing hu
    exact ⟨v, u.id, hv, (h.linked_references hv).mpr ⟨u, hu, rfl⟩, hlisted⟩

theorem lists_references : s.Lists t .references d x ↔
    (∃ a, s.Feeds a t ∧ s.OwnsReference a d x) ∨
      ∃ a target, s.Feeds a t ∧ s.kind? a = some (.aliased target false) ∧
        s.OwnsDefinition a d x := by
  rw [h.lists_iff]
  refine (h.balanced.cites t .references d x).trans ?_
  simp only [h.filed_iff]
  constructor
  · rintro ⟨a, kind, tag, howns, hk, hrole, hroute⟩
    cases tag with
    | reference text => exact .inl ⟨a, hroute, text, howns⟩
    | definition text sort full =>
        -- Only an alias that keeps the name has its definitions cited as references.
        refine .inr ?_
        cases kind with
        | aliased target renames =>
            cases renames with
            | false => exact ⟨a, target, hroute, hk, text, sort, full, howns⟩
            | true => cases hrole
        | _ => cases hrole
  · rintro (⟨a, hroute, text, howns⟩ | ⟨a, target, hroute, hk, text, sort, full, howns⟩)
    · obtain ⟨-, -, v, hv, -⟩ := id howns
      obtain ⟨kind, hk⟩ := kind?_of_hub? hv
      exact ⟨a, kind, _, howns, hk, rfl, hroute⟩
    · exact ⟨a, _, _, howns, hk, rfl, hroute⟩

theorem lists_definitions {kind : RecordKind} (hk : s.kind? t = some kind)
    (hrests : kind.passesTo = none) : s.Lists t .definitions d x ↔
      s.OwnsDefinition t d x ∨ ∃ a base bases anchor, s.Feeds a t ∧
        s.kind? a = some (.method (base :: bases) anchor) ∧ s.OwnsDefinition a d x := by
  rw [h.lists_iff]
  refine (h.balanced.cites t .definitions d x).trans ?_
  simp only [h.filed_iff]
  constructor
  · rintro ⟨a, known, tag, howns, ha, hrole, hroute⟩
    cases tag with
    | reference text => cases hrole
    | definition text sort full =>
        have hdefines : s.OwnsDefinition a d x := ⟨text, sort, full, howns⟩
        -- A record that keeps its definitions is the only one they travel to.
        have hkept : known.passesTo = none → s.OwnsDefinition t d x := by
          intro hnone
          rw [(Route.iff_of_rests ha hnone).mp hroute]
          exact hdefines
        cases known with
        | standard => exact .inl (hkept rfl)
        | method bases anchor =>
            cases bases with
            | nil => exact .inl (hkept rfl)
            | cons base bases => exact .inr ⟨a, base, bases, anchor, hroute, ha, hdefines⟩
        | aliased target renames => cases renames <;> cases hrole
        | composite elements anchor => cases hrole
        | transient => cases hrole
  · rintro (⟨text, sort, full, howns⟩ |
      ⟨a, base, bases, anchor, hroute, ha, text, sort, full, howns⟩)
    · have hsuits : kind.acceptsDefinitions = true :=
        h.balanced.suits t d x _ kind (h.filed_iff.mpr howns) hk
      refine ⟨t, kind, _, howns, hk, ?_, .rests hk hrests⟩
      cases kind with
      | standard => rfl
      | method bases anchor => rfl
      | aliased target renames => cases hrests
      | composite elements anchor => cases hsuits
      | transient => cases hsuits
    · exact ⟨a, _, _, howns, ha, rfl, hroute⟩

end Settled

end Store

namespace Run

/-- **What the reference result of a record lists** at the end of a run, if the record keeps what it
is given.  Under references, for each document: the mentions that feed the record, and the
definitions of the aliases that feed it without renaming.  Under definitions: its own, and those of
the overriding methods that feed it. -/
theorem Ended.lists_exactly {s : Session} (h : Ended w faults s) {t : RecordId} {kind : RecordKind}
    (hk : s.store.kind? t = some kind) (hrests : kind.passesTo = none) (d x : ElementId) :
    (s.store.Lists t .references d x ↔
      (∃ a, s.store.Feeds a t ∧ s.store.OwnsReference a d x) ∨
        ∃ a target, s.store.Feeds a t ∧ s.store.kind? a = some (.aliased target false) ∧
          s.store.OwnsDefinition a d x) ∧
    (s.store.Lists t .definitions d x ↔
      s.store.OwnsDefinition t d x ∨
        ∃ a base bases anchor, s.store.Feeds a t ∧
          s.store.kind? a = some (.method (base :: bases) anchor) ∧ s.store.OwnsDefinition a d x) :=
  ⟨h.settled.lists_references, h.settled.lists_definitions hk hrests⟩

/-- The mention of an overriding method is listed by the method that is overridden. -/
theorem overriding_lists_mention : ∃ s d, Ended overriding (fun _ => none) s ∧
    s.store.kind? ⟨1⟩ = some (.method [] ⟨0⟩) ∧ s.store.Lists ⟨1⟩ .references d ⟨18⟩ := by
  obtain ⟨s, hs, hbase, hoverrides, hhub, htag, hnext, -⟩ := overriding_ended
  obtain ⟨b, d, -, hcontained, -⟩ := hs.settled.exists_owner htag
  have howns : s.store.OwnsReference ⟨3⟩ d ⟨18⟩ :=
    ⟨"m", htag, hcontained, _, hhub, hnext⟩
  have hfeeds : s.store.Feeds ⟨3⟩ ⟨1⟩ :=
    .passes hoverrides rfl (List.mem_singleton_self _) (.rests hbase rfl)
  exact ⟨s, d, hs, hbase, (hs.lists_exactly hbase rfl d ⟨18⟩).1.mpr (.inl ⟨⟨3⟩, hfeeds, howns⟩)⟩

end Run

end SymbolGraph
