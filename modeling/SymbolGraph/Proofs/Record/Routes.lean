import SymbolGraph.Record.Basic

/-!
# Proofs — Record — where references are passed on to

What is recorded under one record may belong to others.  Which ones is said by the kinds of the
records alone: a range is passed on by aliases, by overriding methods and by shared properties, and
a whole reference result by aliases only.

* `Route`: by passing on one can get from a record to one that keeps what it is given.
* `RecordKind.passesTo`, `RecordKind.aliasOf`: the two ways of passing on.
* `RecordKind.definitionRole`, `RecordKind.ownsDefinitions`: what definitions count as.
-/

namespace SymbolGraph

namespace RecordKind

/-- The records that a record of a kind passes ranges on to; `none` for the kinds that keep them. -/
def passesTo : RecordKind → Option (List RecordId)
  | .standard                 => none
  | .aliased target _         => some [target]
  | .method [] _              => none
  | .method (base :: bases) _ => some (base :: bases)
  | .composite elements _     => some elements
  | .transient                => none

/-- The record that a record of a kind passes everything on to; `none` for the kinds that keep whole
reference results. -/
def aliasOf : RecordKind → Option (List RecordId)
  | .aliased target _ => some [target]
  | _                 => none

/-- The role in which a definition of a record of a kind is cited.  A definition under another name
is not a reference to what it renames. -/
def definitionRole : RecordKind → Option ReferenceRole
  | .standard | .method _ _   => some .definitions
  | .aliased _ false          => some .references
  | _                         => none

/-- Whether a record of a kind is defined by its definitions. -/
def ownsDefinitions : RecordKind → Bool
  | .standard | .method _ _ | .aliased _ true => true
  | _                                         => false

/-- Whatever is passed on to by an alias is passed on to. -/
theorem passesTo_of_aliasOf {kind : RecordKind} {ids : List RecordId}
    (h : kind.aliasOf = some ids) : kind.passesTo = some ids := by
  cases kind with
  | aliased target renames => exact h
  | _ => cases h

end RecordKind

namespace Reference

/-- The range or result that is recorded. -/
def id : Reference → ElementId
  | .range id  => id
  | .result id => id

/-- The property under which a reference with a role is listed. -/
def property (role : ReferenceRole) : Reference → ItemProperty
  | .range _  => role.property
  | .result _ => .referenceResults

/-- How a reference is passed on. -/
def passedTo : Reference → RecordKind → Option (List RecordId)
  | .range _  => RecordKind.passesTo
  | .result _ => RecordKind.aliasOf

end Reference

/-- From a record one can get to another, which does not pass on, by passing on. -/
inductive Route (kinds : RecordId → Option RecordKind)
    (passes : RecordKind → Option (List RecordId)) : RecordId → RecordId → Prop
  | rests {a : RecordId} {kind : RecordKind} : kinds a = some kind → passes kind = none →
      Route kinds passes a a
  | passes {a b c : RecordId} {kind : RecordKind} {ids : List RecordId} : kinds a = some kind →
      passes kind = some ids → b ∈ ids → Route kinds passes b c → Route kinds passes a c

namespace Route

variable {kinds kinds' : RecordId → Option RecordKind}
  {passes : RecordKind → Option (List RecordId)} {a b c : RecordId} {kind : RecordKind}

/-- What is not passed on stays where it is. -/
theorem iff_of_rests (hk : kinds a = some kind) (hp : passes kind = none) :
    Route kinds passes a c ↔ c = a := by
  constructor
  · intro h
    cases h with
    | rests => rfl
    | passes hk' hp' =>
        cases hk.symm.trans hk'
        rw [hp] at hp'
        cases hp'
  · rintro rfl
    exact .rests hk hp

/-- What is passed on ends where it does from the records it is passed on to. -/
theorem iff_of_passes {ids : List RecordId} (hk : kinds a = some kind)
    (hp : passes kind = some ids) :
    Route kinds passes a c ↔ ∃ b ∈ ids, Route kinds passes b c := by
  constructor
  · intro h
    cases h with
    | rests hk' hp' =>
        cases hk.symm.trans hk'
        rw [hp] at hp'
        cases hp'
    | passes hk' hp' hb h =>
        cases hk.symm.trans hk'
        cases hp.symm.trans hp'
        exact ⟨_, hb, h⟩
  · rintro ⟨b, hb, h⟩
    exact .passes hk hp hb h

/-- The end of a route does not pass on. -/
theorem ends (h : Route kinds passes a c) : ∃ kind, kinds c = some kind ∧ passes kind = none := by
  induction h with
  | rests hk hp => exact ⟨_, hk, hp⟩
  | passes _ _ _ _ ih => exact ih

/-- Where records pass on to older ones only, younger records do not matter. -/
theorem congr {n : Nat} (hkinds : ∀ id : RecordId, id.index < n → kinds' id = kinds id)
    (hdescends : ∀ (id : RecordId) (kind : RecordKind), kinds id = some kind →
      ∀ ids, passes kind = some ids → ∀ b ∈ ids, b.index < id.index)
    (ha : a.index < n) : Route kinds' passes a c ↔ Route kinds passes a c := by
  constructor
  · intro h
    induction h with
    | rests hk hp =>
        rw [hkinds _ ha] at hk
        exact .rests hk hp
    | passes hk hp hb _ ih =>
        rw [hkinds _ ha] at hk
        exact .passes hk hp hb (ih (Nat.lt_trans (hdescends _ _ hk _ hp _ hb) ha))
  · intro h
    induction h with
    | rests hk hp => exact .rests ((hkinds _ ha).trans hk) hp
    | passes hk hp hb _ ih =>
        exact .passes ((hkinds _ ha).trans hk) hp hb
          (ih (Nat.lt_trans (hdescends _ _ hk _ hp _ hb) ha))

end Route

end SymbolGraph
