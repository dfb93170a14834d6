import SymbolGraph.Proofs.Symbol.Remembering
import SymbolGraph.Symbol.Resolution

/-!
# Proofs — Symbol — releasing what was asserted

Overrides are released in reverse order.  An override may hide an earlier one for the same key, and
releasing it does not bring the earlier one back; so the tables are not as they were, but they hold
nothing that they did not hold before (`Overrides.Under`).  That is all that is needed, and it is
kept by nesting.

* `Overrides.Asserts`, `Overrides.AssertsAll`: one override is asserted, and several in order.
* `Overrides.AssertsAll.release`: what was asserted and then released, last first, is gone, whatever
  was lost in between.
* `Symbols.forward_asserts`: what a type alias asserts.
-/

namespace SymbolGraph

/-! ### Tables -/

namespace Table

variable {κ α : Type} [DecidableEq κ] {t t' : Table κ α} {key : κ} {value : α}

theorem eq_empty_of_get? (h : ∀ key, t.get? key = none) : t = ∅ := by
  obtain ⟨entries⟩ := t
  cases entries with
  | nil => rfl
  | cons entry rest =>
      have hfirst : get? ⟨entry :: rest⟩ entry.1 = some entry.2 := by simp [get?]
      cases (h entry.1).symm.trans hfirst

/-- What was written at a key is taken away if it is still there.  If it is not, then nothing is:
an entry that was there before was overwritten. -/
theorem get?_retract (gone : Prop) [Decidable gone]
    (h : ∀ other found, t.get? other = some found → (t'.insert key value).get? other = some found)
    (hgone : t.get? key = some value → gone) (other : κ) (found : α)
    (hfound : (if gone then t.erase key else t).get? other = some found) :
    t'.get? other = some found := by
  have hold (hne : other ≠ key) (hother : t.get? other = some found) :
      t'.get? other = some found := by
    have hinsert := h other found hother
    rwa [get?_insert, if_neg hne] at hinsert
  by_cases hg : gone
  · rw [if_pos hg, get?_erase] at hfound
    by_cases hkey : other = key
    · rw [if_pos hkey] at hfound
      cases hfound
    · rw [if_neg hkey] at hfound
      exact hold hkey hfound
  · rw [if_neg hg] at hfound
    refine hold (fun hkey => hg (hgone ?_)) hfound
    have hinsert := h other found hfound
    rw [get?_insert, if_pos hkey] at hinsert
    rw [← hkey, hfound, hinsert]

end Table

namespace Overrides

variable {o o' o'' : Overrides} {override : Override} {overrides : List Override}

/-- Where nothing was asserted, nothing is left to take away. -/
theorem Under.eq_empty (h : o.Under {}) : o = {} := by
  obtain ⟨parents, exported, forwards⟩ := o
  obtain rfl : parents = ∅ := Table.eq_empty_of_get? fun key =>
    Option.eq_none_iff_forall_ne_some.mpr fun parent hparent => nomatch h.parents key parent hparent
  obtain rfl : forwards = ∅ := Table.eq_empty_of_get? fun key =>
    Option.eq_none_iff_forall_ne_some.mpr fun forward hforward =>
      nomatch h.forwards key forward hforward
  obtain rfl : exported = [] := List.eq_nil_iff_forall_not_mem.mpr fun pair hpair =>
    nomatch h.exports pair.1 pair.2 (decide_eq_true hpair)
  rfl

/-! ### One override -/

/-- An override is asserted. -/
inductive Asserts (o : Overrides) : Override → Overrides → Prop
  | parent (key : SymbolKey) (parent : SymbolRef) :
      Asserts o (.parent key parent) (o.addParent key parent)
  | exported (parent child : SymbolKey) : Asserts o (.exported parent child) (o.addExport parent child)
  | forwarded (key : SymbolKey) (forward : Forward) :
      Asserts o (.forwarded key forward.name) (o.addForward key forward)

/-- **Releasing an override takes it away**, if nothing else was added meanwhile. -/
theorem Asserts.release (h : o.Asserts override o') (hafter : o''.Under o') :
    (o''.release override).Under o := by
  cases h with
  | parent key parent =>
      have hparents := Table.get?_retract _ hafter.parents fun hkept => hkept
      dsimp only [Overrides.release]
      split
      · rename_i hkept
        exact ⟨by rwa [if_pos hkept] at hparents, hafter.exports, hafter.forwards⟩
      · rename_i hlost
        exact ⟨by rwa [if_neg hlost] at hparents, hafter.exports, hafter.forwards⟩
  | exported parent child =>
      -- `addExport` adds one pair or none; without that pair the exports are those of before.
      have hadds : (o.addExport parent child).parents = o.parents ∧
          (o.addExport parent child).forwards = o.forwards ∧
          ∀ a b, (o.addExport parent child).exports a b = true →
            o.exports a b = true ∨ (a, b) = (parent, child) := by
        unfold addExport
        split
        · exact ⟨rfl, rfl, fun a b hab => .inl hab⟩
        · refine ⟨rfl, rfl, fun a b hab => ?_⟩
          simpa [Overrides.exports] using hab
      obtain ⟨hparents, hforwards, hexports⟩ := hadds
      refine ⟨hparents ▸ hafter.parents, fun a b hab => ?_, hforwards ▸ hafter.forwards⟩
      obtain ⟨hmem, hne⟩ := List.mem_filter.mp (of_decide_eq_true hab)
      exact (hexports a b (hafter.exports a b (decide_eq_true hmem))).resolve_right
        (of_decide_eq_true hne)
  | forwarded key forward =>
      have hforwards := Table.get?_retract
        ((o''.forwards.get? key).any (fun known => known.name = forward.name) = true) hafter.forwards
        fun hkept => by simp [hkept]
      dsimp only [Overrides.release]
      split
      · rename_i hkept
        exact ⟨hafter.parents, hafter.exports, by rwa [if_pos hkept] at hforwards⟩
      · rename_i hlost
        exact ⟨hafter.parents, hafter.exports, by rwa [if_neg hlost] at hforwards⟩

/-! ### Several overrides -/

/-- Overrides are asserted in order. -/
inductive AssertsAll : Overrides → List Override → Overrides → Prop
  | none {o : Overrides} : AssertsAll o [] o
  | more {o o' o'' : Overrides} {override : Override} {overrides : List Override} :
      o.Asserts override o' → AssertsAll o' overrides o'' → AssertsAll o (override :: overrides) o''

/-- **Overrides that are released in reverse order are gone**, whatever was lost in between. -/
theorem AssertsAll.release {after : Overrides} (h : AssertsAll o overrides o')
    (hafter : after.Under o') : (overrides.reverse.foldl Overrides.release after).Under o := by
  induction h with
  | none => exact hafter
  | more hone _ ih =>
      rw [List.reverse_cons, List.foldl_append]
      exact hone.release (ih hafter)

end Overrides

/-! ### What a type alias asserts -/

namespace Symbols

variable {p : Program} {s : Symbols}

open Overrides

theorem addForwards_asserts {target : SymbolRef} : ∀ (names : List (NodeId × String)) (s : Symbols),
    AssertsAll s.overrides (addForwards p target names s).1 (addForwards p target names s).2.overrides
  | [], _ => .none
  | (literal, name) :: rest, s => by
      unfold addForwards
      cases p.symbolAt literal with
      | none => exact addForwards_asserts rest s
      | some symbol =>
          exact .more (.forwarded (p.key symbol) { target, name })
            (addForwards_asserts rest (s.override fun o => o.addForward (p.key symbol) { target, name }))

theorem forward_asserts {resolution : Resolution} {declaration : NodeId} : AssertsAll s.overrides
    (forward resolution p declaration s).1 (forward resolution p declaration s).2.overrides := by
  cases resolution with
  | typeAlias =>
      show AssertsAll s.overrides (forwardTypeAlias p declaration s).1
        (forwardTypeAlias p declaration s).2.overrides
      unfold forwardTypeAlias
      cases p.nameOf declaration with
      | none => exact .none
      | some name =>
          dsimp only
          cases p.symbolAt name with
          | none => exact .none
          | some target => exact addForwards_asserts _ s
  | _ => exact .none

end Symbols

end SymbolGraph
