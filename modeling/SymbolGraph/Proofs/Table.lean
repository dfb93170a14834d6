import Mathlib.Data.List.Nodup
import SymbolGraph.Table

/-!
# Proofs — tables in order

A table keeps its keys in order of first insertion, each once.

* `Table.keys_prefix_insert`: keys keep their places.
* `Table.nodup_keys_insert`: no key comes twice.
* `Table.split_insert`: writing to a present key changes one entry, in its place.
-/

namespace SymbolGraph.Table

variable {κ α : Type} [DecidableEq κ] {t : Table κ α} {key : κ} {value : α}

theorem mem_keys_iff : key ∈ t.keys ↔ ∃ value, t.get? key = some value := by
  constructor
  · intro h
    obtain ⟨entry, hentry, hkey⟩ := List.mem_map.mp h
    have hfound : (t.entries.find? fun e => e.1 = key).isSome = true :=
      List.find?_isSome.mpr ⟨entry, hentry, decide_eq_true hkey⟩
    obtain ⟨found, hfind⟩ := Option.isSome_iff_exists.mp hfound
    exact ⟨found.2, by rw [get?, hfind, Option.map_some]⟩
  · rintro ⟨value, hvalue⟩
    exact mem_keys_of_get? hvalue

theorem not_mem_keys_iff : key ∉ t.keys ↔ t.get? key = none := by
  rw [mem_keys_iff, Option.eq_none_iff_forall_ne_some]
  exact not_exists

/-- A key that is present stays so. -/
theorem get?_insert_ne_none {other : κ} (h : t.get? other ≠ none) :
    (t.insert key value).get? other ≠ none := by
  rw [get?_insert]
  split
  · exact Option.some_ne_none value
  · exact h

/-- A new key goes to the end. -/
theorem entries_insert_of_none (h : t.get? key = none) :
    (t.insert key value).entries = t.entries ++ [(key, value)] := by
  unfold insert contains
  rw [h]
  rfl

/-- A present key keeps its place. -/
theorem keys_insert_of_some {old : α} (h : t.get? key = some old) :
    (t.insert key value).keys = t.keys := by
  unfold insert contains keys
  rw [h, Option.isSome_some, if_pos rfl, List.map_map]
  refine List.map_congr_left fun entry _ => ?_
  by_cases hkey : entry.1 = key
  · simp [hkey]
  · simp [hkey]

theorem keys_insert_of_none (h : t.get? key = none) :
    (t.insert key value).keys = t.keys ++ [key] := by
  unfold keys
  rw [entries_insert_of_none h, List.map_append]
  rfl

theorem keys_prefix_insert : t.keys <+: (t.insert key value).keys := by
  cases hget : t.get? key with
  | some old => exact (keys_insert_of_some hget).symm ▸ List.prefix_refl _
  | none =>
      rw [keys_insert_of_none hget]
      exact List.prefix_append _ _

theorem nodup_keys_insert (h : t.keys.Nodup) : (t.insert key value).keys.Nodup := by
  cases hget : t.get? key with
  | some old =>
      rw [keys_insert_of_some hget]
      exact h
  | none =>
      rw [keys_insert_of_none hget, ← List.concat_eq_append]
      exact h.concat (not_mem_keys_iff.mpr hget)

theorem get?_of_mem (hnodup : t.keys.Nodup) (h : (key, value) ∈ t.entries) :
    t.get? key = some value := by
  obtain ⟨entries⟩ := t
  unfold keys get? at *
  induction entries with
  | nil => cases h
  | cons entry rest ih =>
      obtain ⟨hhead, htail⟩ := List.nodup_cons.mp hnodup
      rcases List.mem_cons.mp h with rfl | hrest
      · simp
      · have hne : entry.1 ≠ key := fun heq => hhead (heq ▸ List.mem_map_of_mem hrest)
        rw [List.find?_cons_of_neg (by simpa using hne)]
        exact ih htail hrest

/-- What holds of all values and of a new one holds of all values afterwards. -/
theorem forall_get?_insert {good : α → Prop} (h : ∀ key value, t.get? key = some value → good value)
    {new : κ} {added : α} (hadded : good added) :
    ∀ key value, (t.insert new added).get? key = some value → good value := by
  intro key value hvalue
  rw [get?_insert] at hvalue
  by_cases hkey : key = new
  · rw [if_pos hkey] at hvalue
    cases hvalue
    exact hadded
  · rw [if_neg hkey] at hvalue
    exact h key value hvalue

/-- Writing to a present key changes its entry and no other. -/
theorem split_insert (hnodup : t.keys.Nodup) {old : α} (h : t.get? key = some old) (value : α) :
    ∃ before after, t.entries = before ++ (key, old) :: after ∧
      (t.insert key value).entries = before ++ (key, value) :: after := by
  obtain ⟨before, after, hsplit⟩ := List.append_of_mem (mem_entries_of_get? h)
  have hkeys : (before.map Prod.fst ++ key :: after.map Prod.fst).Nodup := by
    have hsplit' := congrArg (List.map Prod.fst) hsplit
    rw [List.map_append, List.map_cons] at hsplit'
    exact hsplit' ▸ hnodup
  have hfree := (List.nodup_cons.mp (List.nodup_middle.mp hkeys)).1
  have hother (entry : κ × α) (hentry : entry ∈ before ++ after) : entry.1 ≠ key := by
    rintro rfl
    rw [← List.map_append] at hfree
    exact hfree (List.mem_map_of_mem hentry)
  refine ⟨before, after, hsplit, ?_⟩
  have hcopy (entries : List (κ × α)) (hsub : ∀ entry ∈ entries, entry.1 ≠ key) :
      (entries.map fun entry => if entry.1 = key then (key, value) else entry) = entries :=
    (List.map_congr_left fun entry hentry => if_neg (hsub entry hentry)).trans (List.map_id _)
  unfold insert contains
  rw [h, Option.isSome_some, if_pos rfl, hsplit, List.map_append, List.map_cons, if_pos rfl,
    hcopy before fun entry hentry => hother entry (List.mem_append_left _ hentry),
    hcopy after fun entry hentry => hother entry (List.mem_append_right _ hentry)]

/-- What is read off the entries one by one changes in the place of the key only. -/
theorem flatMap_insert {β : Type} (f : κ × α → List β) (hnodup : t.keys.Nodup) {old : α}
    (h : t.get? key = some old) (value : α) :
    ∃ before after, t.entries.flatMap f = before ++ f (key, old) ++ after ∧
      (t.insert key value).entries.flatMap f = before ++ f (key, value) ++ after := by
  obtain ⟨before, after, hold, hnew⟩ := split_insert hnodup h value
  refine ⟨before.flatMap f, after.flatMap f, ?_, ?_⟩
  · rw [hold, List.flatMap_append, List.flatMap_cons, List.append_assoc]
  · rw [hnew, List.flatMap_append, List.flatMap_cons, List.append_assoc]

end SymbolGraph.Table
