/-!
# Tables

Finite maps that keep their keys in the order of first insertion.  Writing to a present key keeps
its place; erasing a key and inserting it again moves it to the end.
-/

namespace SymbolGraph

/-- A finite map from `κ` to `α`, in order of first insertion. -/
structure Table (κ α : Type) where
  entries : List (κ × α)

namespace Table

variable {κ α : Type}

/-- The table without entries. -/
def empty : Table κ α := ⟨[]⟩

instance : EmptyCollection (Table κ α) := ⟨empty⟩

/-- The number of entries. -/
def size (t : Table κ α) : Nat := t.entries.length

/-- The keys, in order of first insertion. -/
def keys (t : Table κ α) : List κ := t.entries.map Prod.fst

/-- The entries whose key and value satisfy `keep`. -/
def filter (keep : κ → α → Bool) (t : Table κ α) : Table κ α :=
  ⟨t.entries.filter fun (k, a) => keep k a⟩

variable [DecidableEq κ]

/-- The value at `key`. -/
def get? (t : Table κ α) (key : κ) : Option α :=
  (t.entries.find? fun entry => entry.1 = key).map Prod.snd

/-- Whether `key` has a value. -/
def contains (t : Table κ α) (key : κ) : Bool := (t.get? key).isSome

/-- The table with `value` at `key`. -/
def insert (t : Table κ α) (key : κ) (value : α) : Table κ α :=
  if t.contains key then
    ⟨t.entries.map fun entry => if entry.1 = key then (key, value) else entry⟩
  else ⟨t.entries ++ [(key, value)]⟩

/-- The table without `key`. -/
def erase (t : Table κ α) (key : κ) : Table κ α :=
  ⟨t.entries.filter fun entry => entry.1 ≠ key⟩

/-! ### What each operation does to a look-up -/

@[simp] theorem get?_empty (key : κ) : (∅ : Table κ α).get? key = none := rfl

theorem find?_overwrite (entries : List (κ × α)) (key other : κ) (value : α) :
    (entries.map fun e => if e.1 = key then (key, value) else e).find? (fun e => e.1 = other)
      = (entries.find? fun e => e.1 = other).map
          fun e => if e.1 = key then (key, value) else e := by
  induction entries with
  | nil => rfl
  | cons e es ih =>
      by_cases hk : e.1 = key
      · by_cases ho : key = other
        · simp [hk, ho]
        · simp [hk, ho, ih]
      · by_cases ho : e.1 = other
        · have hne : other ≠ key := fun h => hk (ho.trans h)
          simp [ho, hne]
        · simp [hk, ho, ih]

/-- Writing at `key` changes the look-up of `key` only. -/
theorem get?_insert (t : Table κ α) (key other : κ) (value : α) :
    (t.insert key value).get? other = if other = key then some value else t.get? other := by
  unfold insert contains get?
  cases hfind : t.entries.find? (fun e => e.1 = key) with
  | some e =>
      have he : e.1 = key := by simpa using List.find?_some hfind
      simp only [Option.map_some, Option.isSome_some, if_true]
      rw [find?_overwrite]
      by_cases ho : other = key
      · subst ho; simp [hfind, he]
      · cases hother : t.entries.find? (fun e => e.1 = other) with
        | none => simp [ho]
        | some e' =>
            have he' : e'.1 = other := by simpa using List.find?_some hother
            have hne : ¬ e'.1 = key := fun h => ho (he'.symm.trans h)
            simp [hne, ho]
  | none =>
      simp only [Option.map_none, Option.isSome_none, Bool.false_eq_true, if_false]
      rw [List.find?_append]
      by_cases ho : other = key
      · subst ho; simp [hfind]
      · have hne : ¬ key = other := fun h => ho h.symm
        simp [ho, hne]

/-- Erasing `key` removes the look-up of `key` only. -/
theorem get?_erase (t : Table κ α) (key other : κ) :
    (t.erase key).get? other = if other = key then none else t.get? other := by
  unfold erase get?
  induction t.entries with
  | nil => simp
  | cons e es ih =>
      by_cases hk : e.1 = key
      · by_cases ho : other = key
        · simp [hk, ho]
        · have hne : ¬ key = other := fun h => ho h.symm
          simpa [hk, ho, hne] using ih
      · by_cases ho : e.1 = other
        · have hne : ¬ other = key := fun h => hk (ho.trans h)
          simp [ho, hne]
        · simpa [hk, ho] using ih

/-! ### The entries behind a look-up -/

theorem mem_entries_of_get? {t : Table κ α} {key : κ} {value : α} (h : t.get? key = some value) :
    (key, value) ∈ t.entries := by
  unfold get? at h
  cases hfind : t.entries.find? (fun e => e.1 = key) with
  | none => rw [hfind] at h; cases h
  | some e =>
      rw [hfind] at h
      cases h
      have hkey : e.1 = key := by simpa using List.find?_some hfind
      rw [← hkey]
      exact List.mem_of_find?_eq_some hfind

theorem mem_keys_of_get? {t : Table κ α} {key : κ} {value : α} (h : t.get? key = some value) :
    key ∈ t.keys :=
  List.mem_map_of_mem (mem_entries_of_get? h)

theorem mem_entries_insert {t : Table κ α} {key : κ} {value : α} {e : κ × α}
    (h : e ∈ (t.insert key value).entries) : e = (key, value) ∨ e ∈ t.entries := by
  unfold insert at h
  split at h
  · obtain ⟨e', he', rfl⟩ := List.mem_map.mp h
    split
    · exact .inl rfl
    · exact .inr he'
  · rcases List.mem_append.mp h with h | h
    · exact .inr h
    · exact .inl (List.mem_singleton.mp h)

end Table

end SymbolGraph
