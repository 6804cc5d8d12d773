import LogRules.Table
import Mathlib.Data.List.Nodup

/-! # Keys and entries of tables

A key has a value exactly when it has an entry, and new keys that differ from each other are added
at the end in their order. -/

namespace LogRules.Table

variable {α : Type}

theorem length_keys (t : Table α) : t.keys.length = t.size := List.length_map _

theorem length_values (t : Table α) : t.values.length = t.size := List.length_map _

theorem mem_of_lookup {key : String} {value : α} {entries : List (String × α)}
    (h : lookup key entries = some value) : (key, value) ∈ entries := by
  induction entries with
  | nil => cases h
  | cons e rest ih =>
      obtain ⟨k, v⟩ := e
      simp only [lookup] at h
      split at h
      · next heq =>
          cases h
          exact heq ▸ List.mem_cons_self
      · exact List.mem_cons_of_mem _ (ih h)

theorem mem_entries_of_get? {t : Table α} {key : String} {value : α}
    (h : t.get? key = some value) : (key, value) ∈ t.entries := mem_of_lookup h

theorem mem_values_of_get? {t : Table α} {key : String} {value : α}
    (h : t.get? key = some value) : value ∈ t.values :=
  List.mem_map_of_mem (mem_entries_of_get? h)

theorem lookup_eq_none_iff {key : String} {entries : List (String × α)} :
    lookup key entries = none ↔ key ∉ entries.map Prod.fst := by
  induction entries with
  | nil => simp [lookup]
  | cons e rest ih =>
      obtain ⟨k, v⟩ := e
      by_cases h : k = key
      · simp [lookup, h]
      · simp [lookup, h, ih, Ne.symm h]

theorem exists_get?_of_mem_keys {t : Table α} {key : String} (h : key ∈ t.keys) :
    ∃ value, t.get? key = some value := by
  cases hv : t.get? key with
  | none => exact absurd h (lookup_eq_none_iff.mp hv)
  | some value => exact ⟨value, rfl⟩

theorem insertEntry_of_not_mem {key : String} {value : α} {entries : List (String × α)}
    (h : key ∉ entries.map Prod.fst) :
    insertEntry key value entries = entries ++ [(key, value)] := by
  induction entries with
  | nil => rfl
  | cons e rest ih =>
      obtain ⟨k, v⟩ := e
      rw [List.map_cons, List.mem_cons, not_or] at h
      rw [insertEntry, if_neg (Ne.symm h.1), ih h.2, List.cons_append]

/-- Setting a key to the value that it has changes nothing. -/
theorem insert_eq_self {t : Table α} {key : String} {value : α}
    (h : t.get? key = some value) : t.insert key value = t := by
  obtain ⟨entries⟩ := t
  change lookup key entries = some value at h
  change Table.mk (insertEntry key value entries) = ⟨entries⟩
  refine congrArg Table.mk ?_
  induction entries with
  | nil => cases h
  | cons e rest ih =>
      obtain ⟨k, v⟩ := e
      rw [lookup] at h
      rw [insertEntry]
      by_cases hkey : k = key
      · rw [if_pos hkey] at h ⊢
        cases h
        rfl
      · rw [if_neg hkey] at h ⊢
        rw [ih h]

theorem size_insert {t : Table α} {key : String} (value : α) (h : t.get? key = none) :
    (t.insert key value).size = t.size + 1 := by
  have hkey : key ∉ t.entries.map Prod.fst := lookup_eq_none_iff.mp h
  rw [size, insert, insertEntry_of_not_mem hkey, List.length_append, List.length_singleton, size]

/-- A table whose keys differ is known from its keys and their values. -/
theorem entries_eq_map {t : Table α} {f : String → α} (hnodup : t.keys.Nodup)
    (h : ∀ key ∈ t.keys, t.get? key = some (f key)) :
    t.entries = t.keys.map fun key => (key, f key) := by
  obtain ⟨entries⟩ := t
  change (entries.map Prod.fst).Nodup at hnodup
  change ∀ key ∈ entries.map Prod.fst, lookup key entries = some (f key) at h
  change entries = (entries.map Prod.fst).map fun key => (key, f key)
  induction entries with
  | nil => rfl
  | cons e rest ih =>
      obtain ⟨k, v⟩ := e
      rw [List.map_cons, List.nodup_cons] at hnodup
      rw [List.map_cons, List.forall_mem_cons] at h
      have hv : v = f k := by simpa [lookup] using h.1
      have hrest : ∀ key ∈ rest.map Prod.fst, lookup key rest = some (f key) := by
        intro key hkey
        have hne : k ≠ key := fun heq => hnodup.1 (heq ▸ hkey)
        have hlookup := h.2 key hkey
        rwa [lookup, if_neg hne] at hlookup
      rw [List.map_cons, List.map_cons, ← ih hnodup.2 hrest, hv]

/-- New keys are added at the end. -/
theorem entries_insertAll {t : Table α} {new : List (String × α)}
    (hnodup : (new.map Prod.fst).Nodup) (hnew : ∀ key ∈ new.map Prod.fst, key ∉ t.keys) :
    (t.insertAll new).entries = t.entries ++ new := by
  induction new generalizing t with
  | nil => exact (List.append_nil _).symm
  | cons e rest ih =>
      obtain ⟨key, value⟩ := e
      rw [List.map_cons, List.nodup_cons] at hnodup
      have hkey : key ∉ t.keys := hnew key List.mem_cons_self
      have hentries : (t.insert key value).entries = t.entries ++ [(key, value)] :=
        insertEntry_of_not_mem hkey
      have hrest : ∀ k ∈ rest.map Prod.fst, k ∉ (t.insert key value).keys := by
        intro k hk
        rw [keys_insert, if_neg hkey, List.mem_append, List.mem_singleton, not_or]
        exact ⟨hnew k (List.mem_cons_of_mem _ hk), fun heq => hnodup.1 (heq ▸ hk)⟩
      change ((t.insert key value).insertAll rest).entries = _
      rw [ih hnodup.2 hrest, hentries, List.append_assoc, List.singleton_append]

/-- Keys that are numbered in order lead to the place of their first occurrence. -/
theorem lookup_zipIdx (key : String) (keys : List String) (start : Nat) :
    lookup key (keys.zipIdx start) = if key ∈ keys then some (start + keys.idxOf key) else none := by
  induction keys generalizing start with
  | nil => rfl
  | cons k rest ih =>
      rw [List.zipIdx_cons, lookup, ih]
      by_cases hkey : k = key
      · simp [hkey]
      · by_cases hmem : key ∈ rest
        · simp [hkey, Ne.symm hkey, hmem, List.idxOf_cons_ne _ hkey]
          omega
        · simp [hkey, Ne.symm hkey, hmem]

end LogRules.Table
