/-! # Tables in order of insertion

A `Table` maps texts to values and remembers the order in which its keys were first set. Setting a
key again replaces its value and keeps its place. -/

namespace LogRules

/-- A map from texts to values, in the order in which the keys were first set. -/
structure Table (α : Type) where
  entries : List (String × α)

namespace Table

variable {α : Type}

/-- The table without entries. -/
def empty : Table α := ⟨[]⟩

instance : EmptyCollection (Table α) := ⟨empty⟩
instance : Inhabited (Table α) := ⟨empty⟩

/-- The value of the first entry with this key. -/
def lookup (key : String) : List (String × α) → Option α
  | [] => none
  | (k, v) :: rest => if k = key then some v else lookup key rest

/-- The value of a key. -/
def get? (t : Table α) (key : String) : Option α := lookup key t.entries

/-- The key has a value. -/
def contains (t : Table α) (key : String) : Bool := (t.get? key).isSome

/-- The keys in order. -/
def keys (t : Table α) : List String := t.entries.map Prod.fst

/-- The values in order. -/
def values (t : Table α) : List α := t.entries.map Prod.snd

/-- The number of keys. -/
def size (t : Table α) : Nat := t.entries.length

/-- Replaces the value of a key in place, or adds the key at the end. -/
def insertEntry (key : String) (value : α) : List (String × α) → List (String × α)
  | [] => [(key, value)]
  | (k, v) :: rest =>
    if k = key then (k, value) :: rest else (k, v) :: insertEntry key value rest

/-- Sets the value of a key. -/
def insert (t : Table α) (key : String) (value : α) : Table α :=
  ⟨insertEntry key value t.entries⟩

/-- Sets the values of several keys, from first to last. -/
def insertAll (t : Table α) (entries : List (String × α)) : Table α :=
  entries.foldl (fun t e => t.insert e.1 e.2) t

/-- The table that results from setting these keys one after the other. -/
def ofList (entries : List (String × α)) : Table α := empty.insertAll entries

/-- Applies a function to every key and its value. -/
def map {β : Type} (f : String → α → β) (t : Table α) : Table β :=
  ⟨t.entries.map fun e => (e.1, f e.1 e.2)⟩

/-- Applies a function to every value. -/
def mapValues {β : Type} (f : α → β) (t : Table α) : Table β :=
  ⟨t.entries.map fun e => (e.1, f e.2)⟩

/-! ### Reading after writing -/

theorem lookup_insertEntry (key k : String) (value : α) (entries : List (String × α)) :
    lookup k (insertEntry key value entries) =
      if key = k then some value else lookup k entries := by
  induction entries with
  | nil => by_cases h : key = k <;> simp [insertEntry, lookup, h]
  | cons e rest ih =>
    obtain ⟨k', v⟩ := e
    by_cases h : k' = key
    · subst h
      by_cases hk : k' = k <;> simp [insertEntry, lookup, hk]
    · by_cases hk : k' = k
      · subst hk
        simp [insertEntry, lookup, h, Ne.symm h]
      · simp [insertEntry, lookup, h, hk, ih]

@[simp] theorem get?_insert (t : Table α) (key k : String) (value : α) :
    (t.insert key value).get? k = if key = k then some value else t.get? k :=
  lookup_insertEntry key k value t.entries

@[simp] theorem get?_empty (k : String) : (empty : Table α).get? k = none := rfl

theorem lookup_map {β : Type} (f : String → α → β) (k : String) (entries : List (String × α)) :
    lookup k (entries.map fun e => (e.1, f e.1 e.2)) = (lookup k entries).map (f k) := by
  induction entries with
  | nil => rfl
  | cons e rest ih =>
    obtain ⟨k', v⟩ := e
    by_cases h : k' = k
    · subst h; simp [lookup]
    · simp [lookup, h, ih]

@[simp] theorem get?_map {β : Type} (f : String → α → β) (t : Table α) (k : String) :
    (t.map f).get? k = (t.get? k).map (f k) :=
  lookup_map f k t.entries

theorem keys_insertEntry (key : String) (value : α) (entries : List (String × α)) :
    (insertEntry key value entries).map Prod.fst =
      if key ∈ entries.map Prod.fst then entries.map Prod.fst
      else entries.map Prod.fst ++ [key] := by
  induction entries with
  | nil => rfl
  | cons e rest ih =>
    obtain ⟨k, v⟩ := e
    by_cases h : k = key
    · simp [insertEntry, h]
    · simp only [insertEntry, h, if_false, List.map_cons, ih, List.mem_cons, Ne.symm h, false_or]
      split <;> rfl

/-- A key keeps its place, and a new key comes last. -/
theorem keys_insert (t : Table α) (key : String) (value : α) :
    (t.insert key value).keys = if key ∈ t.keys then t.keys else t.keys ++ [key] :=
  keys_insertEntry key value t.entries

end Table

end LogRules
