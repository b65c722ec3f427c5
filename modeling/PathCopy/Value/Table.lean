/-!
Tables in order of insertion. A new key goes to the end, a present key keeps its place when its
value changes, and erasing moves nothing else. No key occurs twice.
-/

namespace PathCopy

/-- The value of the first entry with this key. -/
def findEntry {α : Type} (key : String) : List (String × α) → Option α
  | [] => none
  | (k, a) :: rest => if k = key then some a else findEntry key rest

/-- The entries with the value of `key` replaced, or with a new entry at the end. -/
def putEntry {α : Type} (key : String) (value : α) : List (String × α) → List (String × α)
  | [] => [(key, value)]
  | (k, a) :: rest => if k = key then (k, value) :: rest else (k, a) :: putEntry key value rest

theorem mem_keys_putEntry {α : Type} {key k : String} {value : α} {es : List (String × α)}
    (h : k ∈ (putEntry key value es).map Prod.fst) : k = key ∨ k ∈ es.map Prod.fst := by
  induction es with
  | nil => simpa [putEntry] using h
  | cons e es ih =>
    unfold putEntry at h
    split at h
    · exact .inr h
    · rcases List.mem_cons.1 h with h | h
      · exact .inr (h ▸ List.mem_cons_self)
      · exact (ih h).imp id (List.mem_cons_of_mem _)

theorem nodup_putEntry {α : Type} (key : String) (value : α) {es : List (String × α)}
    (h : (es.map Prod.fst).Nodup) : ((putEntry key value es).map Prod.fst).Nodup := by
  induction es with
  | nil => simp [putEntry]
  | cons e es ih =>
    rw [List.map_cons, List.nodup_cons] at h
    unfold putEntry
    split
    · exact List.nodup_cons.2 h
    · next hne =>
      refine List.nodup_cons.2 ⟨fun hmem => ?_, ih h.2⟩
      exact (mem_keys_putEntry hmem).elim hne h.1

/-- A table from texts to values that remembers the order of insertion. -/
structure Table (α : Type) where
  entries : List (String × α)
  nodup : (entries.map Prod.fst).Nodup

namespace Table

variable {α : Type}

def empty : Table α := ⟨[], List.nodup_nil⟩

instance : Inhabited (Table α) := ⟨empty⟩

def size (t : Table α) : Nat := t.entries.length

def keys (t : Table α) : List String := t.entries.map Prod.fst

def values (t : Table α) : List α := t.entries.map Prod.snd

def get? (t : Table α) (key : String) : Option α := findEntry key t.entries

def contains (t : Table α) (key : String) : Bool := (t.get? key).isSome

/-- Sets the value of a key; a key that is new comes last. -/
def insert (t : Table α) (key : String) (value : α) : Table α :=
  ⟨putEntry key value t.entries, nodup_putEntry key value t.nodup⟩

def erase (t : Table α) (key : String) : Table α :=
  ⟨t.entries.filter fun e => e.1 ≠ key, (List.filter_sublist.map _).nodup t.nodup⟩

/-- Inserts one entry after another. -/
def insertAll (t : Table α) (es : List (String × α)) : Table α :=
  es.foldl (fun t e => t.insert e.1 e.2) t

/-- The table of a list of entries, where a later value of a key replaces an earlier one. -/
def ofList (es : List (String × α)) : Table α := empty.insertAll es

@[simp] theorem entries_insert (t : Table α) (key : String) (value : α) :
    (t.insert key value).entries = putEntry key value t.entries := rfl

@[simp] theorem findEntry_putEntry (key k : String) (value : α) (es : List (String × α)) :
    findEntry k (putEntry key value es) = if k = key then some value else findEntry k es := by
  induction es with
  | nil => simp [putEntry, findEntry, eq_comm]
  | cons e es ih =>
    unfold putEntry
    split
    · next he => subst he; by_cases hk : k = e.1 <;> simp [findEntry, hk, eq_comm]
    · next he =>
      by_cases hk : e.1 = k
      · subst hk
        simp [findEntry, he]
      · simp [findEntry, hk, ih]

@[simp] theorem get?_insert (t : Table α) (key k : String) (value : α) :
    (t.insert key value).get? k = if k = key then some value else t.get? k :=
  findEntry_putEntry key k value t.entries

@[simp] theorem findEntry_filter_ne (key k : String) (es : List (String × α)) :
    findEntry k (es.filter fun e => e.1 ≠ key) = if k = key then none else findEntry k es := by
  induction es with
  | nil => simp [findEntry]
  | cons e es ih =>
    by_cases he : e.1 = key
    · rw [List.filter_cons_of_neg (by simpa using he), ih, findEntry]
      by_cases hk : k = key
      · simp [hk]
      · rw [if_neg hk, if_neg hk, if_neg (fun h => hk (h.symm.trans he))]
    · rw [List.filter_cons_of_pos (by simpa using he), findEntry, findEntry, ih]
      by_cases hk : k = key
      · rw [if_pos hk, if_neg (fun h => he (h.trans hk)), if_pos hk]
      · rw [if_neg hk, if_neg hk]

@[simp] theorem get?_erase (t : Table α) (key k : String) :
    (t.erase key).get? k = if k = key then none else t.get? k :=
  findEntry_filter_ne key k t.entries

end Table

end PathCopy
