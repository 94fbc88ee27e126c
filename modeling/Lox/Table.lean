/-!
# Tables by name

A `Table` maps names to entries. Inserting replaces the entry of a known name in its place and adds
a new name at the end.
-/

namespace Lox

/-- Entries by name. -/
structure Table (α : Type) where
  entries : List (String × α) := []
  deriving DecidableEq, Inhabited

namespace Table

variable {α : Type}

/-- Replace the entry of a name, or add it at the end. -/
def insertEntry (name : String) (a : α) : List (String × α) → List (String × α)
  | [] => [(name, a)]
  | (key, b) :: rest => if key = name then (key, a) :: rest else (key, b) :: insertEntry name a rest

/-- The entry of a name in a list. -/
def findEntry? (name : String) : List (String × α) → Option α
  | [] => none
  | (key, a) :: rest => if key = name then some a else findEntry? name rest

def find? (t : Table α) (name : String) : Option α := findEntry? name t.entries

def insert (t : Table α) (name : String) (a : α) : Table α := ⟨insertEntry name a t.entries⟩

def contains (t : Table α) (name : String) : Bool := (t.find? name).isSome

/-- A table with a single entry. -/
def singleton (name : String) (a : α) : Table α := ⟨[(name, a)]⟩

/-- Insert entries one after the other; of two with the same name the later one counts. -/
def insertAll (t : Table α) (entries : List (String × α)) : Table α :=
  entries.foldl (fun t (name, a) => t.insert name a) t

@[simp] theorem find?_empty (name : String) : find? ({} : Table α) name = none := rfl

theorem find?_singleton (name other : String) (a : α) :
    (singleton name a).find? other = if name = other then some a else none := rfl

theorem findEntry?_insertEntry (name other : String) (a : α) (entries : List (String × α)) :
    findEntry? other (insertEntry name a entries) =
      if name = other then some a else findEntry? other entries := by
  induction entries with
  | nil => rfl
  | cons entry rest ih =>
    obtain ⟨key, b⟩ := entry
    by_cases hk : key = name
    · subst hk
      by_cases ho : key = other <;> simp [insertEntry, findEntry?, ho]
    · by_cases ho : key = other
      · subst ho
        simp [insertEntry, findEntry?, hk, Ne.symm hk]
      · simp [insertEntry, findEntry?, hk, ho, ih]

theorem find?_insert (t : Table α) (name other : String) (a : α) :
    (t.insert name a).find? other = if name = other then some a else t.find? other :=
  findEntry?_insertEntry name other a t.entries

@[simp] theorem find?_insert_self (t : Table α) (name : String) (a : α) :
    (t.insert name a).find? name = some a := by
  rw [find?_insert, if_pos rfl]

theorem find?_insert_ne (t : Table α) {name other : String} (h : name ≠ other) (a : α) :
    (t.insert name a).find? other = t.find? other := by
  rw [find?_insert, if_neg h]

end Table

end Lox
