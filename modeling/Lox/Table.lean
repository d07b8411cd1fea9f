/-!
# Tables from names to values, in order of insertion

Setting a name that is present keeps its place; a new name goes to the end. What a table says is
its `get?`, and each operation is pinned by what it does to it.
-/

namespace Lox

structure Table (β : Type) where
  entries : List (String × β)
deriving DecidableEq

namespace Table

variable {β : Type}

def empty : Table β := ⟨[]⟩

instance : Inhabited (Table β) := ⟨empty⟩

/-- What the entries say of `name`. -/
def findEntry (name : String) : List (String × β) → Option β
  | [] => none
  | (key, value) :: rest => if key = name then some value else findEntry name rest

def get? (t : Table β) (name : String) : Option β := findEntry name t.entries

def contains (t : Table β) (name : String) : Bool := (t.get? name).isSome

/-- The entries with `name` set to `value`. -/
def insertEntry (name : String) (value : β) : List (String × β) → List (String × β)
  | [] => [(name, value)]
  | (key, old) :: rest =>
    if key = name then (key, value) :: rest else (key, old) :: insertEntry name value rest

def insert (t : Table β) (name : String) (value : β) : Table β :=
  ⟨insertEntry name value t.entries⟩

def erase (t : Table β) (name : String) : Table β :=
  ⟨t.entries.filter fun entry => entry.1 ≠ name⟩

def names (t : Table β) : List String := t.entries.map (·.1)

def values (t : Table β) : List β := t.entries.map (·.2)

/-- Later entries win over earlier ones of the same name. -/
def ofList (entries : List (String × β)) : Table β :=
  entries.foldl (fun t entry => t.insert entry.1 entry.2) empty

/-- The entries by name, in the order of the characters' code points. -/
def sorted (t : Table β) : List (String × β) :=
  t.entries.mergeSort fun a b => decide (a.1 ≤ b.1)

@[simp]
theorem get?_empty (name : String) : (empty : Table β).get? name = none := rfl

theorem findEntry_insertEntry (name other : String) (value : β) (entries : List (String × β)) :
    findEntry other (insertEntry name value entries) =
      if other = name then some value else findEntry other entries := by
  induction entries with
  | nil => simp [insertEntry, findEntry, eq_comm]
  | cons entry rest ih =>
    obtain ⟨key, old⟩ := entry
    by_cases hk : key = name <;> by_cases ho : other = name <;>
      simp_all [insertEntry, findEntry, eq_comm]

@[simp]
theorem get?_insert (t : Table β) (name other : String) (value : β) :
    (t.insert name value).get? other = if other = name then some value else t.get? other :=
  findEntry_insertEntry name other value t.entries

@[simp]
theorem contains_insert (t : Table β) (name other : String) (value : β) :
    (t.insert name value).contains other = (decide (other = name) || t.contains other) := by
  by_cases h : other = name <;> simp [contains, h]

end Table

end Lox
