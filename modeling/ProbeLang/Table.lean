/-!
# Tables

A table gives each of some names one value. Putting a value under a name that is present
replaces the old one and leaves the order of the names as it is.
-/

namespace ProbeLang

/-- Names and their values; no name stands twice. -/
abbrev Table (α : Type) := List (String × α)

namespace Table

variable {α : Type}

/-- The value under a name. -/
def find? (t : Table α) (name : String) : Option α :=
  t.lookup name

/-- Whether a name has a value. -/
def has (t : Table α) (name : String) : Bool :=
  (t.find? name).isSome

/-- The table without a name. -/
def erase (t : Table α) (name : String) : Table α :=
  t.filter fun (key, _) => key ≠ name

/-- Apply a function to the value under a name. -/
def modify (t : Table α) (name : String) (f : α → α) : Table α :=
  t.map fun (key, value) => if key = name then (key, f value) else (key, value)

/-- The table with a value under a name. -/
def put (t : Table α) (name : String) (value : α) : Table α :=
  if t.has name then t.modify name fun _ => value else t ++ [(name, value)]

/-- The names in their order. -/
def names (t : Table α) : List String :=
  t.map Prod.fst

/-- The entries in the order of their names. -/
def sorted (t : Table α) : Table α :=
  t.mergeSort fun a b => a.1 ≤ b.1

@[simp] theorem find?_nil (name : String) : find? ([] : Table α) name = none := rfl

theorem find?_cons (key : String) (value : α) (t : Table α) (name : String) :
    find? ((key, value) :: t) name = if name = key then some value else find? t name := by
  unfold find?
  by_cases h : name = key
  · simp [h]
  · simp [List.lookup_cons, beq_eq_false_iff_ne.mpr h, h]

end Table

end ProbeLang
