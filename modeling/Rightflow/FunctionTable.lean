import Rightflow.Value

/-!
# Function tables

A function table gives a callable to a name, at most one to each.  Its entries are kept in the order
of the names, so that a table does not tell in which order it was filled.
-/

namespace Rightflow

structure FunctionTable where
  entries : List (String × Callable) := []

namespace FunctionTable

/-- The callable that entries give to a name. -/
def findIn? (name : String) : List (String × Callable) → Option Callable
  | [] => none
  | (other, c) :: rest => if name = other then some c else findIn? name rest

/-- The callable with a name. -/
def find? (t : FunctionTable) (name : String) : Option Callable := findIn? name t.entries

/-- Entries with one more, or with another callable for a name that they have. -/
def insertEntry (name : String) (c : Callable) :
    List (String × Callable) → List (String × Callable)
  | [] => [(name, c)]
  | (other, d) :: rest =>
    if name = other then (name, c) :: rest
    else if name < other then (name, c) :: (other, d) :: rest
    else (other, d) :: insertEntry name c rest

def insert (t : FunctionTable) (name : String) (c : Callable) : FunctionTable :=
  ⟨insertEntry name c t.entries⟩

theorem findIn?_insertEntry (name : String) (c : Callable) (key : String)
    (entries : List (String × Callable)) :
    findIn? key (insertEntry name c entries) =
      if key = name then some c else findIn? key entries := by
  induction entries with
  | nil => rfl
  | cons e rest ih =>
    obtain ⟨other, d⟩ := e
    simp only [insertEntry]
    split
    · simp only [findIn?]; split <;> simp_all
    · split
      · simp only [findIn?]
      · simp only [findIn?, ih]; grind

@[simp] theorem find?_insert (t : FunctionTable) (name : String) (c : Callable) (key : String) :
    (t.insert name c).find? key = if key = name then some c else t.find? key :=
  findIn?_insertEntry name c key t.entries

end FunctionTable

end Rightflow
