import Rightflow.Value

/-!
# The store

Variables are numbered in the order in which they are created, and live for ever.  Name and type of
a variable never change; only its value is written.  The store also counts the callables that have
been made, so that each gets a stamp of its own.

Reading after a write is told by `get_set`, and creating a variable leaves the others as they are
(`get_create_of_lt`).  Whatever is done to a store, it only grows (`Store.Grows`).
-/

namespace Rightflow

structure Variable where
  name : String
  type : Ty
  value : Value

instance : Inhabited Variable := ⟨⟨"", .base .void false, .none⟩⟩

structure Store where
  cells : Array Variable := #[]
  /-- How many callables have been made. -/
  made : Nat := 0

namespace Store

/-- How many variables there are. -/
def size (s : Store) : Nat := s.cells.size

/-- The variable with a number. -/
def get (s : Store) (cell : Nat) : Variable := s.cells.getD cell default

/-- Writes the value of a variable that exists. -/
def set (s : Store) (cell : Nat) (v : Value) : Store :=
  { s with cells := s.cells.modify cell fun x => { x with value := v } }

/-- A new variable, and its number. -/
def create (s : Store) (x : Variable) : Nat × Store :=
  (s.cells.size, { s with cells := s.cells.push x })

/-- A new stamp. -/
def stamp (s : Store) : Nat × Store := (s.made, { s with made := s.made + 1 })

/-- The view of a variable from where it was created. -/
def directView (s : Store) (cell : Nat) : View :=
  ⟨cell, (s.get cell).name, (s.get cell).type.isMutable⟩

/-- The value of an argument. -/
def argValue (s : Store) : Arg → Value
  | .value v => v
  | .view w => (s.get w.cell).value

@[simp] theorem size_set (s : Store) (cell : Nat) (v : Value) : (s.set cell v).size = s.size := by
  simp [set, size]

@[simp] theorem size_create (s : Store) (x : Variable) : (s.create x).2.size = s.size + 1 := by
  simp [create, size]

theorem get_set (s : Store) (i j : Nat) (v : Value) :
    (s.set i v).get j =
      if i = j ∧ j < s.size then { s.get j with value := v } else s.get j := by
  simp only [get, set, size, Array.getD_eq_getD_getElem?, Array.getElem?_modify]
  by_cases hj : j < s.cells.size
  · by_cases h : i = j <;> simp [h, hj]
  · by_cases h : i = j <;> simp [h, hj]

theorem get_create_of_lt (s : Store) (x : Variable) {i : Nat} (h : i < s.size) :
    (s.create x).2.get i = s.get i := by
  simp only [size] at h
  simp [get, create, Array.getD_eq_getD_getElem?, Array.getElem?_push, Nat.ne_of_lt h]

@[simp] theorem get_create (s : Store) (x : Variable) : (s.create x).2.get s.size = x := by
  simp [get, create, size, Array.getD_eq_getD_getElem?]

end Store

/-! ## Stores that grow -/

/-- A later state of a store: it has lost no variable, and every one has kept its name and type. -/
structure Store.Grows (s s' : Store) : Prop where
  size : s.size ≤ s'.size
  made : s.made ≤ s'.made
  name : ∀ cell < s.size, (s'.get cell).name = (s.get cell).name
  type : ∀ cell < s.size, (s'.get cell).type = (s.get cell).type

namespace Store.Grows

variable {s s' s'' : Store}

theorem refl (s : Store) : s.Grows s :=
  ⟨Nat.le_refl _, Nat.le_refl _, fun _ _ => rfl, fun _ _ => rfl⟩

theorem trans (first : s.Grows s') (second : s'.Grows s'') : s.Grows s'' where
  size := Nat.le_trans first.size second.size
  made := Nat.le_trans first.made second.made
  name cell existed := by
    rw [second.name cell (Nat.lt_of_lt_of_le existed first.size), first.name cell existed]
  type cell existed := by
    rw [second.type cell (Nat.lt_of_lt_of_le existed first.size), first.type cell existed]

theorem create (s : Store) (x : Variable) : s.Grows (s.create x).2 where
  size := by rw [Store.size_create]; omega
  made := Nat.le_refl _
  name cell existed := by rw [Store.get_create_of_lt s x existed]
  type cell existed := by rw [Store.get_create_of_lt s x existed]

theorem set (s : Store) (cell : Nat) (v : Value) : s.Grows (s.set cell v) where
  size := Nat.le_of_eq (Store.size_set s cell v).symm
  made := Nat.le_refl _
  name other _ := by rw [Store.get_set]; split <;> rfl
  type other _ := by rw [Store.get_set]; split <;> rfl

theorem stamp (s : Store) : s.Grows s.stamp.2 :=
  ⟨Nat.le_refl _, Nat.le_succ _, fun _ _ => rfl, fun _ _ => rfl⟩

theorem directView {cell : Nat} (grown : s.Grows s') (existed : cell < s.size) :
    s'.directView cell = s.directView cell := by
  rw [Store.directView, Store.directView, grown.name cell existed, grown.type cell existed]

end Store.Grows

end Rightflow
