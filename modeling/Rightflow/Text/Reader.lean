import Rightflow.Text.Position

/-!
# A reader that can take back one character

A reader goes over a text by its characters.  It counts how many lie behind it, keeps the position
that they reach, and remembers at which position it stood before the character it read last, so that
this one character can be taken back.  Taking back spends the memory: a second `unget` in a row does
nothing, and reading at the end of the text leaves the memory as it is.
-/

namespace Rightflow

structure Reader where
  /-- The whole text. -/
  source : Array Char
  /-- How many characters lie behind. -/
  index : Nat := 0
  /-- Where the next character stands. -/
  position : Position := .start
  /-- Where the last character read stands, unless that one has been taken back. -/
  back? : Option Position := none
deriving DecidableEq, Repr

namespace Reader

def ofString (source : String) : Reader := { source := source.toList.toArray }

def isAtEnd (r : Reader) : Bool := r.source.size ≤ r.index

def peek? (r : Reader) : Option Char := r.source[r.index]?

/-- Reads the next character, if there is one. -/
def next (r : Reader) : Option Char × Reader :=
  match r.peek? with
  | none => (none, r)
  | some c =>
    (some c, { r with
      index := r.index + 1, position := r.position.advance c, back? := some r.position })

/-- Takes back the last character read, once. -/
def unget (r : Reader) : Reader :=
  match r.back? with
  | none => r
  | some before => { r with index := r.index - 1, position := before, back? := none }

theorem next_of_none {r : Reader} (h : r.peek? = none) : r.next = (none, r) := by
  rw [next, h]

theorem next_of_some {r : Reader} {c : Char} (h : r.peek? = some c) :
    r.next = (some c, { r with
      index := r.index + 1, position := r.position.advance c, back? := some r.position }) := by
  rw [next, h]

/-- What is read is what lies ahead. -/
@[simp] theorem next_fst (r : Reader) : r.next.1 = r.peek? := by
  cases h : r.peek? with
  | none => rw [next_of_none h]
  | some c => rw [next_of_some h]

theorem unget_of_none {r : Reader} (h : r.back? = none) : r.unget = r := by
  rw [unget, h]

theorem unget_of_some {r : Reader} {before : Position} (h : r.back? = some before) :
    r.unget = { r with index := r.index - 1, position := before, back? := none } := by
  rw [unget, h]

@[simp] theorem back?_unget (r : Reader) : r.unget.back? = none := by
  cases h : r.back? with
  | none => rw [unget_of_none h, h]
  | some before => rw [unget_of_some h]

/-- Taking back undoes reading: the reader stands where it stood. -/
theorem unget_next {r : Reader} {c : Char} (h : r.peek? = some c) :
    r.next.2.unget = { r with back? := none } := by
  rw [next_of_some h, unget_of_some rfl]
  rfl

theorem unget_unget (r : Reader) : r.unget.unget = r.unget :=
  unget_of_none r.back?_unget

end Reader

end Rightflow
