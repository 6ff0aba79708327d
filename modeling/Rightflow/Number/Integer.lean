/-!
# Integers of 64 bits

An operation on integers is carried out exactly, on `Int`, and its result is taken back into 64
bits only where it fits: `ofInt?` is `some` exactly on the range, and loses nothing there
(`ofInt?_eq_some_iff`, `ofInt?_toInt`).
-/

namespace Rightflow.Integer

/-- The 64-bit integer equal to `n`, if there is one. -/
def ofInt? (n : Int) : Option Int64 :=
  if Int64.minValue.toInt ≤ n ∧ n ≤ Int64.maxValue.toInt then some (Int64.ofInt n) else none

/-- The decimal digits of an integer, after a minus sign if it is negative. -/
def text (n : Int64) : String := toString n.toInt

theorem ofInt?_eq_some {n : Int} (h : Int64.minValue.toInt ≤ n ∧ n ≤ Int64.maxValue.toInt) :
    ofInt? n = some (Int64.ofInt n) := if_pos h

theorem ofInt?_eq_none_iff {n : Int} :
    ofInt? n = none ↔ n < Int64.minValue.toInt ∨ Int64.maxValue.toInt < n := by
  unfold ofInt?
  split
  next inRange => exact iff_of_false nofun (by omega)
  next outside => exact iff_of_true rfl (by omega)

theorem toInt_of_ofInt? {n : Int} {m : Int64} (h : ofInt? n = some m) : m.toInt = n := by
  unfold ofInt? at h
  split at h
  next hn => cases h; exact Int64.toInt_ofInt_of_le hn.1 (Int.lt_add_one_of_le hn.2)
  next => cases h

@[simp] theorem ofInt?_toInt (m : Int64) : ofInt? m.toInt = some m := by
  rw [ofInt?_eq_some ⟨Int64.le_toInt m, Int.le_of_lt_add_one (Int64.toInt_lt m)⟩, Int64.ofInt_toInt]

theorem ofInt?_eq_some_iff {n : Int} {m : Int64} : ofInt? n = some m ↔ m.toInt = n :=
  ⟨toInt_of_ofInt?, fun h => h ▸ ofInt?_toInt m⟩

end Rightflow.Integer
