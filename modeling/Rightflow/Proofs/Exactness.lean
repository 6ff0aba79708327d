import Mathlib.Algebra.Group.Int.Defs
import Rightflow.Proofs.Arithmetic

/-!
# Integers that never wrap

An operation between integers has the exact result as its value, if that is an integer of 64 bits,
and otherwise overflows (`Integer.ExactOrOverflow`).  Truth values count as zero and one.  The law
is that of the four operations but for a division by zero, of the minus sign, and of the native
function that increments a variable, which leaves the variable alone where it fails
(`integers_are_exact_or_overflow`).
-/

namespace Rightflow

/-! ## The law -/

namespace Integer

/-- There is an integer of 64 bits with the value. -/
def Fits (z : Int) : Prop := -2 ^ 63 ≤ z ∧ z < 2 ^ 63

instance (z : Int) : Decidable (Fits z) := inferInstanceAs (Decidable (_ ∧ _))

/-- The outcome of an operation is its exact result, or an overflow if that does not fit. -/
def ExactOrOverflow (z : Int) (outcome : Except Cause Value) : Prop :=
  (outcome = .error .overflow ↔ ¬ Fits z) ∧
  (Fits z → ∃ n : Int64, n.toInt = z ∧ outcome = .ok (.int n))

theorem exists_of_fits {z : Int} (fits : Fits z) : ∃ n : Int64, n.toInt = z ∧ ofInt? z = some n := by
  have inRange : Int64.minValue.toInt ≤ z ∧ z ≤ Int64.maxValue.toInt := by
    rw [Int64.toInt_minValue, Int64.toInt_maxValue]
    unfold Fits at fits
    omega
  have found := ofInt?_eq_some inRange
  exact ⟨_, toInt_of_ofInt? found, found⟩

theorem ofInt?_eq_none_iff_not_fits {z : Int} : ofInt? z = none ↔ ¬ Fits z := by
  rw [ofInt?_eq_none_iff, Int64.toInt_minValue, Int64.toInt_maxValue]
  unfold Fits
  omega

end Integer

/-- An exact result that is taken back into 64 bits obeys the law. -/
theorem exactOrOverflow_checked (z : Int) : Integer.ExactOrOverflow z (checked z) := by
  unfold checked
  by_cases fits : Integer.Fits z
  · obtain ⟨n, exactly, found⟩ := Integer.exists_of_fits fits
    rw [found]
    exact ⟨iff_of_false nofun (not_not.2 fits), fun _ => ⟨n, exactly, rfl⟩⟩
  · rw [Integer.ofInt?_eq_none_iff_not_fits.2 fits]
    exact ⟨iff_of_true rfl fits, fun contrary => absurd contrary fits⟩

theorem checked_ne_divisionByZero (z : Int) : checked z ≠ .error .divisionByZero := by
  unfold checked
  cases Integer.ofInt? z <;> nofun

/-! ## Operators -/

/-- The integer that a value counts as: an integer itself, and a truth value as zero or one. -/
def Value.integer? : Value → Option Int
  | .int n => some n.toInt
  | .bool b => some (if b then 1 else 0)
  | .none | .string _ | .flt _ | .callable _ => .none

theorem Value.number_of_integer? {v : Value} {a : Int} (counts : v.integer? = some a) :
    ∃ n : Int64, Number.ofValue? v = some (.int n) ∧ n.toInt = a := by
  cases v with
  | int n =>
    cases counts
    exact ⟨n, rfl, rfl⟩
  | bool b =>
    cases counts
    cases b <;> exact ⟨_, rfl, rfl⟩
  | none | string _ | flt _ | callable _ => cases counts

namespace BinaryOp

variable {op : BinaryOp} {v w : Value} {a b : Int}

/-- Truth values are operands of arithmetic as the integers that they count as. -/
theorem apply_numbers [Memory] (arithmetic : op ∈ [.add, .sub, .mul, .div]) {x y : Int64}
    (left : Number.ofValue? v = some (.int x)) (right : Number.ofValue? w = some (.int y)) :
    op.apply v w = op.apply (.int x) (.int y) := by
  have numbers : op.onNumbers v w = op.onNumbers (.int x) (.int y) := by
    unfold onNumbers
    rw [left, right]
    rfl
  simp only [List.mem_cons, List.not_mem_nil, or_false] at arithmetic
  -- Next to a string, sums and products would be something else.
  cases v with
  | int _ | bool _ =>
    cases w with
    | int _ | bool _ => obtain rfl | rfl | rfl | rfl := arithmetic <;> exact numbers
    | flt _ | none | string _ | callable _ => cases right
  | flt _ | none | string _ | callable _ => cases left

theorem apply_of_integer? [Memory] (arithmetic : op ∈ [.add, .sub, .mul, .div])
    (left : v.integer? = some a) (right : w.integer? = some b) :
    op.apply v w =
      if op = .div ∧ b = 0 then .error .divisionByZero else checked (op.exact a b) := by
  obtain ⟨x, number, rfl⟩ := Value.number_of_integer? left
  obtain ⟨y, number', rfl⟩ := Value.number_of_integer? right
  have zero : y = 0 ↔ y.toInt = 0 := by rw [← Int64.toInt_inj, Int64.toInt_zero]
  rw [apply_numbers arithmetic number number', apply_integers arithmetic]
  simp only [zero]

end BinaryOp

theorem UnaryOp.negate_of_integer? {v : Value} {a : Int} (counts : v.integer? = some a) :
    UnaryOp.negate.apply v = checked (-a) := by
  obtain ⟨n, number, rfl⟩ := Value.number_of_integer? counts
  simp only [UnaryOp.apply, number]

/-! ## Variables -/

/-- What holds an integer is an existing variable. -/
theorem Store.lt_size_of_int {s : Store} {cell : Nat} {n : Int64}
    (holds : (s.get cell).value = .int n) : cell < s.size := by
  by_contra missing
  -- A number that no variable has yet reads as one without a value.
  have outside : s.get cell = default := by
    simp only [Store.size] at missing
    simp [Store.get, Array.getD_eq_getD_getElem?, Array.getElem?_eq_none (Nat.not_lt.1 missing)]
  rw [outside] at holds
  cases holds

/-- How adding one to a variable ends that holds an integer: the variable holds the next one and the
others are as they were, or nothing has changed and the addition overflows. -/
def Machine.EndsIncremented (m : Machine) (cell : Nat) (n : Int64) (p : Position)
    (ending : Ending Value) : Prop :=
  (¬ Integer.Fits (n.toInt + 1) → ending = .error (.fault (.located p .overflow)) m) ∧
  (Integer.Fits (n.toInt + 1) → ∃ k : Int64, k.toInt = n.toInt + 1 ∧
    ∃ s : Store, ending = .ok .none { m with store := s } ∧ (s.get cell).value = .int k ∧
      ∀ other ≠ cell, s.get other = m.store.get other)

namespace Action

variable {m : Machine} {w : View} {n : Int64}

theorem endsIncremented_native [Host] (holds : (m.store.get w.cell).value = .int n)
    (p : Position) : m.EndsIncremented w.cell n p (native .increment [.view w] p m) := by
  rw [native_increment, bind_run, incrementArg_run, holds]
  dsimp only
  unfold checked
  refine ⟨fun exceeds => ?_, fun fits => ?_⟩
  · rw [Integer.ofInt?_eq_none_iff_not_fits.2 exceeds]
  · obtain ⟨k, exactly, found⟩ := Integer.exists_of_fits fits
    rw [found]
    refine ⟨k, exactly, _, rfl, ?_, fun other ne => ?_⟩
    · rw [Store.get_set, if_pos ⟨rfl, Store.lt_size_of_int holds⟩]
    · rw [Store.get_set, if_neg fun same => ne same.1.symm]

/-- A call that is given a variable of integers that may be assigned goes on with the variable. -/
theorem call_increment_run [Host] (k stamp : Nat) (p : Position) {mutable : Bool}
    (type : (m.store.get w.cell).type = .base .int mutable) (allowed : w.mutable = true) :
    call (k + 1) (.builtin .increment stamp) [.view w] p m =
      native .increment [.view ⟨w.cell, "increment argument 1", true⟩] p m := by
  have bound : m.store.bindArgs Builtin.increment.params [.view w] =
      .ok [.view ⟨w.cell, "increment argument 1", true⟩] := by
    have taken : m.store.bindArg ⟨"increment argument 1", .base .int true⟩ (.view w) =
        .ok (.view ⟨w.cell, "increment argument 1", true⟩) := by
      simp [Store.bindArg, type, allowed, Ty.sameShape, Ty.isMutable]
    change (m.store.bindArg ⟨"increment argument 1", .base .int true⟩ (.view w) >>= _) = _
    rw [taken]
    rfl
  change callBuiltin .increment [.view w] p m = _
  rw [callBuiltin_run, bound]
  rfl

end Action

/-- Arithmetic on integers is exact or says that it is not.  Between values that count as integers,
truth values being zero and one, an operation divides by zero exactly if it is a division and the
second operand is zero; otherwise it overflows exactly if its mathematical result, where division
goes toward zero, is no integer of 64 bits, and is that integer if it is one.  The same holds of the
minus sign, and of the native function that adds one to a variable: on any variable that holds an
integer, and called by its name with one that may be assigned.  Where that overflows, the variable
and everything else is as it was. -/
theorem integers_are_exact_or_overflow [Host] :
    (∀ op ∈ [BinaryOp.add, .sub, .mul, .div], ∀ (v w : Value) (a b : Int),
      v.integer? = some a → w.integer? = some b →
        (op.apply v w = .error .divisionByZero ↔ op = .div ∧ b = 0) ∧
        (¬ (op = .div ∧ b = 0) → Integer.ExactOrOverflow (op.exact a b) (op.apply v w))) ∧
    (∀ (v : Value) (a : Int), v.integer? = some a →
      Integer.ExactOrOverflow (-a) (UnaryOp.negate.apply v)) ∧
    ∀ (m : Machine) (w : View) (n : Int64) (p : Position), (m.store.get w.cell).value = .int n →
      m.EndsIncremented w.cell n p (Action.native .increment [.view w] p m) ∧
      ∀ k stamp mutable, (m.store.get w.cell).type = .base .int mutable → w.mutable = true →
        m.EndsIncremented w.cell n p
          (Action.call (k + 1) (.builtin .increment stamp) [.view w] p m) := by
  refine ⟨fun op arithmetic v w a b left right => ?_, fun v a counts => ?_, fun m w n p holds => ?_⟩
  · rw [BinaryOp.apply_of_integer? arithmetic left right]
    by_cases zero : op = .div ∧ b = 0
    · rw [if_pos zero]
      exact ⟨iff_of_true rfl zero, fun defined => absurd zero defined⟩
    · rw [if_neg zero]
      exact ⟨iff_of_false (checked_ne_divisionByZero _) zero, fun _ => exactOrOverflow_checked _⟩
  · rw [UnaryOp.negate_of_integer? counts]
    exact exactOrOverflow_checked (-a)
  · refine ⟨Action.endsIncremented_native holds p, fun k stamp mutable type allowed => ?_⟩
    -- The parameter is another view of the same variable.
    rw [Action.call_increment_run k stamp p type allowed]
    exact Action.endsIncremented_native (w := ⟨w.cell, "increment argument 1", true⟩) holds p

/-- What leaves the range by one overflows, and a zero that comes from a truth value divides
nothing. -/
theorem results_next_to_the_range_overflow :
    let last : Machine :=
      { store := { cells := #[⟨"x", .base .int true, .int 9223372036854775807⟩] } }
    let x : View := ⟨0, "x", true⟩
    (BinaryOp.add ∈ [BinaryOp.add, .sub, .mul, .div] ∧ BinaryOp.div ∈ [BinaryOp.add, .sub, .mul, .div]) ∧
    (Value.int Int64.minValue).integer? = some (-2 ^ 63) ∧ (Value.int (-1)).integer? = some (-1) ∧
    (Value.bool false).integer? = some 0 ∧ (Value.bool true).integer? = some 1 ∧
    (last.store.get 0).value = .int 9223372036854775807 ∧
    (last.store.get 0).type = .base .int true ∧ x.mutable = true ∧
    BinaryOp.div.apply (.int Int64.minValue) (.int (-1)) = .error .overflow ∧
    BinaryOp.div.apply (.int Int64.minValue) (.bool false) = .error .divisionByZero ∧
    (∃ n : Int64, n.toInt = 2 ∧ BinaryOp.add.apply (.bool true) (.bool true) = .ok (.int n)) ∧
    UnaryOp.negate.apply (.int Int64.minValue) = .error .overflow ∧
    Action.native .increment [.view x] .start last =
      .error (.fault (.located .start .overflow)) last ∧
    Action.call 1 (.builtin .increment 0) [.view x] .start last =
      .error (.fault (.located .start .overflow)) last := by
  intro last x
  have add : BinaryOp.add ∈ [BinaryOp.add, .sub, .mul, .div] := by decide
  have div : BinaryOp.div ∈ [BinaryOp.add, .sub, .mul, .div] := by decide
  have least : (Value.int Int64.minValue).integer? = some (-2 ^ 63) := rfl
  have minusOne : (Value.int (-1)).integer? = some (-1) := rfl
  have zero : (Value.bool false).integer? = some 0 := rfl
  have one : (Value.bool true).integer? = some 1 := rfl
  have holds : (last.store.get 0).value = .int 9223372036854775807 := rfl
  have full : ¬ Integer.Fits ((9223372036854775807 : Int64).toInt + 1) := by decide
  obtain ⟨binary, negate, increments⟩ := integers_are_exact_or_overflow
  obtain ⟨native, called⟩ := increments last x _ .start holds
  exact ⟨⟨add, div⟩, least, minusOne, zero, one, holds, rfl, rfl,
    ((binary .div div _ _ _ _ least minusOne).2 (by decide)).1.2 (by decide),
    (binary .div div _ _ _ _ least zero).1.2 (by decide),
    ((binary .add add _ _ _ _ one one).2 (by decide)).2 (by decide),
    (negate _ _ least).1.2 (by decide),
    native.1 full, (called 0 0 true rfl rfl).1 full⟩

end Rightflow
