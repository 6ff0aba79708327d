import Rightflow.Proofs.Exactness
import Rightflow.Proofs.OperatorFailures

/-!
# Sums and multiples of strings

`+` joins strings and `*` repeats them.  `Text.copies` is to joining what multiplication is to
addition, and the operators obey its laws wherever they have a result.  They have one exactly if the
count is not negative and the copies can be had (`Text.repetition_eq_ok_iff`).  What can be had
depends on the memory; more than addresses reach cannot.
-/

namespace Rightflow

/-! ## Copies -/

namespace Text

variable (s : String) (m n : Nat)

theorem copies_add : copies s (m + n) = copies s m ++ copies s n := by
  induction m with
  | zero => rw [Nat.zero_add, copies_zero, String.empty_append]
  | succ m inductionHypothesis =>
    rw [Nat.succ_add, copies_succ, copies_succ, inductionHypothesis, String.append_assoc]

theorem copies_copies : copies (copies s m) n = copies s (m * n) := by
  induction n with
  | zero => rfl
  | succ n inductionHypothesis =>
    rw [copies_succ, inductionHypothesis, Nat.mul_succ, Nat.add_comm, copies_add]

theorem utf8ByteSize_copies : (copies s n).utf8ByteSize = s.utf8ByteSize * n := by
  induction n with
  | zero => rfl
  | succ n inductionHypothesis =>
    rw [copies_succ, String.utf8ByteSize_append, inductionHypothesis, Nat.mul_succ, Nat.add_comm]

/-- A string is repeated exactly if the count is not negative and the copies can be had. -/
theorem repetition_eq_ok_iff [Memory] {s : String} {count : Int64} {v : Value} :
    repetition s count = .ok v ↔ 0 ≤ count.toInt ∧
      Affords (s.utf8ByteSize * count.toInt.toNat) ∧
      v = .string (copies s count.toInt.toNat) := by
  by_cases natural : 0 ≤ count.toInt
  · rw [repetition_of_natural natural]
    split
    next afforded => simp only [natural, afforded, true_and, Except.ok.injEq, eq_comm]
    next long => simp only [long, reduceCtorEq, false_and, and_false]
  · simp only [repetition_of_negative (Int.not_le.1 natural), natural, reduceCtorEq, false_and]

end Text

theorem checked_eq_ok_iff {z : Int} {v : Value} :
    checked z = .ok v ↔ ∃ k : Int64, k.toInt = z ∧ v = .int k := by
  unfold checked
  split
  next k found =>
    have same := Integer.toInt_of_ofInt? found
    constructor
    · rintro ⟨⟩
      exact ⟨k, same, rfl⟩
    · rintro ⟨k', same', rfl⟩
      rw [Int64.toInt_inj.1 (same.trans same'.symm)]
  next outside =>
    refine ⟨nofun, ?_⟩
    rintro ⟨k, rfl, rfl⟩
    simp at outside

/-! ## Addresses -/

/-- Memory whose bytes have addresses, of which machines with words of 64 bits decode no more than
57. -/
def Memory.Addressed [Memory] : Prop := ∀ size, Memory.grants size = true → size < 1 <<< 57

theorem Memory.addressed_standard : Memory.Addressed := by
  intro size granted
  have below : size < 1 <<< 47 := of_decide_eq_true granted
  omega

/-! ## Laws of the operators -/

namespace BinaryOp

section

variable [Memory] {s : String} {m n : Int64} {v k : Value}

theorem mul_string_eq_ok_iff : mul.apply (.string s) (.int n) = .ok v ↔ 0 ≤ n.toInt ∧
    Text.Affords (s.utf8ByteSize * n.toInt.toNat) ∧ v = .string (Text.copies s n.toInt.toNat) :=
  Text.repetition_eq_ok_iff

theorem mul_string_negative_iff {count : Int64} :
    mul.apply (.string s) (.int n) = .error (.negativeRepeat count) ↔ n.toInt < 0 ∧ count = n := by
  refine repetition_eq_error_iff.trans ?_
  simp only [Cause.negativeRepeat.injEq, reduceCtorEq, and_false, or_false]

theorem mul_string_overflow (addressed : Memory.Addressed)
    (long : 2 ^ 60 ≤ (s.utf8ByteSize : Int) * n.toInt) :
    mul.apply (.string s) (.int n) = .error .overflow := by
  have natural : 0 ≤ n.toInt := by
    by_contra negative
    have := Int.mul_nonpos_of_nonneg_of_nonpos (Int.natCast_nonneg s.utf8ByteSize)
      (Int.le_of_lt (Int.not_le.1 negative))
    omega
  have size : ((s.utf8ByteSize * n.toInt.toNat : Nat) : Int) = s.utf8ByteSize * n.toInt := by
    rw [Int.natCast_mul, Int.toNat_of_nonneg natural]
  refine repetition_eq_error_iff.2 (.inr ⟨natural, ?_, rfl⟩)
  rintro (nothing | ⟨-, granted⟩)
  · omega
  · have reached := addressed _ granted
    omega

/-- Repeating as often as two counts together is repeating by each of them. -/
theorem mul_string_add {a b : Value} (natural : 0 ≤ m.toInt) (natural' : 0 ≤ n.toInt)
    (sum : add.apply (.int m) (.int n) = .ok k) (repeated : mul.apply (.string s) k = .ok v)
    (first : mul.apply (.string s) (.int m) = .ok a)
    (second : mul.apply (.string s) (.int n) = .ok b) : add.apply a b = .ok v := by
  obtain ⟨k, total, rfl⟩ := checked_eq_ok_iff.1 sum
  obtain ⟨-, -, rfl⟩ := mul_string_eq_ok_iff.1 repeated
  obtain ⟨-, -, rfl⟩ := mul_string_eq_ok_iff.1 first
  obtain ⟨-, -, rfl⟩ := mul_string_eq_ok_iff.1 second
  rw [total, Int.toNat_add natural natural', Text.copies_add]
  rfl

/-- Repeating by two counts, one after the other, is repeating as often as their product. -/
theorem mul_string_mul {a : Value} (product : mul.apply (.int m) (.int n) = .ok k)
    (first : mul.apply (.string s) (.int m) = .ok a) (second : mul.apply a (.int n) = .ok v) :
    mul.apply (.string s) k = .ok v := by
  obtain ⟨k, total, rfl⟩ := checked_eq_ok_iff.1 product
  obtain ⟨natural, -, rfl⟩ := mul_string_eq_ok_iff.1 first
  obtain ⟨natural', afforded, rfl⟩ := mul_string_eq_ok_iff.1 second
  have counts : k.toInt.toNat = m.toInt.toNat * n.toInt.toNat := by
    rw [total, Int.toNat_mul natural natural']
  rw [Text.utf8ByteSize_copies, Nat.mul_assoc, ← counts] at afforded
  refine mul_string_eq_ok_iff.2 ⟨total ▸ Int.mul_nonneg natural natural', afforded, ?_⟩
  rw [Text.copies_copies, counts]

theorem add_string_string (s t : String) :
    add.apply (.string s) (.string t) = .ok (.string (s ++ t)) := rfl

theorem add_string_assoc (s t u : String) :
    (add.apply (.string s) (.string t) >>= fun v => add.apply v (.string u)) =
      add.apply (.string t) (.string u) >>= add.apply (.string s) := by
  change Except.ok (Value.string (s ++ t ++ u)) = .ok (.string (s ++ (t ++ u)))
  rw [String.append_assoc]

/-- Joining a string and a value is joining it and the text that the value is cast to. -/
theorem add_string_cast (s : String) (v : Value) :
    add.apply (.string s) v = v.cast (.base .string false) >>= add.apply (.string s) := by
  change Text.concatenate (.string s) v = v.castString (.base .string false) >>= _
  unfold Text.concatenate Value.castString
  cases v.string? <;> rfl

theorem add_cast_string (v : Value) (s : String) :
    add.apply v (.string s) =
      v.cast (.base .string false) >>= fun w => add.apply w (.string s) := by
  have joined : add.apply v (.string s) = Text.concatenate v (.string s) := by cases v <;> rfl
  rw [joined]
  change _ = v.castString (.base .string false) >>= _
  unfold Text.concatenate Value.castString
  cases v.string? <;> rfl

end

/-- Strings are added and multiplied as numbers are.  Whichever way round, a product fails if the
count is negative, or if the copies are longer than memory can be, or than it is; otherwise it is
exactly so many copies: the empty string, if there are none or they are of the empty string.  Where
there are results, repeating distributes over adding counts and goes together with multiplying them.
Joining is associative, the empty string is its unit, and any other value is joined as the text that
it is cast to. -/
theorem strings_add_and_multiply [Memory] (addressed : Memory.Addressed) (s : String) :
    (∀ n, mul.apply (.int n) (.string s) = mul.apply (.string s) (.int n)) ∧
    (∀ n count, mul.apply (.string s) (.int n) = .error (.negativeRepeat count) ↔
      n.toInt < 0 ∧ count = n) ∧
    (∀ n : Int64, 0 ≤ n.toInt → s = "" ∨ n = 0 →
      mul.apply (.string s) (.int n) = .ok (.string "")) ∧
    (∀ n : Int64, 2 ^ 60 ≤ (s.utf8ByteSize : Int) * n.toInt →
      mul.apply (.string s) (.int n) = .error .overflow) ∧
    (∀ n : Int64, 0 ≤ n.toInt → mul.apply (.string s) (.int n) =
      if Text.Affords (s.utf8ByteSize * n.toInt.toNat) then
        .ok (.string (Text.copies s n.toInt.toNat))
      else .error .overflow) ∧
    (∀ (m n : Int64) k v a b, 0 ≤ m.toInt → 0 ≤ n.toInt →
      add.apply (.int m) (.int n) = .ok k → mul.apply (.string s) k = .ok v →
      mul.apply (.string s) (.int m) = .ok a → mul.apply (.string s) (.int n) = .ok b →
      add.apply a b = .ok v) ∧
    (∀ m n k a v, mul.apply (.int m) (.int n) = .ok k →
      mul.apply (.string s) (.int m) = .ok a → mul.apply a (.int n) = .ok v →
      mul.apply (.string s) k = .ok v) ∧
    (∀ t u, (add.apply (.string s) (.string t) >>= (add.apply · (.string u))) =
      add.apply (.string t) (.string u) >>= add.apply (.string s)) ∧
    add.apply (.string s) (.string "") = .ok (.string s) ∧
    add.apply (.string "") (.string s) = .ok (.string s) ∧
    (∀ v, add.apply (.string s) v =
      v.cast (.base .string false) >>= add.apply (.string s)) ∧
    (∀ v, add.apply v (.string s) =
      v.cast (.base .string false) >>= (add.apply · (.string s))) ∧
    (∀ n, ∃ t, Value.cast (.int n) (.base .string false) = .ok (.string t)) ∧
    ∀ b, ∃ t, Value.cast (.bool b) (.base .string false) = .ok (.string t) := by
  refine ⟨fun n => rfl, fun n count => mul_string_negative_iff, fun n natural nothing => ?_,
    fun n => mul_string_overflow addressed, fun n => Text.repetition_of_natural,
    fun m n k v a b => mul_string_add, fun m n k a v => mul_string_mul,
    fun t u => add_string_assoc s t u, ?_, ?_, add_string_cast s,
    fun v => add_cast_string v s, fun n => ⟨_, rfl⟩, fun b => ⟨_, rfl⟩⟩
  · obtain rfl | rfl := nothing
    · refine mul_string_eq_ok_iff.2 ⟨natural, .inl (by simp), ?_⟩
      rw [Text.copies_empty]
    · exact mul_string_eq_ok_iff.2 ⟨natural, .inl (by simp), rfl⟩
  · rw [add_string_string, String.append_empty]
  · rw [add_string_string, String.empty_append]

/-- Five copies of a string, two and three of them joined, and three copies of two copies. -/
theorem five_copies :
    Memory.Addressed ∧
    (∃ a b, mul.apply (.string "aé") (.int 2) = .ok a ∧ mul.apply (.string "aé") (.int 3) = .ok b ∧
      add.apply a b = .ok (.string "aéaéaéaéaé")) ∧
    mul.apply (.string "aé") (.int 6) = .ok (.string "aéaéaéaéaéaé") ∧
    mul.apply (.string "aé") (.int (-1)) = .error (.negativeRepeat (-1)) ∧
    mul.apply (.string "aé") (.int 576460752303423488) = .error .overflow := by
  obtain ⟨-, negative, -, tooLong, -, sum, product, -⟩ :=
    strings_add_and_multiply Memory.addressed_standard "aé"
  exact ⟨Memory.addressed_standard,
    ⟨_, _, rfl, rfl, sum 2 3 (.int 5) _ _ _ (by decide) (by decide) rfl rfl rfl rfl⟩,
    product 2 3 (.int 6) (.string "aéaé") _ rfl rfl rfl,
    (negative _ _).2 ⟨by decide, rfl⟩, tooLong _ (by decide)⟩

end BinaryOp

end Rightflow
