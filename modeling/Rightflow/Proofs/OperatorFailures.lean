import Rightflow.Proofs.Arithmetic

/-!
# How binary operators fail

An operator looks at the kinds of its operands first.  `BinaryOp.accepts` is the table of the kinds
between which it stands, and between any others it is unsupported.  There is one exception: a string
is joined by casting the other operand to a string, so that where that has no text the sum is a
failed cast.  Between operands of kinds that it accepts, an operator fails only in arithmetic on
integers and in repetition, where the copies may be more than a string can hold or more than there
is memory for (`Text.Affords`).

`BinaryOp.Fails` lists all of this, and nothing else makes an operator fail
(`binary_operators_fail_so`).
-/

namespace Rightflow

/-! ## The kinds that operators accept -/

namespace Kind

/-- Numbers, and truth values, which count as numbers. -/
def isNumeric : Kind → Bool
  | .int | .flt | .bool => true
  | .none | .string | .callable => false

/-- The kinds of values that have a text and a truth value. -/
def hasText (k : Kind) : Bool := k = .string || k.isNumeric

end Kind

/-- Whether a repeated string can be had that has so many bytes: there is nothing to copy, or a
string can hold it and there is memory for it. -/
def Text.Affords [Memory] (size : Nat) : Prop :=
  size = 0 ∨ size ≤ sizeLimit ∧ Memory.grants size = true

instance [Memory] (size : Nat) : Decidable (Text.Affords size) :=
  inferInstanceAs (Decidable (_ ∨ _))

namespace BinaryOp

/-- Whether an operator stands between operands of two kinds. -/
def accepts (op : BinaryOp) (k l : Kind) : Bool :=
  match op with
  | .add => (k.isNumeric && l.isNumeric) || (k = .string && l.hasText) || (k.hasText && l = .string)
  | .mul => (k.isNumeric && l.isNumeric) || (k = .string && l = .int) || (k = .int && l = .string)
  | .sub | .div => k.isNumeric && l.isNumeric
  | .less | .greater | .atMost | .atLeast | .equal | .unequal =>
    (k.isNumeric && l.isNumeric) || (k = .string && l = .string)
  | .and | .or => k.hasText && l.hasText
  | .decorate => false

/-- The kind that has no text where an operator joins a string with it. -/
def textless? (op : BinaryOp) (k l : Kind) : Option Kind :=
  match op with
  | .add =>
    if k = .string && !l.hasText then some l
    else if l = .string && !k.hasText then some k
    else none
  | _ => none

/-- The cases in which an operator fails, with the cause of each. -/
inductive Fails [Memory] (op : BinaryOp) (v w : Value) : Cause → Prop where
  /-- Operands of kinds between which the operator does not stand. -/
  | unsupported (foreign : op.accepts v.kind w.kind = false)
      (joins : op.textless? v.kind w.kind = none) : Fails op v w (op.unsupported v w)
  /-- A string joined with something that has no text. -/
  | textless {k : Kind} (joins : op.textless? v.kind w.kind = some k) :
      Fails op v w (.noCast k (.base .string false))
  | divisionByZero {a b : Int64} (left : Number.ofValue? v = some (.int a))
      (right : Number.ofValue? w = some (.int b)) (divides : op = .div) (zero : b = 0) :
      Fails op v w .divisionByZero
  /-- The result of an operation on integers is none of 64 bits. -/
  | outOfRange {a b : Int64} (left : Number.ofValue? v = some (.int a))
      (right : Number.ofValue? w = some (.int b)) (arithmetic : op ∈ [.add, .sub, .mul, .div])
      (defined : ¬ (op = .div ∧ b = 0))
      (outside : ¬ (Int64.minValue.toInt ≤ op.exact a.toInt b.toInt ∧
        op.exact a.toInt b.toInt ≤ Int64.maxValue.toInt)) : Fails op v w .overflow
  | negativeRepeat {s : String} {n : Int64} (repeats : op = .mul)
      (operands : v = .string s ∧ w = .int n ∨ v = .int n ∧ w = .string s)
      (negative : n.toInt < 0) : Fails op v w (.negativeRepeat n)
  /-- A repeated string has more bytes than can be had. -/
  | tooLong {s : String} {n : Int64} (repeats : op = .mul)
      (operands : v = .string s ∧ w = .int n ∨ v = .int n ∧ w = .string s)
      (natural : 0 ≤ n.toInt) (long : ¬ Text.Affords (s.utf8ByteSize * n.toInt.toNat)) :
      Fails op v w .overflow

end BinaryOp

/-! ## Copies -/

namespace Text

@[simp] theorem copies_zero (s : String) : copies s 0 = "" := rfl

theorem copies_succ (s : String) (n : Nat) : copies s (n + 1) = s ++ copies s n := by
  rw [copies, List.replicate_succ, String.join_cons]
  rfl

@[simp] theorem copies_empty (n : Nat) : copies "" n = "" := by
  induction n with
  | zero => rfl
  | succ n inductionHypothesis => rw [copies_succ, inductionHypothesis, String.empty_append]

variable [Memory] {s : String} {count : Int64}

theorem repetition_of_negative (negative : count.toInt < 0) :
    repetition s count = .error (.negativeRepeat count) := by
  rw [repetition, repeatCount, if_pos negative]
  rfl

theorem repetition_of_natural (natural : 0 ≤ count.toInt) :
    repetition s count =
      if Affords (s.utf8ByteSize * count.toInt.toNat) then
        .ok (.string (copies s count.toInt.toNat))
      else .error .overflow := by
  have counted : repeatCount count = .ok count.toInt.toNat := if_neg (Int.not_lt.2 natural)
  -- There is nothing to copy exactly if the copies have no bytes.
  have size : s.utf8ByteSize * count.toInt.toNat = 0 ↔ s = "" ∨ count.toInt.toNat = 0 := by
    rw [Nat.mul_eq_zero, String.utf8ByteSize_eq_zero_iff]
  rw [repetition, counted]
  change (if s = "" ∨ count.toInt.toNat = 0 then _ else _) = _
  by_cases nothing : s = "" ∨ count.toInt.toNat = 0
  · rw [if_pos nothing, if_pos (.inl (size.2 nothing))]
    obtain rfl | none := nothing
    · rw [copies_empty]
    · rw [none, copies_zero]
  · rw [if_neg nothing]
    simp only [Affords, size, nothing, false_or]

end Text

/-! ## Values of a kind -/

namespace Value

theorem ofValue?_eq_none_iff {v : Value} :
    Number.ofValue? v = Option.none ↔ v.kind.isNumeric = false := by
  cases v <;> simp [kind, Kind.isNumeric, Number.ofValue?]

theorem string?_eq_none_iff {v : Value} : v.string? = Option.none ↔ v.kind.hasText = false := by
  cases v <;> simp [kind, Kind.hasText, Kind.isNumeric, string?]

theorem truth?_eq_none_iff {v : Value} : v.truth? = Option.none ↔ v.kind.hasText = false := by
  cases v <;> simp [kind, Kind.hasText, Kind.isNumeric, truth?]

theorem kind_eq_string_iff {v : Value} : v.kind = .string ↔ ∃ s, v = .string s := by
  cases v <;> simp [kind]

theorem kind_eq_int_iff {v : Value} : v.kind = .int ↔ ∃ n, v = .int n := by
  cases v <;> simp [kind]

end Value

namespace BinaryOp

variable {op : BinaryOp} {v w : Value} {cause : Cause}

/-! ## Comparison and logic -/

theorem compareValues?_eq_none_iff : compareValues? v w = none ↔
    ((v.kind.isNumeric && w.kind.isNumeric) || (v.kind = .string && w.kind = .string)) = false := by
  cases v <;> cases w <;>
    simp [compareValues?, Number.ofValue?, Value.kind, Kind.isNumeric]

theorem comparison_eq_error_iff : op.comparison v w = .error cause ↔
    ((v.kind.isNumeric && w.kind.isNumeric) || (v.kind = .string && w.kind = .string)) = false ∧
      cause = op.unsupported v w := by
  rw [← compareValues?_eq_none_iff, comparison]
  cases compareValues? v w <;> simp [eq_comm]

theorem logic_eq_error_iff (connects : op ∈ [.and, .or]) : op.logic v w = .error cause ↔
    (v.kind.hasText && w.kind.hasText) = false ∧ cause = op.unsupported v w := by
  have textless : (v.kind.hasText && w.kind.hasText) = false ↔
      v.truth? = none ∨ w.truth? = none := by
    rw [Value.truth?_eq_none_iff, Value.truth?_eq_none_iff, Bool.and_eq_false_iff]
  rw [textless]
  simp only [List.mem_cons, List.not_mem_nil, or_false] at connects
  obtain rfl | rfl := connects <;>
    cases first : v.truth? <;> cases second : w.truth? <;> simp [logic, first, second, eq_comm]

/-- Apart from arithmetic an operator fails only between kinds that it does not accept. -/
theorem fails_iff_foreign [Memory] (other : op ∉ [.add, .sub, .mul, .div]) :
    op.Fails v w cause ↔ op.accepts v.kind w.kind = false ∧ cause = op.unsupported v w := by
  simp only [List.mem_cons, List.not_mem_nil, or_false, not_or] at other
  obtain ⟨notAdd, notSub, notMul, notDiv⟩ := other
  have joins : op.textless? v.kind w.kind = none := by
    cases op <;> first | rfl | contradiction
  constructor
  · intro fails
    cases fails with
    | unsupported foreign => exact ⟨foreign, rfl⟩
    | textless text => simp [joins] at text
    | divisionByZero _ _ divides => exact absurd divides notDiv
    | outOfRange _ _ arithmetic =>
      simp [notAdd, notSub, notMul, notDiv] at arithmetic
    | negativeRepeat repeats => exact absurd repeats notMul
    | tooLong repeats => exact absurd repeats notMul
  · rintro ⟨foreign, rfl⟩
    exact .unsupported foreign joins

/-! ## Arithmetic -/

theorem onIntegers_eq_error_iff (arithmetic : op ∈ [.add, .sub, .mul, .div]) {a b : Int64} :
    op.onIntegers a b = .error cause ↔
      (op = .div ∧ b = 0) ∧ cause = .divisionByZero ∨
      ¬ (op = .div ∧ b = 0) ∧ ¬ (Int64.minValue.toInt ≤ op.exact a.toInt b.toInt ∧
        op.exact a.toInt b.toInt ≤ Int64.maxValue.toInt) ∧ cause = .overflow := by
  have exactly : op.onIntegers a b = if op = .div ∧ b = 0 then .error .divisionByZero
      else checked (op.exact a.toInt b.toInt) := by
    rw [← apply_integers arithmetic]
    simp only [List.mem_cons, List.not_mem_nil, or_false] at arithmetic
    obtain rfl | rfl | rfl | rfl := arithmetic <;> rfl
  rw [exactly, checked_eq]
  by_cases zero : op = .div ∧ b = 0
  · simp [zero, eq_comm]
  · rw [if_neg zero]
    split
    next inside => simp only [zero, inside, reduceCtorEq, and_self, not_true, false_and, and_false,
      or_self]
    next outside => simp only [zero, outside, Except.error.injEq, eq_comm, not_false_iff, false_and,
      true_and, false_or]

theorem onNumbers_eq_error_iff : op.onNumbers v w = .error cause ↔
    (v.kind.isNumeric && w.kind.isNumeric) = false ∧ cause = op.unsupported v w ∨
    ∃ a b, Number.ofValue? v = some (.int a) ∧ Number.ofValue? w = some (.int b) ∧
      op.onIntegers a b = .error cause := by
  rw [Bool.and_eq_false_iff, ← Value.ofValue?_eq_none_iff, ← Value.ofValue?_eq_none_iff, onNumbers]
  obtain first | ⟨a | x, first⟩ := Option.eq_none_or_eq_some (Number.ofValue? v) <;>
    obtain second | ⟨b | y, second⟩ := Option.eq_none_or_eq_some (Number.ofValue? w) <;>
    simp [first, second, eq_comm]

theorem textless?_add_eq_some_iff {k l m : Kind} (joins : k = .string ∨ l = .string) :
    textless? .add k l = some m ↔
      k.hasText = false ∧ m = k ∨ k.hasText = true ∧ l.hasText = false ∧ m = l := by
  have text : Kind.string.hasText = true := rfl
  rw [eq_comm (a := m), eq_comm (a := m)]
  obtain rfl | rfl := joins
  · cases last : l.hasText <;> simp [textless?, text, last]
  · cases first : k.hasText <;> simp [textless?, text, first]

/-- A string is joined with everything that has a text. -/
theorem concatenate_eq_error_iff (joins : v.kind = .string ∨ w.kind = .string) :
    Text.concatenate v w = .error cause ↔
      ∃ k, textless? .add v.kind w.kind = some k ∧ cause = .noCast k (.base .string false) := by
  have textual (v : Value) : v.kind.hasText = true ↔ v.string? ≠ none := by
    rw [ne_eq, Value.string?_eq_none_iff, Bool.not_eq_false]
  simp only [textless?_add_eq_some_iff joins, textual, ← Value.string?_eq_none_iff]
  cases first : v.string? <;> cases second : w.string? <;>
    simp [Text.concatenate, Value.noCast, first, second, eq_comm]

theorem repetition_eq_error_iff [Memory] {s : String} {n : Int64} :
    Text.repetition s n = .error cause ↔
      n.toInt < 0 ∧ cause = .negativeRepeat n ∨
      0 ≤ n.toInt ∧ ¬ Text.Affords (s.utf8ByteSize * n.toInt.toNat) ∧ cause = .overflow := by
  by_cases negative : n.toInt < 0
  · simp [Text.repetition_of_negative negative, negative, Int.not_le.2 negative, eq_comm]
  · have natural := Int.not_lt.1 negative
    rw [Text.repetition_of_natural natural]
    split
    next afforded =>
      simp only [negative, afforded, not_true, reduceCtorEq, false_and, and_false, or_self]
    next long =>
      simp only [negative, natural, long, not_false_iff, true_and, false_and, false_or,
        Except.error.injEq, eq_comm (a := cause)]

/-! ## Arithmetic, by the kinds of the operands -/

theorem accepts_add_of_string {k l : Kind} (joins : k = .string ∨ l = .string) :
    accepts .add k l = (k.hasText && l.hasText) := by
  obtain rfl | rfl := joins
  · cases l <;> rfl
  · cases k <;> rfl

theorem fails_iff_textless [Memory] (joins : v.kind = .string ∨ w.kind = .string) :
    Fails .add v w cause ↔
      ∃ k, textless? .add v.kind w.kind = some k ∧ cause = .noCast k (.base .string false) := by
  have noNumbers {a b : Number} (left : Number.ofValue? v = some a)
      (right : Number.ofValue? w = some b) : False := by
    obtain text | text := joins <;> obtain ⟨s, rfl⟩ := Value.kind_eq_string_iff.1 text
    · cases left
    · cases right
  -- Next to a string, `+` is never unsupported: what it does not accept has no text.
  have isTextless (foreign : accepts .add v.kind w.kind = false) :
      textless? .add v.kind w.kind ≠ none := by
    rw [accepts_add_of_string joins, Bool.and_eq_false_iff] at foreign
    rw [ne_eq, Option.eq_none_iff_forall_ne_some, not_forall]
    simp only [ne_eq, not_not, textless?_add_eq_some_iff joins]
    cases first : v.kind.hasText with
    | false => exact ⟨_, .inl ⟨rfl, rfl⟩⟩
    | true => exact ⟨_, .inr ⟨rfl, foreign.resolve_left (by simp [first]), rfl⟩⟩
  constructor
  · intro fails
    cases fails with
    | unsupported foreign noText => exact absurd noText (isTextless foreign)
    | textless text => exact ⟨_, text, rfl⟩
    | divisionByZero left right => exact (noNumbers left right).elim
    | outOfRange left right => exact (noNumbers left right).elim
    | negativeRepeat repeats => cases repeats
    | tooLong repeats => cases repeats
  · rintro ⟨k, text, rfl⟩
    exact .textless text

theorem fails_iff_repetition [Memory] {s : String} {n : Int64}
    (operands : v = .string s ∧ w = .int n ∨ v = .int n ∧ w = .string s) :
    Fails .mul v w cause ↔
      n.toInt < 0 ∧ cause = .negativeRepeat n ∨
      0 ≤ n.toInt ∧ ¬ Text.Affords (s.utf8ByteSize * n.toInt.toNat) ∧ cause = .overflow := by
  have only {s' : String} {n' : Int64}
      (same : v = .string s' ∧ w = .int n' ∨ v = .int n' ∧ w = .string s') : s' = s ∧ n' = n := by
    obtain ⟨rfl, rfl⟩ | ⟨rfl, rfl⟩ := operands <;> obtain ⟨⟨⟩, ⟨⟩⟩ | ⟨⟨⟩, ⟨⟩⟩ := same <;>
      exact ⟨rfl, rfl⟩
  constructor
  · intro fails
    cases fails with
    | unsupported foreign => obtain ⟨rfl, rfl⟩ | ⟨rfl, rfl⟩ := operands <;> cases foreign
    | textless text => cases text
    | divisionByZero left right => obtain ⟨rfl, rfl⟩ | ⟨rfl, rfl⟩ := operands <;> trivial
    | outOfRange left right => obtain ⟨rfl, rfl⟩ | ⟨rfl, rfl⟩ := operands <;> trivial
    | negativeRepeat _ same negative =>
      obtain ⟨rfl, rfl⟩ := only same
      exact .inl ⟨negative, rfl⟩
    | tooLong _ same natural long =>
      obtain ⟨rfl, rfl⟩ := only same
      exact .inr ⟨natural, long, rfl⟩
  · rintro (⟨negative, rfl⟩ | ⟨natural, long, rfl⟩)
    · exact .negativeRepeat rfl operands negative
    · exact .tooLong rfl operands natural long

/-- Between all other operands arithmetic is that of numbers. -/
theorem onNumbers_eq_error_iff_fails [Memory] (arithmetic : op ∈ [.add, .sub, .mul, .div])
    (numbers : op.accepts v.kind w.kind = (v.kind.isNumeric && w.kind.isNumeric))
    (noText : op.textless? v.kind w.kind = none) :
    op.onNumbers v w = .error cause ↔ op.Fails v w cause := by
  have noRepetition {s : String} {n : Int64} (repeats : op = .mul) :
      ¬ (v = .string s ∧ w = .int n ∨ v = .int n ∧ w = .string s) := by
    subst repeats
    rintro (⟨rfl, rfl⟩ | ⟨rfl, rfl⟩) <;> cases numbers
  simp only [onNumbers_eq_error_iff, onIntegers_eq_error_iff arithmetic, ← numbers]
  constructor
  · rintro (⟨foreign, rfl⟩ | ⟨a, b, left, right, ⟨⟨divides, zero⟩, rfl⟩ | ⟨defined, outside, rfl⟩⟩)
    · exact .unsupported foreign noText
    · exact .divisionByZero left right divides zero
    · exact .outOfRange left right arithmetic defined outside
  · intro fails
    cases fails with
    | unsupported foreign => exact .inl ⟨foreign, rfl⟩
    | textless text => simp [noText] at text
    | divisionByZero left right divides zero =>
      exact .inr ⟨_, _, left, right, .inl ⟨⟨divides, zero⟩, rfl⟩⟩
    | outOfRange left right _ defined outside =>
      exact .inr ⟨_, _, left, right, .inr ⟨defined, outside, rfl⟩⟩
    | negativeRepeat repeats operands => exact absurd operands (noRepetition repeats)
    | tooLong repeats operands => exact absurd operands (noRepetition repeats)

theorem arithmetic_eq_error_iff [Memory] (arithmetic : op ∈ [.add, .sub, .mul, .div]) :
    op.arithmetic v w = .error cause ↔ op.Fails v w cause := by
  -- Strings are joined and repeated before numbers are asked for, so those two cases come first.
  by_cases joins : op = .add ∧ (v.kind = .string ∨ w.kind = .string)
  · obtain ⟨rfl, joins⟩ := joins
    have joined : BinaryOp.add.arithmetic v w = Text.concatenate v w := by
      obtain text | text := joins <;> obtain ⟨s, rfl⟩ := Value.kind_eq_string_iff.1 text
      · rfl
      · cases v <;> rfl
    rw [joined, concatenate_eq_error_iff joins, fails_iff_textless joins]
  by_cases repeats : op = .mul ∧ ∃ s n, v = .string s ∧ w = .int n ∨ v = .int n ∧ w = .string s
  · obtain ⟨rfl, s, n, operands⟩ := repeats
    have repeated : BinaryOp.mul.arithmetic v w = Text.repetition s n := by
      obtain ⟨rfl, rfl⟩ | ⟨rfl, rfl⟩ := operands <;> rfl
    rw [repeated, repetition_eq_error_iff, fails_iff_repetition operands]
  have numbers : op.arithmetic v w = op.onNumbers v w := by
    unfold BinaryOp.arithmetic
    split
    · exact absurd ⟨rfl, .inl rfl⟩ joins
    · exact absurd ⟨rfl, .inr rfl⟩ joins
    · exact absurd ⟨rfl, _, _, .inl ⟨rfl, rfl⟩⟩ repeats
    · exact absurd ⟨rfl, _, _, .inr ⟨rfl, rfl⟩⟩ repeats
    · rfl
  rw [numbers]
  apply onNumbers_eq_error_iff_fails arithmetic
  · simp only [List.mem_cons, List.not_mem_nil, or_false] at arithmetic
    obtain rfl | rfl | rfl | rfl := arithmetic
    · have noString := not_or.1 fun text => joins ⟨rfl, text⟩
      simp [accepts, noString]
    · rfl
    · have notAfter : (decide (v.kind = .string) && decide (w.kind = .int)) = false := by
        simp only [Value.kind_eq_string_iff, Value.kind_eq_int_iff, ← Bool.decide_and,
          decide_eq_false_iff_not]
        rintro ⟨⟨_, first⟩, ⟨_, second⟩⟩
        exact repeats ⟨rfl, _, _, .inl ⟨first, second⟩⟩
      have notBefore : (decide (v.kind = .int) && decide (w.kind = .string)) = false := by
        simp only [Value.kind_eq_string_iff, Value.kind_eq_int_iff, ← Bool.decide_and,
          decide_eq_false_iff_not]
        rintro ⟨⟨_, first⟩, ⟨_, second⟩⟩
        exact repeats ⟨rfl, _, _, .inr ⟨first, second⟩⟩
      simp only [accepts, notAfter, notBefore, Bool.or_false]
    · rfl
  · by_cases adds : op = .add
    · have noString := not_or.1 fun text => joins ⟨adds, text⟩
      simp [adds, textless?, noString]
    · cases op <;> first | rfl | contradiction

end BinaryOp

/-! ## All operators -/

/-- An operator fails in the cases that `Fails` lists, for the causes that stand there, and in no
others. -/
theorem binary_operators_fail_so [Memory] (op : BinaryOp) (v w : Value) (cause : Cause) :
    op.apply v w = .error cause ↔ op.Fails v w cause := by
  by_cases arithmetic : op ∈ [.add, .sub, .mul, .div]
  · have same : op.apply v w = op.arithmetic v w := by
      simp only [List.mem_cons, List.not_mem_nil, or_false] at arithmetic
      obtain rfl | rfl | rfl | rfl := arithmetic <;> rfl
    rw [same]
    exact BinaryOp.arithmetic_eq_error_iff arithmetic
  · rw [BinaryOp.fails_iff_foreign arithmetic]
    cases op with
    | add | sub | mul | div => simp at arithmetic
    | less | greater | atMost | atLeast | equal | unequal => exact BinaryOp.comparison_eq_error_iff
    | and => exact BinaryOp.logic_eq_error_iff List.mem_cons_self
    | or => exact BinaryOp.logic_eq_error_iff (List.mem_cons_of_mem _ List.mem_cons_self)
    | decorate => simp [BinaryOp.apply, BinaryOp.accepts, eq_comm]

/-- A string that is joined with nothing is an operation that the operator does not stand for, and
yet it does not fail as one. -/
theorem joining_nothing_is_a_failed_cast :
    BinaryOp.accepts .add .none .string = false ∧
      BinaryOp.apply .add .none (.string "x") = .error (.noCast .none (.base .string false)) ∧
      ¬ ∀ op v w cause, BinaryOp.apply op v w = .error cause →
        cause = op.unsupported v w ∨ cause = .overflow ∨ cause = .divisionByZero ∨
          ∃ n, cause = .negativeRepeat n := by
  have failed : BinaryOp.apply .add .none (.string "x") =
      .error (.noCast .none (.base .string false)) := rfl
  refine ⟨rfl, failed, fun claim => ?_⟩
  simpa [BinaryOp.unsupported] using claim _ _ _ _ failed

end Rightflow
