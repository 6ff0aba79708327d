import Rightflow.Proofs.Layout
import Rightflow.Proofs.Roundtrip

/-!
# Arithmetic in a text

An integer is written by its digits, behind a minus sign if it is negative.  The minus sign is an
operator of its own, and the digits are read before it is applied; so the least integer, whose
digits are too large by one, is read as the next one (`Integer.read`).  Every other integer is read
as it is (`Integer.read_eq`), and an operation between two of them gives what it gives in
mathematics, or fails (`integer_expressions_are_exact`).
-/

namespace Rightflow

/-! ## Integers in a text -/

namespace Integer

/-- The literal that the digits of an integer are read as. -/
def digits (n : Int64) : Int64 := Int64.ofNat (min n.toInt.natAbs Numeral.limit)

/-- The integer that the text of an integer is read as. -/
def read (n : Int64) : Int := max n.toInt (-Int64.maxValue.toInt)

/-- The forms of the text of an integer. -/
def forms (n : Int64) : List Form :=
  (if n.toInt < 0 then [.symbol .minus] else []) ++ [.literal (.int (digits n))]

/-- The tree of the text of an integer. -/
def tree (n : Int64) : Expr :=
  if n.toInt < 0 then .unary .negate (.literal (.int (digits n)) .start) .start
  else .literal (.int (digits n)) .start

theorem toList_text (n : Int64) :
    (text n).toList = (if n.toInt < 0 then ['-'] else []) ++ Nat.toDigits 10 n.toInt.natAbs := by
  rw [text, Int.toString_eq_repr, Int.repr_eq_if]
  by_cases negative : n.toInt < 0
  · have magnitude : (-n.toInt).toNat = n.toInt.natAbs := by omega
    rw [if_neg (by omega), if_pos negative, magnitude, String.toList_append, Nat.toList_repr]
    rfl
  · have magnitude : n.toInt.toNat = n.toInt.natAbs := by omega
    rw [if_pos (by omega), if_neg negative, magnitude, Nat.toList_repr]
    rfl

theorem toInt_digits (n : Int64) : (digits n).toInt = min n.toInt.natAbs Numeral.limit := by
  have small : min n.toInt.natAbs Numeral.limit < 2 ^ 63 := by
    simp only [Numeral.limit]
    omega
  exact Int64.toInt_ofNat_of_lt small

theorem digits_of_natural {n : Int64} (natural : 0 ≤ n.toInt) : (digits n).toInt = read n := by
  have bound := n.toInt_lt
  rw [toInt_digits, read, Int64.toInt_maxValue]
  simp only [Numeral.limit]
  omega

theorem digits_of_negative {n : Int64} (negative : n.toInt < 0) : -(digits n).toInt = read n := by
  rw [toInt_digits, read, Int64.toInt_maxValue]
  simp only [Numeral.limit]
  omega

/-- What an integer is read as is an integer of 64 bits. -/
theorem toInt_ofInt_read (n : Int64) : (Int64.ofInt (read n)).toInt = read n := by
  apply Int64.toInt_ofInt_of_le
  · exact Int.le_trans n.le_toInt (Int.le_max_left _ _)
  · exact Int.max_lt.2 ⟨n.toInt_lt, by decide⟩

/-- The least integer is the only one that is not read as it is. -/
theorem read_eq {n : Int64} (greater : n ≠ Int64.minValue) : read n = n.toInt := by
  have least := n.le_toInt
  have other : n.toInt ≠ Int64.minValue.toInt := fun same => greater (Int64.toInt_inj.1 same)
  rw [Int64.toInt_minValue] at other
  rw [read, Int64.toInt_maxValue]
  omega

end Integer

/-! ## Reading -/

section

variable {text : List Char} {fs : List Form} {cautions : List Caution}

/-- A minus sign before a digit is a lexeme of its own. -/
theorem longest_minus {c : Char} (digit : c.isDigit = true) (rest : List Char) :
    Longest (['-'] ++ c :: rest) ['-'] (.symbol .minus) none := by
  have other : c ≠ '>' := by
    rintro rfl
    cases digit
  refine longest_symbol (s := .minus) (by decide) (by decide) (by decide) ?_ ?_
  · simp
  · simp [Symbol.longestAt?, Symbol.byLength, Symbol.spelling, other.symm]

/-- An integer that is not followed by another character of a word is read digit by digit. -/
theorem Reads.integer (n : Int64) (reads : Reads text fs cautions)
    (ends : ∀ d, text.head? = some d → isBlank d = true) :
    ∃ cautions', Reads ((Integer.text n).toList ++ text) (Integer.forms n ++ fs) cautions' := by
  have separates (form : Form) (notComment : form ≠ .comment) : Separates form text := by
    cases text with
    | nil => trivial
    | cons d text => exact ⟨ends d rfl, fun comment => absurd comment notComment⟩
  have number := reads.lexeme ((lexeme_of_toDigits n.toInt.natAbs).longest_append
    (separates _ (by simp)))
  rw [Integer.toList_text, Integer.forms]
  by_cases negative : n.toInt < 0
  · obtain ⟨c, cs, spelled⟩ := List.exists_cons_of_ne_nil
      (Nat.toDigits_ne_nil (n := n.toInt.natAbs) (b := 10))
    have digit : c.isDigit = true :=
      Nat.isDigit_of_mem_toDigits (b := 10) (n := n.toInt.natAbs) (by decide) (by decide)
        (spelled ▸ List.mem_cons_self)
    rw [spelled] at number ⊢
    rw [if_pos negative, if_pos negative]
    exact ⟨_, number.lexeme (longest_minus digit _)⟩
  · rw [if_neg negative, if_neg negative]
    exact ⟨_, number⟩

/-- The forms of an operation between two integers, written with spaces around the operator. -/
theorem reads_operation (a b : Int64) (op : BinaryOp) :
    ∃ cautions, Reads (Integer.text a ++ " " ++ op.text ++ " " ++ Integer.text b).toList
      (Integer.forms a ++ .symbol op.symbol :: (Integer.forms b ++ [.finish])) cautions := by
  obtain ⟨cautions, second⟩ := reads_nil.integer b nofun
  have blank : isBlank ' ' = true := by decide
  have separates : Separates (.symbol op.symbol) (' ' :: ((Integer.text b).toList ++ [])) :=
    ⟨blank, nofun⟩
  have operator := (second.blank blank).lexeme ((Lexeme.symbol op.symbol).longest_append separates)
  obtain ⟨cautions', first⟩ := (operator.blank blank).integer a (by rintro _ ⟨⟩; exact blank)
  have spelled : op.text.toList = op.symbol.spelling := by cases op <;> rfl
  refine ⟨cautions', ?_⟩
  simpa [spelled] using first

end

/-! ## Parsing -/

/-- The parser of a whole expression answers the tree that the forms of the tokens derive. -/
theorem expression_parses_of_derives {tokens : List Token} {fs : List Form} {e : Expr}
    (split : forms tokens = fs ++ [.finish]) (text : ExprText (.level .or) fs e) :
    ∃ q, Parser.result Parser.standalone tokens = .ok q ∧ q.bare = e := by
  have reads : Parser.Reads (Parser.standalone (Parser.depth * (tokens.length + 1)))
      (fs ++ [.finish]) [] (·.bare = e) := by
    have length : tokens.length = fs.length + 1 := by
      have lengths := congrArg List.length split
      simpa [forms] using lengths
    refine .bind ((Parser.accepts_and_begins text).1 _ _ ?_ (by decide)) fun q seen => ?_
    · simp only [length, Parser.depth, Tier.descent, Level.rank]
      omega
    · exact .expect fun _ => .pure seen
  obtain ⟨q, rest, run, -, same⟩ := reads tokens (by rw [split, List.append_nil])
  exact ⟨q, Parser.result_eq_ok.2 ⟨rest, run⟩, same⟩

/-- A text off which the forms of an expression are read is parsed as the expression. -/
theorem parseExpression_of_reads {source : String} {fs : List Form} {cautions : List Caution}
    {e : Expr} (reads : Reads source.toList (fs ++ [.finish]) cautions)
    (text : ExprText (.level .or) fs e) : ∃ q, parseExpression source = .ok q ∧ q.bare = e := by
  obtain ⟨scanned, longestMatch, split, -⟩ := reads .start
  obtain ⟨q, parsed, same⟩ := expression_parses_of_derives split text
  refine ⟨q, ?_, same⟩
  rw [parseExpression, parseText_of_tokenize _ (tokenize_of_longestMatch longestMatch), parsed]
  rfl

theorem Integer.exprText (n : Int64) : ExprText .unary (Integer.forms n) (Integer.tree n) := by
  have literal : ExprText .unary [.literal (.int (Integer.digits n))]
      (.literal (.int (Integer.digits n)) .start) := .factor (.literal _)
  unfold forms tree
  split
  · exact .unary (by simp [prefixes]) literal
  · exact literal

/-- The forms of an operation derive its tree. -/
theorem operation_exprText (a b : Int64) {op : BinaryOp} {l : Level} (level : op.level? = some l) :
    ExprText (.level .or) (Integer.forms a ++ .symbol op.symbol :: Integer.forms b)
      (.binary op (Integer.tree a) (Integer.tree b) .start) := by
  have operands : l.operands.order ≤ 6 ∧ l.leading.order ≤ 6 := by
    cases l <;> decide
  have first : ExprText l.leading (Integer.forms a) (Integer.tree a) :=
    (Integer.exprText a).loosen operands.2 l.leading_order_le
  have second : ExprText l.operands (Integer.forms b) (Integer.tree b) :=
    (Integer.exprText b).loosen operands.1 l.operands_order_le
  exact (ExprText.binary (BinaryOp.mem_operators level) first second).loosest

/-! ## Evaluating -/

theorem Integer.eval_of_bare [Memory] {n : Int64} {e : Expr} (same : e.bare = Integer.tree n)
    (k : Nat) (m : Machine) :
    Action.eval (k + 2) e m = .ok (.int (Int64.ofInt (Integer.read n))) m := by
  unfold tree at same
  split at same
  next negative =>
    cases e <;> simp only [Expr.bare, Expr.unary.injEq, reduceCtorEq] at same
    rename_i op operand p
    obtain ⟨rfl, same, -⟩ := same
    cases operand <;> simp only [Expr.bare, Expr.literal.injEq, reduceCtorEq] at same
    obtain ⟨rfl, -⟩ := same
    have negated : UnaryOp.negate.apply (.int (digits n)) = .ok (.int (Int64.ofInt (read n))) := by
      have fits := Integer.ofInt?_toInt (Int64.ofInt (read n))
      rw [toInt_ofInt_read] at fits
      simp only [UnaryOp.apply, Number.ofValue?, checked, digits_of_negative negative, fits]
    simp only [Action.eval, Action.bind_run]
    change Action.attempt _ (UnaryOp.negate.apply (.int (digits n))) m = _
    rw [negated]
    rfl
  next natural =>
    cases e <;> simp only [Expr.bare, Expr.literal.injEq, reduceCtorEq] at same
    obtain ⟨rfl, -⟩ := same
    rw [← digits_of_natural (Int.not_lt.1 natural), Int64.ofInt_toInt]
    rfl

namespace BinaryOp

/-- An operation in mathematics; division goes toward zero. -/
def exact (op : BinaryOp) (x y : Int) : Int :=
  match op with
  | .add => x + y
  | .sub => x - y
  | .mul => x * y
  | .div => x.tdiv y
  | _ => 0

variable {op : BinaryOp}

theorem apply_integers [Memory] (arithmetic : op ∈ [.add, .sub, .mul, .div]) (x y : Int64) :
    op.apply (.int x) (.int y) =
      if op = .div ∧ y = 0 then .error .divisionByZero else checked (op.exact x.toInt y.toInt) := by
  simp only [List.mem_cons, List.not_mem_nil, or_false] at arithmetic
  obtain rfl | rfl | rfl | rfl := arithmetic
  · rfl
  · rfl
  · rfl
  · change (if y = 0 then _ else _) = _
    simp only [true_and]
    rfl

end BinaryOp

theorem checked_eq (z : Int) :
    checked z = if Int64.minValue.toInt ≤ z ∧ z ≤ Int64.maxValue.toInt
      then .ok (.int (Int64.ofInt z)) else .error .overflow := by
  by_cases inRange : Int64.minValue.toInt ≤ z ∧ z ≤ Int64.maxValue.toInt
  · rw [if_pos inRange, checked, Integer.ofInt?_eq_some inRange]
  · rw [if_neg inRange, checked, Integer.ofInt?_eq_none_iff.2 (by omega)]

theorem Integer.ofInt_read_eq_zero_iff (n : Int64) : Int64.ofInt (read n) = 0 ↔ n = 0 := by
  rw [← Int64.toInt_inj, ← Int64.toInt_inj, toInt_ofInt_read, read, Int64.toInt_maxValue,
    Int64.toInt_zero]
  omega

/-- The text of an operation between integers has the value of the operation between what they are
read as, or fails for the cause for which that does. -/
theorem evalText_operation [Memory] (a b : Int64) {op : BinaryOp}
    (arithmetic : op ∈ [.add, .sub, .mul, .div]) :
    ∃ p, evalText (Integer.text a ++ " " ++ op.text ++ " " ++ Integer.text b) =
      (op.apply (.int (Int64.ofInt (Integer.read a)))
        (.int (Int64.ofInt (Integer.read b)))).mapError
        fun cause => .fault (.runtime (.located p cause)) := by
  obtain ⟨l, level⟩ : ∃ l, op.level? = some l := by
    simp only [List.mem_cons, List.not_mem_nil, or_false] at arithmetic
    obtain rfl | rfl | rfl | rfl := arithmetic <;> exact ⟨_, rfl⟩
  obtain ⟨cautions, reads⟩ := reads_operation a b op
  rw [← List.cons_append, ← List.append_assoc] at reads
  obtain ⟨q, parsed, same⟩ := parseExpression_of_reads reads (operation_exprText a b level)
  cases q <;> simp only [Expr.bare, Expr.binary.injEq, reduceCtorEq] at same
  rename_i op' left right p
  obtain ⟨rfl, first, second, -⟩ := same
  obtain ⟨k, enough⟩ : ∃ k, bound = k + 3 := Nat.exists_eq_add_of_le' (by decide)
  have evaluated : Action.eval (k + 3) (.binary op' left right p) .standard =
      Action.attempt p (op'.apply (.int (Int64.ofInt (Integer.read a)))
        (.int (Int64.ofInt (Integer.read b)))) .standard := by
    have noDecoration : op' ≠ .decorate := by
      rintro rfl
      cases level
    rw [Action.eval]
    · simp only [Action.bind_run, Integer.eval_of_bare first, Integer.eval_of_bare second]
    · exact noDecoration
  refine ⟨p, ?_⟩
  rw [evalText, parsed]
  change (Machine.standard.perform (Action.eval bound _)).1 = _
  rw [enough, Machine.perform, evaluated, Action.attempt_run]
  cases op'.apply _ _ <;> rfl

/-- Two integers in a text with one of the four operations between them have the exact result of the
operation as their value, where division goes toward zero, if that is an integer of 64 bits.  If it
is not, the operation overflows, and nothing is divided by zero.  The least integer is read as the
next one. -/
theorem integer_expressions_are_exact [Memory] (a b : Int64) {op : BinaryOp}
    (arithmetic : op ∈ [.add, .sub, .mul, .div]) :
    ∃ p, evalText (Integer.text a ++ " " ++ op.text ++ " " ++ Integer.text b) =
      let z := op.exact (Integer.read a) (Integer.read b)
      if op = .div ∧ b = 0 then .error (.fault (.runtime (.located p .divisionByZero)))
      else if Int64.minValue.toInt ≤ z ∧ z ≤ Int64.maxValue.toInt then .ok (.int (Int64.ofInt z))
      else .error (.fault (.runtime (.located p .overflow))) := by
  obtain ⟨p, value⟩ := evalText_operation a b arithmetic
  refine ⟨p, ?_⟩
  rw [value, BinaryOp.apply_integers arithmetic]
  simp only [Integer.ofInt_read_eq_zero_iff, Integer.toInt_ofInt_read, checked_eq]
  split
  · rfl
  · split <;> rfl

/-- At the upper end of the range a sum is exact or overflows; a quotient does not round down. -/
theorem integer_expressions_at_the_end :
    BinaryOp.add ∈ [.add, .sub, .mul, .div] ∧ BinaryOp.div ∈ [.add, .sub, .mul, .div] ∧
    evalText "9223372036854775806 + 1" = .ok (.int 9223372036854775807) ∧
    (∃ p, evalText "9223372036854775807 + 1" = .error (.fault (.runtime (.located p .overflow)))) ∧
    evalText "-7 / 2" = .ok (.int (-3)) ∧
    ∃ p, evalText "1 / 0" = .error (.fault (.runtime (.located p .divisionByZero))) := by
  have add : BinaryOp.add ∈ [.add, .sub, .mul, .div] := by decide
  have div : BinaryOp.div ∈ [.add, .sub, .mul, .div] := by decide
  obtain ⟨_, greatest⟩ := integer_expressions_are_exact 9223372036854775806 1 add
  obtain ⟨p, overflow⟩ := integer_expressions_are_exact 9223372036854775807 1 add
  obtain ⟨_, quotient⟩ := integer_expressions_are_exact (-7) 2 div
  obtain ⟨q, byZero⟩ := integer_expressions_are_exact 1 0 div
  exact ⟨add, div, greatest, ⟨p, overflow⟩, quotient, q, byZero⟩

/-- The sum of the least integer and zero is in the range, and is not what their text has as its
value. -/
theorem least_integer_is_misread :
    BinaryOp.add.exact Int64.minValue.toInt 0 = Int64.minValue.toInt ∧
    ∃ n, evalText
        (Integer.text Int64.minValue ++ " " ++ BinaryOp.add.text ++ " " ++ Integer.text 0) =
      .ok (.int n) ∧ n.toInt = Int64.minValue.toInt + 1 := by
  have add : BinaryOp.add ∈ [.add, .sub, .mul, .div] := by decide
  obtain ⟨_, value⟩ := evalText_operation Int64.minValue 0 add
  exact ⟨rfl, Int64.minValue + 1, value, rfl⟩

end Rightflow
