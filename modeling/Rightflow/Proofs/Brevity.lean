import Rightflow.Proofs.Printing

/-!
# Nothing is shorter than what is printed

No forms that derive a tree are fewer than the printed ones (`ProgramText.length_printed_le`).  So
no parentheses that are printed can be left out: without them the text would be that of another
tree, or of none.
-/

namespace Rightflow

/-! ## Positions are not printed -/

theorem Expr.fits_bare (e : Expr) (place : Tier) : e.bare.fits place = e.fits place := by
  cases e <;> cases place <;> rfl

mutual

theorem Expr.printed_bare (e : Expr) : e.bare.printed = e.printed := by
  cases e with
  | literal | name => rfl
  | unary op operand => simp only [bare, printed, fits_bare, printed_bare operand]
  | binary op left right =>
    simp only [bare, printed, fits_bare, printed_bare left, printed_bare right]
  | call callee args | bind callee args =>
    simp only [bare, printed, fits_bare, printed_bare callee, printedAll_bare args]

theorem Expr.printedAll_bare (es : List Expr) :
    Expr.printedAll (Expr.bareAll es) = Expr.printedAll es := by
  cases es with
  | nil => rfl
  | cons e es => simp only [bareAll, printedAll, printed_bare e, printedAll_bare es]

end

theorem Assignment.printed_bare (a : Assignment) : a.bare.printed = a.printed := by
  simp only [Assignment.bare, Assignment.printed, a.value.printed_bare]

theorem Iterator.printed_bare (iter : Iterator) : iter.bare.printed = iter.printed := by
  cases iter with
  | assign a => exact a.printed_bare
  | existing => rfl

mutual

theorem Stmt.printed_bare (s : Stmt) : s.bare.printed = s.printed := by
  cases s with
  | assign a => exact a.printed_bare
  | run e | giveBack e => simp only [Stmt.bare, Stmt.printed, e.printed_bare]
  | branch cond body further =>
    simp only [Stmt.bare, Stmt.printed, cond.printed_bare, Stmt.printedAll_bare body,
      further.printed_bare]
  | whileLoop cond body =>
    simp only [Stmt.bare, Stmt.printed, cond.printed_bare, Stmt.printedAll_bare body]
  | forLoop iter cond body onIter =>
    simp only [Stmt.bare, Stmt.printed, iter.printed_bare, cond.printed_bare,
      Stmt.printedAll_bare body, onIter.printed_bare, onIter.fits_bare]

theorem Stmt.printedAll_bare (body : Block) :
    Stmt.printedAll (Stmt.bareAll body) = Stmt.printedAll body := by
  cases body with
  | nil => rfl
  | cons s body =>
    simp only [Stmt.bareAll, Stmt.printedAll, s.printed_bare, Stmt.printedAll_bare body]

theorem Otherwise.printed_bare (o : Otherwise) : o.bare.printed = o.printed := by
  cases o with
  | nothing => rfl
  | elif cond body further =>
    simp only [Otherwise.bare, Otherwise.printed, cond.printed_bare, Stmt.printedAll_bare body,
      further.printed_bare]
  | block body => simp only [Otherwise.bare, Otherwise.printed, Stmt.printedAll_bare body]

end

theorem Function.printed_bare (f : Function) : f.bare.printed = f.printed := by
  unfold Function.printed Function.bare
  rw [Stmt.printedAll_bare]

theorem Program.printed_bare (p : Program) : p.bare.printed = p.printed := by
  simp only [Program.bare, Program.printed, List.flatMap_map, Function.printed_bare]

/-! ## Types, names and lists -/

theorem length_flatten_le {α : Type} (print : α → List Form) {parts : List (List Form × α)}
    (shorter : ∀ part ∈ parts, (print part.2).length ≤ part.1.length) :
    ((parts.map (·.2)).map print).flatten.length ≤ (parts.map (·.1)).flatten.length := by
  induction parts with
  | nil => simp
  | cons part further ih =>
    obtain ⟨first, others⟩ := List.forall_mem_cons.1 shorter
    have rest := ih others
    simp only [List.map_cons, List.flatten_cons, List.length_append]
    omega

theorem length_commaSeparated_le {α : Type} (print : α → List Form)
    {parts : List (List Form × α)}
    (shorter : ∀ part ∈ parts, (print part.2).length ≤ part.1.length) :
    (commaSeparated ((parts.map (·.2)).map print)).length ≤
      (commaSeparated (parts.map (·.1))).length := by
  have stretches := length_flatten_le print shorter
  simp only [length_commaSeparated, List.length_map] at *
  omega

/-- A type has one text only. -/
theorem TypeText.printed_eq {fs : List Form} {t : Ty} (text : TypeText fs t) : t.printed = fs := by
  induction text with
  | void | base | mutable => rfl
  | @func fs ret params returned taken held ihRet ihParams =>
    have same : params.map (Ty.printed ∘ (·.2)) = params.map (·.1) := List.map_congr_left ihParams
    simp [Ty.printed, Ty.printedAll_eq_map, ihRet, same]

theorem NameText.printed_eq {fs : List Form} {e : Expr} (text : NameText fs e) :
    e.printed = fs := by
  cases text <;> rfl

/-! ## Parentheses -/

theorem length_le_parenthesizedUnless (holds : Bool) (fs : List Form) :
    fs.length ≤ (parenthesizedUnless holds fs).length := by
  cases holds with
  | false => simp [parenthesizedUnless, Nat.le_succ_of_le]
  | true => exact Nat.le_refl _

theorem length_parenthesizedUnless_le (holds : Bool) (fs : List Form) :
    (parenthesizedUnless holds fs).length ≤ fs.length + 2 := by
  cases holds <;> simp [parenthesizedUnless]

/-- Where fewer parentheses stand, there are no more forms. -/
theorem length_parenthesizedUnless_anti {holds holds' : Bool} (weaker : holds → holds')
    (fs : List Form) :
    (parenthesizedUnless holds' fs).length ≤ (parenthesizedUnless holds fs).length := by
  cases holds with
  | false => simpa [parenthesizedUnless] using length_parenthesizedUnless_le holds' fs
  | true => rw [weaker rfl]

/-- What holds together at a place does so where less is asked for. -/
theorem Expr.fits_loosen {place place' : Tier} (looser : place'.order ≤ place.order)
    (notCallee : place ≠ .callee) (notCallee' : place' ≠ .callee) {e : Expr}
    (fits : e.fits place = true) : e.fits place' = true := by
  rw [Expr.fits_eq_decide notCallee, decide_eq_true_iff] at fits
  rw [Expr.fits_eq_decide notCallee', decide_eq_true_iff]
  exact Nat.le_trans looser fits

/-- What is called without parentheses around it elsewhere needs none to be called. -/
theorem Expr.fits_callee {e : Expr} (fits : e.fits .parenthesized = true) :
    e.fits .callee = true := by
  cases e with
  | binary op =>
    cases op <;> first
      | rfl
      | simp [Expr.fits, Expr.tier, Tier.order, BinaryOp.level?, Level.rank] at fits
  | literal | name | unary => cases fits
  | call | bind => rfl

theorem Level.level?_of_mem_operators {l : Level} {s : Symbol} {op : BinaryOp}
    (operator : (s, op) ∈ l.operators) : op.level? = some l := by
  cases l <;> simp [operators] at operator <;> grind [BinaryOp.level?]

theorem Level.operands_ne_callee (l : Level) : l.operands ≠ .callee := by
  cases l <;> simp [operands]

theorem NameText.fits {fs : List Form} {e : Expr} (text : NameText fs e) :
    e.fits .factor = true ∧ e.fits .callee = true := by
  cases text <;> exact ⟨rfl, rfl⟩

theorem ExprText.length_printed_le {place : Tier} {fs : List Form} {e : Expr}
    (text : ExprText place fs e) :
    (parenthesizedUnless (e.fits place) e.printed).length ≤ fs.length := by
  induction text with
  | @operand l fs e text ih =>
    have looser : (Tier.level l).order ≤ l.operands.order := by
      rw [l.operands_order]
      exact Nat.le_succ _
    refine Nat.le_trans (length_parenthesizedUnless_anti ?_ _) ih
    exact Expr.fits_loosen looser l.operands_ne_callee (by simp)
  | @binary l s op fs gs left right operator first second ihFirst ihSecond =>
    have level := Level.level?_of_mem_operators operator
    have holds : (Expr.binary op left right .start).fits (.level l) = true := by
      simp [Expr.fits, Expr.tier, level]
    simp only [holds, parenthesizedUnless, if_true, Expr.printed, level, List.length_append,
      List.length_cons] at *
    omega
  | factor text ih =>
    refine Nat.le_trans (length_parenthesizedUnless_anti ?_ _) ih
    exact Expr.fits_loosen (by decide) (by simp) (by simp)
  | @unary s op fs e operator text ih =>
    have holds : (Expr.unary op e .start).fits .unary = true := rfl
    rw [holds]
    exact Nat.succ_le_succ ih
  | literal value => exact Nat.le_refl _
  | named text => rw [text.fits.1, text.printed_eq]; exact Nat.le_refl _
  | calledName text => rw [text.fits.2, text.printed_eq]; exact Nat.le_refl _
  | parenthesized text ih =>
    refine Nat.le_trans (length_parenthesizedUnless_anti ?_ _) ih
    exact Expr.fits_loosen (by decide) (by simp) (by simp)
  | called text ih =>
    exact Nat.le_trans (length_parenthesizedUnless_anti Expr.fits_callee _) ih
  | @group fs e text ih =>
    -- The parentheses of the group make up for those that may be printed.
    calc (parenthesizedUnless (e.fits .parenthesized) e.printed).length
        ≤ e.printed.length + 2 := length_parenthesizedUnless_le _ _
      _ ≤ (parenthesizedUnless (e.fits (.level .or)) e.printed).length + 2 :=
        Nat.add_le_add_right (length_le_parenthesizedUnless _ _) 2
      _ ≤ fs.length + 2 := Nat.add_le_add_right ih 2
      _ = _ := by simp
  | @bind args fs callee given text ihGiven =>
    have shorter : ∀ arg ∈ args, arg.2.printed.length ≤ arg.1.length := fun arg mem =>
      Nat.le_trans (length_le_parenthesizedUnless _ _) (ihGiven arg mem)
    have list := length_commaSeparated_le Expr.printed shorter
    have holds : (Expr.bind callee (args.map (·.2)) .start).fits .parenthesized = true := rfl
    simp only [holds, parenthesizedUnless, if_true, Expr.printed, Expr.printedAll_eq_map,
      text.printed_eq, List.length_cons, List.length_append]
    omega
  | @call args fs callee given text ihGiven ihText =>
    have shorter : ∀ arg ∈ args, arg.2.printed.length ≤ arg.1.length := fun arg mem =>
      Nat.le_trans (length_le_parenthesizedUnless _ _) (ihGiven arg mem)
    have list := length_commaSeparated_le Expr.printed shorter
    have holds : (Expr.call callee (args.map (·.2)) .start).fits .parenthesized = true := rfl
    rw [holds]
    simp only [parenthesizedUnless, if_true, Expr.printed, Expr.printedAll_eq_map,
      List.length_cons, List.length_append] at *
    omega

/-- No forms that derive an expression are fewer than the printed ones. -/
theorem ExprText.length_expr_printed_le {place : Tier} {fs : List Form} {e : Expr}
    (text : ExprText place fs e) : e.printed.length ≤ fs.length :=
  Nat.le_trans (length_le_parenthesizedUnless _ _) text.length_printed_le

theorem AssignText.length_printed_le {fs : List Form} {a : Assignment} (text : AssignText fs a) :
    a.printed.length ≤ fs.length := by
  cases text with
  | assign value target =>
    have shorter := value.length_expr_printed_le
    cases target with
    | existing x => simpa [Assignment.printed] using shorter
    | declared type x => simpa [Assignment.printed, type.printed_eq] using shorter

theorem Enclosed.length_pos {x : String} {fs : List Form} (text : Enclosed x fs) :
    0 < fs.length := by
  cases text <;> simp

theorem IteratorText.length_printed_le {fs : List Form} {iter : Iterator}
    (text : IteratorText fs iter) : iter.printed.length ≤ fs.length := by
  cases text with
  | assign text => exact text.length_printed_le
  | existing text =>
    simpa [Iterator.printed] using Nat.succ_le_of_lt text.length_pos

theorem StmtText.length_printed_le {fs : List Form} {phrase : Phrase} (text : StmtText fs phrase) :
    phrase.printed.length ≤ fs.length := by
  induction text with
  | assign text => exact text.length_printed_le
  | run text | giveBack text =>
    simpa [Phrase.printed, Stmt.printed] using text.length_expr_printed_le
  | branch condition block branches ihBlock ihBranches
  | elif condition block branches ihBlock ihBranches =>
    have shorter := condition.length_expr_printed_le
    simp only [Phrase.printed, Stmt.printed, Otherwise.printed, List.length_cons,
      List.length_append] at *
    omega
  | whileLoop condition block ihBlock =>
    have shorter := condition.length_expr_printed_le
    simp only [Phrase.printed, Stmt.printed, List.length_cons, List.length_append] at *
    omega
  | forLoop header condition block callee ihBlock =>
    have shorterHeader := header.length_printed_le
    have shorter := condition.length_expr_printed_le
    have shorterCallee := callee.length_printed_le
    simp only [Phrase.printed, Stmt.printed, List.length_cons, List.length_append] at *
    omega
  | nothing => exact Nat.le_refl _
  | otherwise block ihBlock => exact Nat.succ_le_succ ihBlock
  | block statements ih =>
    have shorter := length_flatten_le Stmt.printed ih
    simp only [Phrase.printed, inBraces, Stmt.printedAll_eq_map, List.length_cons,
      List.length_append] at *
    omega

theorem ParameterText.printed_eq {fs : List Form} {param : Param} (text : ParameterText fs param) :
    param.printed = fs := by
  cases text with
  | parameter text => simp [Param.printed, text.printed_eq]

theorem FunctionText.length_printed_le {fs : List Form} {f : Function} (text : FunctionText fs f) :
    f.printed.length ≤ fs.length := by
  cases text with
  | @function ts ps bs ret params body returned name parameters block =>
    have shorter : (inBraces (Stmt.printedAll body)).length ≤ bs.length := block.length_printed_le
    have shorterParameters : (if params = [] then []
        else .symbol .signature :: commaSeparated (params.map Param.printed)).length ≤
          ps.length := by
      cases parameters with
      | absent => simp
      | @listed parts texts =>
        have same := length_commaSeparated_le Param.printed
          fun part mem => Nat.le_of_eq (congrArg _ (texts part mem).printed_eq)
        split
        next => simp
        next => exact Nat.succ_le_succ same
    simp only [Function.printed, returned.printed_eq, List.length_cons, List.length_append]
    omega

theorem ProgramText.length_printed_of_derived {fs : List Form} {p : Program}
    (text : ProgramText fs p) : p.printed.length + 1 ≤ fs.length := by
  cases text with
  | program functions =>
    have shorter := length_flatten_le Function.printed
      fun part mem => (functions part mem).length_printed_le
    simpa [Program.printed, List.flatMap] using shorter

/-- What is printed of a program, and the end behind it, are the fewest forms that derive it. -/
theorem ProgramText.length_printed_le {fs : List Form} {p : Program}
    (text : ProgramText fs p.bare) : (p.printed ++ [Form.finish]).length ≤ fs.length := by
  simpa [p.printed_bare] using text.length_printed_of_derived

end Rightflow
