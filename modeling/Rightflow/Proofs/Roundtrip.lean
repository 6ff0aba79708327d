import Rightflow.Proofs.Printing

/-!
# Printing and parsing again

What is printed of a tree derives the tree, and all of its forms can be written down.  So parsing
the text of a program gives the program back, up to positions (`parse_text_of_program`).
-/

namespace Rightflow

/-! ## What is printed derives the tree -/

theorem Ty.Printable.text {t : Ty} (printable : t.Printable) : TypeText t.printed t := by
  induction printable with
  | base b => exact .ofBase b
  | mutable held => exact .mutable held
  | @func ret params returned taken held ihRet ihParams =>
    have texts : ∀ param ∈ params.map fun t => (t.printed, t), TypeText param.1 param.2 := by
      simpa using ihParams
    have text := TypeText.func ihRet texts (by simpa using held)
    simpa [Ty.printed, Ty.printedAll_eq_map, Function.comp_def] using text

/-! ### Expressions -/

theorem Tier.eq_level_of_order {own : Tier} {l : Level} (same : own.order = l.rank) :
    own = .level l := by
  cases own with
  | level l' => cases l' <;> cases l <;> first | rfl | cases same
  | unary | factor | callee | parenthesized => cases l <;> cases same

theorem Tier.eq_unary_of_order {own : Tier} (same : own.order = 6) : own = .unary := by
  cases own with
  | level l => cases l <;> cases same
  | unary => rfl
  | factor | callee | parenthesized => cases same

theorem Level.leading_order_le (l : Level) : l.leading.order ≤ 7 := by
  cases l <;> decide

theorem Level.operands_order_le (l : Level) : l.operands.order ≤ 7 := by
  cases l <;> decide

theorem ExprText.toFactor {own : Tier} {fs : List Form} {e : Expr} (text : ExprText own fs e)
    (tight : 7 ≤ own.order) : ExprText .factor fs e := by
  cases own with
  | level l => cases l <;> simp [Tier.order, Level.rank] at tight
  | unary => simp [Tier.order] at tight
  | factor => exact text
  | parenthesized => exact .parenthesized text
  | callee =>
    cases text with
    | calledName text => exact .named text
    | called text => exact .parenthesized text

/-- An expression is one of every looser kind. -/
theorem ExprText.loosen {own place : Tier} {fs : List Form} {e : Expr} (text : ExprText own fs e)
    (looser : place.order ≤ own.order) (operand : place.order ≤ 7) : ExprText place fs e := by
  -- From the factor on to looser places, each of which takes the next tighter one as an operand.
  induction distance : 7 - place.order generalizing place with
  | zero =>
    cases place with
    | level l => cases l <;> cases distance
    | unary => cases distance
    | factor => exact text.toFactor looser
    | callee | parenthesized => exact absurd operand (by decide)
  | succ n ih =>
    cases place with
    | level l =>
      obtain same | tighter := Nat.eq_or_lt_of_le looser
      · rwa [Tier.eq_level_of_order same.symm] at text
      · have order : l.operands.order = (Tier.level l).order + 1 := l.operands_order
        exact .operand (ih (by omega) l.operands_order_le (by omega))
    | unary =>
      obtain same | tighter := Nat.eq_or_lt_of_le looser
      · rwa [Tier.eq_unary_of_order same.symm] at text
      · exact .factor (text.toFactor tighter)
    | factor => exact text.toFactor looser
    | callee | parenthesized => exact absurd operand (by decide)

theorem ExprText.loosest {own : Tier} {fs : List Form} {e : Expr} (text : ExprText own fs e) :
    ExprText (.level .or) fs e := by
  apply text.loosen _ (by decide)
  cases own with
  | level l => cases l <;> decide
  | unary | factor | callee | parenthesized => decide

/-- A tree whose place asks for more holds together in parentheses. -/
theorem ExprText.printed_operand {place : Tier} {e : Expr}
    (text : ExprText e.tier e.printed e.bare) (operand : place.order ≤ 7) :
    ExprText place (parenthesizedUnless (e.fits place) e.printed) e.bare := by
  have notCallee : place ≠ .callee := by
    rintro rfl
    exact absurd operand (by decide)
  rw [Expr.fits_eq_decide notCallee]
  unfold parenthesizedUnless
  split
  next holds => exact text.loosen (by simpa using holds) operand
  next =>
    -- In parentheses anything is a factor, and a factor is an operand everywhere.
    have factor : ExprText .factor _ e.bare := .parenthesized (.group text.loosest)
    exact factor.loosen operand operand

theorem Expr.IsTarget.text {e : Expr} (isTarget : e.IsTarget) : NameText e.printed e.bare := by
  cases isTarget with
  | name => exact .name _
  | decorated => exact .decorated _ _

theorem BinaryOp.mem_operators {op : BinaryOp} {l : Level} (level : op.level? = some l) :
    (op.symbol, op) ∈ l.operators := by
  cases op <;> cases level <;> simp [Level.operators, symbol]

theorem UnaryOp.mem_prefixes (op : UnaryOp) : (op.symbol, op) ∈ prefixes := by
  cases op <;> simp [prefixes, symbol]

/-- Every tree can be called, some of them in parentheses. -/
theorem Expr.Printable.text_callee {e : Expr} (printable : e.Printable)
    (text : ExprText e.tier e.printed e.bare) :
    ExprText .callee (parenthesizedUnless (e.fits .callee) e.printed) e.bare := by
  have inside : ExprText .callee
      (.symbol .leftParen :: (e.printed ++ [.symbol .rightParen])) e.bare :=
    .called (.group text.loosest)
  cases printable with
  | literal | unary => exact inside
  | target isTarget =>
    have target := isTarget.text
    cases isTarget <;> exact .calledName target
  | binary level => simpa [Expr.fits, level, parenthesizedUnless] using inside
  | call | bind => exact .called text

theorem printed_arguments {args : List Expr}
    (texts : ∀ e ∈ args, ExprText e.tier e.printed e.bare) :
    ∀ arg ∈ args.map fun e => (e.printed, e.bare), ExprText (.level .or) arg.1 arg.2 := by
  intro arg mem
  obtain ⟨e, listed, rfl⟩ := List.mem_map.1 mem
  exact (texts e listed).loosest

theorem Expr.Printable.text {e : Expr} (printable : e.Printable) :
    ExprText e.tier e.printed e.bare := by
  induction printable with
  | literal printable p => exact .literal _
  | target isTarget =>
    have text := isTarget.text
    cases isTarget <;> exact .named text
  | unary op printable p ih => exact .unary op.mem_prefixes (ih.printed_operand (by decide))
  | @binary op l left right level first second p ihFirst ihSecond =>
    have text := ExprText.binary (BinaryOp.mem_operators level)
      (ihFirst.printed_operand l.leading_order_le)
      (ihSecond.printed_operand l.operands_order_le)
    simpa [Expr.tier, Expr.printed, Expr.bare, level] using text
  | call called given p ihCalled ihGiven =>
    have text := ExprText.call (printed_arguments ihGiven) (called.text_callee ihCalled)
    simpa [Expr.tier, Expr.printed, Expr.printedAll_eq_map, Expr.bare, Function.comp_def] using text
  | bind target given p ihGiven =>
    have text := ExprText.bind (printed_arguments ihGiven) target.text
    simpa [Expr.tier, Expr.printed, Expr.printedAll_eq_map, Expr.bare, Function.comp_def] using text

/-! ### Statements and programs -/

theorem Assignment.Printable.text {a : Assignment} (printable : a.Printable) :
    AssignText a.printed a.bare := by
  obtain ⟨value, t?, x, p⟩ := a
  have target : TargetText (.symbol .assign :: (t?.elim [] Ty.printed ++
      [.name x, .symbol .semicolon])) t? x := by
    cases t? with
    | none => exact .existing x
    | some t => exact .declared (printable.declared t rfl).text x
  exact .assign printable.value.text.loosest target

theorem Iterator.Printable.text {iter : Iterator} (printable : iter.Printable) :
    IteratorText iter.printed iter.bare := by
  cases printable with
  | assign printable => exact .assign printable.text
  | existing isName p => exact .existing .name

theorem Phrase.Printable.text {phrase : Phrase} (printable : phrase.Printable) :
    StmtText phrase.printed phrase.bare := by
  induction printable with
  | assign printable => exact .assign printable.text
  | run printable p => exact .run printable.text.loosest
  | giveBack printable p => exact .giveBack printable.text.loosest
  | branch condition block branches p ihBlock ihBranches =>
    exact .branch condition.text.loosest ihBlock ihBranches
  | whileLoop condition block p ihBlock => exact .whileLoop condition.text.loosest ihBlock
  | forLoop header condition block callee p ihBlock =>
    exact .forLoop header.text condition.text.loosest ihBlock (callee.text_callee callee.text)
  | nothing => exact .nothing
  | elif condition block branches p ihBlock ihBranches =>
    exact .elif condition.text.loosest ihBlock ihBranches
  | otherwise block p ihBlock => exact .otherwise ihBlock
  | @block body statements ih =>
    have texts : ∀ part ∈ body.map fun s => (s.printed, s.bare),
        StmtText part.1 (.statement part.2) := by
      intro part mem
      obtain ⟨s, listed, rfl⟩ := List.mem_map.1 mem
      exact ih s listed
    have text := StmtText.block texts
    simpa [Phrase.printed, Phrase.bare, inBraces, Stmt.printedAll_eq_map, Function.comp_def]
      using text

theorem Param.Printable.text {param : Param} (printable : param.Printable) :
    ParameterText param.printed param :=
  .parameter printable.type.text printable.held param.name

theorem Function.Printable.text {f : Function} (printable : f.Printable) :
    FunctionText f.printed f.bare := by
  have parameters : ParametersText
      (if f.params = [] then []
        else .symbol .signature :: commaSeparated (f.params.map Param.printed)) f.params := by
    split
    next none =>
      rw [none]
      exact .absent
    next =>
      have texts : ∀ part ∈ f.params.map fun param => (param.printed, param),
          ParameterText part.1 part.2 := by
        intro part mem
        obtain ⟨param, listed, rfl⟩ := List.mem_map.1 mem
        exact (printable.params param listed).text
      simpa [Function.comp_def] using ParametersText.listed texts
  exact .function printable.ret.text f.name parameters printable.body.text

theorem Program.Printable.text {p : Program} (printable : p.Printable) :
    ProgramText (p.printed ++ [.finish]) p.bare := by
  have texts : ∀ part ∈ p.map fun f => (f.printed, f.bare), FunctionText part.1 part.2 := by
    intro part mem
    obtain ⟨f, listed, rfl⟩ := List.mem_map.1 mem
    exact (printable f listed).text
  have text := ProgramText.program texts
  simpa [Program.printed, Program.bare, List.flatMap, Function.comp_def] using text

/-! ## What is printed can be written down -/

/-- All forms have a spelling. -/
def Writable (fs : List Form) : Prop := ∀ f ∈ fs, f.Printable

@[simp] theorem writable_nil : Writable [] := by
  simp [Writable]

@[simp] theorem writable_cons {f : Form} {fs : List Form} :
    Writable (f :: fs) ↔ f.Printable ∧ Writable fs := by
  simp [Writable]

@[simp] theorem writable_append {fs gs : List Form} :
    Writable (fs ++ gs) ↔ Writable fs ∧ Writable gs := by
  simp only [Writable, List.forall_mem_append]

@[simp] theorem printable_symbol (s : Symbol) : (Form.symbol s).Printable := .symbol s

@[simp] theorem printable_keyword (k : Keyword) : (Form.keyword k).Printable := .keyword k

theorem writable_flatten {stretches : List (List Form)} (all : ∀ fs ∈ stretches, Writable fs) :
    Writable stretches.flatten := by
  intro f mem
  obtain ⟨fs, listed, inside⟩ := List.mem_flatten.1 mem
  exact all fs listed f inside

theorem writable_commaSeparated {stretches : List (List Form)}
    (all : ∀ fs ∈ stretches, Writable fs) : Writable (commaSeparated stretches) := by
  induction stretches with
  | nil => simp
  | cons fs further ih =>
    obtain ⟨first, others⟩ := List.forall_mem_cons.1 all
    by_cases last : further = []
    · simpa [last] using first
    · rw [commaSeparated_cons fs last]
      simp [first, ih others]

@[simp] theorem writable_parenthesizedUnless {holds : Bool} {fs : List Form} :
    Writable (parenthesizedUnless holds fs) ↔ Writable fs := by
  cases holds <;> simp [parenthesizedUnless]

theorem Ty.Printable.writable {t : Ty} (printable : t.Printable) : Writable t.printed := by
  induction printable with
  | base b => simp [Ty.printed]
  | mutable held => simp [Ty.printed]
  | func returned taken held ihRet ihParams =>
    have params := writable_commaSeparated (List.forall_mem_map.2 ihParams)
    simp [Ty.printed, Ty.printedAll_eq_map, ihRet, params]

theorem Expr.IsTarget.writable {e : Expr} (isTarget : e.IsTarget) : Writable e.printed := by
  cases isTarget with
  | name isName => simpa [Expr.printed] using Form.Printable.name isName
  | decorated isName isName' =>
    simpa [Expr.printed, BinaryOp.level?] using
      And.intro (Form.Printable.name isName) (Form.Printable.name isName')

theorem Expr.Printable.writable {e : Expr} (printable : e.Printable) : Writable e.printed := by
  induction printable with
  | literal printable => simpa [Expr.printed] using Form.Printable.literal printable
  | target isTarget => exact isTarget.writable
  | unary op printable p ih => simpa [Expr.printed] using ih
  | binary level first second p ihFirst ihSecond => simp [Expr.printed, level, ihFirst, ihSecond]
  | call called given p ihCalled ihGiven =>
    have args := writable_commaSeparated (List.forall_mem_map.2 ihGiven)
    simp [Expr.printed, Expr.printedAll_eq_map, args, ihCalled]
  | bind target given p ihGiven =>
    have args := writable_commaSeparated (List.forall_mem_map.2 ihGiven)
    simp [Expr.printed, Expr.printedAll_eq_map, args, target.writable]

theorem Assignment.Printable.writable {a : Assignment} (printable : a.Printable) :
    Writable a.printed := by
  have type : Writable (a.declared?.elim [] Ty.printed) := by
    cases declared : a.declared? with
    | none => simp
    | some t => exact (printable.declared t declared).writable
  simpa [Assignment.printed, type, printable.value.writable] using
    Form.Printable.name printable.name

theorem Iterator.Printable.writable {iter : Iterator} (printable : iter.Printable) :
    Writable iter.printed := by
  cases printable with
  | assign printable => exact printable.writable
  | existing isName => simpa [Iterator.printed] using Form.Printable.name isName

theorem Phrase.Printable.writable {phrase : Phrase} (printable : phrase.Printable) :
    Writable phrase.printed := by
  induction printable with
  | assign printable => exact printable.writable
  | run printable | giveBack printable =>
    simp [Phrase.printed, Stmt.printed, printable.writable]
  | branch condition block branches p ihBlock ihBranches =>
    simp_all [Phrase.printed, Stmt.printed, condition.writable]
  | whileLoop condition block p ihBlock =>
    simp_all [Phrase.printed, Stmt.printed, condition.writable]
  | forLoop header condition block callee p ihBlock =>
    simp_all [Phrase.printed, Stmt.printed, header.writable, condition.writable, callee.writable]
  | nothing => simp [Phrase.printed, Otherwise.printed]
  | elif condition block branches p ihBlock ihBranches =>
    simp_all [Phrase.printed, Otherwise.printed, condition.writable]
  | otherwise block p ihBlock => simp_all [Phrase.printed, Otherwise.printed]
  | block statements ih =>
    have body := writable_flatten (List.forall_mem_map.2 ih)
    simpa [Phrase.printed, inBraces, Stmt.printedAll_eq_map] using body

theorem Function.Printable.writable {f : Function} (printable : f.Printable) :
    Writable f.printed := by
  have params : Writable (commaSeparated (f.params.map Param.printed)) := by
    apply writable_commaSeparated
    rw [List.forall_mem_map]
    intro param mem
    have paramPrintable := printable.params param mem
    simpa [Param.printed, paramPrintable.type.writable] using
      Form.Printable.name paramPrintable.name
  have body : Writable (inBraces (Stmt.printedAll f.body)) := printable.body.writable
  have name := Form.Printable.name printable.name
  unfold Function.printed
  split <;> simp [printable.ret.writable, name, params, body]

theorem Program.Printable.writable {p : Program} (printable : p.Printable) :
    Writable p.printed := by
  intro form mem
  obtain ⟨f, listed, inside⟩ := List.mem_flatMap.1 mem
  exact (printable f listed).writable form inside

/-! ## Parsing what is printed -/

/-- The text of a program tree that the parser can build is parsed to the same tree, up to
positions, without a warning. -/
theorem parse_text_of_program {p : Program} (printable : p.Printable) :
    ∃ q, parseProgram p.text = .ok (q, []) ∧ q.bare = p.bare := by
  obtain ⟨scanned, read, code, silent⟩ := tokenize_spaced printable.writable
  have derives : ProgramText (forms (codeTokens scanned)) p.bare := by
    rw [code]
    exact printable.text
  obtain ⟨q, parsed, same⟩ := parses_of_derives derives
  refine ⟨q, ?_, same⟩
  rw [parseProgram, parseText, Program.text, read]
  simp only [parsed, silent]
  rfl

/-- A program with every kind of parentheses in its text. -/
def bindingProgram : Program :=
  let product : Expr := .binary .mul
    (.binary .sub (.name "x" .start)
      (.binary .sub (.literal (.int 1) .start) (.literal (.int 2) .start) .start) .start)
    (.unary .negate (.name "x" .start) .start) .start
  let decorated : Expr := .binary .decorate (.name "g" .start) (.name "h" .start) .start
  [⟨"f", .base .int false, [⟨"x", .base .int false⟩],
    [.assign ⟨product, some (.base .int true), "y", .start⟩,
     .run (.call (.bind decorated [.name "y" .start] .start) [.literal (.string "a\n") .start]
       .start) .start,
     .giveBack (.name "y" .start) .start], .start⟩]

theorem bindingProgram_parses_again :
    bindingProgram.text = "int f :: int x \x7b ( x - ( 1 - 2 ) ) * - x => mut int y ; " ++
      "( \"a\\n\" ) -> ( y ) ->> g @ h ; ret y ; \x7d" ∧
    bindingProgram.Printable ∧
      ∃ q, parseProgram bindingProgram.text = .ok (q, []) ∧ q.bare = bindingProgram.bare := by
  have name {x : String} (isName : IsName x) : (Expr.name x .start).Printable :=
    .target (.name isName .start)
  have int {n : Int64} (natural : 0 ≤ n) : (Expr.literal (.int n) .start).Printable :=
    .literal (.int natural) .start
  have x := name (show IsName "x" by decide)
  have y := name (show IsName "y" by decide)
  have printable : bindingProgram.Printable := by
    intro f mem
    obtain rfl := List.mem_singleton.1 mem
    refine ⟨by decide, .base .int, ?_, .block ?_⟩
    · exact List.forall_mem_singleton.2 ⟨.base .int, rfl, by decide⟩
    · simp only [List.forall_mem_cons, List.not_mem_nil, false_implies, implies_true, and_true]
      refine ⟨.assign ⟨?_, ?_, by decide⟩, .run ?_ .start, .giveBack y .start⟩
      · exact .binary rfl
          (.binary rfl x (.binary rfl (int (by decide)) (int (by decide)) .start) .start)
          (.unary .negate x .start) .start
      · rintro _ ⟨⟩
        exact .mutable (by decide)
      · have decorated := Expr.IsTarget.decorated (show IsName "g" by decide)
          (show IsName "h" by decide) .start .start .start
        have bound := Expr.Printable.bind decorated (List.forall_mem_singleton.2 y) .start
        have text := Expr.Printable.literal (.string "a\n") .start
        exact .call bound (List.forall_mem_singleton.2 text) .start
  exact ⟨rfl, printable, parse_text_of_program printable⟩

end Rightflow
