import Rightflow.Proofs.StatementGrammar
import Rightflow.Source

/-!
# What derives a program

`ProgramText` is the grammar of programs: functions, and the end behind them.  The main statement
`parses_iff_derives` is that the parser of programs answers a tree exactly if the forms of the
tokens derive it, positions aside.
-/

namespace Rightflow

/-! ## The grammar -/

/-- The forms of a parameter of a function, which holds something. -/
inductive ParameterText : List Form → Param → Prop where
  | parameter {fs : List Form} {t : Ty} (text : TypeText fs t) (held : t.isVoid = false)
      (x : String) : ParameterText (fs ++ [.name x]) ⟨x, t⟩

/-- The forms between the name of a function and its block. -/
inductive ParametersText : List Form → List Param → Prop where
  | absent : ParametersText [] []
  | listed {parts : List (List Form × Param)}
      (texts : ∀ part ∈ parts, ParameterText part.1 part.2) :
      ParametersText (.symbol .signature :: commaSeparated (parts.map (·.1))) (parts.map (·.2))

/-- The forms of a function. -/
inductive FunctionText : List Form → Function → Prop where
  | function {ts ps bs : List Form} {ret : Ty} {params : List Param} {body : Block}
      (returned : TypeText ts ret) (name : String) (parameters : ParametersText ps params)
      (block : StmtText bs (.block body)) :
      FunctionText (ts ++ .name name :: (ps ++ bs)) ⟨name, ret, params, body, .start⟩

/-- The forms of a program up to the end of its text. -/
inductive ProgramText : List Form → Program → Prop where
  | program {parts : List (List Form × Function)}
      (functions : ∀ part ∈ parts, FunctionText part.1 part.2) :
      ProgramText ((parts.map (·.1)).flatten ++ [.finish]) (parts.map (·.2))

theorem ProgramText.exists_eq_append {fs : List Form} {p : Program} (text : ProgramText fs p) :
    ∃ gs, fs = gs ++ [.finish] := by
  cases text
  exact ⟨_, rfl⟩

theorem ParameterText.length_pos {fs : List Form} {p : Param} (text : ParameterText fs p) :
    0 < fs.length := by
  cases text with
  | parameter => simp

theorem ParameterText.opens {fs : List Form} {p : Param} (text : ParameterText fs p)
    (rest : List Form) : Parser.startsType (ahead (fs ++ rest)) = true := by
  cases text with
  | parameter text =>
    rw [List.append_assoc]
    exact text.opens _

theorem StmtText.ahead_eq_leftBrace {bs : List Form} {body : Block}
    (block : StmtText bs (.block body)) (rest : List Form) :
    ahead (bs ++ rest) = .symbol .leftBrace := by
  cases block
  rfl

theorem FunctionText.opens {fs : List Form} {f : Function} (text : FunctionText fs f)
    (rest : List Form) : Parser.startsType (ahead (fs ++ rest)) = true := by
  cases text with
  | function returned =>
    rw [List.append_assoc]
    exact returned.opens _

theorem FunctionText.length_pos {fs : List Form} {f : Function} (text : FunctionText fs f) :
    0 < fs.length := by
  cases text with
  | function =>
    simp only [List.length_append, List.length_cons]
    omega

namespace Parser

/-! ## Soundness -/

theorem param_yields (n : Nat) (tokens : List Token) : Yields (param n) tokens ParameterText := by
  apply Yields.peekPosition
  intro position
  apply ((types_yield n).type tokens).bind
  intro t fs rest text
  apply Yields.identifier
  intro x _ _
  dsimp only
  split
  next => exact .fail _ _
  next held => exact .pure (.parameter text (by simpa using held) x)

theorem params_yield (n : Nat) (tokens : List Token) :
    Yields (params n) tokens fun fs ps => ∃ parts : List (List Form × Param), parts ≠ [] ∧
      (∀ part ∈ parts, ParameterText part.1 part.2) ∧
      fs = commaSeparated (parts.map (·.1)) ∧ ps = parts.map (·.2) := by
  induction n generalizing tokens with
  | zero => exact .exhausted
  | succ n ih =>
    apply (param_yields n tokens).bind
    intro p fs rest text
    apply Yields.accept
    · intro rest
      apply (ih rest).bind
      rintro _ _ _ ⟨parts, nonempty, texts, rfl, rfl⟩
      refine .pure ⟨(fs, p) :: parts, by simp, ?_, ?_, rfl⟩
      · simpa using ⟨text, by simpa using texts⟩
      · rw [List.map_cons, commaSeparated_cons fs (by simpa using nonempty)]
        simp
    · exact .pure ⟨[(fs, p)], by simp, by simpa using text, by simp, rfl⟩

theorem paramList_yields (n : Nat) (tokens : List Token) :
    Yields (paramList n) tokens ParametersText := by
  apply Yields.accept
  · intro rest
    apply Yields.peek
    split
    next => exact .pure (.listed (List.forall_mem_nil _))
    next =>
      apply (params_yield n rest).mono
      rintro _ _ _ ⟨parts, _, texts, rfl, rfl⟩
      exact .listed texts
  · exact .pure .absent

theorem function_yields (n : Nat) (tokens : List Token) :
    Yields (function n) tokens fun fs f => FunctionText fs f.bare := by
  apply Yields.peekPosition
  intro position
  apply ((types_yield n).type tokens).bind
  intro ret ts rest returned
  apply Yields.identifier
  intro x _ rest
  apply (paramList_yields n rest).bind
  intro params ps rest parameters
  apply ((statements_yield n).block rest).bind
  intro body bs _ block
  exact .pure (by simpa using .function returned x parameters block)

theorem functions_yield (n : Nat) (tokens : List Token) :
    Yields (functions n) tokens fun fs p => ∃ parts : List (List Form × Function),
      (∀ part ∈ parts, FunctionText part.1 part.2) ∧
      fs = (parts.map (·.1)).flatten ∧ Program.bare p = parts.map (·.2) := by
  induction n generalizing tokens with
  | zero => exact .exhausted
  | succ n ih =>
    apply Yields.peek
    split
    next => exact .pure ⟨[], by simp, rfl, rfl⟩
    next =>
      apply (function_yields n tokens).bind
      intro f fs rest text
      apply (ih rest).bind
      rintro p _ _ ⟨parts, texts, rfl, seen⟩
      refine .pure ⟨(fs, f.bare) :: parts, ?_, by simp, by simpa [Program.bare] using seen⟩
      simpa using ⟨text, by simpa using texts⟩

theorem program_yields (n : Nat) (tokens : List Token) :
    Yields (program n) tokens fun fs p => ProgramText fs p.bare := by
  apply (functions_yield n tokens).bind
  rintro p _ rest ⟨parts, texts, rfl, seen⟩
  apply Yields.expect
  intro _ _
  exact .pure (by simpa [seen] using .program texts)

/-! ## Completeness -/

theorem param_reads {fs rest : List Form} {p : Param} (text : ParameterText fs p) {n : Nat}
    (enough : depth * fs.length ≤ n + 1) : Reads (param n) fs rest (· = p) := by
  cases text with
  | @parameter fs t text held x =>
    simp only [depth, List.length_append, List.length_singleton] at enough
    apply Reads.peekPosition
    intro position
    apply Reads.bind (type_reads text (by simp only [depth]; omega) _)
    rintro _ rfl
    apply Reads.identifier
    intro _
    dsimp only
    rw [if_neg (by simp [held])]
    exact .pure rfl

theorem params_read {parts : List (List Form × Param)} {rest : List Form}
    (texts : ∀ part ∈ parts, ParameterText part.1 part.2) (nonempty : parts ≠ []) {n : Nat}
    (enough : depth * (commaSeparated (parts.map (·.1))).length ≤ n)
    (ends : ahead rest ≠ .symbol .comma) :
    Reads (params n) (commaSeparated (parts.map (·.1))) rest (· = parts.map (·.2)) := by
  induction n generalizing parts with
  | zero =>
    obtain ⟨part, further, rfl⟩ := List.exists_cons_of_ne_nil nonempty
    have length := (texts part (by simp)).length_pos
    simp only [depth, length_commaSeparated, List.map_cons, List.flatten_cons,
      List.length_append] at enough
    omega
  | succ n ih =>
    obtain ⟨part, further, rfl⟩ := List.exists_cons_of_ne_nil nonempty
    obtain ⟨text, texts⟩ := List.forall_mem_cons.1 texts
    cases further with
    | nil =>
      simp only [List.map_singleton, commaSeparated_one] at enough ⊢
      rw [← List.append_nil part.1]
      apply Reads.bind (param_reads text enough)
      rintro _ rfl
      apply Reads.accept_absent
      · exact ends
      · exact .pure rfl
    | cons other others =>
      rw [List.map_cons, commaSeparated_cons _ (by simp)] at enough ⊢
      simp only [depth, List.length_append, List.length_cons] at enough
      apply Reads.bind (param_reads text (by simp only [depth]; omega))
      rintro _ rfl
      apply Reads.accept_found
      apply (ih texts (by simp) (by simp only [depth]; omega)).bind_pure
      rintro _ rfl
      rfl

theorem paramList_reads {ps rest : List Form} {params : List Param}
    (parameters : ParametersText ps params) {n : Nat} (enough : depth * ps.length ≤ n)
    (ends : ahead rest = .symbol .leftBrace) : Reads (paramList n) ps rest (· = params) := by
  cases parameters with
  | absent =>
    apply Reads.accept_absent
    · simp [ends]
    · exact .pure rfl
  | @listed parts texts =>
    apply Reads.accept_found
    apply Reads.peek
    cases parts with
    | nil =>
      rw [List.map_nil, commaSeparated_nil, List.nil_append, if_pos ends]
      exact .pure rfl
    | cons part further =>
      have opens : startsType (ahead (commaSeparated ((part :: further).map (·.1)) ++ rest)) := by
        obtain ⟨left, split⟩ := exists_commaSeparated_cons part.1 (further.map (·.1)) rest
        rw [List.map_cons, split]
        exact (texts part (by simp)).opens left
      rw [if_neg (by intro front; rw [front] at opens; exact absurd opens (by decide))]
      apply params_read texts (by simp) _ (by simp [ends])
      simp only [depth, List.length_cons] at enough ⊢
      omega

theorem function_reads {fs rest : List Form} {f : Function} (text : FunctionText fs f) {n : Nat}
    (enough : depth * fs.length ≤ n) : Reads (function n) fs rest (·.bare = f) := by
  cases text with
  | @function ts ps bs ret params body returned x parameters block =>
    simp only [depth, List.length_append, List.length_cons] at enough
    apply Reads.peekPosition
    intro position
    apply Reads.bind (type_reads returned (by simp only [depth]; omega) _)
    rintro _ rfl
    apply Reads.identifier
    intro _
    have brace := block.ahead_eq_leftBrace rest
    apply Reads.bind (paramList_reads parameters (by simp only [depth]; omega) brace)
    rintro _ rfl
    apply Reads.bind_pure (phrase_accepts block n rest (by simp only [depth]; omega))
    intro body' seen
    rw [Function.bare, seen]

theorem functions_read {parts : List (List Form × Function)} {rest : List Form}
    (texts : ∀ part ∈ parts, FunctionText part.1 part.2) {n : Nat}
    (enough : depth * (parts.map (·.1)).flatten.length < n) (ends : ahead rest = .finish) :
    Reads (functions n) (parts.map (·.1)).flatten rest
      fun p => Program.bare p = parts.map (·.2) := by
  induction parts generalizing n with
  | nil =>
    obtain ⟨n, rfl⟩ : ∃ m, n = m + 1 := ⟨n - 1, by omega⟩
    apply Reads.peek
    simp only [List.map_nil, List.flatten_nil, List.nil_append, ends]
    exact .pure rfl
  | cons part parts ih =>
    obtain ⟨text, texts⟩ := List.forall_mem_cons.1 texts
    have opens := text.opens ((parts.map (·.1)).flatten ++ rest)
    have length := text.length_pos
    simp only [depth, List.map_cons, List.flatten_cons, List.length_append] at enough
    obtain ⟨n, rfl⟩ : ∃ m, n = m + 1 := ⟨n - 1, by omega⟩
    apply Reads.peek
    simp only [List.map_cons, List.flatten_cons, List.append_assoc]
    split
    next front => exact absurd opens (by rw [front]; decide)
    next =>
      apply Reads.bind (function_reads text (by simp only [depth]; omega))
      intro f seen
      apply (ih texts (by simp only [depth]; omega)).bind_pure
      intro p seen'
      rw [Program.bare, List.map_cons, seen]
      exact congrArg _ seen'

theorem program_reads {fs rest : List Form} {p : Program} (text : ProgramText fs p) {n : Nat}
    (enough : depth * fs.length ≤ n) : Reads (program n) fs rest fun q => q.bare = p := by
  cases text with
  | program texts =>
    simp only [depth, List.length_append, List.length_singleton] at enough
    apply Reads.bind (functions_read texts (by simp only [depth]; omega) rfl)
    intro q seen
    apply Reads.expect
    intro _
    exact .pure seen

end Parser

/-! ## The parser and the grammar -/

theorem Parser.result_eq_ok {α : Type} {p : Nat → Parser α} {tokens : List Token} {a : α} :
    Parser.result p tokens = .ok a ↔
      ∃ rest, p (depth * (tokens.length + 1)) tokens = .ok a rest := by
  unfold Parser.result Parser.run EStateM.run
  cases p (depth * (tokens.length + 1)) tokens <;> simp

/-- Nothing stands behind a form that closes a list and does not occur before. -/
theorem eq_of_append_closing {body fs rest : List Form} {closing : Form}
    (single : closing ∉ body) (split : body ++ [closing] = fs ++ [closing] ++ rest) : rest = [] := by
  obtain rfl | ⟨others, last, rfl⟩ := rest.eq_nil_or_concat
  · rfl
  · rw [List.concat_eq_append, ← List.append_assoc] at split
    obtain ⟨rfl, -⟩ := List.append_inj' split rfl
    simp at single

/-- The forms of a program derive one tree only. -/
theorem ProgramText.unique {fs : List Form} {p q : Program} (first : ProgramText fs p)
    (second : ProgramText fs q) : p = q := by
  have split : forms (fs.map (⟨·, .start⟩)) = fs ++ [] := by simp [forms, Function.comp_def]
  obtain ⟨p', _, run, -, same⟩ := Parser.program_reads first (Nat.le_refl _) _ split
  obtain ⟨q', _, run', -, same'⟩ := Parser.program_reads second (Nat.le_refl _) _ split
  rw [run] at run'
  obtain ⟨rfl, -⟩ : p' = q' ∧ _ := by simpa using run'
  rw [← same, ← same']

/-- The parser of programs answers the tree that the forms of the tokens derive. -/
theorem parses_of_derives {tokens : List Token} {p : Program} (text : ProgramText (forms tokens) p) :
    ∃ q, Parser.result Parser.program tokens = .ok q ∧ q.bare = p := by
  have enough : Parser.depth * (forms tokens).length ≤ Parser.depth * (tokens.length + 1) := by
    simp only [forms, List.length_map, Parser.depth]
    omega
  obtain ⟨q, rest, run, -, same⟩ :=
    Parser.program_reads text enough tokens (List.append_nil _).symm
  exact ⟨q, Parser.result_eq_ok.2 ⟨rest, run⟩, same⟩

/-- On tokens that end where their text ends, the parser of programs answers a tree exactly if their
forms derive it, up to positions. -/
theorem parses_iff_derives {tokens : List Token} {body : List Form}
    (ends : forms tokens = body ++ [.finish]) (single : .finish ∉ body) (p : Program) :
    (∃ q, Parser.result Parser.program tokens = .ok q ∧ q.bare = p.bare) ↔
      ProgramText (forms tokens) p.bare := by
  constructor
  · rintro ⟨q, parsed, same⟩
    obtain ⟨rest, run⟩ := Parser.result_eq_ok.1 parsed
    obtain ⟨taken, split, text⟩ := Parser.program_yields _ tokens q rest run
    obtain ⟨gs, rfl⟩ := text.exists_eq_append
    have none := eq_of_append_closing single (ends ▸ split)
    rw [split, none, List.append_nil, ← same]
    exact text
  · exact parses_of_derives

/-- The tokens of `int f :: int x { ret x + 1; }`. -/
def successorTokens : List Token :=
  [⟨.keyword (.base .int), ⟨1, 1⟩⟩, ⟨.name "f", ⟨1, 5⟩⟩, ⟨.symbol .signature, ⟨1, 7⟩⟩,
   ⟨.keyword (.base .int), ⟨1, 10⟩⟩, ⟨.name "x", ⟨1, 14⟩⟩, ⟨.symbol .leftBrace, ⟨1, 16⟩⟩,
   ⟨.keyword .giveBack, ⟨1, 18⟩⟩, ⟨.name "x", ⟨1, 22⟩⟩, ⟨.symbol .plus, ⟨1, 24⟩⟩,
   ⟨.literal (.int 1), ⟨1, 26⟩⟩, ⟨.symbol .semicolon, ⟨1, 27⟩⟩, ⟨.symbol .rightBrace, ⟨1, 29⟩⟩,
   ⟨.finish, ⟨1, 30⟩⟩]

/-- The program that `successorTokens` derives. -/
def successorProgram : Program :=
  [⟨"f", .base .int false, [⟨"x", .base .int false⟩],
    [.giveBack (.binary .add (.name "x" .start) (.literal (.int 1) .start) .start) .start], .start⟩]

theorem successorTokens_parse_and_derive :
    (∃ q, Parser.result Parser.program successorTokens = .ok q ∧
      q.bare = successorProgram.bare) ∧
    ProgramText (forms successorTokens) successorProgram.bare := by
  have ends : forms successorTokens = (forms successorTokens).dropLast ++ [.finish] := rfl
  have single : .finish ∉ (forms successorTokens).dropLast := by decide
  have parsed : ∃ q, Parser.result Parser.program successorTokens = .ok q ∧
      q.bare = successorProgram.bare := ⟨_, rfl, rfl⟩
  exact ⟨parsed, (parses_iff_derives ends single successorProgram).1 parsed⟩

end Rightflow
