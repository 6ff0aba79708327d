import Rightflow.Proofs.LocatedParsing
import Rightflow.Proofs.ParserPositions

/-!
# Trees in the order of their source

`Outline` is what a tree looks like to someone who only sees where its nodes stand: each of them
before its parts, the parts as the text has them, arguments before what they are given to.  An
outline is `Ordered` if no part stands before its node and everything in a part stands before
everything in the parts behind it.

Tokens stand one behind the other, and the text of a node is a stretch of them that the texts of its
parts are cut from (`Along`).  So the outlines of the trees that are read from a text are ordered:
`parsed_trees_follow_their_source`.
-/

namespace Rightflow

/-! ## Outlines -/

/-- Where a node stands, and its parts in the order of the text. -/
inductive Outline where
  | node (position : Position) (parts : List Outline)

/-- No further on in the reading order. -/
def Position.AtOrBefore (p q : Position) : Prop := p = q ∨ p.Before q

namespace Outline

def position : Outline → Position
  | .node p _ => p

mutual

/-- The positions of all nodes, each one before those of its parts. -/
def visit : Outline → List Position
  | .node p parts => p :: visitAll parts

def visitAll : List Outline → List Position
  | [] => []
  | o :: os => o.visit ++ visitAll os

end

@[simp] theorem visitAll_eq_flatMap (os : List Outline) : visitAll os = os.flatMap visit := by
  induction os with
  | nil => rfl
  | cons o os inductionHypothesis => rw [visitAll, inductionHypothesis, List.flatMap_cons]

@[simp] theorem visit_node (p : Position) (parts : List Outline) :
    (node p parts).visit = p :: parts.flatMap visit := by
  rw [visit, visitAll_eq_flatMap]

theorem position_mem_visit (o : Outline) : o.position ∈ o.visit := by
  cases o
  simp [position]

/-- Every node of the one tree stands before every node of the other. -/
def Apart (o o' : Outline) : Prop := ∀ p ∈ o.visit, ∀ q ∈ o'.visit, p.Before q

/-- Nodes stand no further on than what is in them, and their parts stand apart. -/
inductive Ordered : Outline → Prop where
  | node {p : Position} {parts : List Outline} (each : ∀ part ∈ parts, part.Ordered)
      (leads : ∀ part ∈ parts, ∀ q ∈ part.visit, p.AtOrBefore q) (apart : parts.Pairwise Apart) :
      Ordered (.node p parts)

theorem Ordered.leads_all {o : Outline} (ordered : o.Ordered) :
    ∀ q ∈ o.visit, o.position.AtOrBefore q := by
  cases ordered with
  | node each leads apart =>
    simp only [visit_node, List.forall_mem_cons, List.mem_flatMap]
    exact ⟨.inl rfl, fun q ⟨part, mem, inside⟩ => leads part mem q inside⟩

/-- Trees that are ordered and stand apart are visited in reading order. -/
theorem flatMap_visit_sorted {os : List Outline}
    (each : ∀ o ∈ os, o.visit.Pairwise Position.AtOrBefore) (apart : os.Pairwise Apart) :
    (os.flatMap visit).Pairwise Position.AtOrBefore := by
  induction apart with
  | nil => exact .nil
  | @cons o os before apart inductionHypothesis =>
    obtain ⟨first, others⟩ := List.forall_mem_cons.1 each
    rw [List.flatMap_cons, List.pairwise_append]
    refine ⟨first, inductionHypothesis others, fun p inFirst q inOthers => .inr ?_⟩
    obtain ⟨o', mem, inside⟩ := List.mem_flatMap.1 inOthers
    exact before o' mem p inFirst q inside

/-- An ordered tree is visited in reading order. -/
theorem Ordered.visit_sorted {o : Outline} (ordered : o.Ordered) :
    o.visit.Pairwise Position.AtOrBefore := by
  induction ordered with
  | node each leads apart inductionHypothesis =>
    rw [visit_node, List.pairwise_cons]
    refine ⟨fun q inside => ?_, flatMap_visit_sorted inductionHypothesis apart⟩
    obtain ⟨part, mem, inside⟩ := List.mem_flatMap.1 inside
    exact leads part mem q inside

end Outline

mutual

def Expr.outline : Expr → Outline
  | .literal _ p | .name _ p => .node p []
  | .unary _ operand p => .node p [operand.outline]
  | .binary _ left right p => .node p [left.outline, right.outline]
  | .call callee args p | .bind callee args p => .node p (Expr.outlines args ++ [callee.outline])

def Expr.outlines : List Expr → List Outline
  | [] => []
  | e :: es => e.outline :: Expr.outlines es

end

@[simp] theorem Expr.outlines_eq_map (es : List Expr) : Expr.outlines es = es.map Expr.outline := by
  induction es with
  | nil => rfl
  | cons e es inductionHypothesis => rw [Expr.outlines, inductionHypothesis, List.map_cons]

@[simp] theorem Expr.outline_position (e : Expr) : e.outline.position = e.position := by
  cases e <;> rfl

def Assignment.outline (a : Assignment) : Outline := .node a.position [a.value.outline]

def Iterator.outline : Iterator → Outline
  | .assign a => a.outline
  | .existing _ p => .node p []

mutual

def Stmt.outline : Stmt → Outline
  | .assign a => a.outline
  | .run e p | .giveBack e p => .node p [e.outline]
  | .branch cond body further p =>
    .node p (cond.outline :: (Stmt.outlines body ++ further.outlines))
  | .whileLoop cond body p => .node p (cond.outline :: Stmt.outlines body)
  | .forLoop iter cond body onIter p =>
    .node p (iter.outline :: cond.outline :: (Stmt.outlines body ++ [onIter.outline]))

def Stmt.outlines : Block → List Outline
  | [] => []
  | s :: body => s.outline :: Stmt.outlines body

/-- The one node of branches that are there. -/
def Otherwise.outlines : Otherwise → List Outline
  | .nothing => []
  | .elif cond body further p =>
    [.node p (cond.outline :: (Stmt.outlines body ++ further.outlines))]
  | .block body p => [.node p (Stmt.outlines body)]

end

@[simp] theorem Stmt.outlines_eq_map (body : Block) :
    Stmt.outlines body = body.map Stmt.outline := by
  induction body with
  | nil => rfl
  | cons s body inductionHypothesis => rw [Stmt.outlines, inductionHypothesis, List.map_cons]

def Function.outline (f : Function) : Outline := .node f.position (Stmt.outlines f.body)

/-- The nodes of a phrase that no other node of it holds. -/
def Phrase.outlines : Phrase → List Outline
  | .statement s => [s.outline]
  | .otherwise o => o.outlines
  | .block body => body.map Stmt.outline

/-! ## Outlines along a stretch of tokens -/

/-- Tokens that stand one behind the other. -/
def Increasing (tokens : List Token) : Prop :=
  tokens.Pairwise fun t u => t.position.Before u.position

/-- Every node stands at one of the tokens.  If these stand one behind the other, the trees are
ordered and stand apart. -/
structure Along (tokens : List Token) (os : List Outline) : Prop where
  within : ∀ o ∈ os, ∀ p ∈ o.visit, ∃ t ∈ tokens, t.position = p
  ordered : Increasing tokens → ∀ o ∈ os, o.Ordered
  apart : Increasing tokens → os.Pairwise Outline.Apart

namespace Along

variable {tokens further : List Token} {os os' : List Outline}

theorem nil (tokens : List Token) : Along tokens [] := ⟨by simp, by simp, by simp⟩

theorem widen (along : Along tokens os) (sub : tokens.Sublist further) : Along further os where
  within o mem p inside := by
    obtain ⟨t, among, stands⟩ := along.within o mem p inside
    exact ⟨t, sub.subset among, stands⟩
  ordered increasing := along.ordered (increasing.sublist sub)
  apart increasing := along.apart (increasing.sublist sub)

theorem cons (along : Along tokens os) (t : Token) : Along (t :: tokens) os :=
  along.widen (List.sublist_cons_self t tokens)

theorem append_tokens (along : Along tokens os) (further : List Token) :
    Along (tokens ++ further) os :=
  along.widen (List.sublist_append_left tokens further)

theorem append (first : Along tokens os) (second : Along further os') :
    Along (tokens ++ further) (os ++ os') where
  within o mem := by
    obtain mem | mem := List.mem_append.1 mem
    · exact (first.append_tokens further).within o mem
    · exact (second.widen (List.sublist_append_right tokens further)).within o mem
  ordered increasing o mem := by
    obtain ⟨before, behind, -⟩ := List.pairwise_append.1 increasing
    obtain mem | mem := List.mem_append.1 mem
    · exact first.ordered before o mem
    · exact second.ordered behind o mem
  apart increasing := by
    obtain ⟨before, behind, across⟩ := List.pairwise_append.1 increasing
    refine List.pairwise_append.2 ⟨first.apart before, second.apart behind, ?_⟩
    intro o mem o' mem' p inside q inside'
    obtain ⟨t, among, rfl⟩ := first.within o mem p inside
    obtain ⟨u, among', rfl⟩ := second.within o' mem' q inside'
    exact across t among u among'

/-- Trees that are read from stretches of tokens, one behind the other. -/
theorem flatten {α : Type} {outline : α → Outline} {parts : List (List Token × α)}
    (each : ∀ part ∈ parts, Along part.1 [outline part.2]) :
    Along (parts.map (·.1)).flatten (parts.map fun part => outline part.2) := by
  induction parts with
  | nil => exact nil _
  | cons part parts inductionHypothesis =>
    obtain ⟨first, others⟩ := List.forall_mem_cons.1 each
    exact first.append (inductionHypothesis others)

/-- A node at one of the tokens, before everything that is in it. -/
theorem node {p : Position} (parts : Along tokens os) (stands : ∃ t ∈ tokens, t.position = p)
    (leads : Increasing tokens → ∀ o ∈ os, ∀ q ∈ o.visit, p.AtOrBefore q) :
    Along tokens [.node p os] where
  within := by
    simp only [List.mem_singleton, forall_eq, Outline.visit_node, List.forall_mem_cons,
      List.mem_flatMap]
    exact ⟨stands, fun q ⟨o, mem, inside⟩ => parts.within o mem q inside⟩
  ordered increasing := by
    simp only [List.mem_singleton, forall_eq]
    exact .node (parts.ordered increasing) (leads increasing) (parts.apart increasing)
  apart _ := List.pairwise_singleton _ _

/-- A node that stands at the first of the tokens. -/
theorem atFirst (nonempty : tokens ≠ []) (parts : Along tokens os) :
    Along tokens [.node (firstPosition tokens) os] := by
  obtain ⟨t, rest, rfl⟩ := List.exists_cons_of_ne_nil nonempty
  refine parts.node ⟨t, List.mem_cons_self, rfl⟩ fun increasing o mem q inside => ?_
  obtain ⟨u, among, rfl⟩ := parts.within o mem q inside
  obtain rfl | among := List.mem_cons.1 among
  · exact .inl rfl
  · exact .inr ((List.pairwise_cons.1 increasing).1 u among)

theorem leaf (t : Token) : Along [t] [.node t.position []] := atFirst (by simp) (nil [t])

/-- A node that stands where the first of its parts does. -/
theorem atPart {o : Outline} (parts : Along tokens (o :: os)) :
    Along tokens [.node o.position (o :: os)] := by
  have inside := o.position_mem_visit
  refine parts.node (parts.within o List.mem_cons_self _ inside) fun increasing => ?_
  -- The first part leads everything in it and stands apart from the other ones.
  refine List.forall_mem_cons.2 ⟨?_, fun o' mem q inside' => .inr ?_⟩
  · exact (parts.ordered increasing o List.mem_cons_self).leads_all
  · exact (List.pairwise_cons.1 (parts.apart increasing)).1 o' mem _ inside q inside'

end Along

/-! ## Expressions -/

theorem NameAt.along {ts : List Token} {e : Expr} (located : NameAt ts e) :
    Along ts [e.outline] := by
  cases located with
  | @name t x spelled =>
    rw [leadPosition_name spelled]
    exact .leaf t
  | @decorated t a u x y left decorates right =>
    rw [leadPosition_name left, leadPosition_name left, leadPosition_name right]
    exact ((Along.leaf t).append ((Along.leaf u).cons a)).atPart

/-- A list in parentheses that is given to something. -/
theorem arguments_along {o c b : Token} {args : List (List Token × Expr)} {ts us : List Token}
    {callee : Expr} (given : ∀ arg ∈ args, ExprAt (.level .or) arg.1 arg.2)
    (each : ∀ arg ∈ args, Along arg.1 [arg.2.outline])
    (between : CommasBetween (args.map (·.1)) ts) (closes : c.form = .symbol .rightParen)
    (gives : b.form.givesList = true) (target : Along us [callee.outline]) :
    Along (o :: (ts ++ c :: b :: us))
      [.node (leadPosition (o :: (ts ++ c :: b :: us)))
        (Expr.outlines (args.map (·.2)) ++ [callee.outline])] := by
  rw [leadPosition_list (arguments_balanced given between) closes gives, Expr.outlines_eq_map,
    List.map_map]
  have arguments := (Along.flatten each).widen between.flatten_sublist
  exact .atFirst (by simp) ((arguments.append ((target.cons b).cons c)).cons o)

/-- The nodes of an expression lie along its text. -/
theorem ExprAt.along {tier : Tier} {ts : List Token} {e : Expr} (located : ExprAt tier ts e) :
    Along ts [e.outline] := by
  induction located with
  | operand text ih | factor text ih | parenthesized text ih | called text ih => exact ih
  | @binary l s op t ts us left right operator spelled first second begins ihFirst ihSecond =>
    rw [← begins, ← left.outline_position]
    exact (ihFirst.append (ihSecond.cons t)).atPart
  | @unary s op t ts e operator spelled text ih =>
    rw [leadPosition_unary operator spelled]
    exact .atFirst (by simp) (ih.cons t)
  | @literal t value spelled =>
    rw [leadPosition_literal spelled]
    exact .leaf t
  | named text | calledName text => exact text.along
  | @group o c ts e opens text closes ih => exact (ih.append_tokens [c]).cons o
  | bind opens given between closes binds text ih =>
    exact arguments_along given ih between closes (by rw [binds]; rfl) text.along
  | call opens given between closes calls text ihGiven ih =>
    exact arguments_along given ihGiven between closes (by rw [calls]; rfl) ih

/-! ## Statements -/

theorem ConditionAt.along {ts : List Token} {e : Expr} (located : ConditionAt ts e) :
    Along ts [e.outline] := by
  cases located with
  | @parentheses o c ts e opens text closes => exact (text.along.append_tokens [c]).cons o

theorem AssignAt.along {ts : List Token} {a : Assignment} (located : AssignAt ts a) :
    Along ts [a.outline] := by
  cases located with
  | @assign ts us e t? x value target =>
    exact .atFirst (List.append_ne_nil_of_left_ne_nil value.ne_nil us)
      (value.along.append_tokens us)

theorem IteratorAt.along {ts : List Token} {iter : Iterator} (located : IteratorAt ts iter) :
    Along ts [iter.outline] := by
  cases located with
  | assign text => exact text.along
  | @existing s ts x p text ends =>
    rw [text.lead [s] (by simp [ends, Form.givesList])]
    exact text.along.append_tokens [s]

/-- A keyword, a condition, a block and the branches behind it. -/
theorem conditional_along {k : Token} {cs bs os : List Token} {cond : Expr} {body : Block}
    {further : Otherwise} (condition : ConditionAt cs cond)
    (block : Along bs (body.map Stmt.outline)) (branches : Along os further.outlines) :
    Along (k :: (cs ++ (bs ++ os)))
      [.node (firstPosition (k :: (cs ++ (bs ++ os))))
        (cond.outline :: (Stmt.outlines body ++ further.outlines))] := by
  rw [Stmt.outlines_eq_map]
  exact .atFirst (by simp) ((condition.along.append (block.append branches)).cons k)

/-- The nodes of a phrase lie along its text. -/
theorem StmtAt.along {ts : List Token} {phrase : Phrase} (located : StmtAt ts phrase) :
    Along ts phrase.outlines := by
  induction located with
  | assign text => exact text.along
  | @run s ts e text ends =>
    exact .atFirst (by simp) (text.along.append_tokens [s])
  | @giveBack k s ts e keyword text ends =>
    exact .atFirst (by simp) ((text.along.append_tokens [s]).cons k)
  | branch keyword condition block branches ihBlock ihBranches =>
    exact conditional_along condition ihBlock ihBranches
  | @whileLoop k cs bs cond body keyword condition block ihBlock =>
    have parts := (condition.along.append ihBlock).cons k
    simpa [Phrase.outlines, Stmt.outline] using parts.atFirst (by simp)
  | @forLoop k o c a s hs cs bs us iter cond onIter body keyword opens header condition closes block
      calls callee ends ihBlock =>
    have last := (callee.along.append_tokens [s]).cons a
    have inner := condition.along.append ((ihBlock.append last).cons c)
    have parts := ((header.along.append inner).cons o).cons k
    simpa [Phrase.outlines, Stmt.outline] using parts.atFirst (by simp)
  | nothing => exact .nil []
  | elif keyword condition block branches ihBlock ihBranches =>
    exact conditional_along condition ihBlock ihBranches
  | @otherwise k bs body keyword block ihBlock =>
    simpa [Phrase.outlines, Otherwise.outlines] using (ihBlock.cons k).atFirst (by simp)
  | @block o c parts opens statements closes ih =>
    have body := ((Along.flatten ih).append_tokens [c]).cons o
    simpa [Phrase.outlines, Function.comp_def] using body

/-! ## Programs -/

theorem FunctionAt.along {ts : List Token} {f : Function} (located : FunctionAt ts f) :
    Along ts [f.outline] := by
  cases located with
  | @function n ts ps bs ret name params body returned named parameters block =>
    have inner := (block.along.widen (List.sublist_append_right ps bs)).cons n
    have parts := inner.widen (List.sublist_append_right ts (n :: (ps ++ bs)))
    simpa [Function.outline, Phrase.outlines] using parts.atFirst (by simp)

/-- The nodes of a program lie along its text. -/
theorem ProgramAt.along {ts : List Token} {p : Program} (located : ProgramAt ts p) :
    Along ts (p.map Function.outline) := by
  cases located with
  | @program last parts functions ends =>
    have each : ∀ part ∈ parts, Along part.1 [part.2.outline] := fun part mem =>
      (functions part mem).along
    simpa [Function.comp_def] using (Along.flatten each).append_tokens [last]

/-! ## Texts -/

/-- The tokens of a text stand one behind the other. -/
theorem codeTokens_increasing {source : String} {scanned : List Scanned}
    (success : tokenize source = .ok scanned) : Increasing (codeTokens scanned) := by
  have increasing := ((longestMatch_tokenize source).increasing scanned success).2
  have all : Increasing (scanned.map (·.token)) := List.pairwise_map.2 increasing
  exact all.filter _

/-- Nothing stands behind the token that means the end. -/
theorem Ends.eq_nil_of_finish {last : Token} {tokens rest : List Token}
    (ends : Ends (tokens ++ last :: rest)) (closes : last.form = .finish) : rest = [] := by
  induction tokens with
  | nil =>
    cases ends with
    | finish => rfl
    | cons visible => exact absurd closes visible
  | cons t tokens inductionHypothesis =>
    generalize split : t :: tokens ++ last :: rest = all at ends
    cases ends with
    | finish => simp at split
    | cons visible further =>
      obtain ⟨rfl, rfl⟩ := List.cons.inj split
      exact inductionHypothesis further

/-- A program that is read from a text is located at the tokens of the text. -/
theorem programAt_of_parseProgram {source : String} {p : Program} {cautions : List Warning}
    (parsed : parseProgram source = .ok (p, cautions)) :
    ∃ scanned, tokenize source = .ok scanned ∧ ProgramAt (codeTokens scanned) p := by
  cases success : tokenize source with
  | error e => simp [parseProgram, parseText, success] at parsed
  | ok scanned =>
    refine ⟨scanned, rfl, ?_⟩
    rw [parseProgram, parseText_of_tokenize _ success] at parsed
    have read : Parser.result Parser.program (codeTokens scanned) = .ok p := by
      cases result : Parser.result Parser.program (codeTokens scanned) with
      | error halt => rw [result] at parsed; cases parsed
      | ok q => rw [result] at parsed; cases parsed; rfl
    obtain ⟨rest, run⟩ := Parser.result_eq_ok.1 read
    obtain ⟨taken, split, located, -⟩ := Parser.program_takes _ _ p rest run
    cases located with
    | @program last parts functions closes =>
      -- The end stands in one place only, so that nothing is left behind it.
      have ends := codeTokens_end success
      rw [split, List.append_assoc, List.singleton_append] at ends
      rw [split, ends.eq_nil_of_finish closes, List.append_nil]
      exact .program functions closes

/-- A program that is read from a text is located at its tokens: functions and statements at the
first token of theirs, expressions and the names of loop variables at the first one that is not the
parenthesis of a group.  It lies there in reading order: no node stands before the node that holds
it, and everything in a part stands before everything in the parts behind it. -/
theorem parsed_trees_follow_their_source {source : String} {p : Program} {cautions : List Warning}
    (parsed : parseProgram source = .ok (p, cautions)) :
    ∃ scanned, tokenize source = .ok scanned ∧ ProgramAt (codeTokens scanned) p ∧
      (∀ f ∈ p, f.outline.Ordered) ∧ (p.map Function.outline).Pairwise Outline.Apart ∧
      ((p.map Function.outline).flatMap Outline.visit).Pairwise Position.AtOrBefore := by
  obtain ⟨scanned, success, located⟩ := programAt_of_parseProgram parsed
  have increasing := codeTokens_increasing success
  have ordered := located.along.ordered increasing
  have apart := located.along.apart increasing
  have visited := Outline.flatMap_visit_sorted (fun o mem => (ordered o mem).visit_sorted) apart
  exact ⟨scanned, success, located, List.forall_mem_map.1 ordered, apart, visited⟩

/-- A loop whose header names a variable, in parentheses. -/
def groupedHeaderSource : String := "void f\x7bfor((i);i)\x7b\x7d->g;\x7d"

/-- The header of the loop in `groupedHeaderSource`. -/
def groupedHeader : List Token :=
  [⟨.symbol .leftParen, ⟨1, 12⟩⟩, ⟨.name "i", ⟨1, 13⟩⟩, ⟨.symbol .rightParen, ⟨1, 14⟩⟩,
   ⟨.symbol .semicolon, ⟨1, 15⟩⟩]

def groupedHeaderTokens : List Token :=
  [⟨.keyword (.base .void), ⟨1, 1⟩⟩, ⟨.name "f", ⟨1, 6⟩⟩, ⟨.symbol .leftBrace, ⟨1, 7⟩⟩,
   ⟨.keyword .forLoop, ⟨1, 8⟩⟩, ⟨.symbol .leftParen, ⟨1, 11⟩⟩] ++ groupedHeader ++
  [⟨.name "i", ⟨1, 16⟩⟩, ⟨.symbol .rightParen, ⟨1, 17⟩⟩, ⟨.symbol .leftBrace, ⟨1, 18⟩⟩,
   ⟨.symbol .rightBrace, ⟨1, 19⟩⟩, ⟨.symbol .call, ⟨1, 20⟩⟩, ⟨.name "g", ⟨1, 22⟩⟩,
   ⟨.symbol .semicolon, ⟨1, 23⟩⟩, ⟨.symbol .rightBrace, ⟨1, 24⟩⟩, ⟨.finish, ⟨1, 25⟩⟩]

def groupedHeaderProgram : Program :=
  [⟨"f", .base .void false, [],
    [.forLoop (.existing "i" ⟨1, 13⟩) (.name "i" ⟨1, 16⟩) [] (.name "g" ⟨1, 22⟩) ⟨1, 8⟩], ⟨1, 1⟩⟩]

theorem groupedHeader_tokenize :
    tokenize groupedHeaderSource = .ok (groupedHeaderTokens.map (⟨·, none⟩)) := rfl

theorem groupedHeader_parse :
    parseProgram groupedHeaderSource = .ok (groupedHeaderProgram, []) := by
  rw [parseProgram, parseText_of_tokenize _ groupedHeader_tokenize]
  rfl

theorem groupedHeader_follows_its_source :
    parseProgram groupedHeaderSource = .ok (groupedHeaderProgram, []) ∧
    ∃ scanned, tokenize groupedHeaderSource = .ok scanned ∧
      ProgramAt (codeTokens scanned) groupedHeaderProgram ∧
      ((groupedHeaderProgram.map Function.outline).flatMap Outline.visit).Pairwise
        Position.AtOrBefore := by
  obtain ⟨scanned, success, located, -, -, visited⟩ :=
    parsed_trees_follow_their_source groupedHeader_parse
  exact ⟨groupedHeader_parse, scanned, success, located, visited⟩

/-- A header that names a variable stands at the name, also where it begins with a parenthesis. -/
theorem grouped_header_is_not_at_its_first_token :
    parseProgram groupedHeaderSource = .ok (groupedHeaderProgram, []) ∧
    tokenize groupedHeaderSource = .ok (groupedHeaderTokens.map (⟨·, none⟩)) ∧
    IteratorAt groupedHeader (.existing "i" ⟨1, 13⟩) ∧
    (Iterator.existing "i" ⟨1, 13⟩).outline.position ≠ firstPosition groupedHeader := by
  refine ⟨groupedHeader_parse, groupedHeader_tokenize, ?_, by decide⟩
  have name : ExprAt (.level .or) [⟨.name "i", ⟨1, 13⟩⟩] (.name "i" ⟨1, 13⟩) :=
    .ofFactor (.named (.name rfl))
  have group := ExprAt.ofFactor (.parenthesized (.group (o := ⟨.symbol .leftParen, ⟨1, 12⟩⟩) rfl
    name (c := ⟨.symbol .rightParen, ⟨1, 14⟩⟩) rfl))
  exact .existing (s := ⟨.symbol .semicolon, ⟨1, 15⟩⟩) group rfl

end Rightflow
