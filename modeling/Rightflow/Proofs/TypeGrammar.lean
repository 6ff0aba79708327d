import Rightflow.Grammar.Statement
import Rightflow.Proofs.Parsing

/-!
# What derives a type

`TypeText` is the grammar of types: `void`, a base type behind an optional `mut`, or a function
type.  The parser of types takes what derives one (`type_yields`), and it takes all of that
(`type_reads`).
-/

namespace Rightflow

/-- The forms of a type. -/
inductive TypeText : List Form → Ty → Prop where
  | void : TypeText [.keyword (.base .void)] (.base .void false)
  | base {b : Base} (held : b ≠ .void) : TypeText [.keyword (.base b)] (.base b false)
  | mutable {b : Base} (held : b ≠ .void) :
      TypeText [.keyword .mutable, .keyword (.base b)] (.base b true)
  | func {fs : List Form} {ret : Ty} {params : List (List Form × Ty)} (returned : TypeText fs ret)
      (taken : ∀ param ∈ params, TypeText param.1 param.2)
      (held : ∀ param ∈ params, param.2 ≠ .base .void false) :
      TypeText
        (.symbol .leftBracket :: (fs ++
          .symbol .signature :: (commaSeparated (params.map (·.1)) ++ [.symbol .rightBracket])))
        (.func ret (params.map (·.2)))

namespace TypeText

variable {fs : List Form} {t : Ty}

theorem ofBase (b : Base) : TypeText [.keyword (.base b)] (.base b false) := by
  by_cases held : b = .void
  · subst held
    exact .void
  · exact .base held

theorem opens (text : TypeText fs t) (rest : List Form) :
    Parser.startsType (ahead (fs ++ rest)) = true := by
  cases text <;> rfl

/-- The type of something begins otherwise than `void`. -/
theorem ahead_ne_void (text : TypeText fs t) (held : t ≠ .base .void false) (rest : List Form) :
    ahead (fs ++ rest) ≠ .keyword (.base .void) := by
  cases text with
  | void => exact absurd rfl held
  | base held => simpa using held
  | mutable | func => simp

/-- Only the keyword derives `void`. -/
theorem of_void (text : TypeText fs (.base .void false)) : fs = [.keyword (.base .void)] := by
  cases text with
  | void => rfl
  | base held => exact absurd rfl held

end TypeText

/-- The forms of a type other than `void`, the type of nothing. -/
def ParamText (fs : List Form) (t : Ty) : Prop := TypeText fs t ∧ t ≠ .base .void false

namespace Parser

theorem baseOf?_eq_some {f : Form} {b : Base} : baseOf? f = some b ↔ f = .keyword (.base b) := by
  unfold baseOf?
  split <;> simp_all

/-! ## Soundness -/

theorem mutableBase_yields (tokens : List Token) :
    Yields mutableBase tokens fun fs t => TypeText (.keyword .mutable :: fs) t := by
  apply Yields.next
  intro t rest _
  split
  next => exact .unexpected t _
  next => exact .unexpected t _
  next b notVoid base =>
    rw [baseOf?_eq_some.1 base]
    exact .pure (.mutable notVoid)

theorem plainBase_yields (tokens : List Token) : Yields plainBase tokens TypeText := by
  apply Yields.next
  intro t rest _
  split
  next b base =>
    rw [baseOf?_eq_some.1 base]
    exact .pure (.ofBase b)
  next => exact .unexpected t _

/-- What the parsers of types with one bound accept. -/
structure TypesYield (n : Nat) : Prop where
  type : ∀ tokens, Yields (type n) tokens TypeText
  signature : ∀ tokens, Yields (signature n) tokens fun fs s => TypeText fs s.toTy
  paramType : ∀ tokens, Yields (paramType n) tokens ParamText

theorem type_succ_yields {n : Nat} (ih : TypesYield n) (tokens : List Token) :
    Yields (type (n + 1)) tokens TypeText := by
  apply Yields.peek
  split
  next =>
    apply (ih.signature tokens).bind
    intro s fs _ text
    exact .pure (by simpa using text)
  next mutable =>
    apply Yields.next
    intro t rest front
    have spelled : t.form = .keyword .mutable := by simpa [front] using mutable
    simpa only [spelled] using mutableBase_yields rest
  next => exact plainBase_yields tokens

theorem signature_succ_yields {n : Nat} (ih : TypesYield n) (tokens : List Token) :
    Yields (signature (n + 1)) tokens fun fs s => TypeText fs s.toTy := by
  apply Yields.expect
  intro _ rest
  apply (ih.type rest).bind
  intro ret fs rest' returned
  apply Yields.expect
  intro _ rest''
  apply (list_yields id n ih.paramType).bind
  rintro params gs _ ⟨parts, derived, rfl, seen⟩
  obtain rfl : params = parts.map (·.2) := by simpa using seen
  exact .pure (by
    simpa [Signature.toTy] using TypeText.func returned (fun part mem => (derived part mem).1)
      fun part mem => (derived part mem).2)

theorem paramType_succ_yields {n : Nat} (ih : TypesYield n) (tokens : List Token) :
    Yields (paramType (n + 1)) tokens ParamText := by
  apply Yields.peekToken?
  have anyType := ih.type tokens
  cases tokens with
  | nil =>
    apply anyType.mono
    rintro fs t ⟨rest, split⟩ text
    refine ⟨text, ?_⟩
    rintro rfl
    simp [text.of_void] at split
  | cons first rest =>
    change Yields (if first.form = .keyword (.base .void) then _ else _) _ _
    split
    next => exact .unexpected first _
    next notVoid =>
      apply anyType.mono
      rintro fs t ⟨left, split⟩ text
      refine ⟨text, ?_⟩
      rintro rfl
      simp [text.of_void] at split
      exact notVoid split.1.symm

/-- Every type that a parser of types answers is derived by the forms that it takes. -/
theorem types_yield (n : Nat) : TypesYield n := by
  induction n with
  | zero => exact ⟨fun _ => .exhausted, fun _ => .exhausted, fun _ => .exhausted⟩
  | succ n ih => exact ⟨type_succ_yields ih, signature_succ_yields ih, paramType_succ_yields ih⟩

/-! ## Completeness -/

theorem plainBase_reads (b : Base) (rest : List Form) :
    Reads plainBase [.keyword (.base b)] rest (· = .base b false) := by
  apply Reads.next
  intro t spelled
  simp only [baseOf?_eq_some.2 spelled]
  exact .pure rfl

theorem mutableBase_reads {b : Base} (held : b ≠ .void) (rest : List Form) :
    Reads mutableBase [.keyword (.base b)] rest (· = .base b true) := by
  apply Reads.next
  intro t spelled
  simp only [baseOf?_eq_some.2 spelled]
  cases b with
  | void => exact absurd rfl held
  | int | flt | string | bool => exact .pure rfl

theorem paramType_reads {n : Nat} {fs rest : List Form} {t : Ty} (text : ParamText fs t)
    (reads : Reads (type n) fs rest (· = t)) : Reads (paramType (n + 1)) fs rest (· = t) := by
  apply Reads.peekToken?
  intro t? front
  cases t? with
  | none => exact reads
  | some first =>
    have notVoid : first.form ≠ .keyword (.base .void) := by
      have held := text.1.ahead_ne_void text.2 rest
      simpa [ahead, ← front] using held
    change Reads (if first.form = .keyword (.base .void) then _ else _) _ _ _
    rw [if_neg notVoid]
    exact reads

theorem signature_reads {n : Nat} {fs rest : List Form} {ret : Ty} {params : List (List Form × Ty)}
    (enough : params.length ≤ n) (taken : ∀ param ∈ params, ParamText param.1 param.2)
    (retReads : ∀ rest, Reads (type n) fs rest (· = ret))
    (paramReads : ∀ param ∈ params, ∀ rest, Reads (paramType n) param.1 rest (· = param.2)) :
    Reads (signature (n + 1))
      (.symbol .leftBracket :: (fs ++
        .symbol .signature :: (commaSeparated (params.map (·.1)) ++ [.symbol .rightBracket])))
      rest (· = ⟨ret, params.map (·.2)⟩) := by
  apply Reads.expect
  intro _
  apply Reads.bind (retReads _)
  rintro _ rfl
  apply Reads.expect
  intro _
  have listReads : Reads (list (paramType n) .rightBracket n) _ rest _ := list_reads id nofun enough
    (fun param mem rest closes => by
      simpa [closes, startsType] using (taken param mem).1.opens rest)
    (fun param mem left _ => paramReads param mem left)
  apply listReads.bind_pure
  intro types seen
  simpa using seen

/-- The parser of types takes all that derives a type. -/
theorem type_reads {fs : List Form} {t : Ty} (text : TypeText fs t) {n : Nat}
    (enough : depth * fs.length ≤ n) (rest : List Form) : Reads (type n) fs rest (· = t) := by
  induction text generalizing n rest with
  | void =>
    cases n with
    | zero => simp [depth] at enough
    | succ n =>
      apply Reads.peek
      exact plainBase_reads .void rest
  | @base b held =>
    cases n with
    | zero => simp [depth] at enough
    | succ n =>
      apply Reads.peek
      exact plainBase_reads b rest
  | mutable held =>
    cases n with
    | zero => simp [depth] at enough
    | succ n =>
      apply Reads.peek
      apply Reads.next
      intro t _
      exact mutableBase_reads held rest
  | @func fs ret params returned taken held ihRet ihParams =>
    simp only [depth, List.length_cons, List.length_append, length_commaSeparated,
      List.length_map] at enough
    obtain ⟨n, rfl⟩ : ∃ m, n = m + 3 := ⟨n - 3, by omega⟩
    rw [type]
    apply Reads.peek
    apply Reads.bind_pure (P := (· = ⟨ret, params.map (·.2)⟩))
    · apply signature_reads (by omega) fun param mem => ⟨taken param mem, held param mem⟩
      · exact ihRet (by simp [depth]; omega)
      · intro param mem left
        have shorter := length_le_of_mem_flatten (List.mem_map_of_mem (f := (·.1)) mem)
        apply paramType_reads ⟨taken param mem, held param mem⟩
        exact ihParams param mem (by simp [depth]; omega) left
    · rintro _ rfl
      rfl

end Parser

end Rightflow
