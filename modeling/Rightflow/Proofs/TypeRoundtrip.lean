import Rightflow.Proofs.Layout
import Rightflow.Proofs.Roundtrip

/-!
# Types as text

The text of a type is read back as the type exactly if the type is well formed
(`type_text_reads_back`): no part of it is a `void` that is mutable, and no function type in it
takes a bare `void`.  Every type has a text that consists of tokens, and on those of a type that is
not well formed the parser fails (`Parser.Rejects`), at the first part that is to blame.  The parser
answers only well-formed types, whatever it is given.
-/

namespace Rightflow

/-! ## Well-formed types -/

namespace Ty

/-- What a type is made of, the type itself included. -/
inductive Part (u : Ty) : Ty → Prop where
  | self : Part u u
  | returned {ret : Ty} {params : List Ty} (part : Part u ret) : Part u (.func ret params)
  | taken {ret t : Ty} {params : List Ty} (mem : t ∈ params) (part : Part u t) :
      Part u (.func ret params)

/-- Nothing that is mutable is `void`, and nothing that is taken is a bare `void`. -/
structure WellFormed (t : Ty) : Prop where
  held : ∀ u, Part u t → u ≠ .base .void true
  taken : ∀ ret params, Part (.func ret params) t → .base .void false ∉ params

/-- To prove something of every type, prove it of a function type from what it returns and takes. -/
@[elab_as_elim]
theorem inductionOn {motive : Ty → Prop} (t : Ty) (base : ∀ b mutable, motive (.base b mutable))
    (func : ∀ ret params, motive ret → (∀ t ∈ params, motive t) → motive (.func ret params)) :
    motive t :=
  @Ty.rec motive (fun ts => ∀ t ∈ ts, motive t) base func nofun
    (fun _ _ first further => List.forall_mem_cons.2 ⟨first, further⟩) t

theorem wellFormed_base_iff {b : Base} {mutable : Bool} :
    (base b mutable).WellFormed ↔ base b mutable ≠ .base .void true := by
  constructor
  · exact fun wellFormed => wellFormed.held _ .self
  · refine fun held => ⟨fun u part => ?_, fun ret params part => nomatch part⟩
    cases part
    exact held

theorem wellFormed_func_iff {ret : Ty} {params : List Ty} :
    (func ret params).WellFormed ↔
      ret.WellFormed ∧ (∀ t ∈ params, t.WellFormed) ∧ .base .void false ∉ params := by
  constructor
  · rintro ⟨held, taken⟩
    refine ⟨⟨fun u part => held u part.returned, fun ret params part => ?_⟩,
      fun t mem => ⟨fun u part => held u (part.taken mem), fun ret params part => ?_⟩,
      taken ret params .self⟩
    · exact taken ret params part.returned
    · exact taken ret params (part.taken mem)
  · rintro ⟨⟨heldRet, takenRet⟩, each, noVoid⟩
    constructor
    · rintro u part
      cases part with
      | self => simp
      | returned part => exact heldRet u part
      | taken mem part => exact (each _ mem).held u part
    · rintro ret' params' part
      cases part with
      | self => exact noVoid
      | returned part => exact takenRet ret' params' part
      | taken mem part => exact (each _ mem).taken ret' params' part

/-- The types that can be printed are those that are well formed. -/
theorem printable_iff_wellFormed (t : Ty) : t.Printable ↔ t.WellFormed := by
  induction t using inductionOn with
  | base b mutable =>
    rw [wellFormed_base_iff]
    constructor
    · rintro (_ | held)
      · simp
      · simpa using held
    · intro held
      cases mutable with
      | false => exact .base b
      | true => exact .mutable (by simpa using held)
  | func ret params ihRet ihParams =>
    rw [wellFormed_func_iff, ← ihRet]
    constructor
    · rintro (_ | _ | ⟨returned, taken, held⟩)
      exact ⟨returned, fun t mem => (ihParams t mem).1 (taken t mem), fun mem => held _ mem rfl⟩
    · rintro ⟨returned, taken, noVoid⟩
      refine .func returned (fun t mem => (ihParams t mem).2 (taken t mem)) ?_
      rintro t mem rfl
      exact noVoid mem

end Ty

/-- Only well-formed types are derived. -/
theorem TypeText.wellFormed {fs : List Form} {t : Ty} (text : TypeText fs t) : t.WellFormed := by
  induction text with
  | void => exact Ty.wellFormed_base_iff.2 (by simp)
  | base held => exact Ty.wellFormed_base_iff.2 (by simp)
  | mutable held => exact Ty.wellFormed_base_iff.2 (by simpa using held)
  | @func fs ret params returned taken held ihRet ihParams =>
    refine Ty.wellFormed_func_iff.2 ⟨ihRet, ?_, ?_⟩
    · exact List.forall_mem_map.2 ihParams
    · rw [List.mem_map]
      rintro ⟨param, mem, void⟩
      exact held param mem void

/-! ## What certainly fails -/

namespace Parser

variable {α β : Type}

/-- On every list of tokens that begins with the forms, the parser fails, and not for its bound. -/
def Rejects (p : Parser α) (fs : List Form) : Prop :=
  ∀ tokens, fs <+: forms tokens → ∃ e left, p tokens = .error (.fault e) left

namespace Rejects

variable {p : Parser α} {k : α → Parser β} {P : α → Prop} {f : Form} {fs gs : List Form}

theorem append (rejects : Rejects p fs) (gs : List Form) : Rejects p (fs ++ gs) :=
  fun tokens front => rejects tokens ((List.prefix_append fs gs).trans front)

theorem unexpected (t : Token) (expected : Expected) (fs : List Form) :
    Rejects (unexpected t expected : Parser α) fs := fun tokens _ => ⟨_, tokens, rfl⟩

/-- What fails is not gone on from. -/
theorem first (rejects : Rejects p fs) : Rejects (p >>= k) fs := by
  intro tokens front
  obtain ⟨e, left, run⟩ := rejects tokens front
  exact ⟨e, left, by rw [bind_run, run]⟩

theorem bind (reads : ∀ rest, Reads p fs rest P) (further : ∀ a, P a → Rejects (k a) gs) :
    Rejects (p >>= k) (fs ++ gs) := by
  rintro tokens ⟨rest, split⟩
  obtain ⟨a, left, run, split', holds⟩ :=
    reads (gs ++ rest) tokens (by rw [← split, List.append_assoc])
  obtain ⟨e, left', run'⟩ := further a holds left ⟨rest, split'.symm⟩
  exact ⟨e, left', by rw [bind_run, run]; exact run'⟩

theorem peekToken? {k : Option Token → Parser β}
    (further : ∀ t : Token, t.form = f → Rejects (k (some t)) (f :: fs)) :
    Rejects (peekToken? >>= k) (f :: fs) := by
  rintro tokens ⟨rest, split⟩
  obtain ⟨t, left, rfl, same, -⟩ := List.map_eq_cons_iff.1 split.symm
  rw [bind_run, peekToken?_run]
  exact further t same _ ⟨rest, split⟩

theorem peek {k : Form → Parser β} (further : Rejects (k f) (f :: fs)) :
    Rejects (peek >>= k) (f :: fs) := by
  rintro tokens ⟨rest, split⟩
  rw [bind_run, peek_run, ← split, List.cons_append, ahead_cons]
  exact further tokens ⟨rest, split⟩

theorem next {k : Token → Parser β} (further : ∀ t : Token, t.form = f → Rejects (k t) fs) :
    Rejects (next >>= k) (f :: fs) := by
  rintro tokens ⟨rest, split⟩
  obtain ⟨t, left, rfl, same, split'⟩ := List.map_eq_cons_iff.1 split.symm
  exact further t same left ⟨rest, split'.symm⟩

theorem expect {k : Position → Parser β} (further : ∀ position, Rejects (k position) fs) :
    Rejects (expect f >>= k) (f :: fs) := by
  rintro tokens ⟨rest, split⟩
  obtain ⟨t, left, rfl, same, split'⟩ := List.map_eq_cons_iff.1 split.symm
  rw [bind_run, expect_cons left same]
  exact further t.position left ⟨rest, split'.symm⟩

theorem accept_absent {g : Form} {k : Bool → Parser β} (absent : f ≠ g)
    (further : Rejects (k false) (f :: fs)) : Rejects (accept g >>= k) (f :: fs) := by
  rintro tokens ⟨rest, split⟩
  obtain ⟨t, left, rfl, same, -⟩ := List.map_eq_cons_iff.1 split.symm
  rw [bind_run, accept_cons, if_neg (same ▸ absent)]
  exact further _ ⟨rest, split⟩

end Rejects

/-- A list with an item that fails does so there, if those before it are read. -/
theorem items_reject {item : Parser α} {closing : Symbol} {n : Nat} {stretches : List (List Form)}
    (enough : stretches.length ≤ n)
    (each : ∀ fs ∈ stretches, (∀ rest, Reads item fs rest fun _ => True) ∨ Rejects item fs)
    (fails : ∃ fs ∈ stretches, Rejects item fs) :
    Rejects (items item closing n) (commaSeparated stretches) := by
  induction stretches generalizing n with
  | nil => simp at fails
  | cons fs further inductionHypothesis =>
    obtain ⟨n, rfl⟩ := Nat.exists_eq_add_one_of_ne_zero (Nat.ne_zero_of_lt enough)
    obtain ⟨first, others⟩ := List.forall_mem_cons.1 each
    -- The first item that fails ends the list, whatever stands behind it.
    by_cases rejects : Rejects item fs
    · obtain ⟨left, split⟩ := exists_commaSeparated_cons fs further []
      rw [← List.append_nil (commaSeparated _), split]
      exact rejects.first.append left
    · have reads := first.resolve_right rejects
      obtain ⟨gs, mem, rejects'⟩ := fails
      have behind : gs ∈ further := by
        obtain rfl | behind := List.mem_cons.1 mem
        · exact absurd rejects' rejects
        · exact behind
      rw [commaSeparated_cons fs (List.ne_nil_of_mem behind)]
      refine .bind reads fun a _ => .next fun t comma => ?_
      rw [if_pos comma]
      have rejected := inductionHypothesis (Nat.le_of_succ_le_succ enough) others
        ⟨gs, behind, rejects'⟩
      exact rejected.first

/-! ### Types -/

theorem printed_ne_nil (t : Ty) : t.printed ≠ [] := by
  cases t <;> simp [Ty.printed]

theorem ahead_printed (t : Ty) (rest : List Form) :
    startsType (ahead (t.printed ++ rest)) = true := by
  rcases t with ⟨b, _ | _⟩ | ⟨ret, params⟩ <;> rfl

/-- The type of a parameter is read or fails like any type, unless it is a bare `void`. -/
theorem paramType_rejects {n : Nat} {t : Ty} (foul : t = .base .void false ∨ ¬ t.WellFormed)
    (rejects : ¬ t.WellFormed → Rejects (type n) t.printed) :
    Rejects (paramType (n + 1)) t.printed := by
  obtain ⟨f, fs, split⟩ := List.exists_cons_of_ne_nil (printed_ne_nil t)
  rw [split] at rejects ⊢
  refine .peekToken? fun first same => ?_
  change Rejects (if first.form = .keyword (.base .void) then _ else _) _
  split
  next => exact .unexpected first _ _
  next notVoid =>
    refine rejects (foul.resolve_left ?_)
    rintro rfl
    cases split
    exact notVoid same

theorem paramType_reads_of_wellFormed {n : Nat} {t : Ty} (wellFormed : t.WellFormed)
    (held : t ≠ .base .void false) (enough : depth * t.printed.length ≤ n) (rest : List Form) :
    Reads (paramType (n + 1)) t.printed rest (· = t) := by
  have text := ((Ty.printable_iff_wellFormed t).2 wellFormed).text
  exact paramType_reads ⟨text, held⟩ (type_reads text enough rest)

/-- Parameters of which one is to blame: the first of these fails. -/
theorem paramTypes_reject {n : Nat} {params : List Ty}
    (enough : depth * (params.map Ty.printed).flatten.length + params.length ≤ n)
    (each : ∀ t ∈ params, ¬ t.WellFormed → Rejects (type n) t.printed)
    (fails : ∃ t ∈ params, t = .base .void false ∨ ¬ t.WellFormed) :
    Rejects (list (paramType (n + 1)) .rightBracket (n + 1))
      (commaSeparated (params.map Ty.printed)) := by
  have items : Rejects (items (paramType (n + 1)) .rightBracket (n + 1))
      (commaSeparated (params.map Ty.printed)) := by
    apply items_reject
    · rw [List.length_map]
      omega
    · rw [List.forall_mem_map]
      intro t mem
      by_cases foul : t = .base .void false ∨ ¬ t.WellFormed
      · exact .inr (paramType_rejects foul (each t mem))
      · obtain ⟨held, wellFormed⟩ := not_or.1 foul
        have shorter := length_le_of_mem_flatten (List.mem_map_of_mem (f := Ty.printed) mem)
        refine .inl fun rest tokens split => ?_
        obtain ⟨a, left, run, split', -⟩ := paramType_reads_of_wellFormed (not_not.1 wellFormed)
          held (n := n) (by simp only [depth] at enough ⊢; omega) rest tokens split
        exact ⟨a, left, run, split', trivial⟩
    · obtain ⟨t, mem, foul⟩ := fails
      exact ⟨t.printed, List.mem_map_of_mem mem, paramType_rejects foul (each t mem)⟩
  -- The list is not taken to be empty, as no type begins with the bracket that closes it.
  obtain ⟨t, ts, rfl⟩ := List.exists_cons_of_ne_nil (List.ne_nil_of_mem fails.choose_spec.1)
  obtain ⟨left, split⟩ := exists_commaSeparated_cons t.printed (ts.map Ty.printed) []
  obtain ⟨f, fs, opened⟩ := List.exists_cons_of_ne_nil (printed_ne_nil t)
  rw [List.append_nil, opened] at split
  rw [List.map_cons, opened, split] at items ⊢
  refine .accept_absent ?_ items
  rintro rfl
  have opens := ahead_printed t []
  rw [opened] at opens
  cases opens

theorem type_rejects {t : Ty} (foul : ¬ t.WellFormed) {n : Nat}
    (enough : depth * t.printed.length ≤ n) : Rejects (type n) t.printed := by
  -- What is returned stands first: only if it is well formed, the parameters are come to.
  induction t using Ty.inductionOn generalizing n with
  | base b mutable =>
    rw [Ty.wellFormed_base_iff, not_not] at foul
    obtain ⟨rfl, rfl⟩ : b = .void ∧ mutable = true := by simpa using foul
    obtain ⟨n, rfl⟩ := Nat.exists_eq_add_one_of_ne_zero (Nat.ne_zero_of_lt enough)
    refine .peek (.next fun t _ => .next fun t void => ?_)
    rw [void]
    exact .unexpected t _ _
  | func ret params ihRet ihParams =>
    simp only [Ty.printed, Ty.printedAll_eq_map, depth, List.length_cons, List.length_append,
      length_commaSeparated, List.length_map] at enough
    obtain ⟨n, rfl⟩ : ∃ m, n = m + 3 := ⟨n - 3, by omega⟩
    rw [type, Ty.printed, Ty.printedAll_eq_map]
    refine .peek (.first ?_)
    rw [signature]
    refine .expect fun _ => ?_
    by_cases returned : ret.WellFormed
    · have text := ((Ty.printable_iff_wellFormed ret).2 returned).text
      refine .bind (type_reads text (by simp only [depth]; omega)) fun _ _ => .expect fun _ => ?_
      refine (paramTypes_reject ?_ (fun t mem foul => ihParams t mem foul ?_) ?_).first.append _
      · simp only [depth]
        omega
      · have shorter := length_le_of_mem_flatten (List.mem_map_of_mem (f := Ty.printed) mem)
        simp only [depth]
        omega
      · by_contra! clean
        exact foul (Ty.wellFormed_func_iff.2
          ⟨returned, fun t mem => (clean t mem).2, fun mem => (clean _ mem).1 rfl⟩)
    · exact (ihRet returned (by simp only [depth]; omega)).first.append _

end Parser

/-! ## The tokens of a type -/

section

variable {text : List Char} {fs : List Form} {cautions : List Caution}

/-- Whether a word that ends where a text begins does not go on there. -/
def EndsWord (text : List Char) : Prop := ∀ c, text.head? = some c → isNameChar c = false

theorem EndsWord.takeWhile {cs : List Char} (ends : EndsWord text)
    (word : ∀ c ∈ cs, isNameChar c = true) : (cs ++ text).takeWhile isNameChar = cs := by
  rw [List.takeWhile_append_of_pos word]
  cases text with
  | nil => simp
  | cons c text => simp [ends c rfl]

theorem Reads.keyword (k : Keyword) (ends : EndsWord text) (reads : Reads text fs cautions) :
    Reads (k.text.toList ++ text) (.keyword k :: fs) cautions := by
  obtain ⟨⟨c, cs, spelled, letter, further⟩, -, -⟩ := k.isWord
  have word : Longest (c :: (cs ++ text)) _ _ _ := longest_word letter
  rw [ends.takeWhile further, ← List.cons_append, ← spelled] at word
  obtain ⟨form, caution⟩ := word.isLexeme.unique k.lexeme
  rw [form, caution] at word
  exact reads.lexeme word

/-- The symbols between the words of a type. -/
theorem Reads.symbol {s : Symbol} (between : s ∈ [.leftBracket, .rightBracket, .signature, .comma])
    (reads : Reads text fs cautions) : Reads (s.spelling ++ text) (.symbol s :: fs) cautions := by
  have longest : Longest (s.spelling ++ text) s.spelling (.symbol s) none := by
    simp only [List.mem_cons, List.not_mem_nil, or_false] at between
    obtain rfl | rfl | rfl | rfl := between <;>
      exact longest_symbol (by decide) (by decide) (by decide) (by simp)
        (by simp [Symbol.longestAt?, Symbol.byLength, Symbol.spelling])
  exact reads.lexeme longest

theorem Symbol.endsWord_append {s : Symbol} (other : s ≠ .wildcard) (text : List Char) :
    EndsWord (s.spelling ++ text) := by
  cases s <;> first | contradiction | (rintro c ⟨⟩; decide)

theorem endsWord_nil : EndsWord [] := nofun

theorem Base.reads {b : Base} {mutable : Bool} (ends : EndsWord text)
    (reads : Reads text fs cautions) :
    Reads ((Ty.base b mutable).text.toList ++ text) ((Ty.base b mutable).printed ++ fs)
      cautions := by
  have word : Reads (b.text.toList ++ text) _ _ := reads.keyword (.base b) ends
  cases mutable with
  | false => simpa [Ty.text, Ty.pieces, Ty.printed] using word
  | true =>
    have blank : isBlank ' ' = true := by decide
    have gap : EndsWord (' ' :: (b.text.toList ++ text)) := by
      rintro c ⟨⟩
      decide
    simpa [Ty.text, Ty.pieces, Ty.printed, Keyword.text] using
      (word.blank blank).keyword .mutable gap

theorem commaSeparated_eq_flatMap (fs : List Form) (stretches : List (List Form)) :
    commaSeparated (fs :: stretches) = fs ++ stretches.flatMap (.symbol .comma :: ·) := by
  induction stretches generalizing fs with
  | nil => simp
  | cons gs further inductionHypothesis =>
    rw [commaSeparated_cons fs (by simp), inductionHypothesis, List.flatMap_cons, List.cons_append]

/-- Types behind another one, each of which is read wherever a word ends behind it. -/
theorem Ty.furtherPieces_read {ts : List Ty} (ends : EndsWord text) (reads : Reads text fs cautions)
    (each : ∀ t ∈ ts, ∀ {text fs}, EndsWord text → Reads text fs cautions →
      Reads (t.text.toList ++ text) (t.printed ++ fs) cautions) :
    EndsWord ((String.join (furtherPieces ts)).toList ++ text) ∧
      Reads ((String.join (furtherPieces ts)).toList ++ text)
        ((ts.map printed).flatMap (.symbol .comma :: ·) ++ fs) cautions := by
  induction ts with
  | nil => exact ⟨ends, reads⟩
  | cons t ts inductionHypothesis =>
    obtain ⟨first, others⟩ := List.forall_mem_cons.1 each
    obtain ⟨ends', reads'⟩ := inductionHypothesis others
    have blank : isBlank ' ' = true := by decide
    have item := ((first ends' reads').blank blank).symbol (s := .comma) (by decide)
    have spelled : (String.join (furtherPieces (t :: ts))).toList ++ text = Symbol.comma.spelling ++
        (' ' :: (t.text.toList ++ ((String.join (furtherPieces ts)).toList ++ text))) := by
      simp [furtherPieces, Ty.text, Symbol.spelling]
    rw [spelled]
    refine ⟨Symbol.endsWord_append (by decide) _, ?_⟩
    simpa using item

theorem Ty.reads {t : Ty} (ends : EndsWord text) (reads : Reads text fs cautions) :
    Reads (t.text.toList ++ text) (t.printed ++ fs) cautions := by
  induction t using Ty.inductionOn generalizing text fs with
  | base b mutable => exact Base.reads ends reads
  | func ret params ihRet ihParams =>
    have closed := reads.symbol (s := .rightBracket) (by decide)
    have closes : EndsWord (Symbol.rightBracket.spelling ++ text) :=
      Symbol.endsWord_append (by decide) text
    have taken : Reads ((String.join (listPieces params)).toList ++
        (Symbol.rightBracket.spelling ++ text))
        (commaSeparated (params.map printed) ++ .symbol .rightBracket :: fs) cautions := by
      cases params with
      | nil => exact closed
      | cons t ts =>
        obtain ⟨ends', further⟩ := furtherPieces_read closes closed
          fun t mem => ihParams t (List.mem_cons_of_mem _ mem)
        have first := ihParams t List.mem_cons_self ends' further
        rw [List.map_cons, commaSeparated_eq_flatMap]
        simpa [listPieces, Ty.text] using first
    have returned := ihRet (Symbol.endsWord_append (by decide) _)
      (taken.symbol (s := .signature) (by decide))
    have whole := returned.symbol (s := .leftBracket) (by decide)
    simpa [Ty.text, Ty.pieces, Ty.printed, Ty.printedAll_eq_map, Symbol.spelling] using whole

end

/-- The text of every type consists of the tokens of its forms. -/
theorem Ty.tokenize_text (t : Ty) : ∃ scanned, tokenize t.text = .ok scanned ∧
    forms (codeTokens scanned) = t.printed ++ [.finish] ∧ warnings scanned = [] := by
  have reads := Ty.reads (t := t) endsWord_nil reads_nil
  rw [List.append_nil] at reads
  obtain ⟨scanned, longestMatch, split, cautions⟩ := reads .start
  exact ⟨scanned, tokenize_of_longestMatch longestMatch, split, List.map_eq_nil_iff.1 cautions⟩

/-! ## Reading types back -/

namespace Parser

variable {t : Ty} {tokens : List Token}

theorem depth_mul_le_of_forms {fs : List Form} (split : forms tokens = fs ++ [.finish]) :
    depth * fs.length ≤ depth * (tokens.length + 1) := by
  have lengths := congrArg List.length split
  simp only [forms, List.length_map, List.length_append, List.length_singleton] at lengths
  exact Nat.mul_le_mul_left depth (by omega)

theorem run_type_of_wellFormed (wellFormed : t.WellFormed)
    (split : forms tokens = t.printed ++ [.finish]) :
    ∃ last, last.form = .finish ∧ run type tokens = .ok t [last] := by
  have text := ((Ty.printable_iff_wellFormed t).2 wellFormed).text
  obtain ⟨_, left, read, behind, rfl⟩ :=
    type_reads text (depth_mul_le_of_forms split) [.finish] tokens split
  obtain ⟨last, rfl, finish⟩ := List.map_eq_singleton_iff.1 behind
  exact ⟨last, finish, read⟩

theorem run_type_of_foul (foul : ¬ t.WellFormed) (split : forms tokens = t.printed ++ [.finish]) :
    ∃ e left, run type tokens = .error (.fault e) left :=
  type_rejects foul (depth_mul_le_of_forms split) tokens ⟨[.finish], split.symm⟩

end Parser

/-- The text of a type consists of tokens, without anything to caution about.  The parser of types
reads the type back off them, up to the token that means the end, exactly if the type is well
formed; if it is not, the parser fails.  Whatever the tokens are, the parser answers only
well-formed types. -/
theorem type_text_reads_back :
    (∀ t : Ty, ∃ scanned, tokenize t.text = .ok scanned ∧ warnings scanned = [] ∧
      ((∃ last, last.form = .finish ∧
        Parser.run Parser.type (codeTokens scanned) = .ok t [last]) ↔ t.WellFormed) ∧
      (¬ t.WellFormed →
        ∃ e left, Parser.run Parser.type (codeTokens scanned) = .error (.fault e) left)) ∧
    ∀ n tokens t left, Parser.type n tokens = .ok t left → t.WellFormed := by
  have answers (n : Nat) (tokens : List Token) (t : Ty) (left : List Token)
      (read : Parser.type n tokens = .ok t left) : t.WellFormed := by
    obtain ⟨taken, -, text⟩ := (Parser.types_yield n).type tokens t left read
    exact text.wellFormed
  refine ⟨fun t => ?_, answers⟩
  obtain ⟨scanned, success, split, quiet⟩ := t.tokenize_text
  refine ⟨scanned, success, quiet, ⟨?_, ?_⟩, ?_⟩
  · rintro ⟨last, -, read⟩
    exact answers _ _ _ _ read
  · exact fun wellFormed => Parser.run_type_of_wellFormed wellFormed split
  · exact fun foul => Parser.run_type_of_foul foul split

end Rightflow
