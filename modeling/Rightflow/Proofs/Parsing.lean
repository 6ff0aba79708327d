import Mathlib.Data.List.Basic
import Rightflow.Grammar.Basic

/-!
# Parsers and what their tokens derive

What a parser accepts is stated by the forms of the tokens it takes.  `Parser.Yields` says that
every success takes forms which derive the answer, and `Parser.Reads` says that given forms are
taken, and nothing behind them, with an answer of a given kind.  Both have one rule for each
operation, so that a grammar is proved sound and complete by following the parser.
-/

namespace Rightflow

/-- The forms of a list of tokens. -/
def forms (tokens : List Token) : List Form := tokens.map (·.form)

/-- The form that looking at the front of a list finds. -/
def ahead (fs : List Form) : Form := fs.head?.getD .finish

@[simp] theorem forms_nil : forms [] = [] := rfl

@[simp] theorem forms_cons (t : Token) (tokens : List Token) :
    forms (t :: tokens) = t.form :: forms tokens := rfl

@[simp] theorem ahead_nil : ahead [] = .finish := rfl

@[simp] theorem ahead_cons (f : Form) (fs : List Form) : ahead (f :: fs) = f := rfl

/-- The stretches of a list with commas between them. -/
def commaSeparated (stretches : List (List Form)) : List Form :=
  [Form.symbol .comma].intercalate stretches

@[simp] theorem commaSeparated_nil : commaSeparated [] = [] := rfl

@[simp] theorem commaSeparated_one (fs : List Form) : commaSeparated [fs] = fs := by
  simp [commaSeparated]

theorem commaSeparated_cons {stretches : List (List Form)} (fs : List Form)
    (further : stretches ≠ []) :
    commaSeparated (fs :: stretches) = fs ++ .symbol .comma :: commaSeparated stretches := by
  simp [commaSeparated, List.intercalate_cons_of_ne_nil further]

/-- A list goes on from its first stretch. -/
theorem exists_commaSeparated_cons (fs : List Form) (stretches : List (List Form))
    (rest : List Form) : ∃ left, commaSeparated (fs :: stretches) ++ rest = fs ++ left := by
  cases stretches with
  | nil => exact ⟨rest, by simp⟩
  | cons gs further =>
    rw [commaSeparated_cons fs (by simp), List.append_assoc]
    exact ⟨_, rfl⟩

theorem length_commaSeparated (stretches : List (List Form)) :
    (commaSeparated stretches).length = stretches.flatten.length + (stretches.length - 1) := by
  induction stretches with
  | nil => rfl
  | cons fs further ih =>
    cases further with
    | nil => simp
    | cons gs others =>
      rw [commaSeparated_cons fs (by simp), List.length_append, List.length_cons, ih]
      simp
      omega

theorem length_le_of_mem_flatten {fs : List Form} {stretches : List (List Form)}
    (mem : fs ∈ stretches) : fs.length ≤ stretches.flatten.length :=
  (List.sublist_flatten_of_mem mem).length_le

namespace Parser

variable {α β : Type} {tokens : List Token}

/-! ## Runs of the operations -/

theorem bind_run (p : Parser α) (k : α → Parser β) :
    (p >>= k) tokens =
      match p tokens with
      | .ok a rest => k a rest
      | .error e rest => .error e rest := by
  change EStateM.bind p k tokens = _
  unfold EStateM.bind
  cases p tokens <;> rfl

theorem peekToken?_run : peekToken? tokens = .ok tokens.head? tokens := rfl

theorem peek_run : peek tokens = .ok (ahead (forms tokens)) tokens := by
  cases tokens <;> rfl

theorem peekPosition_run :
    peekPosition tokens = .ok (tokens.head?.elim .start (·.position)) tokens := rfl

theorem next_cons (t : Token) (rest : List Token) : next (t :: rest) = .ok t rest := rfl

theorem accept_cons (f : Form) (t : Token) (rest : List Token) :
    accept f (t :: rest) = if t.form = f then .ok true rest else .ok false (t :: rest) := by
  change (if t.form = f then (do set rest; return true) else return false : Parser Bool)
    (t :: rest) = _
  split <;> rfl

theorem expect_cons {f : Form} {t : Token} (rest : List Token) (same : t.form = f) :
    expect f (t :: rest) = .ok t.position rest := by
  rw [expect, bind_run, next_cons]
  simp only [same, if_true]
  rfl

theorem identifier_cons {x : String} {t : Token} (rest : List Token) (named : t.form = .name x) :
    identifier (t :: rest) = .ok (x, t.position) rest := by
  rw [identifier, bind_run, next_cons]
  simp only [named]
  rfl

/-! ## What a success takes -/

/-- Every success of the parser on the tokens takes forms from their front that, with the answer,
satisfy the property. -/
def Yields (p : Parser α) (tokens : List Token) (property : List Form → α → Prop) : Prop :=
  ∀ a rest, p tokens = .ok a rest →
    ∃ taken, forms tokens = taken ++ forms rest ∧ property taken a

namespace Yields

variable {p : Parser α} {k : α → Parser β} {P : List Form → α → Prop} {Q : List Form → β → Prop}

theorem mono {P' : List Form → α → Prop} (yields : Yields p tokens P)
    (imp : ∀ taken a, taken <+: forms tokens → P taken a → P' taken a) :
    Yields p tokens P' := by
  intro a rest run
  obtain ⟨taken, split, holds⟩ := yields a rest run
  exact ⟨taken, split, imp taken a ⟨forms rest, split.symm⟩ holds⟩

theorem pure {a : α} (holds : P [] a) : Yields (pure a) tokens P := by
  intro b rest run
  cases run
  exact ⟨[], rfl, holds⟩

theorem bind (first : Yields p tokens P)
    (further : ∀ a taken rest, P taken a → Yields (k a) rest fun fs b => Q (taken ++ fs) b) :
    Yields (p >>= k) tokens Q := by
  intro b rest run
  rw [bind_run] at run
  cases middle : p tokens with
  | error e left => simp [middle] at run
  | ok a left =>
    rw [middle] at run
    obtain ⟨taken, split, holds⟩ := first a left middle
    obtain ⟨more, split', holds'⟩ := further a taken left holds b rest run
    exact ⟨taken ++ more, by rw [split, split', List.append_assoc], holds'⟩

theorem exhausted : Yields exhausted tokens P := nofun

theorem fail (cause : ParseCause) (position : Position) :
    Yields (fail cause position) tokens P := nofun

theorem unexpected (t : Token) (expected : Expected) :
    Yields (unexpected t expected) tokens P := nofun

theorem peekToken? {k : Option Token → Parser β} (further : Yields (k tokens.head?) tokens Q) :
    Yields (peekToken? >>= k) tokens Q := by
  intro b rest run
  rw [bind_run, peekToken?_run] at run
  exact further b rest run

theorem peek {k : Form → Parser β} (further : Yields (k (ahead (forms tokens))) tokens Q) :
    Yields (peek >>= k) tokens Q := by
  intro b rest run
  rw [bind_run, peek_run] at run
  exact further b rest run

theorem peekPosition {k : Position → Parser β} (further : ∀ position, Yields (k position) tokens Q) :
    Yields (peekPosition >>= k) tokens Q := by
  intro b rest run
  rw [bind_run, peekPosition_run] at run
  exact further _ b rest run

theorem next {k : Token → Parser β}
    (further : ∀ t rest, tokens = t :: rest → Yields (k t) rest fun fs b => Q (t.form :: fs) b) :
    Yields (next >>= k) tokens Q := by
  intro b left run
  rw [bind_run] at run
  cases tokens with
  | nil => cases run
  | cons t rest =>
    obtain ⟨taken, split, holds⟩ := further t rest rfl b left run
    exact ⟨t.form :: taken, by simp [split], holds⟩

theorem accept {f : Form} {k : Bool → Parser β}
    (found : ∀ rest, Yields (k true) rest fun fs b => Q (f :: fs) b)
    (absent : Yields (k false) tokens Q) : Yields (accept f >>= k) tokens Q := by
  intro b left run
  rw [bind_run] at run
  cases tokens with
  | nil => exact absent b left run
  | cons t rest =>
    rw [accept_cons] at run
    by_cases same : t.form = f
    · rw [if_pos same] at run
      obtain ⟨taken, split, holds⟩ := found rest b left run
      exact ⟨f :: taken, by simp [split, same], holds⟩
    · rw [if_neg same] at run
      exact absent b left run

theorem expect {f : Form} {k : Position → Parser β}
    (further : ∀ position rest, Yields (k position) rest fun fs b => Q (f :: fs) b) :
    Yields (expect f >>= k) tokens Q := by
  rw [Parser.expect, bind_assoc]
  apply next
  intro t rest _
  by_cases same : t.form = f
  · simp only [same, if_true, pure_bind]
    exact further t.position rest
  · intro b left run
    simp only [same, if_false] at run
    rw [bind_run] at run
    cases run

theorem identifier {k : String × Position → Parser β}
    (further : ∀ x position rest, Yields (k (x, position)) rest fun fs b => Q (.name x :: fs) b) :
    Yields (identifier >>= k) tokens Q := by
  rw [Parser.identifier, bind_assoc]
  apply next
  intro t rest _
  cases form : t.form with
  | name x =>
    simp only [pure_bind]
    exact further x t.position rest
  | symbol | keyword | literal | comment | finish =>
    intro b left run
    rw [bind_run] at run
    cases run

end Yields

/-! ## What is certainly taken -/

/-- On every list of tokens that begins with the forms and goes on with others, the parser takes the
forms and answers with something that satisfies the property. -/
def Reads (p : Parser α) (fs rest : List Form) (property : α → Prop) : Prop :=
  ∀ tokens, forms tokens = fs ++ rest →
    ∃ a left, p tokens = .ok a left ∧ forms left = rest ∧ property a

namespace Reads

variable {p : Parser α} {k : α → Parser β} {P : α → Prop} {Q : β → Prop}
variable {fs gs rest : List Form}

theorem pure {a : α} (holds : P a) : Reads (pure a) [] rest P := by
  intro tokens split
  exact ⟨a, tokens, rfl, split, holds⟩

theorem bind (first : Reads p fs (gs ++ rest) P) (further : ∀ a, P a → Reads (k a) gs rest Q) :
    Reads (p >>= k) (fs ++ gs) rest Q := by
  intro tokens split
  rw [List.append_assoc] at split
  obtain ⟨a, middle, run, leaves, holds⟩ := first tokens split
  obtain ⟨b, left, run', leaves', holds'⟩ := further a holds middle leaves
  exact ⟨b, left, by rw [bind_run, run]; exact run', leaves', holds'⟩

theorem bind_pure {f : α → β} (first : Reads p fs rest P) (imp : ∀ a, P a → Q (f a)) :
    Reads (p >>= fun a => Pure.pure (f a)) fs rest Q := by
  rw [← List.append_nil fs]
  exact bind (by simpa using first) fun a holds => pure (imp a holds)

theorem peekToken? {k : Option Token → Parser β}
    (further : ∀ t?, t?.map (·.form) = (fs ++ rest).head? → Reads (k t?) fs rest Q) :
    Reads (peekToken? >>= k) fs rest Q := by
  intro tokens split
  rw [bind_run, peekToken?_run]
  exact further _ (by simp [← split, forms]) tokens split

theorem peek {k : Form → Parser β} (further : Reads (k (ahead (fs ++ rest))) fs rest Q) :
    Reads (peek >>= k) fs rest Q := by
  intro tokens split
  rw [bind_run, peek_run, split]
  exact further tokens split

theorem peekPosition {k : Position → Parser β} (further : ∀ position, Reads (k position) fs rest Q) :
    Reads (peekPosition >>= k) fs rest Q := by
  intro tokens split
  rw [bind_run, peekPosition_run]
  exact further _ tokens split

theorem next {f : Form} {k : Token → Parser β}
    (further : ∀ t : Token, t.form = f → Reads (k t) fs rest Q) :
    Reads (next >>= k) (f :: fs) rest Q := by
  intro tokens split
  obtain ⟨t, left, rfl, same, split'⟩ := List.map_eq_cons_iff.1 split
  exact further t same left split'

theorem accept_found {f : Form} {k : Bool → Parser β} (further : Reads (k true) fs rest Q) :
    Reads (accept f >>= k) (f :: fs) rest Q := by
  intro tokens split
  obtain ⟨t, left, rfl, same, split'⟩ := List.map_eq_cons_iff.1 split
  rw [bind_run, accept_cons, if_pos same]
  exact further left split'

theorem accept_absent {f : Form} {k : Bool → Parser β} (absent : ahead (fs ++ rest) ≠ f)
    (further : Reads (k false) fs rest Q) : Reads (accept f >>= k) fs rest Q := by
  intro tokens split
  rw [bind_run]
  cases tokens with
  | nil => exact further [] split
  | cons t left =>
    have different : t.form ≠ f := by
      simpa [← split] using absent
    rw [accept_cons, if_neg different]
    exact further (t :: left) split

theorem expect {f : Form} {k : Position → Parser β}
    (further : ∀ position, Reads (k position) fs rest Q) :
    Reads (expect f >>= k) (f :: fs) rest Q := by
  intro tokens split
  obtain ⟨t, left, rfl, same, split'⟩ := List.map_eq_cons_iff.1 split
  rw [bind_run, expect_cons left same]
  exact further t.position left split'

theorem identifier {x : String} {k : String × Position → Parser β}
    (further : ∀ position, Reads (k (x, position)) fs rest Q) :
    Reads (identifier >>= k) (.name x :: fs) rest Q := by
  intro tokens split
  obtain ⟨t, left, rfl, same, split'⟩ := List.map_eq_cons_iff.1 split
  rw [bind_run, identifier_cons left same]
  exact further t.position left split'

end Reads

/-! ## Lists -/

section Lists

variable {item : Parser α} {derives : List Form → β → Prop} {closing : Symbol} (view : α → β)

/-- The items of a list are separated by commas, and each stretch derives what is seen of its
answer. -/
theorem items_yield (n : Nat)
    (each : ∀ tokens, Yields item tokens fun fs a => derives fs (view a)) :
    ∀ tokens, Yields (items item closing n) tokens fun fs as =>
      ∃ parts : List (List Form × β), parts ≠ [] ∧ (∀ part ∈ parts, derives part.1 part.2) ∧
        fs = commaSeparated (parts.map (·.1)) ++ [.symbol closing] ∧
        as.map view = parts.map (·.2) := by
  induction n with
  | zero => exact fun _ => .exhausted
  | succ n ih =>
    intro tokens
    refine (each tokens).bind fun a taken rest derived => .next fun t left _ => ?_
    split
    next comma =>
      refine (ih left).bind fun as taken' _ ⟨parts, nonempty, all, split, seen⟩ => .pure ?_
      refine ⟨(taken, view a) :: parts, by simp, ?_, ?_, by simp [seen]⟩
      · simpa using ⟨derived, by simpa using all⟩
      · rw [List.map_cons, commaSeparated_cons _ (by simpa using nonempty)]
        simp [split, comma]
    next noComma =>
      split
      next closed =>
        exact .pure ⟨[(taken, view a)], by simp, by simpa using derived, by simp [closed], rfl⟩
      next => exact .unexpected t _

theorem list_yields (n : Nat)
    (each : ∀ tokens, Yields item tokens fun fs a => derives fs (view a)) :
    Yields (list item closing n) tokens fun fs as =>
      ∃ parts : List (List Form × β), (∀ part ∈ parts, derives part.1 part.2) ∧
        fs = commaSeparated (parts.map (·.1)) ++ [.symbol closing] ∧
        as.map view = parts.map (·.2) := by
  apply Yields.accept
  · intro rest
    exact .pure ⟨[], by simp, by simp, rfl⟩
  · exact (items_yield view n each tokens).mono fun _ _ _ ⟨parts, _, derived⟩ => ⟨parts, derived⟩

variable {parts : List (List Form × β)} {n : Nat} {rest : List Form}

theorem items_read (notComma : closing ≠ .comma) (enough : parts.length ≤ n) (nonempty : parts ≠ [])
    (each : ∀ part ∈ parts, ∀ rest, ahead rest = .symbol .comma ∨ ahead rest = .symbol closing →
      Reads item part.1 rest fun a => view a = part.2) :
    Reads (items item closing n) (commaSeparated (parts.map (·.1)) ++ [.symbol closing]) rest
      fun as => as.map view = parts.map (·.2) := by
  induction n generalizing parts with
  | zero => simp_all
  | succ n ih =>
    obtain ⟨part, further, rfl⟩ := List.exists_cons_of_ne_nil nonempty
    have first := each part (by simp)
    cases further with
    | nil =>
      rw [List.map_singleton, commaSeparated_one]
      refine .bind (first _ (by simp)) fun a seen => .next fun t closed => ?_
      rw [if_neg (by simpa [closed] using notComma), if_pos closed]
      exact .pure (by simp [seen])
    | cons other others =>
      rw [List.map_cons, commaSeparated_cons _ (by simp), List.append_assoc]
      refine .bind (first _ (by simp)) fun a seen => ?_
      refine .next fun t comma => ?_
      rw [if_pos comma]
      refine .bind_pure (ih (by simpa using enough) (by simp) fun p mem => each p (by simp_all)) ?_
      intro as seen'
      simp [seen, seen']

theorem list_reads (notComma : closing ≠ .comma) (enough : parts.length ≤ n)
    (opens : ∀ part ∈ parts, ∀ rest, ahead (part.1 ++ rest) ≠ .symbol closing)
    (each : ∀ part ∈ parts, ∀ rest, ahead rest = .symbol .comma ∨ ahead rest = .symbol closing →
      Reads item part.1 rest fun a => view a = part.2) :
    Reads (list item closing n) (commaSeparated (parts.map (·.1)) ++ [.symbol closing]) rest
      fun as => as.map view = parts.map (·.2) := by
  cases parts with
  | nil => exact .accept_found (.pure rfl)
  | cons part further =>
    refine .accept_absent ?_ (items_read view notComma enough (by simp) each)
    obtain ⟨left, split⟩ :=
      exists_commaSeparated_cons part.1 (further.map (·.1)) (.symbol closing :: rest)
    rw [List.append_assoc, List.singleton_append, List.map_cons, split]
    exact opens part (by simp) left

end Lists

end Parser

end Rightflow
