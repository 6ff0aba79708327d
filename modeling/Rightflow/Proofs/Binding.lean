import Mathlib.Data.List.Forall2
import Rightflow.Proofs.Surroundings

/-!
# How arguments become parameters

A parameter takes a value cast to its type, or a view restricted to its mutability (`bindArg_ok`);
either way what it stands for is of its type (`hasType_argValue_of_bindArg`).  Before a body runs,
the values become new variables.  `Store.Adopts` relates what was bound to the views that the
body gets and to the store with the new variables in it, and `bindParams_adopts` says that this is
all that binding does, also where it fails half way.
-/

namespace Rightflow

namespace Store

variable {s s' : Store} {x : Param} {a b : Arg}

/-! ## One argument -/

/-- An argument that is a view is one of an existing variable. -/
def Knows (s : Store) (args : List Arg) : Prop := ∀ w, .view w ∈ args → w.cell < s.size

theorem Knows.mono {args : List Arg} (known : s.Knows args) (grown : s.Grows s') : s'.Knows args :=
  fun w member => Nat.lt_of_lt_of_le (known w member) grown.size

theorem bindArg_ok (taken : s.bindArg x a = .ok b) :
    (∃ v w, a = .value v ∧ v.cast x.type = .ok w ∧ b = .value w) ∨
    ∃ w, a = .view w ∧ x.type.sameShape (s.get w.cell).type = true ∧
      (x.type.isMutable = true → w.mutable = true) ∧
      b = .view ⟨w.cell, x.name, x.type.isMutable⟩ := by
  cases a with
  | value v =>
    left
    change (v.cast x.type).map Arg.value = .ok b at taken
    cases given : v.cast x.type with
    | error cause => rw [given] at taken; cases taken
    | ok w => rw [given] at taken; cases taken; exact ⟨v, w, rfl, given, rfl⟩
  | view w =>
    right
    unfold bindArg at taken
    dsimp only at taken
    split at taken
    · cases taken
    · split at taken
      · cases taken
      next shape allowed =>
        cases taken
        refine ⟨w, rfl, by simpa using shape, fun mutable => ?_, rfl⟩
        simpa [mutable] using allowed

/-- A growing store does not change how an argument is taken. -/
theorem bindArg_of_grows (grown : s.Grows s') (known : ∀ w, a = .view w → w.cell < s.size) :
    s'.bindArg x a = s.bindArg x a := by
  cases a with
  | value v => rfl
  | view w => simp only [bindArg, grown.type w.cell (known w rfl)]

theorem bindArgs_of_grows (grown : s.Grows s') {params : List Param} {args : List Arg}
    (known : s.Knows args) : s'.bindArgs params args = s.bindArgs params args := by
  induction params generalizing args with
  | nil => rfl
  | cons x xs inductionHypothesis =>
    cases args with
    | nil => rfl
    | cons a as =>
      have head : s'.bindArg x a = s.bindArg x a :=
        bindArg_of_grows grown fun w same => known w (same ▸ List.mem_cons_self)
      have tail := inductionHypothesis fun w member => known w (List.mem_cons_of_mem a member)
      simp only [bindArgs, head, tail]

/-! ## All arguments -/

theorem bindArgs_cons_ok {params : List Param} {args bound : List Arg}
    (taken : s.bindArgs (x :: params) (a :: args) = .ok bound) :
    ∃ b rest, s.bindArg x a = .ok b ∧ s.bindArgs params args = .ok rest ∧ bound = b :: rest := by
  unfold bindArgs at taken
  cases head : s.bindArg x a with
  | error cause => rw [head] at taken; cases taken
  | ok b =>
    cases tail : s.bindArgs params args with
    | error cause => rw [head, tail] at taken; cases taken
    | ok rest =>
      rw [head, tail] at taken
      cases taken
      exact ⟨b, rest, rfl, rfl, rfl⟩

/-- Whatever was bound was bound from an argument. -/
theorem exists_of_mem_bindArgs {params : List Param} {args bound : List Arg}
    (taken : s.bindArgs params args = .ok bound) (member : b ∈ bound) :
    ∃ x a, (x, a) ∈ params.zip args ∧ s.bindArg x a = .ok b := by
  induction params generalizing args bound with
  | nil => cases taken; cases member
  | cons x xs inductionHypothesis =>
    cases args with
    | nil => cases taken; cases member
    | cons a as =>
      obtain ⟨c, rest, head, tail, rfl⟩ := bindArgs_cons_ok taken
      rcases List.mem_cons.mp member with rfl | later
      · exact ⟨x, a, List.mem_cons_self, head⟩
      · obtain ⟨y, a', among, taken'⟩ := inductionHypothesis tail later
        exact ⟨y, a', List.mem_cons_of_mem _ among, taken'⟩

/-- Every variable holds a value of its type. -/
def Typed (s : Store) : Prop := ∀ cell < s.size, (s.get cell).value.hasType (s.get cell).type = true

/-- What a parameter takes is of its type. -/
theorem hasType_argValue_of_bindArg (typed : s.Typed) (known : ∀ w, a = .view w → w.cell < s.size)
    (taken : s.bindArg x a = .ok b) : (s.argValue b).hasType x.type = true := by
  rcases bindArg_ok taken with ⟨v, w, rfl, given, rfl⟩ | ⟨w, rfl, same, _, rfl⟩
  · exact Value.hasType_of_cast given
  · exact Value.hasType_of_sameShape (typed w.cell (known w rfl)) same

/-- What the parameters of a function take is of their types, one by one. -/
theorem hasType_of_bindArgs (typed : s.Typed) {params : List Param} {args bound : List Arg}
    (known : s.Knows args) (arity : params.length = args.length)
    (taken : s.bindArgs params args = .ok bound) :
    List.Forall₂ (fun (x : Param) b => (s.argValue b).hasType x.type = true) params bound := by
  induction params generalizing args bound with
  | nil => cases taken; exact .nil
  | cons x xs inductionHypothesis =>
    cases args with
    | nil => cases arity
    | cons a as =>
      obtain ⟨b, rest, head, tail, rfl⟩ := bindArgs_cons_ok taken
      refine .cons ?_ (inductionHypothesis (fun w member => known w (List.mem_cons_of_mem a member))
        (Nat.succ.inj arity) tail)
      exact hasType_argValue_of_bindArg typed (fun w same => known w (same ▸ List.mem_cons_self)) head

/-! ## Parameters -/

/-- The views that a body gets for what was bound, and the store in which they are. -/
inductive Adopts : Store → List Arg → List View → Store → Prop
  | nil (s : Store) : Adopts s [] [] s
  | view {s s' : Store} {bound : List Arg} {views : List View} (w : View)
      (rest : Adopts s bound views s') : Adopts s (.view w :: bound) (w :: views) s'
  | value {s s' : Store} {bound : List Arg} {views : List View} (x : Param) (v : Value)
      (typed : v.hasType x.type = true)
      (rest : Adopts (s.create ⟨x.name, x.type, v⟩).2 bound views s') :
      Adopts s (.value v :: bound)
        ((s.create ⟨x.name, x.type, v⟩).2.directView s.size :: views) s'

/-- Adopting arguments changes no variable. -/
theorem Adopts.get {bound : List Arg} {views : List View} (adopted : s.Adopts bound views s')
    {cell : Nat} (existed : cell < s.size) : s'.get cell = s.get cell := by
  induction adopted with
  | nil _ => rfl
  | view _ _ inductionHypothesis => exact inductionHypothesis existed
  | value x v _ _ inductionHypothesis =>
    rw [inductionHypothesis (by rw [size_create]; omega), get_create_of_lt _ _ existed]

theorem Adopts.grows {bound : List Arg} {views : List View} (adopted : s.Adopts bound views s') :
    s.Grows s' := by
  induction adopted with
  | nil s => exact .refl s
  | view _ _ inductionHypothesis => exact inductionHypothesis
  | value _ _ _ _ inductionHypothesis => exact (Grows.create _ _).trans inductionHypothesis

end Store

/-! ## Native functions -/

/-- What the standard native functions are made for: a string to write, and an integer to increment,
whose variable may be written if it is one.  No other native function is a standard one. -/
def Native.Fits (s : Store) : Native → List Arg → Prop
  | .write, args => ∃ a text, args = [a] ∧ s.argValue a = .string text
  | .increment, args =>
    ∃ a k, args = [a] ∧ s.argValue a = .int k ∧ ∀ w, a = .view w → w.mutable = true
  | .foreign _, _ => False

theorem Native.Fits.own {s : Store} {action : Native} {args : List Arg} (fits : action.Fits s args)
    (code : Nat) : action ≠ .foreign code := by
  rintro rfl
  exact fits

/-- The parameters of a standard native function let nothing else through. -/
theorem Builtin.fits_of_bindArgs {s : Store} (typed : s.Typed) {b : Builtin}
    (standard : b ∈ Builtin.standard) {args bound : List Arg} (known : s.Knows args)
    (arity : b.signature.params.length = args.length)
    (taken : s.bindArgs b.params args = .ok bound) : b.native.Fits s bound := by
  have counted : b.params.length = args.length := by
    rw [← arity, Builtin.params, List.length_mapIdx]
  have values := Store.hasType_of_bindArgs typed known counted taken
  rcases List.mem_cons.mp standard with rfl | standard
  · obtain ⟨a, _, ofType, none, rfl⟩ := List.forall₂_cons_left_iff.mp values
    obtain rfl := List.forall₂_nil_left_iff.mp none
    obtain ⟨text, value⟩ := Value.exists_string_of_hasType ofType
    exact ⟨a, text, rfl, value⟩
  · obtain rfl := List.mem_singleton.mp standard
    obtain ⟨a, _, ofType, none, rfl⟩ := List.forall₂_cons_left_iff.mp values
    obtain rfl := List.forall₂_nil_left_iff.mp none
    obtain ⟨k, value⟩ := Value.exists_int_of_hasType ofType
    refine ⟨a, k, rfl, value, fun w view => ?_⟩
    obtain ⟨x, a', among, head⟩ := Store.exists_of_mem_bindArgs taken List.mem_cons_self
    obtain rfl := List.mem_singleton.mp (List.of_mem_zip among).1
    rcases Store.bindArg_ok head with ⟨_, _, _, _, rfl⟩ | ⟨_, _, _, _, rfl⟩
    · cases view
    · cases view
      rfl

namespace Action

theorem bindParams_cons_run (p : Position) (x : Param) (xs : List Param) (a : Arg) (as : List Arg)
    (m : Machine) :
    bindParams p (x :: xs) (a :: as) m =
      match bindParam x a p m with
      | .error e m' => .error e m'
      | .ok w m' =>
        match bindParams p xs as m' with
        | .error e m'' => .error e m''
        | .ok ws m'' => .ok (w :: ws) m'' := by
  rw [bindParams, bind_run]
  cases bindParam x a p m with
  | error e m' => rfl
  | ok w m' =>
    dsimp only
    rw [bind_run]
    cases bindParams p xs as m' <;> rfl

/-- Binding parameters adopts what can be bound, which is all unless it fails. -/
theorem bindParams_adopts (p : Position) (params : List Param) (args : List Arg) (m : Machine)
    (known : m.store.Knows args) :
    ∃ bound views s, m.store.Adopts bound views s ∧
      (∀ b ∈ bound, ∃ x, ∃ a ∈ args, m.store.bindArg x a = .ok b) ∧
      (bindParams p params args m = .ok views { m with store := s } ∧
          m.store.bindArgs params args = .ok bound ∨
        ∃ cause, bindParams p params args m =
            .error (.fault (.located p cause)) { m with store := s } ∧
          m.store.bindArgs params args = .error cause) := by
  induction params generalizing args m with
  | nil => exact ⟨[], [], m.store, .nil _, nofun, .inl ⟨rfl, rfl⟩⟩
  | cons x xs inductionHypothesis =>
    cases args with
    | nil => exact ⟨[], [], m.store, .nil _, nofun, .inl ⟨rfl, rfl⟩⟩
    | cons a as =>
      have knownTail : m.store.Knows as := fun w member => known w (List.mem_cons_of_mem a member)
      rw [bindParams_cons_run, bindParam_run, Store.bindArgs]
      cases head : m.store.bindArg x a with
      | error cause => exact ⟨[], [], m.store, .nil _, nofun, .inr ⟨cause, rfl, rfl⟩⟩
      | ok b =>
        have fromHead : ∀ rest : List Arg,
            (∀ c ∈ rest, ∃ y, ∃ a' ∈ as, m.store.bindArg y a' = .ok c) →
            ∀ c ∈ b :: rest, ∃ y, ∃ a' ∈ a :: as, m.store.bindArg y a' = .ok c := by
          intro rest fromTail c member
          rcases List.mem_cons.mp member with rfl | later
          · exact ⟨x, a, List.mem_cons_self, head⟩
          · obtain ⟨y, a', member', taken⟩ := fromTail c later
            exact ⟨y, a', List.mem_cons_of_mem a member', taken⟩
        cases b with
        | view w =>
          obtain ⟨bound, views, s, adopted, fromTail, ending⟩ := inductionHypothesis as m knownTail
          refine ⟨.view w :: bound, w :: views, s, .view w adopted, fromHead bound fromTail, ?_⟩
          rcases ending with ⟨ran, taken⟩ | ⟨cause, ran, refused⟩
          · exact .inl ⟨by dsimp only; rw [ran], by rw [taken]; rfl⟩
          · exact .inr ⟨cause, by dsimp only; rw [ran], by rw [refused]; rfl⟩
        | value v =>
          -- The rest is bound in a store with one variable more, which makes no difference to it.
          let store := (m.store.create ⟨x.name, x.type, v⟩).2
          have grown : m.store.Grows store := .create _ _
          have typed : v.hasType x.type = true := by
            rcases Store.bindArg_ok head with ⟨_, _, _, given, same⟩ | ⟨_, _, _, _, same⟩
            · cases same; exact Value.hasType_of_cast given
            · cases same
          obtain ⟨bound, views, s, adopted, fromTail, ending⟩ :=
            inductionHypothesis as { m with store := store } (knownTail.mono grown)
          refine ⟨.value v :: bound, _, s, .value x v typed adopted, fromHead bound ?_, ?_⟩
          · intro c member
            obtain ⟨y, a', member', taken⟩ := fromTail c member
            refine ⟨y, a', member', ?_⟩
            rwa [Store.bindArg_of_grows grown fun w same => knownTail w (same ▸ member')] at taken
          · change _ ∧ store.bindArgs xs as = _ ∨ ∃ cause, _ ∧ store.bindArgs xs as = _ at ending
            rw [Store.bindArgs_of_grows grown knownTail] at ending
            dsimp only [create_run]
            rcases ending with ⟨ran, taken⟩ | ⟨cause, ran, refused⟩
            · exact .inl ⟨by rw [ran], by rw [taken]; rfl⟩
            · exact .inr ⟨cause, by rw [ran], by rw [refused]; rfl⟩

end Action

end Rightflow
