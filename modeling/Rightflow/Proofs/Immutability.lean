import Rightflow.Proofs.Chronicle
import Rightflow.Proofs.StoreTyping

/-!
# Variables that are not mutable

A variable whose type is not mutable has the value with which it was created in every later state
of a session, whatever is assigned, called, bound or iterated over, and whatever fails.

Mutability is a mark on views, which is copied wherever a view is passed on.  The grant
`Grant.honest` says that no view bears the mark unless the type of its variable does.  Writing takes
a marked view, so that under this grant no step of a session changes an immutable variable.
-/

namespace Rightflow

/-! ## Honest views -/

/-- The views of existing variables that are marked as mutable only if the type of the variable
is. -/
def Grant.honest : Grant where
  since := 0
  Covers s w := w.cell < s.size ∧ (w.mutable = true → (s.get w.cell).type.isMutable = true)
  existing covered := covered.1
  stable grown existing := by
    rw [grown.type _ existing]
    exact and_congr_left fun _ => ⟨fun _ => existing, fun _ => Nat.lt_of_lt_of_le existing grown.size⟩
  restrict covered weaker := ⟨covered.1, fun mutable => covered.2 (weaker mutable)⟩
  fresh {s x} _ := by
    simp [Store.directView]

/-! ## What a step preserves -/

/-- A later state of a store, in which the immutable variables are as they were. -/
structure Store.Preserves (s s' : Store) : Prop extends s.Grows s' where
  immutable : ∀ cell < s.size, (s.get cell).type.isMutable = false → s'.get cell = s.get cell

namespace Store.Preserves

variable {s s' s'' : Store}

theorem refl (s : Store) : s.Preserves s := ⟨.refl s, fun _ _ _ => rfl⟩

theorem trans (first : s.Preserves s') (second : s'.Preserves s'') : s.Preserves s'' := by
  refine ⟨first.toGrows.trans second.toGrows, fun cell existed immutable => ?_⟩
  have same := first.immutable cell existed immutable
  rw [second.immutable cell (Nat.lt_of_lt_of_le existed first.size) (by rw [same]; exact immutable),
    same]

theorem of_steps (step : Grant.honest.Steps s s') : s.Preserves s' := by
  cases step with
  | same => exact .refl s
  | create x _ => exact ⟨.create s x, fun cell existed _ => get_create_of_lt s x existed⟩
  | stamp => exact ⟨.stamp s, fun _ _ _ => rfl⟩
  | @write w v covered mutable _ =>
    refine ⟨.set s w.cell v, fun cell existed immutable => ?_⟩
    -- The variable that is written is a mutable one, and so another one.
    have other : w.cell ≠ cell := by
      rintro rfl
      simp [covered.2 mutable] at immutable
    simp [get_set, other]

end Store.Preserves

/-- In a chain of steps every machine preserves what there was in the ones before. -/
theorem Grant.Chain.preserves {states : List Machine} (chain : Grant.honest.Chain states) :
    states.Pairwise fun m m' => m.store.Preserves m'.store := by
  let R (m m' : Machine) : Prop := m.store.Preserves m'.store
  have transitive : Trans R R R := ⟨fun first second => first.trans second⟩
  exact List.isChain_iff_pairwise.mp (List.IsChain.imp (fun _ _ step => .of_steps step) chain)

/-! ## Creation -/

/-- The variable with a number is created in the course of some states, and `later` are those from
then on. -/
def Creates (states : List Machine) (cell : Nat) (x : Variable) (later : List Machine) : Prop :=
  ∃ before m m' rest, states = before ++ m :: later ∧ later = m' :: rest ∧
    cell = m.store.size ∧ m'.store = (m.store.create x).2

/-- A step that makes a store greater creates a variable. -/
theorem Grant.Steps.exists_create {g : Grant} {s s' : Store} (step : g.Steps s s') {cell : Nat}
    (new : s.size ≤ cell) (existing : cell < s'.size) :
    cell = s.size ∧ ∃ x, s' = (s.create x).2 := by
  cases step with
  | same => omega
  | create x _ =>
    rw [Store.size_create] at existing
    exact ⟨by omega, x, rfl⟩
  | stamp =>
    change cell < s.size at existing
    omega
  | write v covered mutable _ =>
    rw [Store.size_set] at existing
    omega

/-- A variable that is missing in the first state of a chain and exists in a later one has been
created in between. -/
theorem Grant.Chain.exists_creates {g : Grant} {m m' : Machine} {states : List Machine}
    (chain : g.Chain (m :: states)) (member : m' ∈ m :: states) {cell : Nat}
    (new : m.store.size ≤ cell) (existing : cell < m'.store.size) :
    ∃ x later, Creates (m :: states) cell x later ∧ m' ∈ later := by
  induction states generalizing m with
  | nil =>
    obtain rfl := List.mem_singleton.mp member
    omega
  | cons m₁ rest inductionHypothesis =>
    obtain ⟨step, chainRest⟩ := List.isChain_cons_cons.mp chain
    rcases List.mem_cons.mp member with rfl | member
    · omega
    by_cases created : cell < m₁.store.size
    · obtain ⟨rfl, x, store⟩ := Grant.Steps.exists_create step new created
      exact ⟨x, m₁ :: rest, ⟨[], m, m₁, rest, rfl, rfl, rfl, store⟩, member⟩
    · obtain ⟨x, later, ⟨before, m₂, m₃, rest', eq, creates⟩, among⟩ :=
        inductionHypothesis chainRest member (by omega)
      exact ⟨x, later, ⟨m :: before, m₂, m₃, rest', by rw [eq, List.cons_append], creates⟩, among⟩

/-- What preserves immutable variables keeps them as they were created. -/
theorem Creates.get {states later : List Machine} {cell : Nat} {x : Variable}
    (creates : Creates states cell x later)
    (preserves : states.Pairwise fun m m' => m.store.Preserves m'.store)
    (immutable : x.type.isMutable = false) {m : Machine} (member : m ∈ later) :
    m.store.get cell = x := by
  obtain ⟨before, m₀, m₁, rest, rfl, rfl, rfl, store⟩ := creates
  have created : m₁.store.get m₀.store.size = x := by rw [store, Store.get_create]
  rcases List.mem_cons.mp member with rfl | member
  · exact created
  · -- All later states come behind the one in which the variable is new.
    obtain ⟨_, behind, _⟩ := List.pairwise_append.mp preserves
    have kept := (List.pairwise_cons.mp (List.pairwise_cons.mp behind).2).1 m member
    rw [← created]
    apply kept.immutable
    · simp [store]
    · rw [created, immutable]

/-! ## Sessions -/

/-- Whatever a session does, and whatever of it fails: every variable that there is has been created
at some time, and if its type is not mutable, it is as it was created in all states from then on.
In every state, a view that can be come by is mutable only if the type of its variable is. -/
theorem immutable_variables_keep_their_values [Host] :
    (∀ known last states, Chronicle known last states →
      (∀ m ∈ states, ∀ cell < m.store.size, ∃ x later, Creates states cell x later ∧ m ∈ later) ∧
      ∀ cell x later, Creates states cell x later → x.type.isMutable = false →
        ∀ m ∈ later, m.store.get cell = x) ∧
    ∀ known m, Reached known m →
      (∃ known' last states, Chronicle known' last states ∧ m ∈ states) ∧
      ∀ w, m.store.Reaches (m.Has known) w → w.mutable = true →
        (m.store.get w.cell).type.isMutable = true := by
  have always : Grant.honest.since = 0 := rfl
  refine ⟨fun known last states chronicle => ?_, fun known m reached => ⟨reached.exists_chronicle, ?_⟩⟩
  · have chain := chronicle.chain always
    refine ⟨fun m member cell existing => ?_, fun cell x later creates immutable m member => ?_⟩
    · obtain ⟨m₀, rest, rfl, empty⟩ := chronicle.exists_eq_cons
      exact chain.exists_creates member (by omega) existing
    · exact creates.get chain.preserves immutable member
  · intro w reaches mutable
    have presides := reached.presides always
    exact (presides.store.covers_of_reaches (fun _ => presides.covers_of_has) reaches).2 mutable

/-- After `1 => int x`, neither `2 => x` nor `(x) -> increment` changes the variable; and after
`1 => mut int x`, the mutable view in the scope is one of a mutable variable. -/
theorem immutable_variable_keeps_its_value :
    (∃ known last states later, Chronicle known last states ∧
      Creates states 0 ⟨"x", .base .int false, .int 1⟩ later ∧ last ∈ later ∧
      last.store.get 0 = ⟨"x", .base .int false, .int 1⟩) ∧
    ∃ known, Reached known declaredSession ∧
      declaredSession.store.Reaches (declaredSession.Has known) ⟨0, "x", true⟩ ∧
      (declaredSession.store.get 0).type.isMutable = true := by
  constructor
  · -- The variable is declared, then assigned to, and then passed to a function that counts up.
    have constant (n : Int64) : ∀ a ∈ [Arg.value (.int n)], a.Known fun _ => False :=
      List.forall_mem_singleton.mpr (Arg.known_of_constant (Value.IsConstant.leaves nofun))
    let declares : Request := .declare "x" (.base .int false) (.int 1) .start
    let assigns : Request := .reassign "x" (.int 2) .start
    let increments : Request := .eval (.call (.name "increment" .start) [.name "x" .start] .start)
    let m₀ : Machine := .ofBuiltins Builtin.standard
    let m₁ := Ending.machine (declares.action 9 m₀)
    let m₂ := Ending.machine (assigns.action 9 m₁)
    have declared : Chronicle _ m₁ ([m₀] ++ [m₁]) := .request 9 declares (.begin {}) (constant 1)
    have assigned : Chronicle _ m₂ ([m₀] ++ [m₁] ++ [m₂]) :=
      .request 9 assigns declared fun a given => (constant 2 a given).mono fun _ => False.elim
    have incremented := Chronicle.request 9 increments assigned nofun
    have creates : Creates ([m₀] ++ [m₁] ++ [m₂] ++ increments.course 9 m₂) 0
        ⟨"x", .base .int false, .int 1⟩ (m₁ :: m₂ :: increments.course 9 m₂) :=
      ⟨[], m₀, m₁, _, rfl, rfl, rfl, rfl⟩
    have among : Ending.machine (increments.action 9 m₂) ∈ m₁ :: m₂ :: increments.course 9 m₂ := by
      simp [Request.course]
    refine ⟨_, _, _, _, incremented, creates, among, ?_⟩
    exact (immutable_variables_keep_their_values.1 _ _ _ incremented).2 _ _ _ creates rfl _ among
  · obtain ⟨known, session⟩ := session_declaredSession
    have inScope : declaredSession.Has known ⟨0, "x", true⟩ :=
      .inr (.inl ⟨declaredSession.frame, List.mem_cons_self, List.mem_cons_self⟩)
    refine ⟨known, .between session, .root inScope, ?_⟩
    exact (immutable_variables_keep_their_values.2 known _ (.between session)).2 _ (.root inScope) rfl

end Rightflow
