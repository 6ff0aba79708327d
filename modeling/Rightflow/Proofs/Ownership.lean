import Mathlib.Data.Set.Card
import Mathlib.Order.WellFoundedSet
import Rightflow.Proofs.Immutability

/-!
# Who keeps whom

A variable that holds a callable keeps it, and a callable keeps what is bound to it: callables, and
variables by their views.  In every state of a session a variable keeps only variables that were
created before it, at any depth (`Store.Ordered`).  So nothing keeps itself, and whoever frees an
object as soon as it is kept by nothing frees all that can no longer be reached.

The order of creation is kept because a value can be stored in a new variable only if it was at hand
before, and because nothing but constants is ever written to a variable that exists: a function type
is not mutable.
-/

namespace Rightflow

/-! ## The order of creation -/

/-- What a variable refers to was created before it. -/
def Store.Ordered (s : Store) : Prop :=
  ∀ cell < s.size, ∀ w, .view w ∈ (s.get cell).value.leaves → w.cell < cell

namespace Store.Ordered

variable {s s' : Store}

/-- A type that is mutable is a type of constants. -/
theorem leaves_of_mutable {v : Value} {t : Ty} (typed : v.hasType t = true)
    (mutable : t.isMutable = true) : v.leaves = [] := by
  cases t with
  | func ret params => cases mutable
  | base b mutable => exact (Value.isConstant_of_hasType typed).leaves

theorem create (ordered : s.Ordered) {x : Variable}
    (earlier : ∀ w, .view w ∈ x.value.leaves → w.cell < s.size) : (s.create x).2.Ordered := by
  intro cell existing w refers
  rw [size_create] at existing
  by_cases old : cell < s.size
  · rw [get_create_of_lt s x old] at refers
    exact ordered cell old w refers
  · obtain rfl : cell = s.size := by omega
    rw [get_create] at refers
    exact earlier w refers

theorem set (ordered : s.Ordered) {written : Nat} {v : Value} (constant : v.leaves = []) :
    (s.set written v).Ordered := by
  intro cell existing w refers
  rw [size_set] at existing
  rw [get_set] at refers
  split at refers
  next => simp [constant] at refers
  next => exact ordered cell existing w refers

/-- One step of a session keeps the order. -/
theorem of_steps (ordered : s.Ordered) (step : Grant.honest.Steps s s') : s'.Ordered := by
  cases step with
  | same => exact ordered
  | create x allowed => exact ordered.create fun w refers => (allowed _ refers).1
  | stamp => exact ordered
  | @write w v covered mutable typed =>
    -- A variable that may be written is of a mutable type, and is given a constant.
    exact ordered.set (leaves_of_mutable typed (covered.2 mutable))

end Store.Ordered

/-- A chain of steps keeps the order from its first state to all others. -/
theorem Grant.Chain.ordered {m : Machine} {states : List Machine}
    (chain : Grant.honest.Chain (m :: states)) (ordered : m.store.Ordered) :
    ∀ m' ∈ m :: states, m'.store.Ordered := by
  induction states generalizing m with
  | nil => exact List.forall_mem_singleton.mpr ordered
  | cons m₁ rest inductionHypothesis =>
    obtain ⟨step, later⟩ := List.isChain_cons_cons.mp chain
    exact List.forall_mem_cons.mpr ⟨ordered, inductionHypothesis later (ordered.of_steps step)⟩

theorem Reached.ordered [Host] {known : View → Prop} {m : Machine} (reached : Reached known m) :
    m.store.Ordered := by
  obtain ⟨known', last, states, chronicle, member⟩ := reached.exists_chronicle
  obtain ⟨first, rest, rfl, empty⟩ := chronicle.exists_eq_cons
  have chain := chronicle.chain (g := .honest) rfl
  exact chain.ordered (fun cell existing => by omega) m member

/-! ## Objects -/

/-- What is kept alive by what refers to it. -/
inductive Object where
  | cell (number : Nat)
  | callable (c : Callable)

/-- An object that has a reference to another one. -/
inductive Store.Keeps (s : Store) : Object → Object → Prop
  | value {cell : Nat} {c : Callable} (holds : (s.get cell).value = .callable c) :
      s.Keeps (.cell cell) (.callable c)
  | callee (c : Callable) (args : List Arg) (stamp : Nat) :
      s.Keeps (.callable (.bound c args stamp)) (.callable c)
  | bound {c d : Callable} {args : List Arg} {stamp : Nat} (given : .value (.callable d) ∈ args) :
      s.Keeps (.callable (.bound c args stamp)) (.callable d)
  | view {c : Callable} {w : View} {args : List Arg} {stamp : Nat} (given : .view w ∈ args) :
      s.Keeps (.callable (.bound c args stamp)) (.cell w.cell)

namespace Store

variable {s : Store}

/-- Whatever is referred to is smaller, where no variable comes in between. -/
theorem Keeps.sizeOf_lt {c d : Callable} (keeps : s.Keeps (.callable c) (.callable d)) :
    sizeOf d < sizeOf c := by
  cases keeps with
  | callee c args stamp => simp; omega
  | bound given =>
    have smaller := List.sizeOf_lt_of_mem given
    simp at smaller ⊢
    omega

/-- A callable refers to no more than its leaves say. -/
theorem Keeps.leaves {c d : Callable} (keeps : s.Keeps (.callable c) (.callable d)) {l : Leaf}
    (member : l ∈ d.leaves) : l ∈ c.leaves := by
  cases keeps with
  | callee c args stamp => simp [member]
  | bound given =>
    simp only [Callable.leaves_bound, List.mem_append, List.mem_flatMap]
    exact .inr ⟨_, given, by simpa using member⟩

/-- The references from a callable come to an end if those from the variables in it do. -/
theorem acc_callable (c : Callable)
    (inside : ∀ w, .view w ∈ c.leaves → Acc (flip s.Keeps) (.cell w.cell)) :
    Acc (flip s.Keeps) (.callable c) := by
  induction size : sizeOf c using Nat.strongRecOn generalizing c with
  | ind n inductionHypothesis =>
    refine .intro _ fun kept keeps => ?_
    cases kept with
    | callable d =>
      have keeps : s.Keeps (.callable c) (.callable d) := keeps
      exact inductionHypothesis _ (size ▸ keeps.sizeOf_lt) d
        (fun w member => inside w (keeps.leaves member)) rfl
    | cell cell =>
      cases keeps with
      | view given =>
        refine inside _ ?_
        simp only [Callable.leaves_bound, List.mem_append, List.mem_flatMap]
        exact .inr ⟨_, given, by simp⟩

theorem Ordered.acc_cell (ordered : s.Ordered) (cell : Nat) :
    Acc (flip s.Keeps) (.cell cell) := by
  induction cell using Nat.strongRecOn with
  | ind cell inductionHypothesis =>
    refine .intro _ fun kept keeps => ?_
    cases keeps with
    | value holds =>
      refine acc_callable _ fun w member => inductionHypothesis _ ?_
      -- A number that is none of a variable stands for no value.
      by_cases existing : cell < s.size
      · exact ordered cell existing w (by simpa [holds] using member)
      · have missing : (s.get cell).value = .none := by
          have outside : s.cells.size ≤ cell := Nat.le_of_not_lt existing
          simp [Store.get, Array.getD_eq_getD_getElem?, Array.getElem?_eq_none outside]
          rfl
        simp [missing] at holds

/-- From every object, the references come to an end. -/
theorem Ordered.wellFounded (ordered : s.Ordered) : WellFounded (flip s.Keeps) :=
  ⟨fun
    | .cell cell => ordered.acc_cell cell
    | .callable c => acc_callable c fun w _ => ordered.acc_cell w.cell⟩

/-! ## Counting references -/

/-- An object is freed: nothing outside holds it, and no object that is left keeps it. -/
inductive Frees (s : Store) (held : Object → Prop) : Set Object → Set Object → Prop
  | free {left : Set Object} {x : Object} (member : x ∈ left) (unheld : ¬ held x)
      (unkept : ∀ y ∈ left, ¬ s.Keeps y x) : s.Frees held left (left \ {x})

/-- Freeing has come to its end. -/
def Settled (s : Store) (held : Object → Prop) (left : Set Object) : Prop :=
  ∀ less, ¬ s.Frees held left less

variable {held : Object → Prop} {left less : Set Object}

/-- Sooner or later nothing more is freed. -/
theorem exists_settled (finite : left.Finite) :
    ∃ less, Relation.ReflTransGen (s.Frees held) left less ∧ s.Settled held less := by
  induction size : left.ncard using Nat.strongRecOn generalizing left with
  | ind n inductionHypothesis =>
    by_cases settled : s.Settled held left
    · exact ⟨left, .refl, settled⟩
    · simp only [Settled, not_forall, not_not] at settled
      obtain ⟨next, frees⟩ := settled
      have smaller : next.ncard < n := by
        cases frees with
        | free member _ _ => exact size ▸ Set.ncard_sdiff_singleton_lt_of_mem member finite
      have finite' : next.Finite := by
        cases frees with
        | free _ _ _ => exact finite.subset Set.sdiff_subset
      obtain ⟨less, later, settled⟩ := inductionHypothesis _ smaller finite' rfl
      exact ⟨less, .head frees later, settled⟩

theorem subset_of_frees (frees : Relation.ReflTransGen (s.Frees held) left less) : less ⊆ left := by
  induction frees with
  | refl => exact subset_rfl
  | tail _ step inductionHypothesis =>
    cases step with
    | free _ _ _ => exact Set.sdiff_subset.trans inductionHypothesis

theorem Ordered.acyclic (ordered : s.Ordered) (x : Object) : ¬ Relation.TransGen s.Keeps x x := by
  intro cycle
  have back : Relation.TransGen (flip s.Keeps) x x := Relation.transGen_swap.mpr cycle
  exact ordered.wellFounded.transGen.irrefl.irrefl x back

/-- At the end, whatever is left is kept from outside. -/
theorem Ordered.kept_of_settled (ordered : s.Ordered) (finite : left.Finite)
    (settled : s.Settled held left) {x : Object} (member : x ∈ left) :
    ∃ root ∈ left, held root ∧ Relation.ReflTransGen s.Keeps root x := by
  -- The induction goes from an object to those that keep it.  There is an end to that too, since
  -- there are finitely many objects and no cycles.
  have order : IsStrictOrder Object (Relation.TransGen s.Keeps) :=
    { irrefl := ordered.acyclic, trans := fun _ _ _ => .trans }
  have founded : left.WellFoundedOn (Relation.TransGen s.Keeps) := finite.wellFoundedOn
  refine founded.induction (P := fun x => ∃ root ∈ left, held root ∧
    Relation.ReflTransGen s.Keeps root x) member fun x member inductionHypothesis => ?_
  by_cases outside : held x
  · exact ⟨x, member, outside, .refl⟩
  · obtain ⟨y, left', keeps⟩ : ∃ y ∈ left, s.Keeps y x := by
      by_contra unkept
      simp only [not_exists, not_and] at unkept
      exact settled _ (.free member outside unkept)
    obtain ⟨root, among, fromOutside, keeps'⟩ := inductionHypothesis y left' (.single keeps)
    exact ⟨root, among, fromOutside, keeps'.tail keeps⟩

end Store

/-- In every state of a session, what a variable refers to was created before it, through however
many callables; so no object keeps itself.  Let any objects be left, some of them held from outside:
freeing those that are neither held nor kept comes to an end, and what is left then is held, or is
kept by what is held. -/
theorem ownership_is_acyclic [Host] {known : View → Prop} {m : Machine}
    (reached : Reached known m) :
    (∀ cell < m.store.size, ∀ w, .view w ∈ (m.store.get cell).value.leaves → w.cell < cell) ∧
    (∀ x, ¬ Relation.TransGen m.store.Keeps x x) ∧
    ∀ (held : Object → Prop) (left : Set Object), left.Finite →
      (∃ less, Relation.ReflTransGen (m.store.Frees held) left less ∧ m.store.Settled held less) ∧
      ∀ less, Relation.ReflTransGen (m.store.Frees held) left less → m.store.Settled held less →
        ∀ x ∈ less, ∃ root ∈ less, held root ∧ Relation.ReflTransGen m.store.Keeps root x := by
  have ordered := reached.ordered
  refine ⟨ordered, ordered.acyclic, fun held left finite => ⟨Store.exists_settled finite, ?_⟩⟩
  intro less frees settled x member
  exact ordered.kept_of_settled (finite.subset (Store.subset_of_frees frees)) settled member

/-- The session of `declaredSession` behind `(x) ->> increment => [void::] f;`. -/
def boundSession [Host] : Machine :=
  Ending.machine ((Request.statement (.assign
    ⟨.bind (.name "increment" .start) [.name "x" .start] .start,
      some (.func (.base .void false) []), "f", .start⟩)).action 9 declaredSession)

/-- The callable that the session has stored in `f`. -/
def boundIncrement : Callable := .bound (.builtin Builtin.increment 1) [.view ⟨0, "x", true⟩] 2

/-- The second variable keeps the first one, by way of a callable.  Once nothing holds any of them,
all are freed. -/
theorem boundSession_is_acyclic :
    ∃ known, Reached known boundSession ∧
      (boundSession.store.get 1).value = .callable boundIncrement ∧
      .view ⟨0, "x", true⟩ ∈ boundIncrement.leaves ∧ 0 < 1 ∧
      ¬ Relation.TransGen boundSession.store.Keeps (.cell 1) (.cell 1) ∧
      Relation.ReflTransGen (boundSession.store.Frees fun _ => False)
        {.cell 1, .callable boundIncrement, .cell 0} ∅ := by
  obtain ⟨known, session⟩ := session_declaredSession
  have reached : Reached _ boundSession := .between (.request 9 _ session nofun)
  obtain ⟨ordered, acyclic, frees⟩ := ownership_is_acyclic reached
  have holds : (boundSession.store.get 1).value = .callable boundIncrement := rfl
  have refers : .view ⟨0, "x", true⟩ ∈ boundIncrement.leaves := by simp [boundIncrement]
  refine ⟨_, reached, holds, refers, ordered 1 (by decide) ⟨0, "x", true⟩ ?_, acyclic _, ?_⟩
  · simpa [holds] using refers
  · obtain ⟨⟨less, freed, settled⟩, kept⟩ := frees (fun _ => False)
      {.cell 1, .callable boundIncrement, .cell 0} (Set.toFinite _)
    obtain rfl : less = ∅ := Set.eq_empty_of_forall_notMem fun x member => by
      obtain ⟨_, _, outside, _⟩ := kept less freed settled x member
      exact outside
    exact freed

end Rightflow
