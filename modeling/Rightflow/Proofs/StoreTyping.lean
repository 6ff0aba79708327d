import Rightflow.Proofs.Reached

/-!
# Variables hold values of their types

In every state of every session, each variable that a program or its driver can come by has a type
that is not void, and holds a value of exactly that type; and no two variables of a scope have one
name.  So the native functions never meet a value that they are not made for.

This is the grant under which every view of an existing variable may be held.
-/

namespace Rightflow

/-- Every existing variable may be seen and assigned. -/
def Grant.everything : Grant where
  since := 0
  Covers s w := w.cell < s.size
  existing covered := covered
  stable grown existing := ⟨fun _ => existing, fun _ => Nat.lt_of_lt_of_le existing grown.size⟩
  restrict covered _ := covered
  fresh _ := by rw [Store.size_create]; exact Nat.lt_succ_self _

/-- The views that are at hand in a machine: those known outside, those of all frames, and those
bound to a callable that has a name. -/
def Machine.Has (known : View → Prop) (m : Machine) (w : View) : Prop :=
  known w ∨ (∃ f ∈ m.frame :: m.callers, w ∈ f.views) ∨
    ∃ x c, m.functions.find? x = some c ∧ .view w ∈ c.leaves

structure Machine.StoreTyped (known : View → Prop) (m : Machine) : Prop where
  existing : ∀ w, m.store.Reaches (m.Has known) w → w.cell < m.store.size
  typed : ∀ cell < m.store.size, (m.store.get cell).type.isVoid = false ∧
    (m.store.get cell).value.hasType (m.store.get cell).type = true
  distinct : ∀ f ∈ m.frame :: m.callers, ∀ scope ∈ f.scopes,
    (scope.map fun w => (m.store.get w.cell).name).Nodup

theorem FunctionTable.IsGlobal.no_view {t : FunctionTable} (isGlobal : t.IsGlobal) {x : String}
    {c : Callable} (found : t.find? x = some c) {w : View} : .view w ∉ c.leaves := by
  intro member
  rcases isGlobal x c found with ⟨f, rfl⟩ | ⟨b, stamp, rfl, _⟩
  · rw [Callable.leaves_function] at member
    cases List.mem_singleton.mp member
  · rw [Callable.leaves_builtin] at member
    cases List.mem_singleton.mp member

namespace Grant

variable {g : Grant} {known : View → Prop} {m : Machine} {w : View}

theorem Presides.oversees (presides : g.Presides known m) :
    ∀ f ∈ m.frame :: m.callers, g.Oversees m.store f :=
  List.forall_mem_cons.mpr ⟨presides.frame, presides.callers⟩

theorem Presides.covers_of_has (presides : g.Presides known m) (has : m.Has known w) :
    g.Covers m.store w := by
  rcases has with outside | ⟨f, among, member⟩ | ⟨x, c, found, member⟩
  · exact presides.known w outside
  · exact (presides.oversees f among).views w member
  · exact absurd member (presides.functions.no_view found)

/-- In a scope a variable goes by its own name. -/
theorem Oversees.names {s : Store} {f : Frame} (overseen : g.Oversees s f) {scope : List View}
    (open' : scope ∈ f.scopes) :
    scope.map (fun w => (s.get w.cell).name) = scope.map (·.name) := by
  refine List.map_congr_left fun w member => ?_
  have direct := overseen.direct scope open' w member
  exact (congrArg View.name direct).symm

theorem Presides.storeTyped (presides : g.Presides known m) : m.StoreTyped known where
  existing _ reached :=
    g.existing (presides.store.covers_of_reaches (fun _ => presides.covers_of_has) reached)
  typed cell existing := by
    have typed := presides.store.typed cell existing
    exact ⟨Value.isVoid_of_hasType typed, typed⟩
  distinct f among scope open' := by
    -- A view in a scope bears the name of its variable, so that it does not matter which is meant.
    have overseen := presides.oversees f among
    rw [overseen.names open']
    exact overseen.distinct scope open'

end Grant

/-- In every state of a session, in the middle of a request or between two of them, all that can be
come by are variables that exist, all of these hold values of their types, and the names in a scope
are distinct.  The native code of `stdout` is entered with one string, and that of `increment` finds
an integer in the variable that it is given. -/
theorem sessions_are_store_typed [Host] :
    (∀ known m, Reached known m → m.StoreTyped known) ∧
    (∀ known n args p m, Entered known n (.native .write args p) m →
      ∃ a text, args = [a] ∧ m.store.argValue a = .string text) ∧
    ∀ known n w rest p m, Entered known n (.native .increment (.view w :: rest) p) m →
      ∃ k, (m.store.get w.cell).value = .int k := by
  have always : Grant.everything.since = 0 := rfl
  refine ⟨fun known m reached => (reached.presides always).storeTyped,
    fun known n args p m entered => (entered.stands always).fits, ?_⟩
  intro known n w rest p m entered
  obtain ⟨a, k, same, value, _⟩ := (entered.stands always).fits
  -- The first argument is the only one, and it is a view, which stands for what its variable holds.
  cases same
  exact ⟨k, value⟩

/-- A fresh session that has declared `1 => mut int x`. -/
def declaredSession [Host] : Machine :=
  Ending.machine ((Request.declare "x" (.base .int true) (.int 1) .start).action 9
    (.ofBuiltins Builtin.standard))

theorem session_declaredSession [Host] : ∃ known, Session known declaredSession := by
  refine ⟨_, .request 9 (.declare "x" (.base .int true) (.int 1) .start) (.begin {}) ?_⟩
  have constant : (Value.int 1).IsConstant := nofun
  exact List.forall_mem_singleton.mpr (Arg.known_of_constant constant.leaves)

/-- `(x) -> increment` and `("x") -> stdout` in that session enter both native functions. -/
theorem declaredSession_is_store_typed :
    ∃ known, Session known declaredSession ∧ declaredSession.StoreTyped known ∧
      (∃ n m args, Entered known n (.native .write args .start) m ∧
        ∃ a text, args = [a] ∧ m.store.argValue a = .string text) ∧
      ∃ n m w, Entered known n (.native .increment [.view w] .start) m ∧
        ∃ k, (m.store.get w.cell).value = .int k := by
  obtain ⟨known, session⟩ := session_declaredSession
  have writes : Entered known 7 (.native .write [.value (.string "x")] .start) declaredSession :=
    .during (n := 9)
      (r := .eval (.call (.name "stdout" .start) [.literal (.string "x") .start] .start))
      session nofun (.head _) (.inside (.tail _ (.tail _ (.head _))) (.inside (.head _) (.here ..)))
  have increments : Entered known 7
      (.native .increment [.view ⟨0, "increment argument 1", true⟩] .start) declaredSession :=
    .during (n := 9) (r := .eval (.call (.name "increment" .start) [.name "x" .start] .start))
      session nofun (.head _) (.inside (.tail _ (.tail _ (.head _))) (.inside (.head _) (.here ..)))
  exact ⟨known, session, sessions_are_store_typed.1 known _ (.between session),
    ⟨7, _, _, writes, sessions_are_store_typed.2.1 known 7 _ _ _ writes⟩,
    7, _, _, increments, sessions_are_store_typed.2.2 known 7 _ _ _ _ increments⟩

end Rightflow
