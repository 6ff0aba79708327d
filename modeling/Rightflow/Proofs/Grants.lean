import Rightflow.Proofs.Binding

/-!
# What an evaluation may come to hold

All that an evaluation can see or change it reaches by views: those of its frame, those bound to the
callables that it has in hand, and those in the values of variables that it sees.  A `Grant` says
which views these may be.  A machine that is ruled by a grant stays so, and every variable that is
written on the way is one with a mutable view under the grant (`Turns`); this is the discipline
`Grant.discipline`.

The grant is a parameter, because what is worth following differs: the views of any existing
variables, say, or those that can be reached from the arguments of one call.  The store is typed
under every grant, and the names in a scope are distinct.
-/

namespace Rightflow

/-- The views that can be come by from others: those bound to the callables in their variables, to
those in the variables of these, and so on. -/
inductive Store.Reaches (s : Store) (roots : View → Prop) : View → Prop
  | root {w : View} (start : roots w) : s.Reaches roots w
  | through {u w : View} (before : s.Reaches roots u)
      (member : .view w ∈ (s.get u.cell).value.leaves) : s.Reaches roots w

structure Grant where
  /-- How many variables there were when the grant was made. -/
  since : Nat
  Covers : Store → View → Prop
  existing : ∀ {s : Store} {w : View}, Covers s w → w.cell < s.size
  stable : ∀ {s s' : Store} {w : View}, s.Grows s' → w.cell < s.size → (Covers s' w ↔ Covers s w)
  restrict : ∀ {s : Store} {w : View} {name : String} {mutable : Bool},
    Covers s w → (mutable = true → w.mutable = true) → Covers s ⟨w.cell, name, mutable⟩
  fresh : ∀ {s : Store} {x : Variable},
    since ≤ s.size → Covers (s.create x).2 ((s.create x).2.directView s.size)

namespace Grant

variable {g : Grant} {s s' s'' : Store} {w : View}

theorem covers_mono (grown : s.Grows s') (covered : g.Covers s w) : g.Covers s' w :=
  (g.stable grown (g.existing covered)).mpr covered

/-- An argument that the grant lets an evaluation have in hand. -/
def AllowsArg (g : Grant) (s : Store) (a : Arg) : Prop := a.Known (g.Covers s)

theorem AllowsArg.mono {a : Arg} (grown : s.Grows s') (allowed : g.AllowsArg s a) :
    g.AllowsArg s' a :=
  Arg.Known.mono allowed fun _ => covers_mono grown

theorem allowsArg_of_constant {v : Value} (constant : v.IsConstant) : g.AllowsArg s (.value v) :=
  Arg.known_of_constant constant.leaves

theorem allowsArg_view : g.AllowsArg s (.view w) ↔ g.Covers s w := Arg.known_view

theorem knows_of_allowed {args : List Arg} (allowed : ∀ a ∈ args, g.AllowsArg s a) :
    s.Knows args :=
  fun _ member => g.existing (allowsArg_view.mp (allowed _ member))

/-- What a parameter takes holds nothing that the argument does not hold. -/
theorem AllowsArg.bindArg {x : Param} {a b : Arg} (allowed : g.AllowsArg s a)
    (taken : s.bindArg x a = .ok b) : g.AllowsArg s b := by
  rcases Store.bindArg_ok taken with ⟨v, v', rfl, given, rfl⟩ | ⟨w, rfl, _, mutable, rfl⟩
  · exact fun l member => allowed l (Value.mem_leaves_of_cast given member)
  · exact allowsArg_view.mpr (g.restrict (allowsArg_view.mp allowed) mutable)

theorem allowsArg_of_bindArgs {params : List Param} {args bound : List Arg}
    (allowed : ∀ a ∈ args, g.AllowsArg s a) (taken : s.bindArgs params args = .ok bound) :
    ∀ b ∈ bound, g.AllowsArg s b := by
  intro b member
  obtain ⟨x, a, among, head⟩ := Store.exists_of_mem_bindArgs taken member
  exact (allowed a (List.of_mem_zip among).2).bindArg head

/-! ## Stores -/

structure Governs (g : Grant) (s : Store) : Prop where
  since : g.since ≤ s.size
  typed : s.Typed
  closed : ∀ w, g.Covers s w → g.AllowsArg s (.value (s.get w.cell).value)

/-- What is reached from covered views is covered. -/
theorem Governs.covers_of_reaches (governed : g.Governs s) {roots : View → Prop}
    (covered : ∀ u, roots u → g.Covers s u) (reached : s.Reaches roots w) : g.Covers s w := by
  induction reached with
  | root start => exact covered _ start
  | through _ member inductionHypothesis => exact governed.closed _ inductionHypothesis _ member

theorem Governs.create (governed : g.Governs s) {x : Variable}
    (typed : x.value.hasType x.type = true) (allowed : g.AllowsArg s (.value x.value)) :
    g.Governs (s.create x).2 := by
  have grown : s.Grows (s.create x).2 := .create s x
  refine ⟨Nat.le_trans governed.since grown.size, fun cell existing => ?_, fun w covered => ?_⟩
  · rw [Store.size_create] at existing
    -- A variable of the later store is an old one or the new one.
    by_cases old : cell < s.size
    · rw [Store.get_create_of_lt s x old]
      exact governed.typed cell old
    · obtain rfl : cell = s.size := by omega
      rw [Store.get_create]
      exact typed
  · have existing := g.existing covered
    rw [Store.size_create] at existing
    by_cases old : w.cell < s.size
    · rw [Store.get_create_of_lt s x old]
      exact (governed.closed w ((g.stable grown old).mp covered)).mono grown
    · rw [show w.cell = s.size by omega, Store.get_create]
      exact allowed.mono grown

theorem Governs.set (governed : g.Governs s) {cell : Nat} {v : Value}
    (typed : v.hasType (s.get cell).type = true) (allowed : g.AllowsArg s (.value v)) :
    g.Governs (s.set cell v) := by
  have grown : s.Grows (s.set cell v) := .set s cell v
  refine ⟨Nat.le_trans governed.since grown.size, fun other existing => ?_, fun w covered => ?_⟩
  · rw [Store.size_set] at existing
    rw [Store.get_set]
    split
    next same => rw [← same.1]; exact typed
    next => exact governed.typed other existing
  · have existing := g.existing covered
    rw [Store.size_set] at existing
    rw [Store.get_set]
    split
    next => exact allowed.mono grown
    next => exact (governed.closed w ((g.stable grown existing).mp covered)).mono grown

theorem Governs.stamp (governed : g.Governs s) : g.Governs s.stamp.2 := by
  have grown : s.Grows s.stamp.2 := .stamp s
  refine ⟨governed.since, governed.typed, fun w covered => ?_⟩
  have existing := g.existing covered
  change w.cell < s.size at existing
  exact (governed.closed w ((g.stable grown existing).mp covered)).mono grown

theorem Governs.adopt {bound : List Arg} {views : List View} (adopted : s.Adopts bound views s')
    (governed : g.Governs s) (allowed : ∀ b ∈ bound, g.AllowsArg s b) :
    g.Governs s' ∧ ∀ w ∈ views, g.Covers s' w := by
  induction adopted with
  | nil s => exact ⟨governed, nofun⟩
  | view w rest inductionHypothesis =>
    obtain ⟨head, tail⟩ := List.forall_mem_cons.mp allowed
    obtain ⟨governed', covered⟩ := inductionHypothesis governed tail
    refine ⟨governed', List.forall_mem_cons.mpr ⟨?_, covered⟩⟩
    exact covers_mono rest.grows (allowsArg_view.mp head)
  | value x v typed rest inductionHypothesis =>
    obtain ⟨head, tail⟩ := List.forall_mem_cons.mp allowed
    have created : g.Governs _ := governed.create (x := ⟨x.name, x.type, v⟩) typed head
    obtain ⟨governed', covered⟩ := inductionHypothesis created fun b member =>
      (tail b member).mono (.create _ _)
    refine ⟨governed', List.forall_mem_cons.mpr ⟨?_, covered⟩⟩
    exact covers_mono rest.grows (g.fresh governed.since)

/-- A later state of a store, in which only what has a mutable view under the grant was written. -/
structure Evolves (g : Grant) (s s' : Store) : Prop extends s.Grows s' where
  written : ∀ cell < s.size,
    s'.get cell = s.get cell ∨ ∃ w, g.Covers s' w ∧ w.cell = cell ∧ w.mutable = true

namespace Evolves

theorem refl (g : Grant) (s : Store) : g.Evolves s s := ⟨.refl s, fun _ _ => .inl rfl⟩

theorem trans (first : g.Evolves s s') (second : g.Evolves s' s'') : g.Evolves s s'' := by
  refine ⟨first.toGrows.trans second.toGrows, fun cell existed => ?_⟩
  -- What was written first was written through a view that is covered in the last store as well.
  rcases second.written cell (Nat.lt_of_lt_of_le existed first.size) with same | writable
  · rw [same]
    rcases first.written cell existed with unchanged | ⟨w, covered, found⟩
    · exact .inl unchanged
    · exact .inr ⟨w, covers_mono second.toGrows covered, found⟩
  · exact .inr writable

theorem create (g : Grant) (s : Store) (x : Variable) : g.Evolves s (s.create x).2 :=
  ⟨.create s x, fun _ existed => .inl (Store.get_create_of_lt s x existed)⟩

theorem stamp (g : Grant) (s : Store) : g.Evolves s s.stamp.2 := ⟨.stamp s, fun _ _ => .inl rfl⟩

theorem set (covered : g.Covers s w) (mutable : w.mutable = true) (v : Value) :
    g.Evolves s (s.set w.cell v) := by
  have grown : s.Grows (s.set w.cell v) := .set s w.cell v
  refine ⟨grown, fun cell existed => ?_⟩
  rw [Store.get_set]
  split
  next same => exact .inr ⟨w, covers_mono grown covered, same.1, mutable⟩
  next => exact .inl rfl

theorem adopt {bound : List Arg} {views : List View} (adopted : s.Adopts bound views s') :
    g.Evolves s s' :=
  ⟨adopted.grows, fun _ existed => .inl (adopted.get existed)⟩

end Evolves

/-! ## Frames and functions -/

structure Oversees (g : Grant) (s : Store) (f : Frame) : Prop where
  views : ∀ w ∈ f.views, g.Covers s w
  direct : ∀ scope ∈ f.scopes, ∀ w ∈ scope, w = s.directView w.cell
  distinct : ∀ scope ∈ f.scopes, (scope.map (·.name)).Nodup

namespace Oversees

variable {f : Frame}

theorem covers_of_mem_scope (overseen : g.Oversees s f) {scope : List View}
    (open' : scope ∈ f.scopes) (member : w ∈ scope) : g.Covers s w :=
  overseen.views w (List.mem_append_left _ (List.mem_flatten.mpr ⟨scope, open', member⟩))

theorem mono (grown : s.Grows s') (overseen : g.Oversees s f) : g.Oversees s' f := by
  refine ⟨fun w member => covers_mono grown (overseen.views w member), ?_, overseen.distinct⟩
  intro scope open' w member
  rw [grown.directView (g.existing (overseen.covers_of_mem_scope open' member))]
  exact overseen.direct scope open' w member

theorem pushScope (overseen : g.Oversees s f) : g.Oversees s f.pushScope :=
  ⟨overseen.views, List.forall_mem_cons.mpr ⟨nofun, overseen.direct⟩,
    List.forall_mem_cons.mpr ⟨List.nodup_nil, overseen.distinct⟩⟩

theorem withScope (overseen : g.Oversees s f) : g.Oversees s f.withScope := by
  unfold Frame.withScope
  split
  · exact overseen.pushScope
  · exact overseen

theorem popScope (overseen : g.Oversees s f) : g.Oversees s f.popScope := by
  obtain ⟨params, scopes⟩ := f
  cases scopes with
  | nil => exact overseen
  | cons scope rest =>
    refine ⟨fun w member => overseen.views w ?_, (List.forall_mem_cons.mp overseen.direct).2,
      (List.forall_mem_cons.mp overseen.distinct).2⟩
    simp only [Frame.views, Frame.popScope, List.tail_cons, List.flatten_cons, List.mem_append]
      at member ⊢
    tauto

theorem innermost (overseen : g.Oversees s f) :
    (∀ w ∈ f.innermost, w = s.directView w.cell) ∧ (f.innermost.map (·.name)).Nodup := by
  unfold Frame.innermost
  cases scopes : f.scopes with
  | nil => exact ⟨nofun, List.nodup_nil⟩
  | cons scope rest =>
    have open' : scope ∈ f.scopes := scopes ▸ List.mem_cons_self
    exact ⟨overseen.direct scope open', overseen.distinct scope open'⟩

theorem declare (overseen : g.Oversees s f) (covered : g.Covers s w)
    (direct : w = s.directView w.cell) (free : f.declares w.name = false) :
    g.Oversees s (f.declare w) := by
  obtain ⟨innerDirect, innerDistinct⟩ := overseen.innermost
  refine ⟨?_, List.forall_mem_cons.mpr ⟨List.forall_mem_cons.mpr ⟨direct, innerDirect⟩, ?_⟩,
    List.forall_mem_cons.mpr ⟨List.nodup_cons.mpr ⟨?_, innerDistinct⟩, ?_⟩⟩
  · rw [Frame.views_declare]
    exact List.forall_mem_cons.mpr ⟨covered, overseen.views⟩
  · exact fun scope member => overseen.direct scope (List.mem_of_mem_tail member)
  · intro member
    -- A variable of that name in the scope would have kept the new one from being declared.
    obtain ⟨u, found, same⟩ := List.mem_map.mp member
    simp only [Frame.declares, List.any_eq_false, decide_eq_true_eq] at free
    exact free u found same
  · exact fun scope member => overseen.distinct scope (List.mem_of_mem_tail member)

theorem params {views : List View} (covered : ∀ w ∈ views, g.Covers s w) :
    g.Oversees s { params := views } :=
  ⟨covered, nofun, nofun⟩

end Oversees

end Grant

/-- A table of functions of the program and of the standard native ones. -/
def FunctionTable.IsGlobal (t : FunctionTable) : Prop :=
  ∀ x c, t.find? x = some c →
    (∃ f, c = .function f) ∨ ∃ b stamp, c = .builtin b stamp ∧ b ∈ Builtin.standard

theorem Grant.allowsArg_of_isGlobal {g : Grant} {s : Store} {t : FunctionTable}
    (isGlobal : t.IsGlobal) {x : String} {c : Callable} (found : t.find? x = some c) :
    g.AllowsArg s (.value (.callable c)) := by
  rcases isGlobal x c found with ⟨f, rfl⟩ | ⟨b, stamp, rfl, standard⟩
  · exact Arg.known_function f
  · exact Arg.known_builtin.mpr standard

/-! ## Machines -/

namespace Grant

structure Rules (g : Grant) (m : Machine) : Prop where
  store : g.Governs m.store
  frame : g.Oversees m.store m.frame
  functions : m.functions.IsGlobal

/-- A later state of a machine that is ruled still. -/
structure Turns (g : Grant) (m m' : Machine) : Prop where
  ruled : g.Rules m'
  store : g.Evolves m.store m'.store
  callers : m'.callers = m.callers
  functions : m'.functions = m.functions

variable {g : Grant} {m m' m'' : Machine} {s : Store} {w : View}

theorem turns_refl (ruled : g.Rules m) : g.Turns m m := ⟨ruled, .refl g _, rfl, rfl⟩

theorem Turns.trans (first : g.Turns m m') (second : g.Turns m' m'') : g.Turns m m'' :=
  ⟨second.ruled, first.store.trans second.store, second.callers.trans first.callers,
    second.functions.trans first.functions⟩

theorem turns_of_store (ruled : g.Rules m) (evolved : g.Evolves m.store s)
    (governed : g.Governs s) : g.Turns m { m with store := s } :=
  ⟨⟨governed, ruled.frame.mono evolved.toGrows, ruled.functions⟩, evolved, rfl, rfl⟩

theorem turns_of_frame (ruled : g.Rules m) {f : Frame} (overseen : g.Oversees m.store f) :
    g.Turns m { m with frame := f } :=
  ⟨⟨ruled.store, overseen, ruled.functions⟩, .refl g _, rfl, rfl⟩

theorem Rules.covers_of_resolve? (ruled : g.Rules m) {x : String}
    (found : m.frame.resolve? x = some w) : g.Covers m.store w :=
  ruled.frame.views w (List.mem_of_find?_eq_some found)

end Grant

namespace Action

open Grant

variable {g : Grant} {m : Machine}

theorem name_turns (ruled : g.Rules m) (x : String) (p : Position) :
    Leads (g.Turns m) (name x p) m fun v s => g.AllowsArg s (.value v) := by
  unfold Leads
  rw [name_run]
  cases found : m.frame.resolve? x with
  | some w =>
    exact ⟨turns_refl ruled, ruled.store.closed w (ruled.covers_of_resolve? found)⟩
  | none =>
    cases defined : m.functions.find? x with
    | some c => exact ⟨turns_refl ruled, allowsArg_of_isGlobal ruled.functions defined⟩
    | none => exact turns_refl ruled

theorem bindFront_turns (ruled : g.Rules m) {callee : Callable} {args : List Arg}
    (heldCallee : g.AllowsArg m.store (.value (.callable callee)))
    (heldArgs : ∀ a ∈ args, g.AllowsArg m.store a) :
    Leads (g.Turns m) (bindFront callee args) m fun v s => g.AllowsArg s (.value v) := by
  refine ⟨turns_of_store ruled (.stamp g _) ruled.store.stamp, .mono (.stamp m.store) ?_⟩
  intro l member
  rw [Arg.leaves_value, Value.leaves_callable, Callable.leaves_bound, List.mem_append,
    List.mem_flatMap] at member
  rcases member with inside | ⟨a, given, held⟩
  · exact heldCallee l (by rwa [Arg.leaves_value, Value.leaves_callable])
  · exact heldArgs a given l held

theorem declare_turns (ruled : g.Rules m) {v : Value} (held : g.AllowsArg m.store (.value v))
    (x : String) (t : Ty) (p : Position) :
    Leads (g.Turns m) (declare x t v p) m fun w s => g.AllowsArg s (.view w) := by
  have opened := turns_of_frame ruled ruled.frame.withScope
  unfold Leads
  rw [declare_run]
  by_cases void : t.isVoid = true
  · rw [if_pos void]
    exact turns_refl ruled
  by_cases taken : m.frame.withScope.declares x = true
  · rw [if_neg void, if_pos taken]
    exact opened
  rw [if_neg void, if_neg taken]
  cases given : v.cast t with
  | error cause => exact opened
  | ok v' =>
    let created : Variable := ⟨x, t, v'⟩
    have evolved : g.Evolves m.store (m.store.create created).2 := .create g m.store created
    have governed : g.Governs (m.store.create created).2 :=
      ruled.store.create (Value.hasType_of_cast given) fun l member =>
        held l (Value.mem_leaves_of_cast given member)
    have covered := g.fresh (x := created) ruled.store.since
    refine ⟨⟨⟨governed, ?_, ruled.functions⟩, evolved, rfl, rfl⟩, allowsArg_view.mpr covered⟩
    refine (ruled.frame.withScope.mono evolved.toGrows).declare covered rfl ?_
    dsimp only [Store.directView]
    rw [Store.get_create]
    exact eq_false_of_ne_true taken

theorem reassign_turns (ruled : g.Rules m) {v : Value} (held : g.AllowsArg m.store (.value v))
    (x : String) (p : Position) :
    Leads (g.Turns m) (reassign x v p) m fun _ _ => True := by
  unfold Leads
  rw [reassign_run]
  cases found : m.frame.resolve? x with
  | none => exact turns_refl ruled
  | some w =>
    dsimp only
    by_cases mutable : w.mutable = true
    · rw [if_pos mutable]
      cases given : v.cast (m.store.get w.cell).type with
      | error cause => exact turns_refl ruled
      | ok v' =>
        have governed : g.Governs (m.store.set w.cell v') :=
          ruled.store.set (Value.hasType_of_cast given) fun l member =>
            held l (Value.mem_leaves_of_cast given member)
        exact ⟨turns_of_store ruled (.set (ruled.covers_of_resolve? found) mutable v') governed,
          trivial⟩
    · rw [if_neg mutable]
      exact turns_refl ruled

/-! ## Native functions -/

/-- A native function that fits what it is given changes the sink, or a variable of which it has
been given a mutable view. -/
theorem native_evolves [Host] {action : Native} {args : List Arg} (governed : g.Governs m.store)
    (held : ∀ a ∈ args, g.AllowsArg m.store a) (fits : action.Fits m.store args) (p : Position) :
    ∃ s sink, Ending.machine (native action args p m) = { m with store := s, sink := sink } ∧
      g.Evolves m.store s ∧ g.Governs s := by
  cases action with
  | foreign code => exact fits.elim
  | write =>
    obtain ⟨a, _, rfl, _⟩ := fits
    rw [native_write, machine_map fun _ => Value.none, writeValue_run]
    refine ⟨m.store, (m.sink.writeAll (m.store.argValue a).pieces).2, ?_, .refl g _, governed⟩
    dsimp only
    split <;> rfl
  | increment =>
    obtain ⟨a, _, rfl, _, mutable⟩ := fits
    have same : ∃ s sink, m = { m with store := s, sink := sink } ∧
        g.Evolves m.store s ∧ g.Governs s := ⟨m.store, m.sink, rfl, .refl g _, governed⟩
    cases a with
    | value v => exact same
    | view w =>
      have covered := allowsArg_view.mp (held (.view w) List.mem_cons_self)
      rw [native_increment, machine_map fun _ => Value.none, incrementArg_run]
      cases before : (m.store.get w.cell).value with
      | none | string _ | flt _ | bool _ | callable _ => exact same
      | int n =>
        dsimp only
        cases sum : checked (n.toInt + 1) with
        | error cause => exact same
        | ok v =>
          -- The sum is an integer, and so is the type of a variable that holds one.
          have typed := governed.typed w.cell (g.existing covered)
          rw [before] at typed
          obtain ⟨k, rfl⟩ := exists_int_of_checked sum
          exact ⟨m.store.set w.cell (.int k), m.sink, rfl, .set covered (mutable w rfl) _,
            governed.set (Value.hasType_int typed) (allowsArg_of_constant nofun)⟩

theorem native_turns [Host] (ruled : g.Rules m) {action : Native} {args : List Arg}
    (held : ∀ a ∈ args, g.AllowsArg m.store a) (fits : action.Fits m.store args) (p : Position) :
    g.Turns m (Ending.machine (native action args p m)) := by
  obtain ⟨s, sink, ending, evolved, governed⟩ := native_evolves ruled.store held fits p
  rw [ending]
  exact ⟨⟨governed, ruled.frame.mono evolved.toGrows, ruled.functions⟩, evolved, rfl, rfl⟩

/-- The standard native functions write through mutable views only. -/
theorem callBuiltin_turns [Host] (ruled : g.Rules m) {b : Builtin} (standard : b ∈ Builtin.standard)
    {args : List Arg} (held : ∀ a ∈ args, g.AllowsArg m.store a) (p : Position) :
    Leads (g.Turns m) (callBuiltin b args p) m fun v s => g.AllowsArg s (.value v) := by
  unfold Leads
  rw [callBuiltin_run, checkArity]
  by_cases arity : b.signature.params.length = args.length
  · rw [if_pos arity]
    dsimp only
    cases taken : m.store.bindArgs b.params args with
    | error cause => exact turns_refl ruled
    | ok bound =>
      have fits := Builtin.fits_of_bindArgs ruled.store.typed standard (knows_of_allowed held) arity
        taken
      have turned := native_turns ruled (allowsArg_of_bindArgs held taken) fits p
      dsimp only
      cases ending : native b.native bound p m with
      | ok v m' =>
        rw [ending] at turned
        rw [eq_none_of_native fits.own ending]
        exact ⟨turned, allowsArg_of_constant nofun⟩
      | error e m' => rw [ending] at turned; exact turned
  · rw [if_neg arity]
    exact turns_refl ruled

/-! ## Scopes and frames -/

theorem inScope_turns {α : Type} {action : Action α} {Q : α → Store → Prop}
    (body : Leads (g.Turns m.pushScope) action m.pushScope Q) :
    Leads (g.Turns m) (inScope action) m Q := by
  refine leads_inScope (body.mono (fun m' turned => ?_) fun _ _ => id)
  exact ⟨⟨turned.ruled.store, turned.ruled.frame.popScope, turned.ruled.functions⟩, turned.store,
    turned.callers, turned.functions⟩

/-- A body that runs in another frame leaves its own one to the caller, whose views are covered
still if they were before. -/
theorem inFrame_turns {α : Type} {body : Action α} {f : Frame} {Q : α → Store → Prop}
    (frame : g.Oversees m.store m.frame)
    (inside : Leads (g.Turns (m.pushFrame f)) body (m.pushFrame f) Q) :
    Leads (g.Turns m) (inFrame f body) m Q := by
  refine leads_inFrame (inside.mono (fun m' turned => ?_) fun _ _ => id)
  -- The frame that comes back is the one that was put among the callers.
  have callers : m'.callers = m.frame :: m.callers := turned.callers
  refine ⟨⟨turned.ruled.store, ?_, turned.ruled.functions⟩, turned.store, ?_, turned.functions⟩
  · change g.Oversees m'.store (m'.callers.headD {})
    rw [callers]
    exact frame.mono turned.store.toGrows
  · change m'.callers.tail = m.callers
    rw [callers]
    rfl

theorem bindParams_turns (ruled : g.Rules m) {params : List Param} {args : List Arg}
    (held : ∀ a ∈ args, g.AllowsArg m.store a) (p : Position) :
    Leads (g.Turns m) (bindParams p params args) m fun views s => ∀ w ∈ views, g.Covers s w := by
  obtain ⟨bound, views, s, adopted, taken, ending⟩ :=
    bindParams_adopts p params args m (knows_of_allowed held)
  have allowed : ∀ b ∈ bound, g.AllowsArg m.store b := by
    intro b member
    obtain ⟨x, a, given, bind⟩ := taken b member
    exact (held a given).bindArg bind
  obtain ⟨governed, covered⟩ := ruled.store.adopt adopted allowed
  have turned := turns_of_store ruled (.adopt adopted) governed
  unfold Leads
  rcases ending with ⟨ran, _⟩ | ⟨cause, ran, _⟩
  · rw [ran]
    exact ⟨turned, covered⟩
  · rw [ran]
    exact turned

end Action

open Rightflow.Action Grant in
/-- Actions that write only through views that a grant covers, and come by no others. -/
def Grant.discipline [Host] (g : Grant) : Discipline where
  Inv := g.Rules
  Le := Store.Grows
  Held := g.AllowsArg
  Sat _ _ action m Q := Leads (g.Turns m) action m Q
  held_mono := AllowsArg.mono
  held_constant := allowsArg_of_constant
  held_bound {s callee args stamp} held := by
    refine ⟨fun l member => held l ?_, fun a given l member => held l ?_⟩
    · rw [Arg.leaves_value, Value.leaves_callable] at member ⊢
      rw [Callable.leaves_bound]
      exact List.mem_append_left _ member
    · rw [Arg.leaves_value, Value.leaves_callable, Callable.leaves_bound]
      exact List.mem_append_right _ (List.mem_flatMap.mpr ⟨a, given, member⟩)
  held_cast held given l member := held l (Value.mem_leaves_of_cast given member)
  result ruled known := ⟨turns_refl ruled, known⟩
  halt _ ruled := turns_refl ruled
  sequence kept later := kept.bind (fun _ => id) fun x m₁ turned known =>
    (later x m₁ turned.ruled turned.store.toGrows known).mono (fun _ => turned.trans) fun _ _ => id
  close kept := kept
  name x p ruled := name_turns ruled x p
  resolve? x ruled :=
    ⟨turns_refl ruled, fun _ found => allowsArg_view.mpr (ruled.covers_of_resolve? found)⟩
  bindFront ruled heldCallee heldArgs := bindFront_turns ruled heldCallee heldArgs
  callBuiltin p ruled heldCallee heldArgs :=
    callBuiltin_turns ruled (Arg.known_builtin.mp heldCallee) heldArgs p
  declare x t p ruled held := declare_turns ruled held x t p
  reassign x p ruled held := reassign_turns ruled held x p
  inScope {m _ _ _} ruled body :=
    inScope_turns (body ⟨ruled.store, ruled.frame.pushScope, ruled.functions⟩)
  enter {m _ body Q params args} p ruled held kept := by
    -- The parameters are all that the new frame has, and they are covered.
    refine (bindParams_turns ruled held p).bind (fun _ => id) fun views m₁ turned covered => ?_
    have inside := kept (m₁.pushFrame { params := views })
      ⟨turned.ruled.store, .params covered, turned.ruled.functions⟩
    exact (inFrame_turns turned.ruled.frame inside).mono (fun _ => turned.trans) fun _ _ => id

end Rightflow
