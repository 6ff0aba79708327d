import Rightflow.Proofs.EvaluationPositions

/-!
# What calls return

A function returns a value of the type that it declares: the value of a `ret` is cast to it,
wherever the `ret` stands, and a body that falls through gives the default of it.  A function that
declares `void` returns nothing, whatever stands behind a `ret`.  Binding arguments to a callable
changes what it takes and not what it returns, so that the signature of any callable tells what a
call of it gives.

That a program ends without an exit code is so a matter of what its main function declares
(`calls_return_what_they_declare`).
-/

namespace Rightflow

/-- What a function that returns a type gives: nothing if that is `void`, and else a value of it. -/
def Ty.Admits (t : Ty) (v : Value) : Prop :=
  if t.isVoid then v = .none else v.hasType t = true

theorem Ty.admits_of_void {t : Ty} (void : t.isVoid = true) : t.Admits .none := by
  simp [Admits, void]

theorem Ty.admits_of_hasType {t : Ty} {v : Value} (typed : v.hasType t = true) : t.Admits v := by
  simp [Admits, Value.isVoid_of_hasType typed, typed]

/-- An integer is what functions give that return integers. -/
theorem Ty.admits_int_iff {t : Ty} {v : Value} (admitted : t.Admits v) :
    (∃ k, v = .int k) ↔ ∃ mutable, t = .base .int mutable := by
  unfold Admits at admitted
  constructor
  · rintro ⟨k, rfl⟩
    split at admitted
    · cases admitted
    · cases t with
      | func ret params => cases admitted
      | base b mutable =>
        cases b with
        | int => exact ⟨mutable, rfl⟩
        | flt | string | bool | void => cases admitted
  · rintro ⟨mutable, rfl⟩
    exact Value.exists_int_of_hasType admitted

/-- Binding arguments does not change what is returned. -/
theorem Callable.ret_bound (callee : Callable) (args : List Arg) (stamp : Nat) :
    (Callable.bound callee args stamp).signature.ret = callee.signature.ret := rfl

theorem Builtin.returns_void {b : Builtin} (standard : b ∈ Builtin.standard) :
    b.signature.ret.isVoid = true := by
  simp only [Builtin.standard, List.mem_cons, List.not_mem_nil, or_false] at standard
  obtain rfl | rfl := standard <;> rfl

theorem Builtin.own_of_standard {b : Builtin} (standard : b ∈ Builtin.standard) (code : Nat) :
    b.native ≠ .foreign code := by
  simp only [Builtin.standard, List.mem_cons, List.not_mem_nil, or_false] at standard
  obtain rfl | rfl := standard <;> nofun

/-- However a body has ended, what is made of it is of the type of the function. -/
theorem Flow.admits_result {flow : Flow} {ret : Ty} {v : Value} (given : flow.result ret = .ok v) :
    ret.Admits v := by
  unfold Flow.result at given
  split at given
  next void =>
    cases given
    exact Ty.admits_of_void void
  next =>
    cases flow with
    | normal => exact Ty.admits_of_hasType (Value.hasType_of_default given)
    | returned w => exact Ty.admits_of_hasType (Value.hasType_of_cast given)

namespace Action

variable {m m' : Machine} {p : Position} {v : Value}

theorem callBuiltin_gives_none [Host] {b : Builtin} (standard : b ∈ Builtin.standard)
    {args : List Arg} (given : callBuiltin b args p m = .ok v m') : v = .none := by
  rw [callBuiltin_run] at given
  split at given
  · cases given
  · split at given
    · cases given
    · exact eq_none_of_native (Builtin.own_of_standard standard) given

theorem call_function_gives [Host] {n : Nat} {f : Function} {args : List Arg}
    (given : call (n + 1) (.function f) args p m = .ok v m') :
    ∃ flow : Flow, flow.result f.ret = .ok v := by
  rw [call_function_run] at given
  split at given
  · cases given
  · split at given
    · cases given
    · split at given
      · cases given
      next flow m₂ ran =>
        cases result : Flow.result flow f.ret with
        | error cause => rw [result] at given; cases given
        | ok w => rw [result] at given; cases given; exact ⟨flow, result⟩

/-- What a call gives, the callable declares. -/
theorem call_gives [Host] {n : Nat} {c : Callable} {args : List Arg}
    (standard : ∀ b, .builtin b ∈ c.leaves → b ∈ Builtin.standard)
    (given : call n c args p m = .ok v m') : c.signature.ret.Admits v := by
  induction n generalizing c args with
  | zero => cases given
  | succ n inductionHypothesis =>
    cases c with
    | function f =>
      obtain ⟨flow, result⟩ := call_function_gives given
      exact Flow.admits_result result
    | builtin b stamp =>
      have known := standard b (by simp)
      obtain rfl := callBuiltin_gives_none known given
      exact Ty.admits_of_void (Builtin.returns_void known)
    | bound callee bound stamp =>
      rw [Callable.ret_bound]
      exact inductionHypothesis (fun b member => standard b (by simp [member])) given

/-- Calls complain about everything but the result of a program. -/
theorem call_never_mainResult [Memory] (n : Nat) (c : Callable) (args : List Arg)
    (p q : Position) (k : Kind) (m m' : Machine) :
    call n c args p m ≠ .error (.fault (.located q (.mainResult k))) m' :=
  ((evaluation_relocates (f := id) n).call c args p).ordinary m q k m'

theorem flush_never_mainResult (p q : Position) (k : Kind) (m m' : Machine) :
    flush p m ≠ .error (.fault (.located q (.mainResult k))) m' :=
  (flush_relocates (f := id) p).ordinary m q k m'

/-- A value is no exit code exactly if it is no integer. -/
theorem asCode_run (v : Value) (p : Position) (m : Machine) :
    (∃ k, v = .int k ∧ asCode v p m = .ok k m) ∨
    (∀ k, v ≠ .int k) ∧ asCode v p m = .error (.fault (.located p (.mainResult v.kind))) m := by
  cases v with
  | int k => exact .inl ⟨k, rfl, rfl⟩
  | none | string _ | flt _ | bool _ | callable _ => exact .inr ⟨nofun, rfl⟩

/-- Running a program that can be loaded and has a main function is to call that function, to hand
on the output and to look at the result.  Only the last of these complains about the result. -/
theorem run_mainResult_iff [Memory] {n : Nat} {program : Program} {m₁ : Machine} {f : Function}
    (loaded : load program m = .ok () m₁)
    (found : m₁.functions.find? "main" = some (.function f)) :
    (∃ p k m', run n program m = .error (.fault (.located p (.mainResult k))) m') ↔
      ∃ v m₂ m₃, call n (.function f) [] f.position m₁ = .ok v m₂ ∧
        flush f.position m₂ = .ok () m₃ ∧ ∀ k, v ≠ .int k := by
  have run_main : run n program m =
      (do let v ← call n (.function f) [] f.position
          flush f.position
          asCode v f.position) m₁ := by
    rw [run, bind_run, loaded]
    dsimp only
    rw [bind_run, mainFunction_run, found]
  simp only [run_main, bind_run]
  constructor
  · rintro ⟨p, k, m', raised⟩
    cases called : call n (.function f) [] f.position m₁ with
    | error e m₂ =>
      -- Whatever a call complains about, it is not this.
      rw [called] at raised
      cases raised
      exact absurd called (call_never_mainResult n _ _ _ p k m₁ m')
    | ok v m₂ =>
      rw [called] at raised
      dsimp only at raised
      cases flushed : flush f.position m₂ with
      | error e m₃ =>
        rw [flushed] at raised
        cases raised
        exact absurd flushed (flush_never_mainResult _ p k m₂ m')
      | ok _ m₃ =>
        rw [flushed] at raised
        refine ⟨v, m₂, m₃, rfl, flushed, ?_⟩
        rintro k' rfl
        cases raised
  · rintro ⟨v, m₂, m₃, called, flushed, other⟩
    simp only [called, flushed]
    obtain ⟨k, rfl, -⟩ | ⟨-, complains⟩ := asCode_run v f.position m₃
    · exact absurd rfl (other k)
    · exact ⟨f.position, v.kind, m₃, complains⟩

end Action

open Rightflow.Action in
/-- A call that succeeds gives what the signature of the callable declares, and so a program that is
loaded and has a main function ends without an exit code exactly if its main function and the last
flush succeed and it does not declare an integer. -/
theorem calls_return_what_they_declare [Memory] :
    (∀ n c args p m v m', (∀ b, .builtin b ∈ c.leaves → b ∈ Builtin.standard) →
      call n c args p m = .ok v m' →
        if c.signature.ret.isVoid then v = .none else v.hasType c.signature.ret = true) ∧
    ∀ n program m m₁ f, load program m = .ok () m₁ →
      m₁.functions.find? "main" = some (.function f) →
        ((∃ p k m', run n program m = .error (.fault (.located p (.mainResult k))) m') ↔
          (∃ v m₂ m₃, call n (.function f) [] f.position m₁ = .ok v m₂ ∧
            flush f.position m₂ = .ok () m₃) ∧
          ∀ mutable, f.ret ≠ .base .int mutable) := by
  refine ⟨fun n c args p m v m' standard given => call_gives standard given, ?_⟩
  intro n program m m₁ f loaded found
  have integer {v : Value} {m₂ : Machine}
      (given : call n (.function f) [] f.position m₁ = .ok v m₂) :
      (∃ k, v = .int k) ↔ ∃ mutable, f.ret = .base .int mutable :=
    Ty.admits_int_iff (call_gives (fun b member => by simp at member) given)
  rw [run_mainResult_iff loaded found]
  constructor
  · rintro ⟨v, m₂, m₃, called, flushed, other⟩
    refine ⟨⟨v, m₂, m₃, called, flushed⟩, fun mutable declared => ?_⟩
    obtain ⟨k, same⟩ := (integer called).2 ⟨mutable, declared⟩
    exact other k same
  · rintro ⟨⟨v, m₂, m₃, called, flushed⟩, other⟩
    refine ⟨v, m₂, m₃, called, flushed, fun k same => ?_⟩
    obtain ⟨mutable, declared⟩ := (integer called).1 ⟨k, same⟩
    exact other mutable declared

/-- A function that takes a number and returns the text of it. -/
def inscribe : Function :=
  ⟨"inscribe", .base .string false, [⟨"x", .base .int false⟩],
    [.giveBack (.name "x" .start) .start], .start⟩

/-- A main function that falls through, and returns a string. -/
def textMain : Function := ⟨"main", .base .string false, [], [], .start⟩

theorem textMain_returns_text :
    (∃ v m', Action.call 9 (.bound (.function inscribe) [.value (.int 7)] 2) [] .start .standard =
      .ok v m' ∧ v.hasType (.base .string false) = true) ∧
    ∃ p k m', Action.run 9 [textMain] .standard =
      .error (.fault (.located p (.mainResult k))) m' := by
  constructor
  · refine ⟨_, _, rfl, ?_⟩
    exact calls_return_what_they_declare.1 9 (.bound (.function inscribe) [.value (.int 7)] 2) []
      .start .standard _ _ (fun b member => by simp [Value.leaves] at member) rfl
  · exact (calls_return_what_they_declare.2 9 [textMain] .standard _ textMain rfl rfl).2
      ⟨⟨_, _, _, rfl, rfl⟩, fun mutable declared => by cases declared⟩

end Rightflow
