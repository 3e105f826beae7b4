/-
SquidHelper/Lib/Atomic.lean

Atomic objects: what an implementation shared by threads is compared with.

An operation `c` on an object `a` is `perform c a`: its result and the new object, or
`none` when the operation has to wait.  A thread calls, then its operation takes place
in one indivisible step, then it returns; between its own two ends an operation may
take place at any time, and not at all while it has to wait.

A run leaves a history of calls and returns behind.  An implementation is linearizable
when its histories are histories of the atomic object (`Lib/Monitor.lean`).
-/
import SquidHelper.Lib.Guarded

namespace Atomic

/-- What can be seen of a run from outside. -/
inductive Event (ι C R : Type*)
  | call (t : ι) (c : C)
  | ret (t : ι) (c : C) (r : R)
  deriving DecidableEq

/-- How far a thread is with its operation. -/
inductive Stage (C R : Type*)
  | idle
  | called (c : C)
  | done (c : C) (r : R)
  deriving DecidableEq

/-- The object and its threads. -/
structure State (ι A C R : Type*) where
  obj : A
  stage : ι → Stage C R

inductive Action (ι C : Type*)
  | call (t : ι) (c : C)
  /-- The operation of `t` takes place. -/
  | commit (t : ι)
  | ret (t : ι)
  deriving DecidableEq

variable {ι A C R : Type*} [DecidableEq ι] (perform : C → A → Option (R × A))

def step (s : State ι A C R) : Action ι C → Option (State ι A C R)
  | .call t c =>
      match s.stage t with
      | .idle => some { s with stage := Function.update s.stage t (.called c) }
      | _ => none
  | .commit t =>
      match s.stage t with
      | .called c => (perform c s.obj).map fun p =>
          ⟨p.2, Function.update s.stage t (.done c p.1)⟩
      | _ => none
  | .ret t =>
      match s.stage t with
      | .done _ _ => some { s with stage := Function.update s.stage t .idle }
      | _ => none

/-- The object as a system of its own. -/
def system : Guarded (State ι A C R) (Action ι C) := ⟨step perform⟩

/-- No thread has called yet. -/
def init (a : A) : State ι A C R := ⟨a, fun _ => .idle⟩

/-- Calls and returns. -/
def seen (s : State ι A C R) : Action ι C → List (Event ι C R)
  | .call t c => [.call t c]
  | .commit _ => []
  | .ret t =>
      match s.stage t with
      | .done c r => [.ret t c r]
      | _ => []

variable {perform} {s s' : State ι A C R} {t : ι} {c : C} {r : R} {a : A}

theorem step_call (h : s.stage t = .idle) :
    step perform s (.call t c) = some { s with stage := Function.update s.stage t (.called c) } := by
  rw [step, h]

theorem step_commit (h : s.stage t = .called c) (hp : perform c s.obj = some (r, a)) :
    step perform s (.commit t) = some ⟨a, Function.update s.stage t (.done c r)⟩ := by
  rw [step, h]
  simp only [hp, Option.map_some]

theorem step_ret (h : s.stage t = .done c r) :
    step perform s (.ret t) = some { s with stage := Function.update s.stage t .idle } := by
  rw [step, h]

omit [DecidableEq ι] in
theorem seen_ret (h : s.stage t = .done c r) : seen s (.ret t) = [.ret t c r] := by
  rw [seen, h]

/-! ### The operations that have taken place -/

/-- What a step makes take place. -/
def commits (perform : C → A → Option (R × A)) (s : State ι A C R) :
    Action ι C → List (ι × C × R)
  | .commit t =>
      match s.stage t with
      | .called c => ((perform c s.obj).map fun p => (t, c, p.1)).toList
      | _ => []
  | _ => []

/-- The operations one by one, with nobody else there. -/
def Replay (perform : C → A → Option (R × A)) : A → List (ι × C × R) → A → Prop
  | a, [], a' => a = a'
  | a, (_, c, r) :: ops, a' => ∃ a₁, perform c a = some (r, a₁) ∧ Replay perform a₁ ops a'

/-- The calls of `u`. -/
def callsOf (u : ι) (l : List (Event ι C R)) : List C :=
  l.filterMap fun
    | .call t c => if t = u then some c else none
    | .ret _ _ _ => none

/-- The calls of `u` that have returned, with what they returned. -/
def returnsOf (u : ι) (l : List (Event ι C R)) : List (C × R) :=
  l.filterMap fun
    | .call _ _ => none
    | .ret t c r => if t = u then some (c, r) else none

def operationsOf (u : ι) (ops : List (ι × C × R)) : List (C × R) :=
  ops.filterMap fun p => if p.1 = u then some p.2 else none

/-- The call under way whose operation is still to come. -/
def Stage.pending {C R : Type*} : Stage C R → List C
  | .called c => [c]
  | _ => []

/-- The operation that has taken place in a call under way. -/
def Stage.finished {C R : Type*} : Stage C R → List (C × R)
  | .done c r => [(c, r)]
  | _ => []

/-- The steps, one constructor each. -/
inductive Step (perform : C → A → Option (R × A)) (s : State ι A C R) :
    Action ι C → State ι A C R → Prop
  | call {t : ι} {c : C} (h : s.stage t = .idle) :
      Step perform s (.call t c) { s with stage := Function.update s.stage t (.called c) }
  | commit {t : ι} {c : C} {r : R} {a : A} (h : s.stage t = .called c)
      (hp : perform c s.obj = some (r, a)) :
      Step perform s (.commit t) ⟨a, Function.update s.stage t (.done c r)⟩
  | ret {t : ι} {c : C} {r : R} (h : s.stage t = .done c r) :
      Step perform s (.ret t) { s with stage := Function.update s.stage t .idle }

theorem step_cases {b : Action ι C} (h : step perform s b = some s') : Step perform s b s' := by
  cases b with
  | call t c =>
      rw [step] at h
      split at h
      · cases h
        exact .call ‹_›
      · cases h
  | commit t =>
      rw [step] at h
      split at h
      · obtain ⟨p, hp, h'⟩ := Option.map_eq_some_iff.mp h
        cases h'
        exact .commit ‹_› hp
      · cases h
  | ret t =>
      rw [step] at h
      split at h
      · cases h
        exact .ret ‹_›
      · cases h

omit [DecidableEq ι] in
theorem replay_concat {ops : List (ι × C × R)} {a₁ a₂ : A} (h : Replay perform a ops a₁)
    (hp : perform c a₁ = some (r, a₂)) (t : ι) : Replay perform a (ops ++ [(t, c, r)]) a₂ := by
  induction ops generalizing a with
  | nil =>
      obtain rfl : a = a₁ := h
      exact ⟨a₂, hp, rfl⟩
  | cons op ops ih =>
      obtain ⟨a', hp', h⟩ := h
      exact ⟨a', hp', ih h⟩

omit [DecidableEq ι] in
theorem commits_commit (h : s.stage t = .called c) (hp : perform c s.obj = some (r, a)) :
    commits perform s (.commit t) = [(t, c, r)] := by
  rw [commits, h]
  simp only [hp, Option.map_some, Option.toList_some]

/-- **The operations that took place lead from the first object to the last.** -/
theorem replay_of_exec {bs : List (Action ι C)} (h : (system perform).exec s bs = some s') :
    Replay perform s.obj ((system perform).trace (commits perform) s bs) s'.obj := by
  refine Guarded.exec_induction (M := system perform) (s := s)
    (P := fun bs s' => Replay perform s.obj ((system perform).trace (commits perform) s bs) s'.obj)
    rfl ?_ h
  intro bs s₁ b s₂ hexec ih hstep
  rw [Guarded.trace_concat _ hexec]
  cases step_cases hstep with
  | call h => simpa [commits] using ih
  | commit h hp =>
      rw [commits_commit h hp]
      exact replay_concat ih hp _
  | ret h => simpa [commits] using ih

/-- **Each thread's operations are its calls.**  They took place in the order of its calls,
each once, with the result that the call returned. -/
theorem operationsOf_of_exec {bs : List (Action ι C)} (h : (system perform).exec (init a) bs = some s')
    (u : ι) :
    callsOf u ((system perform).trace seen (init a) bs)
      = (operationsOf u ((system perform).trace (commits perform) (init a) bs)).map Prod.fst
        ++ (s'.stage u).pending ∧
    returnsOf u ((system perform).trace seen (init a) bs) ++ (s'.stage u).finished
      = operationsOf u ((system perform).trace (commits perform) (init a) bs) := by
  refine Guarded.exec_induction (M := system perform) (s := init a)
    (P := fun bs s' =>
      callsOf u ((system perform).trace seen (init a) bs)
        = (operationsOf u ((system perform).trace (commits perform) (init a) bs)).map Prod.fst
          ++ (s'.stage u).pending ∧
      returnsOf u ((system perform).trace seen (init a) bs) ++ (s'.stage u).finished
        = operationsOf u ((system perform).trace (commits perform) (init a) bs))
    ⟨rfl, rfl⟩ ?_ h
  rintro bs s₁ b s₂ hexec ⟨ih₁, ih₂⟩ hstep
  rw [Guarded.trace_concat _ hexec, Guarded.trace_concat _ hexec, callsOf, returnsOf, operationsOf,
    List.filterMap_append, List.filterMap_append, List.filterMap_append]
  rw [callsOf, operationsOf] at ih₁
  rw [returnsOf, operationsOf] at ih₂
  cases step_cases hstep with
  | @call t c h =>
      rcases eq_or_ne t u with rfl | hu
      · simp [ih₁, ← ih₂, h, seen, commits, Stage.pending, Stage.finished]
      · simp [ih₁, ← ih₂, seen, commits, hu, Function.update_of_ne hu.symm]
  | @commit t c r a' h hp =>
      rw [commits_commit h hp]
      rcases eq_or_ne t u with rfl | hu
      · simp [ih₁, ← ih₂, h, seen, Stage.pending, Stage.finished]
      · simp [ih₁, ← ih₂, seen, hu, Function.update_of_ne hu.symm]
  | @ret t c r h =>
      rw [seen_ret h]
      rcases eq_or_ne t u with rfl | hu
      · simp [ih₁, ← ih₂, h, commits, Stage.pending, Stage.finished]
      · simp [ih₁, ← ih₂, commits, hu, Function.update_of_ne hu.symm]

end Atomic
