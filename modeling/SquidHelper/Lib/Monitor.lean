/-
SquidHelper/Lib/Monitor.lean

Monitors: shared data behind one mutex, with condition variables, and functions of the
shape

    lock;  while (…) cond_wait;  statements;  unlock;  broadcast;  return

that any number of threads may call at any time.  Every statement is a step of its own,
and so is every other line of the shape; the steps of the threads interleave freely, and
a thread may be woken without a broadcast.  `cond_wait` releases the mutex and falls
asleep in one step, as it has to.  A statement that has no result is undefined
behaviour.

A monitor `Implements` an atomic object when the statements of a function, run on their
own, do what the operation does, the loop waits exactly where the operation has to, and
an operation that may end a wait broadcasts to it.  Then, for all threads and schedules:

* `linearizes`  -- every history of the monitor is one of the atomic object;
* `Refines.not_fault` -- no statement ever meets undefined behaviour;
* `Refines.owner_unique` -- the data are touched by one thread at a time;
* `Refines.asleep` -- a wakeup is never lost: who sleeps has to, or a broadcast is under way;
* `length_le_rank`, `Refines.stuck` -- left alone, the calls under way come to an end, all but
  those that have to wait.
-/
import SquidHelper.Lib.Atomic
import SquidHelper.Lib.Fifo

/-- The functions of a module: `C` are the calls with their arguments, `R` the local
variables, of which the result is one, and `K` the condition variables. -/
structure Monitor (D C R K : Type*) where
  /-- The loop in front of the statements, if there is one: what it waits on, and while what. -/
  loop : C → Option (K × (D → Bool))
  /-- The local variables on entry. -/
  start : R
  /-- The statements between the loop and the unlock. -/
  body : C → List (D → R → Option (D × R))
  /-- The condition variable of the broadcast behind the unlock. -/
  wakes : C → Option K

namespace Monitor

open Atomic (Event Stage)

/-- Where a thread is. -/
inductive Pc (C R : Type*)
  | idle
  /-- About to lock the mutex, on entry or on the way out of `cond_wait`. -/
  | lock (c : C)
  /-- At the condition of the loop. -/
  | test (c : C)
  /-- About to wait. -/
  | wait (c : C)
  | asleep (c : C)
  /-- `i` statements are done; behind the last one comes the unlock. -/
  | body (c : C) (i : ℕ) (r : R)
  | broadcast (c : C) (r : R)
  | ret (c : C) (r : R)
  /-- Undefined behaviour. -/
  | fault
  deriving DecidableEq

/-- The thread has the mutex. -/
def Pc.owns {C R : Type*} : Pc C R → Bool
  | .test _ | .wait _ | .body _ _ _ => true
  | _ => false

/-- What the thread's operation has come to, seen from outside. -/
def Pc.stage {C R : Type*} : Pc C R → Stage C R
  | .idle | .fault => .idle
  | .lock c | .test c | .wait c | .asleep c | .body c _ _ => .called c
  | .broadcast c r | .ret c r => .done c r

structure State (ι D C R : Type*) where
  mutex : Option ι
  data : D
  pc : ι → Pc C R

inductive Action (ι C : Type*)
  | call (t : ι) (c : C)
  /-- The next step of `t`. -/
  | run (t : ι)
  /-- `t` wakes up of itself. -/
  | spurious (t : ι)
  deriving DecidableEq

variable {ι D C R K : Type*} [DecidableEq ι] [DecidableEq K] (M : Monitor D C R K)

/-- The condition of the loop. -/
def mustWait (c : C) (d : D) : Bool := (M.loop c).any fun l => l.2 d

/-- The broadcast of `c` reaches those who wait in `c'`. -/
def reaches (c c' : C) : Bool := (M.loop c').any fun l => M.wakes c == some l.1

/-- `pthread_cond_broadcast`. -/
def wake (c : C) (pc : ι → Pc C R) : ι → Pc C R := fun u =>
  match pc u with
  | .asleep c' => if M.reaches c c' then .lock c' else .asleep c'
  | p => p

/-- The next step of thread `t`. -/
def run (s : State ι D C R) (t : ι) : Option (State ι D C R) :=
  match s.pc t with
  | .idle | .asleep _ | .fault => none
  | .lock c =>
      match s.mutex with
      | none => some { s with mutex := some t, pc := Function.update s.pc t (.test c) }
      | some _ => none
  | .test c => some { s with pc := Function.update s.pc t
                               (if M.mustWait c s.data then .wait c else .body c 0 M.start) }
  | .wait c => some { s with mutex := none, pc := Function.update s.pc t (.asleep c) }
  | .body c i r =>
      match (M.body c)[i]? with
      | none => some { s with mutex := none, pc := Function.update s.pc t (.broadcast c r) }
      | some statement =>
          match statement s.data r with
          | none => some { s with pc := Function.update s.pc t .fault }
          | some (d, r') => some { s with data := d,
                                          pc := Function.update s.pc t (.body c (i + 1) r') }
  | .broadcast c r => some { s with pc := Function.update (M.wake c s.pc) t (.ret c r) }
  | .ret _ _ => some { s with pc := Function.update s.pc t .idle }

def step (s : State ι D C R) : Action ι C → Option (State ι D C R)
  | .call t c =>
      match s.pc t with
      | .idle => some { s with pc := Function.update s.pc t (.lock c) }
      | _ => none
  | .run t => M.run s t
  | .spurious t =>
      match s.pc t with
      | .asleep c => some { s with pc := Function.update s.pc t (.lock c) }
      | _ => none

/-- All threads together. -/
def system : Guarded (State ι D C R) (Action ι C) := ⟨M.step⟩

/-- No thread has called yet. -/
def init (d : D) : State ι D C R := ⟨none, d, fun _ => .idle⟩

/-- Calls and returns. -/
def seen (s : State ι D C R) : Action ι C → List (Event ι C R)
  | .call t c => [.call t c]
  | .run t =>
      match s.pc t with
      | .ret c r => [.ret t c r]
      | _ => []
  | .spurious _ => []

/-! ### One step -/

/-- The steps, one constructor each. -/
inductive Step (s : State ι D C R) : Action ι C → State ι D C R → Prop
  | call {t c} (h : s.pc t = .idle) :
      Step s (.call t c) { s with pc := Function.update s.pc t (.lock c) }
  | lock {t c} (h : s.pc t = .lock c) (hm : s.mutex = none) :
      Step s (.run t) { s with mutex := some t, pc := Function.update s.pc t (.test c) }
  | wait {t c} (h : s.pc t = .test c) (hw : M.mustWait c s.data = true) :
      Step s (.run t) { s with pc := Function.update s.pc t (.wait c) }
  | enter {t c} (h : s.pc t = .test c) (hw : M.mustWait c s.data = false) :
      Step s (.run t) { s with pc := Function.update s.pc t (.body c 0 M.start) }
  | sleep {t c} (h : s.pc t = .wait c) :
      Step s (.run t) { s with mutex := none, pc := Function.update s.pc t (.asleep c) }
  | statement {t c i r f d r'} (h : s.pc t = .body c i r) (hf : (M.body c)[i]? = some f)
      (hd : f s.data r = some (d, r')) :
      Step s (.run t) { s with data := d, pc := Function.update s.pc t (.body c (i + 1) r') }
  | fault {t c i r f} (h : s.pc t = .body c i r) (hf : (M.body c)[i]? = some f)
      (hd : f s.data r = none) :
      Step s (.run t) { s with pc := Function.update s.pc t .fault }
  | unlock {t c i r} (h : s.pc t = .body c i r) (hf : (M.body c)[i]? = none) :
      Step s (.run t) { s with mutex := none, pc := Function.update s.pc t (.broadcast c r) }
  | broadcast {t c r} (h : s.pc t = .broadcast c r) :
      Step s (.run t) { s with pc := Function.update (M.wake c s.pc) t (.ret c r) }
  | ret {t c r} (h : s.pc t = .ret c r) :
      Step s (.run t) { s with pc := Function.update s.pc t .idle }
  | spurious {t c} (h : s.pc t = .asleep c) :
      Step s (.spurious t) { s with pc := Function.update s.pc t (.lock c) }

variable {M}

theorem step_run {s s' : State ι D C R} {t : ι} (h : M.run s t = some s') :
    Step M s (.run t) s' := by
  rw [run] at h
  split at h
  case h_1 | h_2 | h_3 => cases h
  case h_4 c hpc =>
    split at h
    · cases h
      exact .lock hpc ‹_›
    · cases h
  case h_5 c hpc =>
    cases h
    split
    · exact .wait hpc ‹_›
    · exact .enter hpc (Bool.eq_false_iff.mpr ‹_›)
  case h_6 c hpc =>
    cases h
    exact .sleep hpc
  case h_7 c i r hpc =>
    split at h
    · cases h
      exact .unlock hpc ‹_›
    · split at h
      · cases h
        exact .fault hpc ‹_› ‹_›
      · cases h
        exact .statement hpc ‹_› ‹_›
  case h_8 c r hpc =>
    cases h
    exact .broadcast hpc
  case h_9 c r hpc =>
    cases h
    exact .ret hpc

/-- **The steps are those of the list.** -/
theorem step_cases {s s' : State ι D C R} {a : Action ι C} (h : M.step s a = some s') :
    Step M s a s' := by
  cases a with
  | call t c =>
      rw [step] at h
      split at h
      · cases h
        exact .call ‹_›
      · cases h
  | run t => exact step_run h
  | spurious t =>
      rw [step] at h
      split at h
      · cases h
        exact .spurious ‹_›
      · cases h

/-! ### Monitors and atomic objects -/

/-- The statements from the first to the last, with nobody in between. -/
def runAll : List (D → R → Option (D × R)) → D → R → Option (D × R)
  | [], d, r => some (d, r)
  | f :: fs, d, r => (f d r).bind fun p => runAll fs p.1 p.2

theorem runAll_cons {f : D → R → Option (D × R)} {fs : List (D → R → Option (D × R))} {d d' : D}
    {r r' : R} (h : f d r = some (d', r')) : runAll (f :: fs) d r = runAll fs d' r' := by
  rw [runAll, h]
  rfl

variable {A : Type*}

/-- The functions of the monitor are the operations of the object, `Rep` relating the
data to the object they stand for. -/
structure Implements (M : Monitor D C R K) (perform : C → A → Option (R × A))
    (Rep : D → A → Prop) : Prop where
  /-- The loop waits where the operation has to. -/
  waits : ∀ {c d a}, Rep d a → (M.mustWait c d = true ↔ perform c a = none)
  /-- The statements do what the operation does. -/
  performs : ∀ {c d a r a'}, Rep d a → perform c a = some (r, a') →
    ∃ d', runAll (M.body c) d M.start = some (d', r) ∧ Rep d' a'
  /-- Who may end a wait broadcasts to it. -/
  wakes : ∀ {c c' a r a'}, perform c a = none → perform c' a = some (r, a') →
    perform c a' ≠ none → M.reaches c' c = true

variable (M) (perform : C → A → Option (R × A)) (Rep : D → A → Prop)

/-- What is known of a thread at each of its places: `a` is the object before the
operation under way. -/
def Place (mutex : Option ι) (d : D) (a : A) (u : ι) : Pc C R → Prop
  | .test _ => mutex = some u ∧ Rep d a
  | .wait c => mutex = some u ∧ Rep d a ∧ perform c a = none
  | .body c i r => mutex = some u ∧ ∃ d' r' a', runAll ((M.body c).drop i) d r = some (d', r') ∧
      perform c a = some (r', a') ∧ Rep d' a'
  | .fault => False
  | _ => mutex ≠ some u

/-- Who is asleep has to wait, or a broadcast to it is still to come. -/
def Sleepers (pc : ι → Pc C R) (a : A) : Prop :=
  ∀ u c, pc u = .asleep c →
    perform c a = none ∨ ∃ u' c' r, pc u' = .broadcast c' r ∧ M.reaches c' c = true

/-- The threads and the data of the monitor against the atomic object. -/
structure Refines (s : State ι D C R) (t : Atomic.State ι A C R) : Prop where
  stage : ∀ u, t.stage u = (s.pc u).stage
  place : ∀ u, M.Place perform Rep s.mutex s.data t.obj u (s.pc u)
  free : s.mutex = none → Rep s.data t.obj
  sleepers : M.Sleepers perform s.pc t.obj

variable {M perform Rep}

omit [DecidableEq ι] in
theorem refines_init {d : D} {a : A} (h : Rep d a) :
    Refines M perform Rep (init d : State ι D C R) (Atomic.init a) where
  stage _ := rfl
  place _ := by rintro ⟨⟩
  free _ := h
  sleepers _ _ hu := by cases hu

omit [DecidableEq ι] [DecidableEq K] in
/-- What is known of a thread that has not the mutex stays true whatever the owner does. -/
theorem Place.frame {m m' : Option ι} {d d' : D} {a a' : A} {u : ι} {p : Pc C R}
    (h : M.Place perform Rep m d a u p) (hm : m ≠ some u) (hm' : m' ≠ some u) :
    M.Place perform Rep m' d' a' u p := by
  cases p with
  | test c => exact absurd h.1 hm
  | wait c => exact absurd h.1 hm
  | body c i r => exact absurd h.1 hm
  | fault => exact h
  | idle | lock | asleep | broadcast | ret => exact hm'

omit [DecidableEq K] in
/-- One thread moves, and it has the mutex before or after whenever anything else changes. -/
theorem Place.update {s : State ι D C R} {m' : Option ι} {d' : D} {a a' : A} {t : ι}
    {p : Pc C R} (h : ∀ u, M.Place perform Rep s.mutex s.data a u (s.pc u))
    (hp : M.Place perform Rep m' d' a' t p)
    (hm : ∀ u, u ≠ t → s.mutex ≠ some u ∧ m' ≠ some u) (u : ι) :
    M.Place perform Rep m' d' a' u (Function.update s.pc t p u) := by
  rcases eq_or_ne u t with rfl | hu
  · rwa [Function.update_self]
  · rw [Function.update_of_ne hu]
    exact (h u).frame (hm u hu).1 (hm u hu).2

omit [DecidableEq K] in
/-- One thread moves and nothing else changes. -/
theorem Place.move {s : State ι D C R} {a : A} {t : ι} {p : Pc C R}
    (h : ∀ u, M.Place perform Rep s.mutex s.data a u (s.pc u))
    (hp : M.Place perform Rep s.mutex s.data a t p) (u : ι) :
    M.Place perform Rep s.mutex s.data a u (Function.update s.pc t p u) := by
  rcases eq_or_ne u t with rfl | hu
  · rwa [Function.update_self]
  · rw [Function.update_of_ne hu]
    exact h u

omit [DecidableEq ι] [DecidableEq K] in
theorem ne_of_owner {m : Option ι} {t u : ι} (h : m = some t) (hu : u ≠ t) : m ≠ some u := by
  rw [h]
  intro h'
  exact hu (Option.some.inj h').symm

/-- A step of a thread that is not at its broadcast, and does not fall asleep. -/
theorem Sleepers.move {pc : ι → Pc C R} {a : A} {t : ι} {p : Pc C R}
    (h : M.Sleepers perform pc a) (ht : ∀ c r, pc t ≠ .broadcast c r) (hp : ∀ c, p ≠ .asleep c) :
    M.Sleepers perform (Function.update pc t p) a := by
  intro u c hu
  rcases eq_or_ne u t with rfl | hut
  · rw [Function.update_self] at hu
    exact absurd hu (hp c)
  · rw [Function.update_of_ne hut] at hu
    refine (h u c hu).imp_right ?_
    rintro ⟨u', c', r, hu', hr⟩
    have hu't : u' ≠ t := by
      rintro rfl
      exact ht c' r hu'
    exact ⟨u', c', r, by rwa [Function.update_of_ne hu't], hr⟩

omit [DecidableEq ι] in
/-- A broadcast leaves everybody where they are, or wakes them up. -/
theorem wake_cases (M : Monitor D C R K) (c : C) (pc : ι → Pc C R) (v : ι) :
    M.wake c pc v = pc v ∨ ∃ c', pc v = .asleep c' ∧ M.wake c pc v = .lock c' := by
  rw [wake]
  split
  · split
    · exact .inr ⟨_, ‹_›, rfl⟩
    · exact .inl (Eq.symm ‹_›)
  · exact .inl rfl

omit [DecidableEq ι] in
/-- Who is still asleep was not reached. -/
theorem wake_eq_asleep {pc : ι → Pc C R} {v : ι} {c c' : C} (h : M.wake c pc v = .asleep c') :
    pc v = .asleep c' ∧ M.reaches c c' = false := by
  rcases hv : pc v with - | c₁ | c₁ | c₁ | c₁ | ⟨c₁, i, r⟩ | ⟨c₁, r⟩ | ⟨c₁, r⟩ | - <;>
    simp only [wake, hv] at h <;> try cases h
  split at h
  · cases h
  · cases h
    exact ⟨rfl, Bool.eq_false_iff.mpr ‹_›⟩

omit [DecidableEq ι] in
theorem stage_wake (M : Monitor D C R K) (c : C) (pc : ι → Pc C R) (v : ι) :
    (M.wake c pc v).stage = (pc v).stage := by
  rcases wake_cases M c pc v with hw | ⟨c', hv, hw⟩
  · rw [hw]
  · rw [hw, hv]
    rfl

omit [DecidableEq ι] in
theorem Place.wake {pc : ι → Pc C R} {m : Option ι} {d : D} {a : A} {v : ι} {c : C}
    (h : M.Place perform Rep m d a v (pc v)) : M.Place perform Rep m d a v (M.wake c pc v) := by
  rcases wake_cases M c pc v with hw | ⟨c', hv, hw⟩
  · rwa [hw]
  · rw [hv] at h
    rw [hw]
    exact h

/-- A thread that has to wait falls asleep. -/
theorem Sleepers.sleep {pc : ι → Pc C R} {a : A} {t : ι} {c : C} (h : M.Sleepers perform pc a)
    (ht : ∀ c r, pc t ≠ .broadcast c r) (hnone : perform c a = none) :
    M.Sleepers perform (Function.update pc t (.asleep c)) a := by
  intro v c' hv
  rcases eq_or_ne v t with rfl | hvt
  · rw [Function.update_self] at hv
    cases hv
    exact .inl hnone
  · rw [Function.update_of_ne hvt] at hv
    refine (h v c' hv).imp_right ?_
    rintro ⟨w, c₁, r, hw, hr⟩
    have hwt : w ≠ t := by
      rintro rfl
      exact ht c₁ r hw
    exact ⟨w, c₁, r, by rwa [Function.update_of_ne hwt], hr⟩

/-- An operation takes place: whoever no longer has to wait is reached by the broadcast
that comes next. -/
theorem Sleepers.unlock {pc : ι → Pc C R} {a a' : A} {t : ι} {c : C} {r : R}
    (hI : Implements M perform Rep) (h : M.Sleepers perform pc a)
    (ht : ∀ c r, pc t ≠ .broadcast c r) (hp : perform c a = some (r, a')) :
    M.Sleepers perform (Function.update pc t (.broadcast c r)) a' := by
  intro v c' hv
  have hvt : v ≠ t := by
    rintro rfl
    rw [Function.update_self] at hv
    cases hv
  rw [Function.update_of_ne hvt] at hv
  have hself : Function.update pc t (.broadcast c r) t = .broadcast c r := Function.update_self ..
  rcases h v c' hv with hnone | ⟨w, c₁, r₁, hw, hr⟩
  · by_cases hnone' : perform c' a' = none
    · exact .inl hnone'
    · exact .inr ⟨t, c, r, hself, hI.wakes hnone hp hnone'⟩
  · have hwt : w ≠ t := by
      rintro rfl
      exact ht c₁ r₁ hw
    exact .inr ⟨w, c₁, r₁, by rwa [Function.update_of_ne hwt], hr⟩

/-- The broadcast: whoever had to rely on it is awake. -/
theorem Sleepers.broadcast {pc : ι → Pc C R} {a : A} {t : ι} {c : C} {r : R}
    (h : M.Sleepers perform pc a) (ht : pc t = .broadcast c r) :
    M.Sleepers perform (Function.update (M.wake c pc) t (.ret c r)) a := by
  intro v c' hv
  have hvt : v ≠ t := by
    rintro rfl
    rw [Function.update_self] at hv
    cases hv
  rw [Function.update_of_ne hvt] at hv
  obtain ⟨hasleep, hnot⟩ := wake_eq_asleep hv
  refine (h v c' hasleep).imp_right ?_
  rintro ⟨w, c₁, r₁, hw, hr⟩
  have hwt : w ≠ t := by
    rintro rfl
    rw [ht] at hw
    cases hw
    rw [hnot] at hr
    cases hr
  refine ⟨w, c₁, r₁, ?_, hr⟩
  rw [Function.update_of_ne hwt]
  rcases wake_cases M c pc w with hw' | ⟨c₂, hw', -⟩
  · rw [hw', hw]
  · rw [hw] at hw'
    cases hw'

omit [DecidableEq K] in
theorem stage_move {s : State ι D C R} {t : Atomic.State ι A C R} {u : ι} {p : Pc C R}
    (h : ∀ v, t.stage v = (s.pc v).stage) (hp : p.stage = (s.pc u).stage) (v : ι) :
    t.stage v = (Function.update s.pc u p v).stage := by
  rcases eq_or_ne v u with rfl | hv
  · rw [Function.update_self, hp, h]
  · rw [Function.update_of_ne hv, h]

theorem stage_update {s : State ι D C R} {t : Atomic.State ι A C R} {u : ι} {p : Pc C R}
    {g : Stage C R} (h : ∀ v, t.stage v = (s.pc v).stage) (hp : p.stage = g) (v : ι) :
    Function.update t.stage u g v = (Function.update s.pc u p v).stage := by
  rcases eq_or_ne v u with rfl | hv
  · rw [Function.update_self, Function.update_self, hp]
  · rw [Function.update_of_ne hv, Function.update_of_ne hv, h]

/-! ### The simulation -/

section Simulation

variable {s : State ι D C R} {t : Atomic.State ι A C R} {u : ι} {c : C} {r : R}

theorem Refines.call (h : Refines M perform Rep s t) (hu : s.pc u = .idle) :
    Refines M perform Rep { s with pc := Function.update s.pc u (.lock c) }
      { t with stage := Function.update t.stage u (.called c) } := by
  have hplace := h.place u
  rw [hu] at hplace
  exact
    { stage := stage_update h.stage rfl
      place := Place.move h.place hplace
      free := h.free
      sleepers := h.sleepers.move (by simp [hu]) (by simp) }

theorem Refines.lock (h : Refines M perform Rep s t) (hu : s.pc u = .lock c)
    (hm : s.mutex = none) :
    Refines M perform Rep { s with mutex := some u, pc := Function.update s.pc u (.test c) } t where
  stage := stage_move h.stage (by rw [hu]; rfl)
  place := Place.update h.place ⟨rfl, h.free hm⟩ fun v hv =>
    ⟨by rw [hm]; simp, ne_of_owner rfl hv⟩
  free := by rintro ⟨⟩
  sleepers := h.sleepers.move (by simp [hu]) (by simp)

theorem Refines.wait (hI : Implements M perform Rep) (h : Refines M perform Rep s t)
    (hu : s.pc u = .test c) (hw : M.mustWait c s.data = true) :
    Refines M perform Rep { s with pc := Function.update s.pc u (.wait c) } t := by
  have hplace := h.place u
  rw [hu] at hplace
  obtain ⟨hm, hrep⟩ := hplace
  exact
    { stage := stage_move h.stage (by rw [hu]; rfl)
      place := Place.move h.place ⟨hm, hrep, (hI.waits hrep).mp hw⟩
      free := h.free
      sleepers := h.sleepers.move (by simp [hu]) (by simp) }

theorem Refines.enter (hI : Implements M perform Rep) (h : Refines M perform Rep s t)
    (hu : s.pc u = .test c) (hw : M.mustWait c s.data = false) :
    Refines M perform Rep { s with pc := Function.update s.pc u (.body c 0 M.start) } t := by
  have hplace := h.place u
  rw [hu] at hplace
  obtain ⟨hm, hrep⟩ := hplace
  -- the operation does not have to wait, so its statements will do what it does
  obtain ⟨⟨r', a'⟩, hp⟩ : ∃ p, perform c t.obj = some p := by
    rw [← Option.ne_none_iff_exists']
    intro hnone
    rw [(hI.waits hrep).mpr hnone] at hw
    cases hw
  obtain ⟨d', hrun, hrep'⟩ := hI.performs hrep hp
  exact
    { stage := stage_move h.stage (by rw [hu]; rfl)
      place := Place.move h.place ⟨hm, d', r', a', hrun, hp, hrep'⟩
      free := h.free
      sleepers := h.sleepers.move (by simp [hu]) (by simp) }

theorem Refines.sleep (h : Refines M perform Rep s t) (hu : s.pc u = .wait c) :
    Refines M perform Rep
      { s with mutex := none, pc := Function.update s.pc u (.asleep c) } t := by
  have hplace := h.place u
  rw [hu] at hplace
  obtain ⟨hm, hrep, hnone⟩ := hplace
  exact
    { stage := stage_move h.stage (by rw [hu]; rfl)
      place := Place.update h.place (by simp [Place]) fun v hv => ⟨ne_of_owner hm hv, by simp⟩
      free := fun _ => hrep
      sleepers := h.sleepers.sleep (by simp [hu]) hnone }

/-- A statement of a function under way has a result, and the rest of them do the rest. -/
theorem Refines.statement {i : ℕ} {f : D → R → Option (D × R)} (h : Refines M perform Rep s t)
    (hu : s.pc u = .body c i r) (hf : (M.body c)[i]? = some f) :
    ∃ d r', f s.data r = some (d, r') ∧ Refines M perform Rep
      { s with data := d, pc := Function.update s.pc u (.body c (i + 1) r') } t := by
  have hplace := h.place u
  rw [hu] at hplace
  obtain ⟨hm, d', r', a', hrun, hp, hrep⟩ := hplace
  obtain ⟨hi, rfl⟩ := List.getElem?_eq_some_iff.mp hf
  rw [List.drop_eq_getElem_cons hi, runAll] at hrun
  obtain ⟨⟨d₁, r₁⟩, hd₁, hrun⟩ := Option.bind_eq_some_iff.mp hrun
  refine ⟨d₁, r₁, hd₁, ?_⟩
  exact
    { stage := stage_move h.stage (by rw [hu]; rfl)
      place := Place.update h.place ⟨hm, d', r', a', hrun, hp, hrep⟩ fun v hv =>
        ⟨ne_of_owner hm hv, ne_of_owner hm hv⟩
      free := by rw [hm]; rintro ⟨⟩
      sleepers := h.sleepers.move (by simp [hu]) (by simp) }

/-- At the unlock the operation takes place. -/
theorem Refines.unlock {i : ℕ} (hI : Implements M perform Rep) (h : Refines M perform Rep s t)
    (hu : s.pc u = .body c i r) (hf : (M.body c)[i]? = none) :
    ∃ a', perform c t.obj = some (r, a') ∧ Refines M perform Rep
      { s with mutex := none, pc := Function.update s.pc u (.broadcast c r) }
      ⟨a', Function.update t.stage u (.done c r)⟩ := by
  have hplace := h.place u
  rw [hu] at hplace
  obtain ⟨hm, d', r', a', hrun, hp, hrep⟩ := hplace
  rw [List.drop_eq_nil_of_le (List.getElem?_eq_none_iff.mp hf), runAll] at hrun
  cases hrun
  refine ⟨a', hp, ?_⟩
  exact
    { stage := stage_update h.stage rfl
      place := Place.update h.place (by simp [Place]) fun v hv => ⟨ne_of_owner hm hv, by simp⟩
      free := fun _ => hrep
      sleepers := h.sleepers.unlock hI (by simp [hu]) hp }

theorem Refines.broadcast (h : Refines M perform Rep s t) (hu : s.pc u = .broadcast c r) :
    Refines M perform Rep
      { s with pc := Function.update (M.wake c s.pc) u (.ret c r) } t := by
  have hplace := h.place u
  rw [hu] at hplace
  let woken : State ι D C R := { s with pc := M.wake c s.pc }
  have hstage : ∀ v, t.stage v = (woken.pc v).stage := by
    intro v
    rw [h.stage, stage_wake]
  have hwoken : ∀ v, M.Place perform Rep woken.mutex woken.data t.obj v (woken.pc v) := by
    intro v
    exact (h.place v).wake
  exact
    { stage := stage_move hstage (by rw [stage_wake, hu]; rfl)
      place := Place.move hwoken hplace
      free := h.free
      sleepers := h.sleepers.broadcast hu }

theorem Refines.ret (h : Refines M perform Rep s t) (hu : s.pc u = .ret c r) :
    Refines M perform Rep { s with pc := Function.update s.pc u .idle }
      { t with stage := Function.update t.stage u .idle } := by
  have hplace := h.place u
  rw [hu] at hplace
  exact
    { stage := stage_update h.stage rfl
      place := Place.move h.place hplace
      free := h.free
      sleepers := h.sleepers.move (by simp [hu]) (by simp) }

theorem Refines.spurious (h : Refines M perform Rep s t) (hu : s.pc u = .asleep c) :
    Refines M perform Rep { s with pc := Function.update s.pc u (.lock c) } t := by
  have hplace := h.place u
  rw [hu] at hplace
  exact
    { stage := stage_move h.stage (by rw [hu]; rfl)
      place := Place.move h.place hplace
      free := h.free
      sleepers := h.sleepers.move (by simp [hu]) (by simp) }

end Simulation

variable {s s' : State ι D C R} {t : Atomic.State ι A C R} {a : Action ι C}

/-- A step that the object does not notice. -/
theorem matched_by_none (hseen : seen s a = []) (h : Refines M perform Rep s' t) :
    ∃ bs t', (Atomic.system perform).exec t bs = some t' ∧
      (Atomic.system perform).trace Atomic.seen t bs = seen s a ∧ Refines M perform Rep s' t' :=
  ⟨[], t, rfl, hseen.symm, h⟩

/-- A step that is one of the object. -/
theorem matched_by_one {b : Atomic.Action ι C} {t' : Atomic.State ι A C R}
    (hstep : Atomic.step perform t b = some t') (hseen : Atomic.seen t b = seen s a)
    (h : Refines M perform Rep s' t') :
    ∃ bs t', (Atomic.system perform).exec t bs = some t' ∧
      (Atomic.system perform).trace Atomic.seen t bs = seen s a ∧ Refines M perform Rep s' t' := by
  have hstep' : (Atomic.system perform).step t b = some t' := hstep
  refine ⟨[b], t', ?_, ?_, h⟩
  · rw [Guarded.exec_cons, hstep']
    rfl
  · rw [Guarded.trace, hstep', Option.elim_some, Guarded.trace_nil, List.append_nil, hseen]

/-- **Each step of the monitor is one of the atomic object, or none.** -/
theorem Refines.step (hI : Implements M perform Rep) (h : Refines M perform Rep s t)
    (hs : M.step s a = some s') :
    ∃ bs t', (Atomic.system perform).exec t bs = some t' ∧
      (Atomic.system perform).trace Atomic.seen t bs = seen s a ∧ Refines M perform Rep s' t' := by
  cases step_cases hs with
  | @call u c hu =>
      exact matched_by_one (Atomic.step_call (by rw [h.stage, hu]; rfl)) rfl (h.call hu)
  | lock hu hm => exact matched_by_none (by rw [seen, hu]) (h.lock hu hm)
  | wait hu hw => exact matched_by_none (by rw [seen, hu]) (h.wait hI hu hw)
  | enter hu hw => exact matched_by_none (by rw [seen, hu]) (h.enter hI hu hw)
  | sleep hu => exact matched_by_none (by rw [seen, hu]) (h.sleep hu)
  | statement hu hf hd =>
      obtain ⟨d, r', hd', h'⟩ := h.statement hu hf
      cases hd'.symm.trans hd
      exact matched_by_none (by rw [seen, hu]) h'
  | fault hu hf hd =>
      obtain ⟨d, r', hd', -⟩ := h.statement hu hf
      cases hd'.symm.trans hd
  | @unlock u c i r hu hf =>
      obtain ⟨a', hp, h'⟩ := h.unlock hI hu hf
      exact matched_by_one (Atomic.step_commit (by rw [h.stage, hu]; rfl) hp)
        (by rw [seen, hu]; rfl) h'
  | broadcast hu => exact matched_by_none (by rw [seen, hu]) (h.broadcast hu)
  | @ret u c r hu =>
      have hdone : t.stage u = .done c r := by rw [h.stage, hu]; rfl
      exact matched_by_one (Atomic.step_ret hdone)
        (by rw [Atomic.seen_ret hdone, seen, hu]) (h.ret hu)
  | spurious hu => exact matched_by_none rfl (h.spurious hu)

/-- **Monitors are linearizable.**  Whatever the threads call and however their steps
interleave, the same calls and returns come from the atomic object. -/
theorem linearizes (hI : Implements M perform Rep) (h : Refines M perform Rep s t)
    {as : List (Action ι C)} (hs : M.system.exec s as = some s') :
    ∃ bs t', (Atomic.system perform).exec t bs = some t' ∧
      (Atomic.system perform).trace Atomic.seen t bs = M.system.trace seen s as ∧
      Refines M perform Rep s' t' :=
  Guarded.trace_simulates (M := M.system) (R := Refines M perform Rep)
    (fun _ _ _ _ hr hstep => Refines.step hI hr hstep) h hs

/-- The result with which `u` is about to unlock. -/
def unlocks (M : Monitor D C R K) (s : State ι D C R) (u : ι) : Option R :=
  match s.pc u with
  | .body c i r => if (M.body c).length ≤ i then some r else none
  | _ => none

omit [DecidableEq ι] [DecidableEq K] in
theorem unlocks_eq_none {u : ι} (h : ∀ c i r, s.pc u = .body c i r → i < (M.body c).length) :
    M.unlocks s u = none := by
  rw [unlocks]
  split
  · exact if_neg (Nat.not_le_of_lt (h _ _ _ ‹_›))
  · rfl

/-- A thread goes on: to the object it is nothing, or its operation or its return. -/
theorem Refines.run_cases (hI : Implements M perform Rep) (h : Refines M perform Rep s t) {u : ι}
    (hs : M.run s u = some s') :
    (M.unlocks s u = none ∧ ∃ t', Refines M perform Rep s' t' ∧ t'.obj = t.obj ∧
      ∀ v c, t'.stage v = .called c → t.stage v = .called c) ∨
    ∃ c r a', M.unlocks s u = some r ∧ t.stage u = .called c ∧ perform c t.obj = some (r, a') ∧
      Refines M perform Rep s' ⟨a', Function.update t.stage u (.done c r)⟩ := by
  cases step_run hs with
  | lock hu hm =>
      exact .inl ⟨unlocks_eq_none (by simp [hu]), t, h.lock hu hm, rfl, fun _ _ hv => hv⟩
  | wait hu hw =>
      exact .inl ⟨unlocks_eq_none (by simp [hu]), t, h.wait hI hu hw, rfl, fun _ _ hv => hv⟩
  | enter hu hw =>
      exact .inl ⟨unlocks_eq_none (by simp [hu]), t, h.enter hI hu hw, rfl, fun _ _ hv => hv⟩
  | sleep hu =>
      exact .inl ⟨unlocks_eq_none (by simp [hu]), t, h.sleep hu, rfl, fun _ _ hv => hv⟩
  | @statement _ c i r f d r' hu hf hd =>
      obtain ⟨d₁, r₁, hd₁, h'⟩ := h.statement hu hf
      cases hd₁.symm.trans hd
      have hi := (List.getElem?_eq_some_iff.mp hf).1
      refine .inl ⟨unlocks_eq_none ?_, t, h', rfl, fun _ _ hv => hv⟩
      intro c' i' r' hu'
      rw [hu] at hu'
      cases hu'
      exact hi
  | fault hu hf hd =>
      obtain ⟨d, r', hd', -⟩ := h.statement hu hf
      cases hd'.symm.trans hd
  | @unlock _ c i r hu hf =>
      obtain ⟨a', hp, h'⟩ := h.unlock hI hu hf
      refine .inr ⟨c, r, a', ?_, by rw [h.stage, hu]; rfl, hp, h'⟩
      rw [unlocks, hu]
      exact if_pos (List.getElem?_eq_none_iff.mp hf)
  | broadcast hu =>
      exact .inl ⟨unlocks_eq_none (by simp [hu]), t, h.broadcast hu, rfl, fun _ _ hv => hv⟩
  | ret hu =>
      refine .inl ⟨unlocks_eq_none (by simp [hu]), _, h.ret hu, rfl, ?_⟩
      intro v c hv
      rcases eq_or_ne v u with rfl | hne
      · simp at hv
      · simpa [Function.update_of_ne hne] using hv

/-! ### One thread alone -/

section Alone

/-- Only `u` is in the monitor. -/
def alone (u : ι) (m : Option ι) (d : D) (p : Pc C R) : State ι D C R :=
  ⟨m, d, Function.update (fun _ => .idle) u p⟩

/-- Steps of `u` up to, or after, the unlock. -/
def Quietly (M : Monitor D C R K) (u : ι) : State ι D C R → State ι D C R → Prop :=
  Relation.ReflTransGen fun s s' => M.unlocks s u = none ∧ M.run s u = some s'

variable {u : ι} {m m' : Option ι} {d d' : D} {p p' : Pc C R} {c : C} {r r' : R}

omit [DecidableEq K] in
@[simp] theorem alone_pc : (alone u m d p : State ι D C R).pc u = p := by
  simp only [alone, Function.update_self]

omit [DecidableEq K] in
/-- A step of `u` leaves it alone. -/
theorem alone_step :
    (⟨m', d', Function.update (alone u m d p).pc u p'⟩ : State ι D C R) = alone u m' d' p' := by
  rw [alone, alone, Function.update_idem]

theorem wake_alone (M : Monitor D C R K) :
    Function.update (M.wake c (alone u m d (.broadcast c r)).pc) u (.ret c r)
      = (alone u m d (.ret c r)).pc := by
  funext v
  rcases eq_or_ne v u with rfl | hv
  · rw [Function.update_self, alone_pc]
  · rw [Function.update_of_ne hv, wake, alone, alone]
    simp only [Function.update_of_ne hv]

/-- The statements of a function, one after the other. -/
theorem quietly_body (M : Monitor D C R K) {i : ℕ} (hi : i ≤ (M.body c).length)
    (hrun : runAll ((M.body c).drop i) d r = some (d', r')) :
    Quietly M u (alone u (some u) d (.body c i r))
      (alone u (some u) d' (.body c (M.body c).length r')) := by
  induction hk : (M.body c).length - i generalizing i d r with
  | zero =>
      obtain rfl : i = (M.body c).length := by omega
      rw [List.drop_length, runAll] at hrun
      cases hrun
      exact .refl
  | succ k ih =>
      have hlt : i < (M.body c).length := by omega
      rw [List.drop_eq_getElem_cons hlt, runAll] at hrun
      obtain ⟨⟨d₁, r₁⟩, hstatement, hrun⟩ := Option.bind_eq_some_iff.mp hrun
      refine .head ⟨?_, ?_⟩ (ih hlt hrun (by omega))
      · rw [unlocks, alone_pc]
        exact if_neg (Nat.not_le_of_lt hlt)
      · have hdata : (M.body c)[i] (alone u (some u) d (.body c i r)).data r = some (d₁, r₁) :=
          hstatement
        rw [run, alone_pc]
        simp only [List.getElem?_eq_getElem hlt, hdata, alone_step]
        rfl

/-- **A function that does not have to wait runs through**, when nobody else is in the
monitor: quietly to its unlock, and quietly to its return. -/
theorem Implements.runs_alone (hI : Implements M perform Rep) {a a' : A} (hrep : Rep d a)
    (hp : perform c a = some (r, a')) (u : ι) :
    ∃ d' s₁ s₂ s₃, M.step (init d) (.call u c) = some s₁ ∧ Quietly M u s₁ s₂ ∧
      M.unlocks s₂ u = some r ∧ M.run s₂ u = some s₃ ∧ Quietly M u s₃ (init d') ∧ Rep d' a' := by
  obtain ⟨d', hrun, hrep'⟩ := hI.performs hrep hp
  have hwait : M.mustWait c d = false := by
    rw [Bool.eq_false_iff]
    intro hwait
    rw [(hI.waits hrep).mp hwait] at hp
    cases hp
  refine ⟨d', alone u none d (.lock c),
    alone u (some u) d' (.body c (M.body c).length r),
    alone u none d' (.broadcast c r), rfl, ?_, ?_, ?_, ?_, hrep'⟩
  · have hlock : M.run (alone u none d (.lock c)) u
        = some (alone u (some u) d (.test c)) := by
      rw [run, alone_pc]
      exact congrArg some alone_step
    have htest : M.run (alone u (some u) d (.test c)) u
        = some (alone u (some u) d (.body c 0 M.start)) := by
      have hwait' : M.mustWait c (alone u (some u) d (.test c) : State ι D C R).data = false :=
        hwait
      rw [run, alone_pc]
      simp only [hwait', Bool.false_eq_true, if_false]
      exact congrArg some alone_step
    refine .head ⟨by rw [unlocks, alone_pc], hlock⟩ (.head ⟨by rw [unlocks, alone_pc], htest⟩ ?_)
    exact quietly_body M (Nat.zero_le _) hrun
  · rw [unlocks, alone_pc]
    exact if_pos (Nat.le_refl _)
  · rw [run, alone_pc]
    simp only [List.getElem?_eq_none (Nat.le_refl _)]
    exact congrArg some alone_step
  · have hbroadcast : M.run (alone u none d' (.broadcast c r)) u
        = some (alone u none d' (.ret c r)) := by
      rw [run, alone_pc]
      simp only [wake_alone]
      rfl
    have hret : M.run (alone u none d' (.ret c r)) u = some (init d') := by
      rw [run, alone_pc]
      simp only [alone, Function.update_idem, Function.update_eq_self, init]
    exact .head ⟨by rw [unlocks, alone_pc], hbroadcast⟩
      (.single ⟨by rw [unlocks, alone_pc], hret⟩)

end Alone

/-! ### Safety -/

omit [DecidableEq ι] in
/-- No statement meets undefined behaviour. -/
theorem Refines.not_fault (h : Refines M perform Rep s t) (u : ι) : s.pc u ≠ .fault := by
  intro hu
  have hplace := h.place u
  rw [hu] at hplace
  exact hplace

omit [DecidableEq ι] in
theorem Refines.mutex_of_owns (h : Refines M perform Rep s t) {u : ι}
    (hu : (s.pc u).owns = true) : s.mutex = some u := by
  have hplace := h.place u
  rcases hpc : s.pc u with - | c | c | c | c | ⟨c, i, r⟩ | ⟨c, r⟩ | ⟨c, r⟩ | - <;>
    rw [hpc] at hu hplace <;> first | exact hplace.1 | cases hu

omit [DecidableEq ι] in
theorem Refines.owns_of_mutex (h : Refines M perform Rep s t) {u : ι}
    (hu : s.mutex = some u) : (s.pc u).owns = true := by
  have hplace := h.place u
  rcases hpc : s.pc u with - | c | c | c | c | ⟨c, i, r⟩ | ⟨c, r⟩ | ⟨c, r⟩ | - <;>
    rw [hpc] at hplace <;> first | rfl | exact absurd hu hplace | exact hplace.elim

omit [DecidableEq ι] in
/-- Only one thread at a time is between lock and unlock. -/
theorem Refines.owner_unique (h : Refines M perform Rep s t) {u v : ι}
    (hu : (s.pc u).owns = true) (hv : (s.pc v).owns = true) : u = v :=
  Option.some.inj ((h.mutex_of_owns hu).symm.trans (h.mutex_of_owns hv))

/-! ### Progress -/

/-- Whoever has the mutex can go on. -/
theorem Refines.free_of_stuck (h : Refines M perform Rep s t) (hstuck : ∀ u, M.run s u = none) :
    s.mutex = none := by
  rcases hm : s.mutex with - | v
  · rfl
  · have howns := h.owns_of_mutex hm
    have hv := hstuck v
    rcases hpc : s.pc v with - | c | c | c | c | ⟨c, i, r⟩ | ⟨c, r⟩ | ⟨c, r⟩ | - <;>
      rw [hpc] at howns <;> simp only [Pc.owns, Bool.false_eq_true] at howns
    all_goals simp only [run, hpc, reduceCtorEq] at hv
    split at hv
    · cases hv
    · split at hv <;> cases hv

/-- Where no thread can go on, those with a call under way have to wait. -/
theorem Refines.stuck (h : Refines M perform Rep s t) (hstuck : ∀ u, M.run s u = none) (u : ι) :
    s.pc u = .idle ∨ ∃ c, s.pc u = .asleep c ∧ perform c t.obj = none := by
  have hfree := h.free_of_stuck hstuck
  have hasleep : ∀ v, s.pc v = .idle ∨ ∃ c, s.pc v = .asleep c := by
    intro v
    have hv := hstuck v
    have hplace := h.place v
    rw [hfree] at hplace
    rcases hpc : s.pc v with - | c | c | c | c | ⟨c, i, r⟩ | ⟨c, r⟩ | ⟨c, r⟩ | - <;>
      rw [hpc] at hplace <;> simp only [run, hpc, hfree, reduceCtorEq] at hv
    · exact .inl rfl
    · exact .inr ⟨c, rfl⟩
    · cases hplace.1
    · exact hplace.elim
  rcases hasleep u with hu | ⟨c, hu⟩
  · exact .inl hu
  · refine .inr ⟨c, hu, ?_⟩
    rcases h.sleepers u c hu with hnone | ⟨v, c', r, hv, -⟩
    · exact hnone
    · rcases hasleep v with hv' | ⟨c₁, hv'⟩ <;> rw [hv] at hv' <;> cases hv'

section Rank

variable [Fintype ι] (L : ℕ)

/-- How far a thread can still get before it has to be woken, counting three more steps
of every thread for its own broadcast. -/
def weight (N : ℕ) : Pc C R → ℕ
  | .idle | .fault => 0
  | .ret _ _ => 1
  | .broadcast _ _ => 3 * N + 2
  | .body _ i _ => 3 * N + 3 + (L - i)
  | .asleep _ => 3 * N + L + 4
  | .wait _ => 3 * N + L + 5
  | .test _ => 3 * N + L + 6
  | .lock _ => 3 * N + L + 7

/-- A bound on the steps that the calls under way can still take. -/
def rank (s : State ι D C R) : ℕ := ∑ u, weight L (Fintype.card ι) (s.pc u)

variable {L}

/-- A thread that moves on lowers the sum. -/
theorem rank_update {pc : ι → Pc C R} {u : ι} {p : Pc C R} {N : ℕ}
    (h : weight L N p < weight L N (pc u)) :
    ∑ v, weight L N (Function.update pc u p v) < ∑ v, weight L N (pc v) := by
  have hsum := sum_update_add (fun _ => weight L N) pc u p
  omega

omit [DecidableEq ι] in
theorem sum_wake_le (M : Monitor D C R K) (c : C) (pc : ι → Pc C R) (N : ℕ) :
    ∑ v, weight L N (M.wake c pc v) ≤ ∑ v, weight L N (pc v) + 3 * Fintype.card ι := by
  have hle : ∀ v ∈ Finset.univ, weight L N (M.wake c pc v) ≤ weight L N (pc v) + 3 := by
    intro v _
    rcases wake_cases M c pc v with hw | ⟨c', hv, hw⟩
    · rw [hw]
      omega
    · rw [hw, hv, weight, weight]
  refine (Finset.sum_le_sum hle).trans ?_
  rw [Finset.sum_add_distrib, Finset.sum_const, Finset.card_univ, smul_eq_mul]
  omega

/-- Every step of a call lowers the rank. -/
theorem rank_run (hL : ∀ c, (M.body c).length ≤ L) (hs : Step M s (.run u) s') :
    rank L s' < rank L s := by
  cases hs with
  | lock hu hm => exact rank_update (by rw [hu, weight, weight]; omega)
  | wait hu hw => exact rank_update (by rw [hu, weight, weight]; omega)
  | enter hu hw => exact rank_update (by rw [hu, weight, weight]; omega)
  | sleep hu => exact rank_update (by rw [hu, weight, weight]; omega)
  | @statement _ c i r f d r' hu hf hd =>
      have hi := (List.getElem?_eq_some_iff.mp hf).1
      have hc := hL c
      exact rank_update (by rw [hu, weight, weight]; omega)
  | fault hu hf hd => exact rank_update (by rw [hu, weight, weight]; omega)
  | unlock hu hf => exact rank_update (by rw [hu, weight, weight]; omega)
  | @broadcast _ c r hu =>
      have hwake := sum_wake_le (L := L) M c s.pc (Fintype.card ι)
      have hself : M.wake c s.pc u = .broadcast c r := by
        rcases wake_cases M c s.pc u with hw | ⟨c', hu', -⟩
        · rw [hw, hu]
        · rw [hu] at hu'
          cases hu'
      have hsum := sum_update_add (fun _ => weight L (Fintype.card ι)) (M.wake c s.pc) u
        (.ret c r)
      rw [hself, weight, weight] at hsum
      show ∑ v, weight L (Fintype.card ι) (Function.update (M.wake c s.pc) u (.ret c r) v)
        < ∑ v, weight L (Fintype.card ι) (s.pc v)
      omega
  | ret hu => exact rank_update (by rw [hu, weight, weight]; omega)

/-- **The calls under way come to an end.**  With no new calls and nobody woken without
a broadcast, no schedule goes on for longer than the rank. -/
theorem length_le_rank (hL : ∀ c, (M.body c).length ≤ L) {us : List ι}
    (hs : M.system.exec s (us.map .run) = some s') : us.length + rank L s' ≤ rank L s := by
  have hle := Guarded.length_le_of_rank (M := M.system) (fun a => ∃ u, a = .run u) (rank L)
    (by
      rintro s₁ a s₂ ⟨u, rfl⟩ hstep
      exact rank_run hL (step_run hstep)) hs
    (by
      intro a ha
      obtain ⟨u, -, rfl⟩ := List.mem_map.mp ha
      exact ⟨u, rfl⟩)
  rwa [List.length_map] at hle

/-- They can always be brought to it. -/
theorem exists_stuck (hL : ∀ c, (M.body c).length ≤ L) (s : State ι D C R) :
    ∃ (us : List ι) (s' : State ι D C R), M.system.exec s (us.map .run) = some s' ∧
      ∀ u, M.run s' u = none := by
  induction hn : rank L s using Nat.strong_induction_on generalizing s with
  | _ n ih =>
    by_cases hstuck : ∀ u, M.run s u = none
    · exact ⟨[], s, rfl, hstuck⟩
    · obtain ⟨u, hu⟩ := not_forall.mp hstuck
      obtain ⟨s₁, hs₁⟩ := Option.ne_none_iff_exists'.mp hu
      obtain ⟨us, s', hs', hend⟩ := ih _ (hn ▸ rank_run hL (step_run hs₁)) s₁ rfl
      refine ⟨u :: us, s', ?_, hend⟩
      have hstep : M.system.step s (.run u) = some s₁ := hs₁
      rw [List.map_cons, Guarded.exec_cons, hstep]
      exact hs'

end Rank

end Monitor
