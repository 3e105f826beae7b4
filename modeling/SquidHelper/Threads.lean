/-
SquidHelper/Threads.lean

The process with the real queues: the threads of `Helper.lean`, which call the functions
of `queue.c` statement by statement (`Queue.lean`) instead of using a queue in one step.

Where the model of the process has a queue operation, a thread here calls the function
and does nothing else until it has returned.  What it does next depends on the result,
which is fixed at the unlock; between the unlock and the return it only broadcasts, so
that it counts as having gone on from the unlock.

`refines_helper` is the point: whatever the threads do inside `queue.c`, the process goes
through the states of the model, which therefore leaves nothing out by having queue
operations that are indivisible.  And where it cannot go on, neither can the model
(`blocked_of_stuck`, and for the workers alone `workers_blocked_of_stuck`).
-/
import SquidHelper.Helper
import SquidHelper.Queue

namespace SquidHelper

namespace Threads

open CString

open Queue (functions perform)

variable {σ ω : Type*} {n : ℕ}

/-! ### The threads and their calls -/

/-- `none` is the main thread. -/
abbrev Thread (n : ℕ) := Option (Fin n)

inductive QueueCall (n : ℕ)
  /-- On `job_queue`. -/
  | job (c : Queue.Call (Option Job))
  /-- On `thread_signal_queue`. -/
  | signal (c : Queue.Call (Fin n))
  deriving DecidableEq

/-- The function of `queue.c` that a thread calls next, if it does. -/
def queueCall (s : State n ω) : Thread n → Option (QueueCall n)
  | none =>
      match s.main with
      | .stdinRead (line :: _) _ => some (.job (.enqueue (some ⟨s.nextId, line⟩)))
      | .terminating (_ + 1) => some (.job (.enqueue none))
      | .threadSig => some (.signal .dequeue)
      | _ => none
  | some w =>
      match s.workers w with
      | .dequeue => some (.job .dequeue)
      | .terminate => some (.signal (.enqueue w))
      | _ => none

/-- How a thread goes on with what `job_queue` gave it. -/
def afterJob (s : State n ω) (t : Thread n) (r : Queue.Result (Option Job)) : State n ω :=
  match t, r with
  | none, _ =>
      match s.main with
      | .stdinRead (line :: lines) more =>
          { s with main := .stdinRead lines more, nextId := s.nextId + 1,
                   log := s.log ++ [.enqueued ⟨s.nextId, line⟩] }
      | .terminating (left + 1) => { s with main := .terminating left }
      | _ => s
  | some w, .value none => { s with workers := Function.update s.workers w .terminate }
  | some w, .value (some job) =>
      { s with workers := Function.update s.workers w (.busy job .parse),
               log := s.log ++ [.dequeued w job] }
  | some _, _ => s

/-- How a thread goes on with what `thread_signal_queue` gave it. -/
def afterSignal (s : State n ω) : Thread n → State n ω
  | none => { s with main := .evLoop, activeWorkers := decrement s.activeWorkers,
                     stopped := s.stopped || decrement s.activeWorkers == 0 }
  | some w => { s with workers := Function.update s.workers w .asyncSend }

/-! ### The process -/

/-- The threads, and the two queues with where each thread is in their functions; the
queues of `base` itself are not in use. -/
structure Process (n : ℕ) (ω : Type*) where
  base : State n ω
  jobs : Monitor.State (Thread n) (Queue.Data (Option Job)) (Queue.Call (Option Job))
    (Queue.Result (Option Job))
  signals : Monitor.State (Thread n) (Queue.Data (Fin n)) (Queue.Call (Fin n))
    (Queue.Result (Fin n))

/-- All threads created, `QUEUE_INITIALIZER` done for both buffers. -/
def Process.init (n : ℕ) (reads : List StdinRead) (world : ω) : Process n ω where
  base := .init n reads world
  jobs := Monitor.init (Queue.initializer (Slots.fresh 256))
  signals := Monitor.init (Queue.initializer (Slots.fresh 8))

inductive ProcessAction (n : ℕ) (σ : Type*)
  /-- A step outside of `queue.c`. -/
  | own (a : Action n σ)
  /-- A thread enters `queue.c`. -/
  | call (t : Thread n)
  /-- The next statement of `t` in a function on `job_queue`. -/
  | job (t : Thread n)
  | signal (t : Thread n)
  /-- `t` wakes up of itself. -/
  | jobWakeup (t : Thread n)
  | signalWakeup (t : Thread n)

/-- The thread that takes a step. -/
def threadOf : Action n σ → Option (Thread n)
  | .outside _ => none
  | .worker w _ => some (some w)
  | .coalesce w => some (some w)
  | _ => some none

/-- `t` is not in `queue.c`. -/
def Process.Outside (s : Process n ω) (t : Thread n) : Prop :=
  s.jobs.pc t = .idle ∧ s.signals.pc t = .idle

instance (s : Process n ω) (t : Thread n) : Decidable (s.Outside t) := by
  unfold Process.Outside; infer_instance

def processStep (c : Core σ ω) (s : Process n ω) : ProcessAction n σ → Option (Process n ω)
  | .own a =>
      if ∀ t ∈ threadOf a, s.Outside t ∧ queueCall s.base t = none then
        (step c s.base a).map fun base => { s with base := base }
      else none
  | .call t =>
      if s.Outside t then
        match queueCall s.base t with
        | some (.job q) =>
            ((functions _).step s.jobs (.call t q)).map fun jobs => { s with jobs := jobs }
        | some (.signal q) =>
            ((functions _).step s.signals (.call t q)).map fun signals =>
              { s with signals := signals }
        | none => none
      else none
  | .job t =>
      ((functions _).run s.jobs t).map fun jobs =>
        { s with jobs := jobs, base := ((functions _).unlocks s.jobs t).elim s.base
                                          (afterJob s.base t) }
  | .signal t =>
      ((functions _).run s.signals t).map fun signals =>
        { s with signals := signals, base := ((functions _).unlocks s.signals t).elim s.base
                                                fun _ => afterSignal s.base t }
  | .jobWakeup t =>
      ((functions _).step s.jobs (.spurious t)).map fun jobs => { s with jobs := jobs }
  | .signalWakeup t =>
      ((functions _).step s.signals (.spurious t)).map fun signals => { s with signals := signals }

/-- The process with `n` workers. -/
def process (c : Core σ ω) (n : ℕ) : Guarded (Process n ω) (ProcessAction n σ) := ⟨processStep c⟩

/-! ### Steps of the model that leave the queues alone -/

/-- The state with other queues. -/
def withQueues (s : State n ω) (jobQueue : Fifo 256 (Option Job))
    (threadSignalQueue : Fifo 8 (Fin n)) : State n ω :=
  { s with jobQueue := jobQueue, threadSignalQueue := threadSignalQueue }

variable {c : Core σ ω} {s s' : State n ω} {a : Action n σ} {q : Fifo 256 (Option Job)}
  {q' : Fifo 8 (Fin n)}

/-- **A step that calls no queue function is the same whatever the queues are.** -/
theorem step_withQueues (h : Step c s a s')
    (hfree : ∀ t ∈ threadOf a, queueCall s t = none) (q : Fifo 256 (Option Job))
    (q' : Fifo 8 (Fin n)) : Step c (withQueues s q q') a (withQueues s' q q') := by
  cases h with
  | readDone hm => exact .readDone hm
  | readData hm hr => exact .readData hm hr
  | readEof hm hr => exact .readEof hm hr
  | readNothing hm hr => exact .readNothing hm hr
  | enqueueLine hm hq => simp [threadOf, queueCall, hm] at hfree
  | threadSig hm hq => simp [threadOf, queueCall, hm] at hfree
  | enqueueNull hm hq => simp [threadOf, queueCall, hm] at hfree
  | startJoin hm => exact .startJoin hm
  | join hm hlt hw => exact .join hm hlt hw
  | stdin hm ha hr => exact .stdin hm ha hr
  | signal hm => exact .signal hm
  | async hm hp => exact .async hm hp
  | watcher hm hi hf => exact .watcher hm hi hf
  | leave hm hs => exact .leave hm hs
  | initThread hw => exact .initThread hw
  | dequeueNull hw hq => simp [threadOf, queueCall, hw] at hfree
  | dequeueJob hw hq => simp [threadOf, queueCall, hw] at hfree
  | request hw hr => exact .request hw hr
  | terminate hw hq => simp [threadOf, queueCall, hw] at hfree
  | asyncSend hw => exact .asyncSend hw
  | threadFree hw => exact .threadFree hw
  | coalesce hw hp => exact .coalesce hw hp
  | outside => exact .outside

/-- What a worker calls next is its own business. -/
theorem queueCall_update {s s' : State n ω} {w v : Fin n} {pc : WorkerPc} (hv : v ≠ w)
    (hw : s'.workers = Function.update s.workers w pc) :
    queueCall s' (some v) = queueCall s (some v) := by
  rw [queueCall, queueCall, hw, Function.update_of_ne hv]

theorem queueCall_workers {s s' : State n ω} {v : Fin n} (hw : s'.workers = s.workers) :
    queueCall s' (some v) = queueCall s (some v) := by
  rw [queueCall, queueCall, hw]

theorem queueCall_main {s s' : State n ω} (hm : s'.main = s.main) (hid : s'.nextId = s.nextId) :
    queueCall s' none = queueCall s none := by
  rw [queueCall, queueCall, hm, hid]

/-- A step of one thread does not change what the others are about to call. -/
theorem queueCall_of_step (h : Step c s a s') {t : Thread n} (ht : t ∉ threadOf a) :
    queueCall s' t = queueCall s t := by
  cases t with
  | none =>
      cases h with
      | initThread | dequeueNull | dequeueJob | request | terminate | asyncSend | threadFree
      | coalesce | outside => exact queueCall_main rfl rfl
      | _ => exact absurd rfl ht
  | some v =>
      cases h with
      | initThread | dequeueNull | dequeueJob | request | terminate | asyncSend | threadFree
      | coalesce => exact queueCall_update (fun hv => ht (hv ▸ rfl)) rfl
      | _ => exact queueCall_workers rfl

/-! ### The queue operations of the model -/

/-- **The functions on `job_queue` do what the model does in one step.** -/
theorem afterJob_step [Inhabited σ] (c : Core σ ω) {t : Thread n} {call : Queue.Call (Option Job)}
    {r : Queue.Result (Option Job)} {q₁ : Fifo 256 (Option Job)}
    (hcall : queueCall s t = some (.job call)) (hp : perform call q = some (r, q₁)) :
    ∃ a : Action n σ, t ∈ threadOf a ∧
      Step c (withQueues s q q') a (withQueues (afterJob s t r) q₁ q') := by
  cases t with
  | none =>
      rw [queueCall] at hcall
      split at hcall <;> cases hcall
      case h_1 line lines more hm =>
        obtain ⟨q₂, hq, h₂⟩ := Option.map_eq_some_iff.mp hp
        cases h₂
        have hafter : afterJob s none .void = { s with
            main := .stdinRead lines more, nextId := s.nextId + 1,
            log := s.log ++ [.enqueued ⟨s.nextId, line⟩] } := by
          simp only [afterJob, hm]
        rw [hafter]
        exact ⟨.go, rfl, .enqueueLine hm (Fifo.enqueue_eq_some.mp hq)⟩
      case h_2 left hm =>
        obtain ⟨q₂, hq, h₂⟩ := Option.map_eq_some_iff.mp hp
        cases h₂
        have hafter : afterJob s none .void = { s with main := .terminating left } := by
          simp only [afterJob, hm]
        rw [hafter]
        exact ⟨.go, rfl, .enqueueNull hm (Fifo.enqueue_eq_some.mp hq)⟩
  | some w =>
      rw [queueCall] at hcall
      split at hcall <;> cases hcall
      obtain ⟨⟨job, q₂⟩, hq, h₂⟩ := Option.map_eq_some_iff.mp hp
      cases h₂
      refine ⟨.worker w default, rfl, ?_⟩
      cases job with
      | none => exact .dequeueNull ‹_› (Fifo.dequeue_eq_some.mp hq)
      | some job => exact .dequeueJob ‹_› (Fifo.dequeue_eq_some.mp hq)

/-- So do those on `thread_signal_queue`. -/
theorem afterSignal_step [Inhabited σ] (c : Core σ ω) {t : Thread n} {call : Queue.Call (Fin n)}
    {r : Queue.Result (Fin n)} {q₁ : Fifo 8 (Fin n)}
    (hcall : queueCall s t = some (.signal call)) (hp : perform call q' = some (r, q₁)) :
    ∃ a : Action n σ, t ∈ threadOf a ∧
      Step c (withQueues s q q') a (withQueues (afterSignal s t) q q₁) := by
  cases t with
  | none =>
      rw [queueCall] at hcall
      split at hcall <;> cases hcall
      obtain ⟨⟨w, q₂⟩, hq, h₂⟩ := Option.map_eq_some_iff.mp hp
      cases h₂
      exact ⟨.go, rfl, .threadSig ‹_› (Fifo.dequeue_eq_some.mp hq)⟩
  | some w =>
      rw [queueCall] at hcall
      split at hcall <;> cases hcall
      obtain ⟨q₂, hq, h₂⟩ := Option.map_eq_some_iff.mp hp
      cases h₂
      exact ⟨.worker w default, rfl, .terminate ‹_› (Fifo.enqueue_eq_some.mp hq)⟩

/-! ### The simulation -/

/-- Where a thread is with its operation on `job_queue`. -/
abbrev JobObject (n : ℕ) :=
  Atomic.State (Thread n) (Fifo 256 (Option Job)) (Queue.Call (Option Job))
    (Queue.Result (Option Job))

abbrev SignalObject (n : ℕ) :=
  Atomic.State (Thread n) (Fifo 8 (Fin n)) (Queue.Call (Fin n)) (Queue.Result (Fin n))

/-- The two queues stand for `tj` and `ts`, and who is in a function has called it from
where it is. -/
structure Matches (p : Process n ω) (tj : JobObject n) (ts : SignalObject n) : Prop where
  jobs : Monitor.Refines (functions _) perform Queue.Represents p.jobs tj
  signals : Monitor.Refines (functions _) perform Queue.Represents p.signals ts
  jobCall : ∀ t call, tj.stage t = .called call → queueCall p.base t = some (.job call)
  signalCall : ∀ t call, ts.stage t = .called call → queueCall p.base t = some (.signal call)

/-- The state of the model. -/
def view (p : Process n ω) (tj : JobObject n) (ts : SignalObject n) : State n ω :=
  withQueues p.base tj.obj ts.obj

/-- 256 and 8 elements are not too many for an `int`. -/
theorem implements_jobs :
    (functions (Option Job)).Implements (@perform _ 256) Queue.Represents :=
  Queue.implements _ (by norm_num [Queue.intMax])

theorem implements_signals :
    (functions (Fin n)).Implements (@perform _ 8) Queue.Represents :=
  Queue.implements _ (by norm_num [Queue.intMax])

theorem matches_init (n : ℕ) (reads : List StdinRead) (world : ω) :
    Matches (Process.init n reads world) (Atomic.init .empty) (Atomic.init .empty) where
  jobs := Monitor.refines_init (Queue.represents_initializer List.length_replicate (by decide))
  signals := Monitor.refines_init (Queue.represents_initializer List.length_replicate (by decide))
  jobCall _ _ h := by cases h
  signalCall _ _ h := by cases h

variable {p p' : Process n ω} {tj : JobObject n} {ts : SignalObject n}

/-- A step outside of `queue.c`. -/
theorem Matches.own (h : Matches p tj ts) {b : State n ω}
    (hfree : ∀ t ∈ threadOf a, p.Outside t ∧ queueCall p.base t = none)
    (hs : Step c p.base a b) :
    Matches { p with base := b } tj ts ∧
      Step c (view p tj ts) a (view { p with base := b } tj ts) := by
  -- who is in a function takes no such step
  have hcalled : ∀ t, (∃ call, tj.stage t = .called call) ∨ (∃ call, ts.stage t = .called call) →
      t ∉ threadOf a := by
    intro t ht hmem
    obtain ⟨⟨hj, hs⟩, -⟩ := hfree t hmem
    rcases ht with ⟨call, ht⟩ | ⟨call, ht⟩
    · rw [h.jobs.stage, hj] at ht
      cases ht
    · rw [h.signals.stage, hs] at ht
      cases ht
  refine ⟨⟨h.jobs, h.signals, ?_, ?_⟩,
    step_withQueues hs (fun t ht => (hfree t ht).2) tj.obj ts.obj⟩
  · intro t call ht
    rw [queueCall_of_step hs (hcalled t (.inl ⟨call, ht⟩))]
    exact h.jobCall t call ht
  · intro t call ht
    rw [queueCall_of_step hs (hcalled t (.inr ⟨call, ht⟩))]
    exact h.signalCall t call ht

/-- A thread enters a function on `job_queue`. -/
theorem Matches.callJob (h : Matches p tj ts) {t : Thread n} {call : Queue.Call (Option Job)}
    {jobs} (hcall : queueCall p.base t = some (.job call))
    (hs : (functions _).step p.jobs (.call t call) = some jobs) :
    Matches { p with jobs := jobs }
      { tj with stage := Function.update tj.stage t (.called call) } ts := by
  cases Monitor.step_cases hs with
  | call hidle =>
      refine ⟨h.jobs.call hidle, h.signals, ?_, h.signalCall⟩
      intro v call' hv
      rcases eq_or_ne v t with rfl | hvt
      · obtain rfl : call = call' := by simpa using hv
        exact hcall
      · exact h.jobCall v call' (by simpa [Function.update_of_ne hvt] using hv)

theorem Matches.callSignal (h : Matches p tj ts) {t : Thread n} {call : Queue.Call (Fin n)}
    {signals} (hcall : queueCall p.base t = some (.signal call))
    (hs : (functions _).step p.signals (.call t call) = some signals) :
    Matches { p with signals := signals } tj
      { ts with stage := Function.update ts.stage t (.called call) } := by
  cases Monitor.step_cases hs with
  | call hidle =>
      refine ⟨h.jobs, h.signals.call hidle, h.jobCall, ?_⟩
      intro v call' hv
      rcases eq_or_ne v t with rfl | hvt
      · obtain rfl : call = call' := by simpa using hv
        exact hcall
      · exact h.signalCall v call' (by simpa [Function.update_of_ne hvt] using hv)

/-- The queue operation of one thread is nothing to the calls of the others. -/
theorem queueCall_of_operation {s s' : State n ω} {q₁ : Fifo 256 (Option Job)} {q₁' : Fifo 8 (Fin n)}
    {t v : Thread n} (h : Step c (withQueues s q q') a (withQueues s' q₁ q₁')) (ht : t ∈ threadOf a)
    (hv : v ≠ t) : queueCall s' v = queueCall s v :=
  queueCall_of_step h fun hv' => hv (Option.mem_unique hv' ht)

/-- A statement of a function on `job_queue`. -/
theorem Matches.job [Inhabited σ] (c : Core σ ω) (h : Matches p tj ts) {t : Thread n} {jobs}
    (hs : (functions _).run p.jobs t = some jobs) :
    ∃ (as : List (Action n σ)) (tj' : JobObject n), Matches { p with
        jobs := jobs,
        base := ((functions _).unlocks p.jobs t).elim p.base (afterJob p.base t) } tj' ts ∧
      (helper c n).exec (view p tj ts) as = some (withQueues
        (((functions _).unlocks p.jobs t).elim p.base (afterJob p.base t)) tj'.obj ts.obj) := by
  rcases h.jobs.run_cases implements_jobs hs with
    ⟨hunlock, tj', href, hobj, hcalled⟩ | ⟨call, r, q₁, hunlock, hstage, hp, href⟩
  · rw [hunlock, Option.elim_none]
    refine ⟨[], tj', ⟨href, h.signals, ?_, h.signalCall⟩, ?_⟩
    · intro v call hv
      exact h.jobCall v call (hcalled v call hv)
    · rw [hobj]
      rfl
  · rw [hunlock, Option.elim_some]
    have hcall := h.jobCall t call hstage
    obtain ⟨a, ha, hstep⟩ : ∃ a : Action n σ, t ∈ threadOf a ∧
        Step c (withQueues p.base tj.obj ts.obj) a
          (withQueues (afterJob p.base t r) q₁ ts.obj) := afterJob_step c hcall hp
    refine ⟨[a], _, ⟨href, h.signals, ?_, ?_⟩, ?_⟩
    · intro v call' hv
      have hvt : v ≠ t := by
        rintro rfl
        simp at hv
      rw [queueCall_of_operation hstep ha hvt]
      exact h.jobCall v call' (by simpa [Function.update_of_ne hvt] using hv)
    · intro v call' hv
      have hvt : v ≠ t := by
        rintro rfl
        have hcall' := h.signalCall v call' hv
        rw [hcall] at hcall'
        cases hcall'
      rw [queueCall_of_operation hstep ha hvt]
      exact h.signalCall v call' hv
    · rw [Guarded.exec_cons, view, hstep.step_eq]
      rfl

/-- A statement of a function on `thread_signal_queue`. -/
theorem Matches.signal [Inhabited σ] (c : Core σ ω) (h : Matches p tj ts) {t : Thread n} {signals}
    (hs : (functions _).run p.signals t = some signals) :
    ∃ (as : List (Action n σ)) (ts' : SignalObject n), Matches { p with
        signals := signals,
        base := ((functions _).unlocks p.signals t).elim p.base fun _ =>
          afterSignal p.base t } tj ts' ∧
      (helper c n).exec (view p tj ts) as = some (withQueues
        (((functions _).unlocks p.signals t).elim p.base fun _ => afterSignal p.base t)
        tj.obj ts'.obj) := by
  rcases h.signals.run_cases implements_signals hs with
    ⟨hunlock, ts', href, hobj, hcalled⟩ | ⟨call, r, q₁, hunlock, hstage, hp, href⟩
  · rw [hunlock, Option.elim_none]
    refine ⟨[], ts', ⟨h.jobs, href, h.jobCall, ?_⟩, ?_⟩
    · intro v call hv
      exact h.signalCall v call (hcalled v call hv)
    · rw [hobj]
      rfl
  · rw [hunlock, Option.elim_some]
    have hcall := h.signalCall t call hstage
    obtain ⟨a, ha, hstep⟩ := afterSignal_step c (q := tj.obj) hcall hp
    refine ⟨[a], _, ⟨h.jobs, href, ?_, ?_⟩, ?_⟩
    · intro v call' hv
      have hvt : v ≠ t := by
        rintro rfl
        have hcall' := h.jobCall v call' hv
        rw [hcall] at hcall'
        cases hcall'
      rw [queueCall_of_operation hstep ha hvt]
      exact h.jobCall v call' hv
    · intro v call' hv
      have hvt : v ≠ t := by
        rintro rfl
        simp at hv
      rw [queueCall_of_operation hstep ha hvt]
      exact h.signalCall v call' (by simpa [Function.update_of_ne hvt] using hv)
    · rw [Guarded.exec_cons, view, hstep.step_eq]
      rfl

/-- **Each step of the process is one of the model, or none.** -/
theorem Matches.step [Inhabited σ] (c : Core σ ω) (h : Matches p tj ts) {b : ProcessAction n σ}
    (hs : processStep c p b = some p') :
    ∃ as tj' ts', Matches p' tj' ts' ∧
      (helper c n).exec (view p tj ts) as = some (view p' tj' ts') := by
  cases b with
  | own a =>
      obtain ⟨hfree, hs⟩ := Option.ite_none_right_eq_some.mp hs
      obtain ⟨base, hbase, rfl⟩ := Option.map_eq_some_iff.mp hs
      obtain ⟨hmatch, hstep⟩ := h.own hfree (step_step hbase)
      exact ⟨[a], tj, ts, hmatch, by rw [Guarded.exec_cons, hstep.step_eq]; rfl⟩
  | call t =>
      obtain ⟨-, hs⟩ := Option.ite_none_right_eq_some.mp hs
      split at hs
      case h_1 call hcall =>
        obtain ⟨jobs, hjobs, rfl⟩ := Option.map_eq_some_iff.mp hs
        exact ⟨[], _, ts, h.callJob hcall hjobs, rfl⟩
      case h_2 call hcall =>
        obtain ⟨signals, hsignals, rfl⟩ := Option.map_eq_some_iff.mp hs
        exact ⟨[], tj, _, h.callSignal hcall hsignals, rfl⟩
      case h_3 => cases hs
  | job t =>
      obtain ⟨jobs, hjobs, rfl⟩ := Option.map_eq_some_iff.mp hs
      obtain ⟨as, tj', hmatch, hexec⟩ := h.job c hjobs
      exact ⟨as, tj', ts, hmatch, hexec⟩
  | signal t =>
      obtain ⟨signals, hsignals, rfl⟩ := Option.map_eq_some_iff.mp hs
      obtain ⟨as, ts', hmatch, hexec⟩ := h.signal c hsignals
      exact ⟨as, tj, ts', hmatch, hexec⟩
  | jobWakeup t =>
      obtain ⟨jobs, hjobs, rfl⟩ := Option.map_eq_some_iff.mp hs
      cases Monitor.step_cases hjobs with
      | spurious ht =>
          exact ⟨[], tj, ts, ⟨h.jobs.spurious ht, h.signals, h.jobCall, h.signalCall⟩, rfl⟩
  | signalWakeup t =>
      obtain ⟨signals, hsignals, rfl⟩ := Option.map_eq_some_iff.mp hs
      cases Monitor.step_cases hsignals with
      | spurious ht =>
          exact ⟨[], tj, ts, ⟨h.jobs, h.signals.spurious ht, h.jobCall, h.signalCall⟩, rfl⟩

theorem matches_of_exec [Inhabited σ] {c : Core σ ω} {reads : List StdinRead} {world : ω}
    {bs : List (ProcessAction n σ)}
    (h : (process c n).exec (Process.init n reads world) bs = some p) :
    ∃ as tj ts, Matches p tj ts ∧
      (helper c n).exec (State.init n reads world) as = some (view p tj ts) := by
  refine Guarded.exec_induction (M := process c n)
    (P := fun _ p => ∃ as tj ts, Matches p tj ts ∧
      (helper c n).exec (State.init n reads world) as = some (view p tj ts)) ?_ ?_ h
  · exact ⟨[], _, _, matches_init n reads world, rfl⟩
  · rintro bs p₁ b p₂ - ⟨as, tj, ts, hmatch, hexec⟩ hs
    obtain ⟨as', tj', ts', hmatch', hexec'⟩ := hmatch.step c hs
    exact ⟨as ++ as', tj', ts', hmatch', by rw [Guarded.exec_append, hexec]; exact hexec'⟩

/-- **The process with its real queues does what the model does.**  However the statements
of `queue.c` interleave, with each other and with everything else, and whoever is woken
without a broadcast: the process is at every moment where a run of the model is, the
events in the log being the same; the queues of the model are what the two `queue_t`
stand for whenever nobody is changing them, and nothing in `queue.c` is undefined. -/
theorem refines_helper [Inhabited σ] {c : Core σ ω} {reads : List StdinRead} {world : ω}
    {bs : List (ProcessAction n σ)}
    (h : (process c n).exec (Process.init n reads world) bs = some p) :
    ∃ as q q', (helper c n).exec (State.init n reads world) as = some (withQueues p.base q q') ∧
      (p.jobs.mutex = none → Queue.Represents p.jobs.data q) ∧
      (p.signals.mutex = none → Queue.Represents p.signals.data q') ∧
      ∀ t, p.jobs.pc t ≠ .fault ∧ p.signals.pc t ≠ .fault := by
  obtain ⟨as, tj, ts, hmatch, hexec⟩ := matches_of_exec h
  exact ⟨as, tj.obj, ts.obj, hexec, hmatch.jobs.free, hmatch.signals.free,
    fun t => ⟨hmatch.jobs.not_fault t, hmatch.signals.not_fault t⟩⟩

/-- No plugins. -/
def bareCore : Core Unit Unit where
  build := ⟨true⟩
  inetPton := ipv4Only
  plugins := []
  denyByDefault := true

/-- The worker of a helper with one. -/
def onlyWorker : Fin 1 := ⟨0, Nat.one_pos⟩

/-- The worker sleeps until the main thread has read a line. -/
def oneLine : List (ProcessAction 1 Unit) :=
  [.own (.worker onlyWorker ()), .call (some onlyWorker), .job (some onlyWorker),
    .job (some onlyWorker), .job (some onlyWorker), .own .stdin, .own .go, .call none] ++
  List.replicate 9 (.job none) ++ List.replicate 9 (.job (some onlyWorker))

theorem refines_helper_oneLine :
    ∃ p as q q', (process bareCore 1).exec
        (Process.init 1 [.data [ascii "1 10.0.0.1"] false] ()) oneLine = some p ∧
      p.base.log = [.enqueued ⟨0, ascii "1 10.0.0.1"⟩, .dequeued onlyWorker ⟨0, ascii "1 10.0.0.1"⟩] ∧
      (helper bareCore 1).exec (State.init 1 [.data [ascii "1 10.0.0.1"] false] ()) as
        = some (withQueues p.base q q') := by
  have hlog : ((process bareCore 1).exec
      (Process.init 1 [.data [ascii "1 10.0.0.1"] false] ()) oneLine).map (fun p => p.base.log)
      = some [.enqueued ⟨0, ascii "1 10.0.0.1"⟩,
          .dequeued onlyWorker ⟨0, ascii "1 10.0.0.1"⟩] := by decide +kernel
  obtain ⟨p, hp, hlog⟩ := Option.map_eq_some_iff.mp hlog
  obtain ⟨as, q, q', hexec, -⟩ := refines_helper hp
  exact ⟨p, as, q, q', hp, hlog, hexec⟩

/-! ### Everything the model does -/

/-- Every step of the model is a queue operation of one thread, or a step outside of the
queues. -/
theorem operation_cases (h : Step c s a s') :
    (∀ t ∈ threadOf a, queueCall s t = none) ∨
    (∃ t call r q₁, queueCall s t = some (.job call) ∧ perform call s.jobQueue = some (r, q₁) ∧
      s' = withQueues (afterJob s t r) q₁ s.threadSignalQueue) ∨
    ∃ t call r q₁, queueCall s t = some (.signal call) ∧
      perform call s.threadSignalQueue = some (r, q₁) ∧
      s' = withQueues (afterSignal s t) s.jobQueue q₁ := by
  cases h with
  | @enqueueLine line lines more q hm hq =>
      exact .inr (.inl ⟨none, .enqueue (some ⟨s.nextId, line⟩), .void, q,
        by simp only [queueCall, hm], Queue.perform_enqueue hq,
        by simp only [afterJob, hm, withQueues]⟩)
  | @enqueueNull left q hm hq =>
      exact .inr (.inl ⟨none, .enqueue none, .void, q, by simp only [queueCall, hm],
        Queue.perform_enqueue hq, by simp only [afterJob, hm, withQueues]⟩)
  | @dequeueNull w o q hw hq =>
      exact .inr (.inl ⟨some w, .dequeue, .value none, q, by simp only [queueCall, hw],
        Queue.perform_dequeue hq, rfl⟩)
  | @dequeueJob w o job q hw hq =>
      exact .inr (.inl ⟨some w, .dequeue, .value (some job), q, by simp only [queueCall, hw],
        Queue.perform_dequeue hq, rfl⟩)
  | @threadSig w q hm hq =>
      exact .inr (.inr ⟨none, .dequeue, .value w, q, by simp only [queueCall, hm],
        Queue.perform_dequeue hq, rfl⟩)
  | @terminate w o q hw hq =>
      exact .inr (.inr ⟨some w, .enqueue w, .void, q, by simp only [queueCall, hw],
        Queue.perform_enqueue hq, rfl⟩)
  | outside => exact .inl fun t ht => by cases ht
  | initThread hw | request hw | asyncSend hw | threadFree hw | coalesce hw =>
      refine .inl fun t ht => ?_
      cases ht
      simp only [queueCall, hw]
  | _ =>
      refine .inl fun t ht => ?_
      cases ht
      simp only [queueCall, *]

/-- Nobody is in `queue.c`, and the two `queue_t` stand for the queues of `s`. -/
structure Rests (p : Process n ω) (s : State n ω) : Prop where
  base : withQueues p.base s.jobQueue s.threadSignalQueue = s
  jobs : ∃ d, p.jobs = Monitor.init d ∧ Queue.Represents d s.jobQueue
  signals : ∃ d, p.signals = Monitor.init d ∧ Queue.Represents d s.threadSignalQueue

/-- The process takes the steps that a thread takes in `queue.c` up to its unlock, or
from there on. -/
theorem reaches_job {p : Process n ω} {t : Thread n} {jobs}
    (h : Monitor.Quietly (functions _) t p.jobs jobs) :
    (process c n).Reaches p { p with jobs := jobs } := by
  generalize hjobs₀ : p.jobs = jobs₀ at h
  induction h with
  | refl =>
      rw [← hjobs₀]
      exact .refl p
  | tail _ hstep ih =>
      refine ih.tail (a := .job t) ?_
      simp only [process, processStep, hstep.2, hstep.1, Option.map_some, Option.elim_none]

theorem reaches_signal {p : Process n ω} {t : Thread n} {signals}
    (h : Monitor.Quietly (functions _) t p.signals signals) :
    (process c n).Reaches p { p with signals := signals } := by
  generalize hsignals₀ : p.signals = signals₀ at h
  induction h with
  | refl =>
      rw [← hsignals₀]
      exact .refl p
  | tail _ hstep ih =>
      refine ih.tail (a := .signal t) ?_
      simp only [process, processStep, hstep.2, hstep.1, Option.map_some, Option.elim_none]

/-- What a thread does next does not depend on the queues. -/
theorem withQueues_afterJob (s : State n ω) (t : Thread n) (r : Queue.Result (Option Job))
    {q q₁ : Fifo 256 (Option Job)} {q' q₁' : Fifo 8 (Fin n)} :
    withQueues (afterJob (withQueues s q q') t r) q₁ q₁' = withQueues (afterJob s t r) q₁ q₁' := by
  cases t with
  | none =>
      cases hm : s.main with
      | stdinRead lines more => cases lines <;> simp only [afterJob, withQueues, hm]
      | terminating left => cases left <;> simp only [afterJob, withQueues, hm]
      | _ => simp only [afterJob, withQueues, hm]
  | some w =>
      cases r with
      | value job => cases job <;> rfl
      | _ => rfl

/-- A thread performs an operation on `job_queue` while the others are elsewhere. -/
theorem Rests.job {p : Process n ω} (h : Rests p s) {t : Thread n}
    {call : Queue.Call (Option Job)} {r : Queue.Result (Option Job)} {q₁ : Fifo 256 (Option Job)}
    (hcall : queueCall s t = some (.job call)) (hp : perform call s.jobQueue = some (r, q₁)) :
    ∃ p', (process c n).Reaches p p' ∧
      Rests p' (withQueues (afterJob s t r) q₁ s.threadSignalQueue) := by
  obtain ⟨hbase, ⟨d, hjobs, hrep⟩, hsignals⟩ := h
  obtain ⟨d', m₁, m₂, m₃, hcallStep, hquiet₁, hunlock, hrun, hquiet₂, hrep'⟩ :=
    implements_jobs.runs_alone hrep hp t
  have hout : p.Outside t := by
    obtain ⟨d₂, hsignals, -⟩ := hsignals
    rw [Process.Outside, hjobs, hsignals]
    exact ⟨rfl, rfl⟩
  have hcall' : queueCall p.base t = some (.job call) := by
    rw [← hcall, ← hbase]
    rfl
  refine ⟨⟨afterJob p.base t r, Monitor.init d', p.signals⟩, ?_, ?_⟩
  · have hcalled : (process c n).Reaches p { p with jobs := m₁ } := by
      refine .single (a := .call t) ?_
      rw [← hjobs] at hcallStep
      simp only [process, processStep, if_pos hout, hcall', hcallStep, Option.map_some]
    have hunlocked : (process c n).Reaches ⟨p.base, m₂, p.signals⟩
        ⟨afterJob p.base t r, m₃, p.signals⟩ := by
      refine .single (a := .job t) ?_
      simp only [process, processStep, hrun, hunlock, Option.map_some, Option.elim_some]
    exact ((hcalled.trans (reaches_job hquiet₁)).trans hunlocked).trans (reaches_job hquiet₂)
  · refine ⟨?_, ⟨d', rfl, hrep'⟩, hsignals⟩
    rw [← hbase]
    exact (withQueues_afterJob p.base t r).symm

theorem Rests.signal {p : Process n ω} (h : Rests p s) {t : Thread n}
    {call : Queue.Call (Fin n)} {r : Queue.Result (Fin n)} {q₁ : Fifo 8 (Fin n)}
    (hcall : queueCall s t = some (.signal call))
    (hp : perform call s.threadSignalQueue = some (r, q₁)) :
    ∃ p', (process c n).Reaches p p' ∧ Rests p' (withQueues (afterSignal s t) s.jobQueue q₁) := by
  obtain ⟨hbase, hjobs, d, hsignals, hrep⟩ := h
  obtain ⟨d', m₁, m₂, m₃, hcallStep, hquiet₁, hunlock, hrun, hquiet₂, hrep'⟩ :=
    implements_signals.runs_alone hrep hp t
  have hout : p.Outside t := by
    obtain ⟨d₂, hjobs, -⟩ := hjobs
    rw [Process.Outside, hjobs, hsignals]
    exact ⟨rfl, rfl⟩
  have hcall' : queueCall p.base t = some (.signal call) := by
    rw [← hcall, ← hbase]
    rfl
  refine ⟨⟨afterSignal p.base t, p.jobs, Monitor.init d'⟩, ?_, ?_⟩
  · have hcalled : (process c n).Reaches p { p with signals := m₁ } := by
      refine .single (a := .call t) ?_
      rw [← hsignals] at hcallStep
      simp only [process, processStep, if_pos hout, hcall', hcallStep, Option.map_some]
    have hunlocked : (process c n).Reaches ⟨p.base, p.jobs, m₂⟩
        ⟨afterSignal p.base t, p.jobs, m₃⟩ := by
      refine .single (a := .signal t) ?_
      simp only [process, processStep, hrun, hunlock, Option.map_some, Option.elim_some]
    exact ((hcalled.trans (reaches_signal hquiet₁)).trans hunlocked).trans (reaches_signal hquiet₂)
  · refine ⟨?_, hjobs, d', rfl, hrep'⟩
    rw [← hbase]
    cases t <;> rfl

/-- A step that calls no queue function leaves the queues as they are. -/
theorem queues_of_step (h : Step c s a s') (hfree : ∀ t ∈ threadOf a, queueCall s t = none) :
    s'.jobQueue = s.jobQueue ∧ s'.threadSignalQueue = s.threadSignalQueue := by
  have hsame : Step c s a (withQueues s' s.jobQueue s.threadSignalQueue) :=
    step_withQueues h hfree s.jobQueue s.threadSignalQueue
  have heq := Option.some.inj (h.step_eq.symm.trans hsame.step_eq)
  constructor
  · rw [heq]
    rfl
  · rw [heq]
    rfl

/-- A step outside of the queues. -/
theorem Rests.own {p : Process n ω} (h : Rests p s) (hs : Step c s a s')
    (hfree : ∀ t ∈ threadOf a, queueCall s t = none) :
    ∃ p', (process c n).Reaches p p' ∧ Rests p' s' := by
  obtain ⟨hbase, ⟨d, hjobs, hrep⟩, d', hsignals, hrep'⟩ := h
  obtain ⟨hq, hq'⟩ := queues_of_step hs hfree
  have hstep : Step c p.base a (withQueues s' p.base.jobQueue p.base.threadSignalQueue) := by
    have hstep := step_withQueues hs hfree p.base.jobQueue p.base.threadSignalQueue
    rw [← hbase] at hstep
    exact hstep
  have hfree' : ∀ t ∈ threadOf a, p.Outside t ∧ queueCall p.base t = none := by
    intro t ht
    have hcall := hfree t ht
    rw [← hbase] at hcall
    refine ⟨?_, hcall⟩
    rw [Process.Outside, hjobs, hsignals]
    exact ⟨rfl, rfl⟩
  refine ⟨{ p with base := withQueues s' p.base.jobQueue p.base.threadSignalQueue }, ?_, ?_⟩
  · have hstep' : SquidHelper.step c p.base a = some _ := hstep.step_eq
    refine .single (a := .own a) ?_
    simp only [process, processStep, if_pos hfree', hstep', Option.map_some]
  · exact ⟨rfl, ⟨d, hjobs, hq ▸ hrep⟩, d', hsignals, hq' ▸ hrep'⟩

theorem rests_of_exec {c : Core σ ω} {reads : List StdinRead} {world : ω}
    {as : List (Action n σ)} (h : (helper c n).exec (State.init n reads world) as = some s) :
    ∃ (bs : List (ProcessAction n σ)) (p : Process n ω),
      (process c n).exec (Process.init n reads world) bs = some p ∧ Rests p s := by
  refine Guarded.exec_induction (M := helper c n)
    (P := fun _ s => ∃ (bs : List (ProcessAction n σ)) (p : Process n ω),
      (process c n).exec (Process.init n reads world) bs = some p ∧ Rests p s) ?_ ?_ h
  · refine ⟨[], _, rfl, rfl, ⟨_, rfl, ?_⟩, ⟨_, rfl, ?_⟩⟩
    · exact Queue.represents_initializer List.length_replicate (by decide)
    · exact Queue.represents_initializer List.length_replicate (by decide)
  · rintro as s₁ a s₂ - ⟨bs, p, hexec, hrests⟩ hs
    have hnext : ∃ p', (process c n).Reaches p p' ∧ Rests p' s₂ := by
      rcases operation_cases (step_step hs) with
        hfree | ⟨t, call, r, q₁, hcall, hp, rfl⟩ | ⟨t, call, r, q₁, hcall, hp, rfl⟩
      · exact hrests.own (step_step hs) hfree
      · exact hrests.job hcall hp
      · exact hrests.signal hcall hp
    obtain ⟨p', ⟨bs', hexec'⟩, hrests'⟩ := hnext
    exact ⟨bs ++ bs', p', by rw [Guarded.exec_append, hexec]; exact hexec', hrests'⟩

/-- **The process can do all that the model does.**  Every run of the model is one of the
process, in which the threads happen to enter `queue.c` one at a time: it ends where the
run of the model does, with nobody in `queue.c`, the mutexes free, and the two `queue_t`
standing for the queues. -/
theorem follows_helper {c : Core σ ω} {reads : List StdinRead} {world : ω}
    {as : List (Action n σ)} (h : (helper c n).exec (State.init n reads world) as = some s) :
    ∃ (bs : List (ProcessAction n σ)) (p : Process n ω),
      (process c n).exec (Process.init n reads world) bs = some p ∧
      s = withQueues p.base s.jobQueue s.threadSignalQueue ∧ (∀ t, p.Outside t) ∧
      p.jobs.mutex = none ∧ Queue.Represents p.jobs.data s.jobQueue ∧
      p.signals.mutex = none ∧ Queue.Represents p.signals.data s.threadSignalQueue := by
  obtain ⟨bs, p, hexec, hbase, ⟨d, hjobs, hrep⟩, d', hsignals, hrep'⟩ := rests_of_exec h
  refine ⟨bs, p, hexec, hbase.symm, ?_, ?_⟩
  · intro t
    rw [Process.Outside, hjobs, hsignals]
    exact ⟨rfl, rfl⟩
  · rw [hjobs, hsignals]
    exact ⟨rfl, hrep, rfl, hrep'⟩

/-- A line is read and answered; then a signal comes, and both threads end. -/
def lineThenSignal : List (Action 1 Unit) :=
  [.worker onlyWorker (), .stdin, .go, .go, .go] ++ List.replicate 4 (.worker onlyWorker ()) ++
    [.signal, .leave, .go, .go] ++ List.replicate 4 (.worker onlyWorker ()) ++ [.go]

/-- The line and the `NULL` go through `job_queue`, and the worker's message stays on
`thread_signal_queue`. -/
theorem follows_helper_lineThenSignal :
    ∃ (s : State 1 Unit) (bs : List (ProcessAction 1 Unit)) (p : Process 1 Unit),
      (helper bareCore 1).exec (State.init 1 [.data [ascii "1 10.0.0.1"] false] ()) lineThenSignal
        = some s ∧
      s.main = .joining 1 ∧ .dequeued onlyWorker ⟨0, ascii "1 10.0.0.1"⟩ ∈ s.log ∧
      s.jobQueue.items = [] ∧ s.threadSignalQueue.items = [onlyWorker] ∧
      (process bareCore 1).exec (Process.init 1 [.data [ascii "1 10.0.0.1"] false] ()) bs
        = some p ∧
      s = withQueues p.base s.jobQueue s.threadSignalQueue ∧ (∀ t, p.Outside t) ∧
      p.jobs.mutex = none ∧ Queue.Represents p.jobs.data s.jobQueue ∧
      p.signals.mutex = none ∧ Queue.Represents p.signals.data s.threadSignalQueue := by
  have hend : ((helper bareCore 1).exec (State.init 1 [.data [ascii "1 10.0.0.1"] false] ())
      lineThenSignal).any (fun s => decide (s.main = .joining 1 ∧
        .dequeued onlyWorker ⟨0, ascii "1 10.0.0.1"⟩ ∈ s.log ∧ s.jobQueue.items = [] ∧
        s.threadSignalQueue.items = [onlyWorker])) = true := by decide +kernel
  obtain ⟨s, hs, hp⟩ := (Option.any_eq_true _ _).mp hend
  obtain ⟨hmain, hjobs, hqueue, hsignals⟩ := of_decide_eq_true hp
  obtain ⟨bs, p, hexec⟩ := follows_helper hs
  exact ⟨s, bs, p, hs, hmain, hjobs, hqueue, hsignals, hexec⟩

/-! ### Where the process stops -/

/-- A thread at a queue operation takes no step but the operation. -/
theorem perform_ne_none_of_step (h : Step c s a s') {t : Thread n} (ht : t ∈ threadOf a) :
    (∀ call, queueCall s t = some (.job call) → perform call s.jobQueue ≠ none) ∧
    ∀ call, queueCall s t = some (.signal call) → perform call s.threadSignalQueue ≠ none := by
  cases h with
  | enqueueLine hm hq =>
      cases ht
      simp [queueCall, hm, perform, Fifo.enqueue_eq_some.mpr hq]
  | threadSig hm hq =>
      cases ht
      simp [queueCall, hm, perform, Fifo.dequeue_eq_some.mpr hq]
  | enqueueNull hm hq =>
      cases ht
      simp [queueCall, hm, perform, Fifo.enqueue_eq_some.mpr hq]
  | dequeueNull hw hq | dequeueJob hw hq =>
      cases ht
      simp [queueCall, hw, perform, Fifo.dequeue_eq_some.mpr hq]
  | terminate hw hq =>
      cases ht
      simp [queueCall, hw, perform, Fifo.enqueue_eq_some.mpr hq]
  | outside => cases ht
  | initThread hw | request hw | asyncSend hw | threadFree hw | coalesce hw =>
      cases ht
      simp [queueCall, hw]
  | _ =>
      cases ht
      simp [queueCall, *]

/-- The thread has no next step, in `queue.c` or outside. -/
def Process.StuckAt (c : Core σ ω) (p : Process n ω) (t : Thread n) : Prop :=
  (∀ a, t ∈ threadOf a → processStep c p (.own a) = none) ∧ processStep c p (.call t) = none ∧
    processStep c p (.job t) = none ∧ processStep c p (.signal t) = none

/-- No thread has. -/
def Process.Stuck (c : Core σ ω) (p : Process n ω) : Prop := ∀ t, p.StuckAt c t

/-- Who is not in `queue.c` has no step there. -/
theorem run_eq_none_of_outside {t : Thread n} (hout : p.Outside t) :
    processStep c p (.job t) = none ∧ processStep c p (.signal t) = none := by
  constructor
  · simp [processStep, Monitor.run, hout.1]
  · simp [processStep, Monitor.run, hout.2]

/-- A thread that is in `queue.c` when nobody can go on there sleeps in the call it has made,
which has to wait. -/
theorem Matches.asleep_of_stuck (h : Matches p tj ts)
    (hquiet : ∀ u, processStep c p (.job u) = none ∧ processStep c p (.signal u) = none)
    (t : Thread n) :
    (p.jobs.pc t = .idle ∨
      ∃ call, queueCall p.base t = some (.job call) ∧ perform call tj.obj = none) ∧
    (p.signals.pc t = .idle ∨
      ∃ call, queueCall p.base t = some (.signal call) ∧ perform call ts.obj = none) := by
  have hjobs : ∀ u, (functions _).run p.jobs u = none := by
    intro u
    exact Option.map_eq_none_iff.mp (hquiet u).1
  have hsignals : ∀ u, (functions _).run p.signals u = none := by
    intro u
    exact Option.map_eq_none_iff.mp (hquiet u).2
  constructor
  · refine (h.jobs.stuck hjobs t).imp_right ?_
    rintro ⟨call, hpc, hnone⟩
    exact ⟨call, h.jobCall t call (by rw [h.jobs.stage, hpc]; rfl), hnone⟩
  · refine (h.signals.stuck hsignals t).imp_right ?_
    rintro ⟨call, hpc, hnone⟩
    exact ⟨call, h.signalCall t call (by rw [h.signals.stage, hpc]; rfl), hnone⟩

/-- Who is about to call and has not called yet can do so. -/
theorem call_ne_none {t : Thread n} (hout : p.Outside t) (hcall : queueCall p.base t ≠ none) :
    processStep c p (.call t) ≠ none := by
  obtain ⟨call, hcall⟩ := Option.ne_none_iff_exists'.mp hcall
  simp only [processStep, if_pos hout, hcall]
  cases call with
  | job call => simp [Monitor.step, hout.1]
  | signal call => simp [Monitor.step, hout.2]

/-- **Threads of the process stop only where those of the model do.**  When some threads have no
next step, and the others are not in `queue.c`, the model has come to a state in which these
threads have no step either: a call in `queue.c` is not left asleep where its operation could
take place. -/
theorem blocked_of_stuckAt [Inhabited σ] {c : Core σ ω} {reads : List StdinRead} {world : ω}
    {bs : List (ProcessAction n σ)}
    (h : (process c n).exec (Process.init n reads world) bs = some p) {ts : Set (Thread n)}
    (hout : ∀ t ∉ ts, p.Outside t) (hstuck : ∀ t ∈ ts, p.StuckAt c t) :
    ∃ as q q', (helper c n).exec (State.init n reads world) as = some (withQueues p.base q q') ∧
      ∀ t ∈ ts, ∀ a, t ∈ threadOf a → (helper c n).step (withQueues p.base q q') a = none := by
  obtain ⟨as, tj, tsig, hmatch, hexec⟩ := matches_of_exec h
  have hquiet : ∀ u, processStep c p (.job u) = none ∧ processStep c p (.signal u) = none := by
    intro u
    by_cases hu : u ∈ ts
    · exact (hstuck u hu).2.2
    · exact run_eq_none_of_outside (hout u hu)
  refine ⟨as, tj.obj, tsig.obj, hexec, ?_⟩
  intro t hmem a ht
  by_contra hne
  obtain ⟨s', hs'⟩ := Option.ne_none_iff_exists'.mp hne
  have hstep := step_step hs'
  obtain ⟨hjob, hsignal⟩ := perform_ne_none_of_step hstep ht
  obtain ⟨hasleep, hasleep'⟩ := hmatch.asleep_of_stuck hquiet t
  -- the operation of a sleeping call has to wait, so the step is none
  have hoff : p.Outside t := by
    constructor
    · refine hasleep.resolve_right ?_
      rintro ⟨call, hcall, hnone⟩
      exact hjob call hcall hnone
    · refine hasleep'.resolve_right ?_
      rintro ⟨call, hcall, hnone⟩
      exact hsignal call hcall hnone
  have hnocall : queueCall p.base t = none := by
    by_contra hcall
    exact call_ne_none hoff hcall (hstuck t hmem).2.1
  -- a step of its own that the model takes is one of the process as well
  have hfree : ∀ u ∈ threadOf a, p.Outside u ∧ queueCall p.base u = none := by
    intro u hu
    obtain rfl := Option.mem_unique hu ht
    exact ⟨hoff, hnocall⟩
  have hown := step_withQueues hstep (fun u hu => (hfree u hu).2) p.base.jobQueue
    p.base.threadSignalQueue
  have hnone := (hstuck t hmem).1 a ht
  rw [processStep, if_pos hfree, Option.map_eq_none_iff] at hnone
  have hsome : step c p.base a = some _ := hown.step_eq
  rw [hnone] at hsome
  cases hsome

/-- **The workers alone**: the main thread in its loop can always be signalled, so that the whole
process never stops there.  When no worker has a next step, none has one in the model. -/
theorem workers_blocked_of_stuck [Inhabited σ] {c : Core σ ω} {reads : List StdinRead} {world : ω}
    {bs : List (ProcessAction n σ)}
    (h : (process c n).exec (Process.init n reads world) bs = some p) (hmain : p.Outside none)
    (hstuck : ∀ w, p.StuckAt c (some w)) :
    ∃ as q q', (helper c n).exec (State.init n reads world) as = some (withQueues p.base q q') ∧
      ∀ w a, some w ∈ threadOf a → (helper c n).step (withQueues p.base q q') a = none := by
  have hothers : ∀ t ∉ Set.range some, p.Outside t := by
    intro t ht
    cases t with
    | none => exact hmain
    | some w => exact absurd ⟨w, rfl⟩ ht
  have hworkers : ∀ t ∈ Set.range some, p.StuckAt c t := by
    rintro t ⟨w, rfl⟩
    exact hstuck w
  obtain ⟨as, q, q', hexec, hnone⟩ := blocked_of_stuckAt h hothers hworkers
  exact ⟨as, q, q', hexec, fun w => hnone (some w) ⟨w, rfl⟩⟩

/-- **The process stops only where the model does.**  When no thread of the process has a
next step, the model has come to a state in which no thread has one either. -/
theorem blocked_of_stuck [Inhabited σ] {c : Core σ ω} {reads : List StdinRead} {world : ω}
    {bs : List (ProcessAction n σ)}
    (h : (process c n).exec (Process.init n reads world) bs = some p) (hstuck : p.Stuck c) :
    ∃ as q q', (helper c n).exec (State.init n reads world) as = some (withQueues p.base q q') ∧
      ∀ t a, t ∈ threadOf a → (helper c n).step (withQueues p.base q q') a = none := by
  have hall : ∀ t ∈ Set.univ, p.StuckAt c t := fun t _ => hstuck t
  obtain ⟨as, q, q', hexec, hnone⟩ :=
    blocked_of_stuckAt h (fun t ht => absurd (Set.mem_univ t) ht) hall
  exact ⟨as, q, q', hexec, fun t => hnone t (Set.mem_univ t)⟩

/-- In a call that cannot go on. -/
theorem stuckAt_of_asleep {t : Thread n} (hin : ¬ p.Outside t)
    (hjob : (functions _).run p.jobs t = none) (hsignal : (functions _).run p.signals t = none) :
    p.StuckAt c t := by
  refine ⟨?_, by simp [processStep, hin], by simp [processStep, hjob],
    by simp [processStep, hsignal]⟩
  intro a ht
  rw [processStep, if_neg]
  intro hall
  exact hin (hall t ht).1

theorem stuckAt_of_exited {w : Fin n} (hw : p.base.workers w = .exited)
    (hout : p.Outside (some w)) : p.StuckAt c (some w) := by
  refine ⟨?_, by simp [processStep, queueCall, hw], run_eq_none_of_outside hout⟩
  intro a ht
  have hnone : step c p.base a = none := by
    cases a with
    | worker w' o =>
        obtain rfl : w' = w := by simpa [threadOf] using ht
        simp [step, workerStep, hw]
    | coalesce w' =>
        obtain rfl : w' = w := by simpa [threadOf] using ht
        simp [step, hw]
    | _ => simp [threadOf] at ht
  simp [processStep, hnone]

/-- In `pthread_join` on a running thread. -/
theorem stuckAt_of_joining {joined : ℕ} (hm : p.base.main = .joining joined) (hlt : joined < n)
    (hw : p.base.workers ⟨joined, hlt⟩ ≠ .exited) (hout : p.Outside none) :
    p.StuckAt c none := by
  refine ⟨?_, by simp [processStep, queueCall, hm], run_eq_none_of_outside hout⟩
  intro a ht
  have hnone : step c p.base a = none := by
    cases a with
    | outside o => cases ht
    | worker w o => cases ht
    | coalesce w => cases ht
    | go => simp [step, mainStep, hm, hlt, hw]
    | _ => simp [step, hm]
  simp [processStep, hnone]

/-- A helper all of whose workers give up at once. -/
def failingCore : Core Unit Unit where
  build := ⟨false⟩
  inetPton := ipv4Only
  plugins := [{ threadInit := some fun _ => -1 }]
  denyByDefault := false

/-- A worker enqueues its message and exits. -/
def givesUp (w : Fin 9) : List (ProcessAction 9 Unit) :=
  [.own (.worker w ()), .call (some w)] ++ List.replicate 9 (.signal (some w)) ++
    List.replicate 2 (.own (.worker w ()))

/-- A signal comes first, so that nobody takes the messages of nine workers.  The main thread
enqueues nine `NULL`s and joins eight workers; the last one finds `thread_signal_queue` full. -/
def nineMessages : List (ProcessAction 9 Unit) :=
  [.own .signal, .own .leave] ++
    (List.replicate 9 (.call none :: List.replicate 9 (.job none))).flatten ++ [.own .go] ++
    (List.finRange 9).dropLast.flatMap givesUp ++ List.replicate 8 (.own .go) ++
    [.own (.worker (Fin.last 8) ()), .call (some (Fin.last 8))] ++
    List.replicate 3 (.signal (some (Fin.last 8)))

/-- The call sleeps, and the main thread waits for its thread. -/
theorem blocked_of_stuck_nineMessages :
    ∃ (p : Process 9 Unit) (as : _) (q : _) (q' : _),
      (process failingCore 9).exec (Process.init 9 [] ()) nineMessages = some p ∧
      p.base.main = .joining 8 ∧ ¬ p.Outside (some (Fin.last 8)) ∧
      (helper failingCore 9).exec (State.init 9 [] ()) as = some (withQueues p.base q q') ∧
      ∀ t a, t ∈ threadOf a → (helper failingCore 9).step (withQueues p.base q q') a = none := by
  have hend : ((process failingCore 9).exec (Process.init 9 [] ()) nineMessages).any (fun p =>
      decide (p.base.main = .joining 8 ∧ p.Outside none ∧
        (∀ w, w ≠ Fin.last 8 → p.base.workers w = .exited ∧ p.Outside (some w)) ∧
        p.base.workers (Fin.last 8) ≠ .exited ∧ ¬ p.Outside (some (Fin.last 8)) ∧
        ((functions _).run p.jobs (some (Fin.last 8))).isNone ∧
        ((functions _).run p.signals (some (Fin.last 8))).isNone)) = true := by decide +kernel
  obtain ⟨p, hp, hend⟩ := (Option.any_eq_true _ _).mp hend
  obtain ⟨hmain, hout, hgone, hlast, hin, hjob, hsignal⟩ := of_decide_eq_true hend
  have hstuck : p.Stuck failingCore := by
    intro t
    cases t with
    | none => exact stuckAt_of_joining hmain (by decide) hlast hout
    | some w =>
        by_cases hw : w = Fin.last 8
        · rw [hw]
          exact stuckAt_of_asleep hin (Option.isNone_iff_eq_none.mp hjob)
            (Option.isNone_iff_eq_none.mp hsignal)
        · obtain ⟨hexited, hidle⟩ := hgone w hw
          exact stuckAt_of_exited hexited hidle
  obtain ⟨as, q, q', hexec, hnone⟩ := blocked_of_stuck hp hstuck
  exact ⟨p, as, q, q', hp, hmain, hin, hexec, hnone⟩

end Threads

end SquidHelper
