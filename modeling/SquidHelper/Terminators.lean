/-
SquidHelper/Terminators.lean

Where the `NULL`s are.  Once the event loop has returned, the main thread puts one
`NULL` per worker behind all the lines on `job_queue`, and a worker leaves its loop by
taking one.  `Terminators` says so of a state:

* on the queue no line stands behind a `NULL`;
* a worker that has left its loop found no line there;
* the `NULL`s on the queue and those taken add up to those enqueued.

It holds in every reachable state (`terminators_of_reaches`).
-/
import SquidHelper.Helper

namespace SquidHelper

variable {σ ω : Type*} {n : ℕ}

/-! ### Kinds of control points -/

/-- In the `while(1)` loop. -/
def WorkerPc.inLoop : WorkerPc → Bool
  | .dequeue => true
  | .busy _ _ => true
  | _ => false

/-- At `terminate` or past it. -/
def WorkerPc.terminated : WorkerPc → Bool
  | .terminate => true
  | .asyncSend => true
  | .threadFree => true
  | .exited => true
  | _ => false

theorem WorkerPc.inLoop_afterStep (job : Job) (next : Option RequestPc) :
    (WorkerPc.afterStep job next).inLoop = true := by
  cases next <;> rfl

theorem WorkerPc.terminated_eq_false {pc : WorkerPc} (h : pc.inLoop = true) :
    pc.terminated = false := by
  cases pc <;> first | rfl | cases h

/-- The terminators the main thread has enqueued at some point. -/
def MainPc.nullsEnqueued (n : ℕ) : MainPc → ℕ
  | .terminating left => n - left
  | .joining _ => n
  | _ => 0

/-- The two loops behind the event loop make at most `n` rounds. -/
def MainPc.Bounded (n : ℕ) : MainPc → Prop
  | .terminating left => left ≤ n
  | .joining joined => joined ≤ n
  | _ => True

/-- A worker whose `thread_init` succeeds. -/
def Live (c : Core σ ω) (w : Fin n) : Prop := c.threadInit (w + 1) = true

instance (c : Core σ ω) (w : Fin n) : Decidable (Live c w) := by unfold Live; infer_instance

/-- A live worker past its loop has taken one `NULL`. -/
def nullTaken (c : Core σ ω) (w : Fin n) (pc : WorkerPc) : Bool :=
  decide (Live c w) && pc.terminated

theorem nullTaken_eq_false {c : Core σ ω} {w : Fin n} {pc : WorkerPc}
    (h : pc.terminated = false) : nullTaken c w pc = false := by
  simp [nullTaken, h]

/-! ### The invariant -/

structure Terminators (c : Core σ ω) (s : State n ω) : Prop where
  started : ∀ w, (s.workers w).inLoop = true → Live c w
  shape : ∃ (jobs : List Job) (k : ℕ), s.jobQueue.items = jobs.map some ++ List.replicate k none
  drained : ∀ w, Live c w → (s.workers w).terminated = true →
    ∀ job, some job ∉ s.jobQueue.items
  count : s.jobQueue.items.count none + ∑ w, (nullTaken c w (s.workers w)).toNat
    = s.main.nullsEnqueued n
  bounded : s.main.Bounded n

namespace Terminators

variable {c : Core σ ω} {s s' : State n ω}

/-- Before the event loop returns there is no `NULL` on the queue. -/
theorem none_notMem (h : Terminators c s) (hm : s.main.nullsEnqueued n = 0) :
    none ∉ s.jobQueue.items := by
  have hcount := h.count
  rw [hm] at hcount
  exact List.count_eq_zero.mp (Nat.eq_zero_of_add_eq_zero_right hcount)

/-- Before the event loop returns no live worker has left its loop. -/
theorem not_terminated (h : Terminators c s) (hm : s.main.nullsEnqueued n = 0) {w : Fin n}
    (hw : Live c w) : (s.workers w).terminated = false := by
  have hcount := h.count
  rw [hm] at hcount
  have hzero := Finset.sum_eq_zero_iff.mp (Nat.eq_zero_of_add_eq_zero_left hcount) w
    (Finset.mem_univ w)
  simpa [nullTaken, hw] using hzero

theorem init (c : Core σ ω) (reads : List StdinRead) (world : ω) :
    Terminators c (State.init n reads world) where
  started _ h := by cases h
  shape := ⟨[], 0, rfl⟩
  drained _ _ h := by cases h
  count := by simp [State.init, nullTaken, WorkerPc.terminated, MainPc.nullsEnqueued]
  bounded := trivial

/-- Steps of the main thread that leave the queue alone. -/
theorem of_main (h : Terminators c s) (hq : s'.jobQueue = s.jobQueue)
    (hw : s'.workers = s.workers)
    (hm : s'.main.nullsEnqueued n = s.main.nullsEnqueued n) (hl : s'.main.Bounded n) :
    Terminators c s' where
  started := hw ▸ h.started
  shape := hq ▸ h.shape
  drained := by rw [hw, hq]; exact h.drained
  count := by rw [hw, hq, hm]; exact h.count
  bounded := hl

/-- Steps of a worker that leave the queue alone and do not lead out of the loop. -/
theorem of_worker (h : Terminators c s) {w : Fin n} {pc : WorkerPc}
    (hq : s'.jobQueue = s.jobQueue) (hm : s'.main = s.main)
    (hw : s'.workers = Function.update s.workers w pc) (hloop : pc.inLoop = true → Live c w)
    (hterm : Live c w → pc.terminated = (s.workers w).terminated) : Terminators c s' where
  started w' hw' := by
    rcases eq_or_ne w' w with rfl | hne
    · rw [hw, Function.update_self] at hw'
      exact hloop hw'
    · rw [hw, Function.update_of_ne hne] at hw'
      exact h.started w' hw'
  shape := hq ▸ h.shape
  drained w' hlive hw' := by
    rw [hq]
    rcases eq_or_ne w' w with rfl | hne
    · rw [hw, Function.update_self, hterm hlive] at hw'
      exact h.drained w' hlive hw'
    · rw [hw, Function.update_of_ne hne] at hw'
      exact h.drained w' hlive hw'
  count := by
    -- a worker takes its terminator in the queue only
    have hsame : nullTaken c w pc = nullTaken c w (s.workers w) := by
      unfold nullTaken
      by_cases hlive : Live c w
      · rw [hterm hlive]
      · simp [hlive]
    rw [hq, hm, hw, sum_update_eq (f := fun w pc => (nullTaken c w pc).toNat) (by rw [hsame]),
      h.count]
  bounded := hm ▸ h.bounded

theorem enqueueLine (h : Terminators c s) {job : Job}
    (hm : s.main.nullsEnqueued n = 0) (hm' : s'.main.nullsEnqueued n = 0)
    (hl : s'.main.Bounded n) (hw : s'.workers = s.workers)
    (hq : s'.jobQueue.items = s.jobQueue.items ++ [some job]) : Terminators c s' where
  started := hw ▸ h.started
  shape := by
    obtain ⟨jobs, k, hitems⟩ := h.shape
    -- no terminator is in the queue yet
    have hk : k = 0 := by
      by_contra hk
      exact h.none_notMem hm (by simp [hitems, hk])
    exact ⟨jobs ++ [job], 0, by simp [hq, hitems, hk]⟩
  drained w hlive hdone := by
    rw [hw, h.not_terminated hm hlive] at hdone
    cases hdone
  count := by
    have hcount := h.count
    rw [hm] at hcount
    rw [hq, hw, hm', List.count_append]
    simpa using hcount
  bounded := hl

theorem enqueueNull (h : Terminators c s) {left : ℕ} (hm : s.main = .terminating (left + 1))
    (hm' : s'.main = .terminating left) (hw : s'.workers = s.workers)
    (hq : s'.jobQueue.items = s.jobQueue.items ++ [none]) : Terminators c s' where
  started := hw ▸ h.started
  shape := by
    obtain ⟨jobs, k, hitems⟩ := h.shape
    exact ⟨jobs, k + 1, by rw [hq, hitems, List.append_assoc, List.replicate_succ']⟩
  drained w hlive hdone job hmem := by
    rw [hw] at hdone
    rw [hq, List.mem_append, List.mem_singleton] at hmem
    exact hmem.elim (h.drained w hlive hdone job) (by simp)
  count := by
    have hcount := h.count
    -- `left + 1` of `n` are still to come, so the sum is below `n`
    have hleft := h.bounded
    rw [hm] at hcount hleft
    simp only [MainPc.nullsEnqueued, MainPc.Bounded] at hcount hleft
    rw [hq, hw, hm', List.count_append, List.count_singleton_self]
    simp only [MainPc.nullsEnqueued]
    omega
  bounded := by
    have hleft := h.bounded
    rw [hm] at hleft
    rw [hm']
    exact Nat.le_of_succ_le hleft

theorem dequeueJob (h : Terminators c s) {w : Fin n} {job : Job} {pc : WorkerPc}
    (hold : s.workers w = .dequeue) (hpc : pc.inLoop = true) (hm : s'.main = s.main)
    (hw : s'.workers = Function.update s.workers w pc)
    (hq : s.jobQueue.items = some job :: s'.jobQueue.items) : Terminators c s' := by
  -- first the queue, then the worker
  have hmid : Terminators c { s with jobQueue := s'.jobQueue } := by
    refine ⟨h.started, ?_, ?_, ?_, h.bounded⟩
    · obtain ⟨jobs, k, hitems⟩ := h.shape
      rw [hq] at hitems
      cases jobs with
      | nil => cases k <;> simp [List.replicate_succ] at hitems
      | cons j jobs => exact ⟨jobs, k, (List.cons.inj hitems).2⟩
    · intro w' hlive hdone j hj
      exact h.drained w' hlive hdone j (hq ▸ List.mem_cons_of_mem _ hj)
    · have hcount := h.count
      rw [hq, List.count_cons_of_ne (by simp)] at hcount
      exact hcount
  refine hmid.of_worker rfl hm hw (fun _ => h.started w (by rw [hold]; rfl)) fun _ => ?_
  rw [WorkerPc.terminated_eq_false hpc]
  simp [hold, WorkerPc.terminated]

theorem dequeueNull (h : Terminators c s) {w : Fin n} (hold : s.workers w = .dequeue)
    (hm : s'.main = s.main) (hw : s'.workers = Function.update s.workers w .terminate)
    (hq : s.jobQueue.items = none :: s'.jobQueue.items) : Terminators c s' := by
  have hlive : Live c w := h.started w (by rw [hold]; rfl)
  -- what stands behind a terminator are terminators
  have hrest : ∃ k, s'.jobQueue.items = List.replicate k none := by
    obtain ⟨jobs, k, hitems⟩ := h.shape
    rw [hq] at hitems
    cases jobs with
    | nil =>
        cases k with
        | zero => simp at hitems
        | succ k => exact ⟨k, by simpa [List.replicate_succ] using hitems⟩
    | cons j jobs => simp at hitems
  obtain ⟨k, hk⟩ := hrest
  refine ⟨?_, ⟨[], k, hk⟩, ?_, ?_, hm ▸ h.bounded⟩
  · intro w' hw'
    rcases eq_or_ne w' w with rfl | hne
    · exact hlive
    · rw [hw, Function.update_of_ne hne] at hw'
      exact h.started w' hw'
  · intro _ _ _ job hjob
    rw [hk] at hjob
    simp at hjob
  -- the terminator leaves the queue and is counted with `w`
  · have hsum := sum_update_add (fun w pc => (nullTaken c w pc).toNat) s.workers w .terminate
    have hcount := h.count
    have h₁ : nullTaken c w .terminate = true := by simp [nullTaken, hlive, WorkerPc.terminated]
    have h₀ : nullTaken c w (s.workers w) = false := nullTaken_eq_false (by rw [hold]; rfl)
    rw [h₁, h₀, Bool.toNat_true, Bool.toNat_false] at hsum
    rw [hq, List.count_cons_self] at hcount
    rw [hm, hw]
    omega

/-- One step. -/
theorem step (h : Terminators c s) {a : Action n σ} (hs : Step c s a s') :
    Terminators c s' := by
  cases hs with
  | readDone hm => exact h.of_main rfl rfl (by rw [hm]; rfl) trivial
  | readData hm => exact h.of_main rfl rfl (by rw [hm]; rfl) trivial
  | readEof hm => exact h.of_main rfl rfl (by rw [hm]; rfl) trivial
  | readNothing hm => exact h.of_main rfl rfl (by rw [hm]; rfl) trivial
  | enqueueLine hm hq => exact h.enqueueLine (by rw [hm]; rfl) rfl trivial rfl hq
  | threadSig hm => exact h.of_main rfl rfl (by rw [hm]; rfl) trivial
  | enqueueNull hm hq => exact h.enqueueNull hm rfl rfl hq
  | startJoin hm => exact h.of_main rfl rfl (by rw [hm]; rfl) (Nat.zero_le n)
  | join hm hlt => exact h.of_main rfl rfl (by rw [hm]; rfl) hlt
  | stdin hm => exact h.of_main rfl rfl (by rw [hm]; rfl) trivial
  | signal => exact h.of_main rfl rfl rfl h.bounded
  | async hm => exact h.of_main rfl rfl (by rw [hm]; rfl) trivial
  | watcher => exact h.of_main rfl rfl rfl h.bounded
  | leave hm => exact h.of_main rfl rfl (by rw [hm]; simp [MainPc.nullsEnqueued]) (Nat.le_refl n)
  | @initThread w o hw =>
      by_cases hlive : Live c w
      -- a survivor enters the loop, and the others do not
      · have hinit : c.threadInit (w + 1) = true := hlive
        refine h.of_worker rfl rfl rfl (fun _ => hlive) fun _ => ?_
        rw [hw, if_pos hinit]
        rfl
      · have hinit : ¬ c.threadInit (w + 1) = true := hlive
        refine h.of_worker rfl rfl rfl (fun hloop => ?_) fun hl => absurd hl hlive
        rw [if_neg hinit] at hloop
        cases hloop
  | dequeueNull hw hq => exact h.dequeueNull hw rfl rfl hq
  | dequeueJob hw hq => exact h.dequeueJob hw rfl rfl rfl hq
  | @request w o job pc r hw =>
      have hloop : (s.workers w).inLoop = true := by rw [hw]; rfl
      refine h.of_worker rfl rfl rfl (fun _ => h.started w hloop) fun _ => ?_
      rw [WorkerPc.terminated_eq_false hloop,
        WorkerPc.terminated_eq_false (WorkerPc.inLoop_afterStep job r.next)]
  | terminate hw =>
      exact h.of_worker rfl rfl rfl (fun hloop => by cases hloop) fun _ => by rw [hw]; rfl
  | asyncSend hw =>
      exact h.of_worker rfl rfl rfl (fun hloop => by cases hloop) fun _ => by rw [hw]; rfl
  | threadFree hw =>
      exact h.of_worker rfl rfl rfl (fun hloop => by cases hloop) fun _ => by rw [hw]; rfl
  | coalesce hw =>
      exact h.of_worker rfl rfl rfl (fun hloop => by cases hloop) fun _ => by rw [hw]; rfl
  | outside => exact h.of_main rfl rfl rfl h.bounded

end Terminators

/-- **The terminators are accounted for in every reachable state.** -/
theorem terminators_of_reaches {c : Core σ ω} {reads : List StdinRead} {world : ω}
    {s : State n ω} (h : (helper c n).Reaches (State.init n reads world) s) : Terminators c s :=
  h.invariant (fun _ _ _ hs hstep => hs.step (step_step hstep)) (Terminators.init c reads world)

end SquidHelper
