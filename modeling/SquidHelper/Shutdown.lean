/-
SquidHelper/Shutdown.lean

The phase behind the event loop: the main thread enqueues one `NULL` per worker and
joins the workers; each worker works off the queue up to a `NULL`, leaves a message on
`thread_signal_queue` and exits.  Nobody takes messages from that queue any more, and
it has room for 8.

With at most 8 workers some thread can always move until all are joined
(`Shutdown.progress`).  With more the phase never ends well: every step lowers a rank
(`Shutdown.exists_stuck`), and where the steps run out the workers cannot all have left
their message.
-/
import SquidHelper.Deaths

namespace SquidHelper

open CString

variable {σ ω : Type*} {n : ℕ}

/-! ### The phase -/

/-- Behind the event loop. -/
def MainPc.late : MainPc → Bool
  | .terminating _ => true
  | .joining _ => true
  | _ => false

/-- A step of the main thread or of a worker. -/
def Action.internal : Action n σ → Bool
  | .go => true
  | .worker _ _ => true
  | .coalesce _ => true
  | _ => false

/-- The phase begins: the event loop has just returned, and every worker is in its
loop, whatever is pending on `job_queue`. -/
structure ShutdownStart (c : Core σ ω) (s : State n ω) : Prop where
  reached : ∃ reads world, (helper c n).Reaches (State.init n reads world) s
  main : s.main = .terminating n
  looping : ∀ w, (s.workers w).inLoop = true

structure Shutdown (c : Core σ ω) (s : State n ω) : Prop where
  terminators : Terminators c s
  late : s.main.late = true
  live : ∀ w : Fin n, Live c w
  started : ∀ w, s.workers w ≠ .threadInit
  messages : ∑ w, (s.workers w).queued.toNat = s.threadSignalQueue.items.length
  joined : ∀ {joined}, s.main = .joining joined → ∀ w : Fin n, w < joined → s.workers w = .exited

/-- The job queue's contents and the workers of the first moment do not matter. -/
theorem ShutdownStart.shutdown {c : Core σ ω} {s : State n ω} (h : ShutdownStart c s) :
    Shutdown c s := by
  obtain ⟨reads, world, as, has⟩ := h.reached
  have hterm := terminators_of_reaches ⟨as, has⟩
  have hmsg := messages_of_exec has
  have hqueued : ∀ w, (s.workers w).queued.toNat = 0 := by
    intro w
    have hw := h.looping w
    cases hpc : s.workers w <;> first | rfl | simp [hpc, WorkerPc.inLoop] at hw
  have hsum : ∑ w, (s.workers w).queued.toNat = 0 := Finset.sum_eq_zero fun w _ => hqueued w
  refine ⟨hterm, by rw [h.main]; rfl, fun w => hterm.started w (h.looping w), fun w hw => ?_, ?_,
    fun hj => ?_⟩
  · have hloop := h.looping w
    rw [hw] at hloop
    cases hloop
  · have hq := hmsg.queued
    have hle := hmsg.active_le
    omega
  · rw [h.main] at hj
    cases hj

namespace Shutdown

variable {c : Core σ ω} {s s' : State n ω}

/-! ### The invariant -/

/-- The main thread's steps. -/
theorem of_main (h : Shutdown c s) (ht : Terminators c s') (hlate : s'.main.late = true)
    (hw : s'.workers = s.workers) (hq : s'.threadSignalQueue = s.threadSignalQueue)
    (hj : ∀ {joined}, s'.main = .joining joined →
      ∀ w : Fin n, w < joined → s.workers w = .exited) : Shutdown c s' where
  terminators := ht
  late := hlate
  live := h.live
  started := hw ▸ h.started
  messages := by rw [hw, hq, h.messages]
  joined := hw ▸ hj

/-- A worker's steps; one that has exited has none. -/
theorem of_worker (h : Shutdown c s) {w : Fin n} {pc : WorkerPc} (ht : Terminators c s')
    (hm : s'.main = s.main) (hw : s'.workers = Function.update s.workers w pc)
    (hold : s.workers w ≠ .exited) (hnew : pc ≠ .threadInit)
    (hq : s'.threadSignalQueue.items.length + (s.workers w).queued.toNat
      = s.threadSignalQueue.items.length + pc.queued.toNat) : Shutdown c s' where
  terminators := ht
  late := hm ▸ h.late
  live := h.live
  started w' := by
    rcases eq_or_ne w' w with rfl | hne
    · rw [hw, Function.update_self]
      exact hnew
    · rw [hw, Function.update_of_ne hne]
      exact h.started w'
  messages := by
    have hsum := sum_update_add (fun _ (pc : WorkerPc) => pc.queued.toNat) s.workers w pc
    have hmsg := h.messages
    rw [hw]
    omega
  joined hj w' hlt := by
    have hexited := h.joined (hm ▸ hj) w' hlt
    -- `w` has not exited
    have hne : w' ≠ w := by
      rintro rfl
      exact hold hexited
    rw [hw, Function.update_of_ne hne]
    exact hexited

/-- One step. -/
theorem step (h : Shutdown c s) {a : Action n σ} (hs : Step c s a s') : Shutdown c s' := by
  have ht := h.terminators.step hs
  have hlate := h.late
  cases hs with
  | readDone hm => rw [hm] at hlate; cases hlate
  | readData hm => rw [hm] at hlate; cases hlate
  | readEof hm => rw [hm] at hlate; cases hlate
  | readNothing hm => rw [hm] at hlate; cases hlate
  | enqueueLine hm => rw [hm] at hlate; cases hlate
  | threadSig hm => rw [hm] at hlate; cases hlate
  | enqueueNull => exact h.of_main ht rfl rfl rfl fun hj => by cases hj
  | startJoin => exact h.of_main ht rfl rfl rfl fun hj w hlt => by cases hj; cases hlt
  | @join joined hm hlt hw =>
      refine h.of_main ht rfl rfl rfl fun hj w hlt' => ?_
      cases hj
      rcases Nat.lt_succ_iff_lt_or_eq.mp hlt' with hlt' | heq
      · exact h.joined hm w hlt'
      · rw [← hw]
        exact congrArg s.workers (Fin.ext heq)
  | stdin hm => rw [hm] at hlate; cases hlate
  | signal hm => rw [hm] at hlate; cases hlate
  | async hm => rw [hm] at hlate; cases hlate
  | watcher hm => rw [hm] at hlate; cases hlate
  | leave hm => rw [hm] at hlate; cases hlate
  | initThread hw => exact absurd hw (h.started _)
  | dequeueNull hw => exact h.of_worker ht rfl rfl (by simp [hw]) (by simp) (by rw [hw]; rfl)
  | dequeueJob hw => exact h.of_worker ht rfl rfl (by simp [hw]) (by simp) (by rw [hw]; rfl)
  | @request w o job pc r hw =>
      refine h.of_worker ht rfl rfl (by simp [hw]) ?_ ?_
      · cases r.next <;> simp [WorkerPc.afterStep]
      · rw [hw, WorkerPc.queued_afterStep]
        rfl
  | terminate hw hq =>
      refine h.of_worker ht rfl rfl (by simp [hw]) (by simp) ?_
      rw [hw]
      simp [hq, WorkerPc.queued]
  | asyncSend hw => exact h.of_worker ht rfl rfl (by simp [hw]) (by simp) (by rw [hw]; rfl)
  | threadFree hw => exact h.of_worker ht rfl rfl (by simp [hw]) (by simp) (by rw [hw]; rfl)
  | coalesce hw => exact h.of_worker ht rfl rfl (by simp [hw]) (by simp) (by rw [hw]; rfl)
  | outside => exact h.of_main ht hlate rfl rfl h.joined

theorem of_reaches (h : Shutdown c s) (hr : (helper c n).Reaches s s') : Shutdown c s' :=
  hr.invariant (fun _ _ _ hs hstep => hs.step (step_step hstep)) h

end Shutdown

/-! ### Who can move -/

/-- Whether a worker's next step is enabled. -/
def WorkerReady (s : State n ω) (w : Fin n) : Prop :=
  match s.workers w with
  | .dequeue => s.jobQueue.items ≠ []
  | .terminate => s.threadSignalQueue.items.length < 8
  | .exited => False
  | _ => True

theorem enabled_worker {c : Core σ ω} {s : State n ω} {w : Fin n} {o : σ} (h : WorkerReady s w) :
    (helper c n).Enabled s (.worker w o) := by
  change (workerStep c s w o).isSome = true
  unfold WorkerReady at h
  unfold workerStep
  split
  case h_1 => rfl
  case h_2 hw =>
    rw [hw] at h
    obtain ⟨x, xs, hitems⟩ := List.exists_cons_of_ne_nil h
    obtain ⟨q, hq, -⟩ := Fifo.exists_dequeue hitems
    rw [hq]
    rfl
  case h_3 => rfl
  case h_4 hw =>
    rw [hw] at h
    obtain ⟨q, hq, -⟩ := Fifo.exists_enqueue w h
    rw [hq]
    rfl
  case h_5 => rfl
  case h_6 => rfl
  case h_7 hw =>
    rw [hw] at h
    exact h.elim

/-- The main thread waits neither for room on `job_queue` nor for a worker. -/
def MainReady (s : State n ω) : Prop :=
  match s.main with
  | .terminating 0 => True
  | .terminating (_ + 1) => s.jobQueue.items.length < 256
  | .joining joined => ∃ h : joined < n, s.workers ⟨joined, h⟩ = .exited
  | _ => False

theorem enabled_main {c : Core σ ω} {s : State n ω} (h : MainReady s) :
    (helper c n).Enabled s .go := by
  change (mainStep s).isSome = true
  unfold MainReady at h
  unfold mainStep
  split at h
  case h_1 hm =>
    rw [hm]
    rfl
  case h_2 hm =>
    rw [hm]
    obtain ⟨q, hq, -⟩ := Fifo.exists_enqueue (none : Option Job) h
    simp only [hq]
    rfl
  case h_3 hm =>
    obtain ⟨hlt, hw⟩ := h
    rw [hm]
    simp only [hlt, hw, dif_pos, if_pos]
    rfl
  case h_4 => exact h.elim

/-- **With at most 8 workers the phase never gets stuck.** -/
theorem Shutdown.progress [Inhabited σ] {c : Core σ ω} {s : State n ω} (h : Shutdown c s)
    (hn : n ≤ 8) (hm : s.main ≠ .joining n) :
    ∃ a, a.internal = true ∧ (helper c n).Enabled s a := by
  by_cases hready : ∃ w, WorkerReady s w
  · obtain ⟨w, hw⟩ := hready
    exact ⟨.worker w default, rfl, enabled_worker hw⟩
  -- every worker waits for a line or has exited; the main thread moves
  · refine ⟨.go, rfl, enabled_main ?_⟩
    have hwait : ∀ w, (s.workers w = .dequeue ∧ s.jobQueue.items = []) ∨ s.workers w = .exited := by
      intro w
      have hw : ¬ WorkerReady s w := fun hw => hready ⟨w, hw⟩
      unfold WorkerReady at hw
      split at hw
      case h_1 hpc => exact .inl ⟨hpc, by_contra hw⟩
      case h_2 hpc =>
        -- its own message is missing among at most 8
        have hlt := sum_toNat_lt (f := fun w => (s.workers w).queued) (i := w) (by rw [hpc]; rfl)
        rw [h.messages] at hlt
        exact absurd (Nat.lt_of_lt_of_le hlt hn) hw
      case h_3 hpc => exact .inr hpc
      case h_4 => exact absurd trivial hw
    have hterm := h.terminators
    have hcount := hterm.count
    have hlate := h.late
    by_cases hexited : ∀ w, s.workers w = .exited
    · -- all terminators are taken, so none is left to be enqueued
      have htaken := sum_toNat_eq (f := fun w => nullTaken c w (s.workers w)) fun w => by
        simp [nullTaken, h.live, hexited, WorkerPc.terminated]
      unfold MainReady
      split
      case h_1 => trivial
      case h_2 hmain =>
        have hbound := hterm.bounded
        rw [hmain] at hcount hbound
        simp only [MainPc.nullsEnqueued, MainPc.Bounded] at hcount hbound
        omega
      case h_3 joined hmain =>
        have hbound := hterm.bounded
        rw [hmain] at hbound
        have hne : joined ≠ n := fun heq => hm (heq ▸ hmain)
        have hlt : joined < n := Nat.lt_of_le_of_ne hbound hne
        exact ⟨hlt, hexited _⟩
      case h_4 h₁ h₂ h₃ =>
        cases hmain : s.main with
        | terminating left => cases left with
          | zero => exact h₁ hmain
          | succ left => exact h₂ left hmain
        | joining joined => exact h₃ joined hmain
        | _ => rw [hmain] at hlate; cases hlate
    · -- someone waits at an empty queue, so some terminator is still to come
      obtain ⟨w, hw⟩ := not_forall.mp hexited
      obtain ⟨hpc, hempty⟩ := (hwait w).resolve_right hw
      unfold MainReady
      split
      case h_1 => trivial
      case h_2 => simp [hempty]
      case h_3 joined hmain =>
        have hlt := sum_toNat_lt (f := fun w => nullTaken c w (s.workers w)) (i := w)
          (nullTaken_eq_false (by rw [hpc]; rfl))
        rw [hmain, hempty, List.count_nil, Nat.zero_add] at hcount
        exact absurd hcount (Nat.ne_of_lt hlt)
      case h_4 h₁ h₂ h₃ =>
        cases hmain : s.main with
        | terminating left => cases left with
          | zero => exact absurd hmain h₁
          | succ left => exact absurd hmain (h₂ left)
        | joining joined => exact absurd hmain (h₃ joined)
        | _ => rw [hmain] at hlate; cases hlate

/-! ### The phase runs out -/

/-- A bound on a worker's steps, with `p` plugins. -/
def WorkerPc.rank (p : ℕ) : WorkerPc → ℕ
  | .threadInit => 5
  | .dequeue => 4
  | .busy _ pc => 4 + pc.rank p
  | .terminate => 3
  | .asyncSend => 2
  | .threadFree => 1
  | .exited => 0

/-- The steps an element of `job_queue` will cost. -/
def jobRank (p : ℕ) : Option Job → ℕ
  | none => 1
  | some _ => 2 * p + 5

def MainPc.rank (n : ℕ) : MainPc → ℕ
  | .terminating left => 2 * left + n + 1
  | .joining joined => n - joined
  | _ => 0

/-- A bound on the steps of all threads. -/
def shutdownRank (c : Core σ ω) (s : State n ω) : ℕ :=
  s.main.rank n + (s.jobQueue.items.map (jobRank c.plugins.length)).sum +
    ∑ w, (s.workers w).rank c.plugins.length

/-- A worker's step lowers the rank when it lowers the worker's together with the queue's. -/
theorem shutdownRank_worker {c : Core σ ω} {s s' : State n ω} {w : Fin n} {pc : WorkerPc}
    (hm : s'.main = s.main) (hw : s'.workers = Function.update s.workers w pc)
    (hlt : (s'.jobQueue.items.map (jobRank c.plugins.length)).sum + pc.rank c.plugins.length
      < (s.jobQueue.items.map (jobRank c.plugins.length)).sum
        + (s.workers w).rank c.plugins.length) :
    shutdownRank c s' < shutdownRank c s := by
  have hsum := sum_update_add (fun _ (pc : WorkerPc) => pc.rank c.plugins.length) s.workers w pc
  unfold shutdownRank
  rw [hm, hw]
  omega

/-- A step of a worker. -/
def Action.ofWorker : Action n σ → Bool
  | .worker _ _ => true
  | .coalesce _ => true
  | _ => false

/-- The workers' steps lower the rank, at any time. -/
theorem Step.shutdownRank_lt {c : Core σ ω} {s s' : State n ω} {a : Action n σ}
    (hs : Step c s a s') (ha : a.ofWorker = true) :
    s'.main = s.main ∧ shutdownRank c s' < shutdownRank c s := by
  cases hs with
  | initThread hw =>
      refine ⟨rfl, shutdownRank_worker rfl rfl (Nat.add_lt_add_left ?_ _)⟩
      rw [hw]
      split <;> simp [WorkerPc.rank]
  | dequeueNull hw hq =>
      refine ⟨rfl, shutdownRank_worker rfl rfl ?_⟩
      simp only [hq, hw, List.map_cons, List.sum_cons, jobRank, WorkerPc.rank]
      omega
  | dequeueJob hw hq =>
      refine ⟨rfl, shutdownRank_worker rfl rfl ?_⟩
      -- the element of the queue pays for the steps of its request
      simp only [hq, hw, List.map_cons, List.sum_cons, jobRank, WorkerPc.rank, RequestPc.rank]
      omega
  | @request w o job pc r hw hr =>
      refine ⟨rfl, shutdownRank_worker rfl rfl (Nat.add_lt_add_left ?_ _)⟩
      rw [hw]
      cases hnext : r.next with
      | none => exact Nat.lt_add_of_pos_right (pc.rank_pos _)
      | some pc' => exact Nat.add_lt_add_left (requestStep_rank (hr ▸ hnext)) 4
  | terminate hw =>
      refine ⟨rfl, shutdownRank_worker rfl rfl (Nat.add_lt_add_left ?_ _)⟩
      rw [hw]
      exact Nat.lt_succ_self _
  | asyncSend hw =>
      refine ⟨rfl, shutdownRank_worker rfl rfl (Nat.add_lt_add_left ?_ _)⟩
      rw [hw]
      exact Nat.lt_succ_self _
  | threadFree hw =>
      refine ⟨rfl, shutdownRank_worker rfl rfl (Nat.add_lt_add_left ?_ _)⟩
      rw [hw]
      exact Nat.lt_succ_self _
  | coalesce hw =>
      refine ⟨rfl, shutdownRank_worker rfl rfl (Nat.add_lt_add_left ?_ _)⟩
      rw [hw]
      exact Nat.lt_succ_self _
  | _ => cases ha

theorem Shutdown.rank_lt {c : Core σ ω} {s s' : State n ω} {a : Action n σ} (h : Shutdown c s)
    (ha : a.internal = true) (hs : Step c s a s') : shutdownRank c s' < shutdownRank c s := by
  have hlate := h.late
  by_cases hworker : a.ofWorker = true
  · exact (hs.shutdownRank_lt hworker).2
  · cases hs with
    | readDone hm => rw [hm] at hlate; cases hlate
    | readData hm => rw [hm] at hlate; cases hlate
    | readEof hm => rw [hm] at hlate; cases hlate
    | readNothing hm => rw [hm] at hlate; cases hlate
    | enqueueLine hm => rw [hm] at hlate; cases hlate
    | threadSig hm => rw [hm] at hlate; cases hlate
    | enqueueNull hm hq =>
        -- a terminator costs its taker one step, and the main thread two less
        simp only [shutdownRank, hm, hq, MainPc.rank, List.map_append, List.sum_append, jobRank,
          List.map_cons, List.map_nil, List.sum_cons, List.sum_nil]
        omega
    | startJoin hm =>
        simp only [shutdownRank, hm, MainPc.rank]
        omega
    | join hm hlt =>
        simp only [shutdownRank, hm, MainPc.rank]
        omega
    | stdin => cases ha
    | signal => cases ha
    | async => cases ha
    | watcher => cases ha
    | leave => cases ha
    | outside => cases ha
    | _ => exact absurd rfl hworker

/-- The threads can move on until none of them can. -/
theorem Shutdown.exists_stuck {c : Core σ ω} {s : State n ω} (h : Shutdown c s) :
    ∃ s', (helper c n).Reaches s s' ∧ Shutdown c s' ∧
      ∀ a, a.internal = true → ¬ (helper c n).Enabled s' a :=
  Guarded.exists_stuck_of_rank (fun a => a.internal = true) (Shutdown c) (shutdownRank c)
    (fun _ _ _ hs _ hstep => hs.step (step_step hstep))
    (fun _ _ _ hs ha hstep => hs.rank_lt ha (step_step hstep)) s h

/-- All workers can be joined only when all messages fit. -/
theorem Shutdown.le_of_joined {c : Core σ ω} {s : State n ω} (h : Shutdown c s)
    (hm : s.main = .joining n) : n ≤ 8 := by
  have hexited : ∀ w, s.workers w = .exited := fun w => h.joined hm w w.isLt
  have hsum := sum_toNat_eq (f := fun w => (s.workers w).queued) fun w => by rw [hexited w]; rfl
  rw [← hsum, h.messages]
  exact s.threadSignalQueue.bound

/-- With more than 8 workers, some run of the phase ends with workers not joined and
nobody able to move. -/
theorem Shutdown.deadlock {c : Core σ ω} {s : State n ω} (h : Shutdown c s) (hn : 8 < n) :
    ∃ s', (helper c n).Reaches s s' ∧ s'.main ≠ .joining n ∧
      ∀ a, a.internal = true → ¬ (helper c n).Enabled s' a := by
  obtain ⟨s', hr, h', hstuck⟩ := h.exists_stuck
  exact ⟨s', hr, fun hm => absurd (h'.le_of_joined hm) (Nat.not_le.mpr hn), hstuck⟩

/-- **Shutdown cannot deadlock if and only if there are at most 8 workers**, from any
beginning of the phase. -/
theorem shutdown_progress_iff [Inhabited σ] {c : Core σ ω} {s₀ : State n ω}
    (h : ShutdownStart c s₀) :
    (∀ s, (helper c n).Reaches s₀ s → s.main ≠ .joining n →
      ∃ a, a.internal = true ∧ (helper c n).Enabled s a) ↔ n ≤ 8 := by
  constructor
  · intro hprogress
    by_contra hn
    obtain ⟨s, hr, hm, hstuck⟩ := h.shutdown.deadlock (Nat.not_le.mp hn)
    obtain ⟨a, ha, hen⟩ := hprogress s hr hm
    exact hstuck a ha hen
  · intro hn s hr hm
    exact (h.shutdown.of_reaches hr).progress hn hm

/-- No plugins. -/
def plainCore : Core Unit Unit where
  build := ⟨true⟩
  inetPton := ipv4Only
  plugins := []
  denyByDefault := true

/-- All workers pass `thread_init`, two lines arrive, then `SIGTERM`. -/
def startRun (n : ℕ) : List (Action n Unit) :=
  (List.finRange n).map (.worker · ()) ++ [.stdin, .go, .go, .go, .go, .signal, .leave]

def twoLines : List StdinRead := [.data [ascii "1 10.0.0.1", ascii "2 10.0.0.2"] false]

/-- Two workers and two pending lines: the phase gets stuck nowhere. -/
theorem shutdown_progress_two :
    ∃ s₀ : State 2 Unit, ShutdownStart plainCore s₀ ∧
      ∀ s, (helper plainCore 2).Reaches s₀ s → s.main ≠ .joining 2 →
        ∃ a, a.internal = true ∧ (helper plainCore 2).Enabled s a := by
  have hrun : ((helper plainCore 2).exec (State.init 2 twoLines ()) (startRun 2)).any (fun s =>
      decide (s.main = .terminating 2 ∧ ∀ w, (s.workers w).inLoop = true)) = true := by decide
  obtain ⟨s₀, hs, hp⟩ := (Option.any_eq_true _ _).mp hrun
  obtain ⟨hmain, hloop⟩ := of_decide_eq_true hp
  have hstart : ShutdownStart plainCore s₀ := ⟨⟨_, _, _, hs⟩, hmain, hloop⟩
  exact ⟨s₀, hstart, (shutdown_progress_iff hstart).mpr (by decide)⟩

/-- Nine workers: there is a run of the phase that gets stuck. -/
theorem shutdown_deadlock_nine :
    ¬ ∀ s₀ : State 9 Unit, ShutdownStart plainCore s₀ →
      ∀ s, (helper plainCore 9).Reaches s₀ s → s.main ≠ .joining 9 →
        ∃ a, a.internal = true ∧ (helper plainCore 9).Enabled s a := by
  intro hall
  have hrun : ((helper plainCore 9).exec (State.init 9 twoLines ()) (startRun 9)).any (fun s =>
      decide (s.main = .terminating 9 ∧ ∀ w, (s.workers w).inLoop = true)) = true := by decide
  obtain ⟨s₀, hs, hp⟩ := (Option.any_eq_true _ _).mp hrun
  obtain ⟨hmain, hloop⟩ := of_decide_eq_true hp
  have hstart : ShutdownStart plainCore s₀ := ⟨⟨_, _, _, hs⟩, hmain, hloop⟩
  obtain ⟨s, hr, hm, hstuck⟩ := hstart.shutdown.deadlock (by decide)
  obtain ⟨a, ha, hen⟩ := hall s₀ hstart s hr hm
  exact hstuck a ha hen

end SquidHelper
