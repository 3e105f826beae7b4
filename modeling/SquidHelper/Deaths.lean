/-
SquidHelper/Deaths.lean

How the main thread learns that a worker is gone: the worker puts a message on
`thread_signal_queue` and calls `ev_async_send`; the event loop answers a notification
with one call of `thread_sig_cb`, which takes one message.

`Messages` is the bookkeeping behind it.  The messages handled are `n - active_workers`,
and each of them used up a notification, so the messages left over are exactly the
notifications that were merged.  Once everything is delivered the queue is empty, and
the loop told to stop, if and only if none was (`deaths_counted_iff`).
-/
import SquidHelper.Terminators

namespace SquidHelper

variable {σ ω : Type*} {n : ℕ}

/-! ### Messages and notifications -/

/-- The worker's message is, or was, on `thread_signal_queue`. -/
def WorkerPc.queued : WorkerPc → Bool
  | .asyncSend => true
  | .threadFree => true
  | .exited => true
  | _ => false

/-- The worker's `ev_async_send` has returned. -/
def WorkerPc.sent : WorkerPc → Bool
  | .threadFree => true
  | .exited => true
  | _ => false

theorem WorkerPc.terminated_of_queued {pc : WorkerPc} (h : pc.queued = true) :
    pc.terminated = true := by
  cases pc <;> first | rfl | cases h

theorem WorkerPc.sent_le_queued (pc : WorkerPc) : pc.sent.toNat ≤ pc.queued.toNat := by
  cases pc <;> simp [WorkerPc.sent, WorkerPc.queued]

theorem WorkerPc.queued_afterStep (job : Job) (next : Option RequestPc) :
    (WorkerPc.afterStep job next).queued = false := by
  cases next <;> rfl

theorem WorkerPc.sent_afterStep (job : Job) (next : Option RequestPc) :
    (WorkerPc.afterStep job next).sent = false := by
  cases next <;> rfl

/-- In `thread_sig_cb`. -/
def MainPc.inCallback : MainPc → Bool
  | .threadSig => true
  | _ => false

/-- An `ev_async_send` that was merged into a pending notification. -/
def Action.coalesces : Action n σ → Bool
  | .coalesce _ => true
  | _ => false

/-- A notification that has not been answered yet, or is just being answered. -/
def NotificationPending (s : State n ω) : Prop := 0 < s.asyncPending ∨ s.main = .threadSig

/-! ### The bookkeeping -/

/-- After the actions `as`. -/
structure Messages (as : List (Action n σ)) (s : State n ω) : Prop where
  active_le : s.activeWorkers ≤ n
  queued : s.activeWorkers + ∑ w, (s.workers w).queued.toNat
    = n + s.threadSignalQueue.items.length
  notified : s.activeWorkers + ∑ w, (s.workers w).sent.toNat
    = n + s.asyncPending + s.main.inCallback.toNat + as.countP Action.coalesces
  stopped : n ≠ 0 → s.activeWorkers = 0 → s.stopped = true

namespace Messages

variable {c : Core σ ω} {as : List (Action n σ)} {a : Action n σ} {s s' : State n ω}

theorem init (reads : List StdinRead) (world : ω) :
    Messages ([] : List (Action n σ)) (State.init n reads world) where
  active_le := Nat.le_refl n
  queued := by simp [State.init, WorkerPc.queued]
  notified := by simp [State.init, WorkerPc.sent, MainPc.inCallback]
  stopped h h' := absurd h' h

/-- Steps without messages. -/
theorem of_same (h : Messages as s) (hactive : s'.activeWorkers = s.activeWorkers)
    (hq : s'.threadSignalQueue = s.threadSignalQueue) (hp : s'.asyncPending = s.asyncPending)
    (hm : s'.main.inCallback = s.main.inCallback) (ha : a.coalesces = false)
    (hstop : s.stopped = true → s'.stopped = true)
    (hqueued : ∑ w, (s'.workers w).queued.toNat = ∑ w, (s.workers w).queued.toNat)
    (hsent : ∑ w, (s'.workers w).sent.toNat = ∑ w, (s.workers w).sent.toNat) :
    Messages (as ++ [a]) s' where
  active_le := hactive ▸ h.active_le
  queued := by rw [hactive, hqueued, hq, h.queued]
  notified := by
    -- `a` is not a merged notification
    have hcount : (as ++ [a]).countP Action.coalesces = as.countP Action.coalesces := by
      simp [ha]
    rw [hactive, hsent, hp, hm, hcount, h.notified]
  stopped hn h₀ := hstop (h.stopped hn (hactive ▸ h₀))

/-- Such steps of the main thread and of the outside. -/
theorem of_main (h : Messages as s) (hactive : s'.activeWorkers = s.activeWorkers)
    (hq : s'.threadSignalQueue = s.threadSignalQueue) (hp : s'.asyncPending = s.asyncPending)
    (hm : s'.main.inCallback = s.main.inCallback) (ha : a.coalesces = false)
    (hstop : s.stopped = true → s'.stopped = true) (hw : s'.workers = s.workers) :
    Messages (as ++ [a]) s' :=
  h.of_same hactive hq hp hm ha hstop (by rw [hw]) (by rw [hw])

/-- Such steps of a worker. -/
theorem of_worker (h : Messages as s) {w : Fin n} {pc : WorkerPc}
    (hactive : s'.activeWorkers = s.activeWorkers)
    (hq : s'.threadSignalQueue = s.threadSignalQueue) (hp : s'.asyncPending = s.asyncPending)
    (hm : s'.main = s.main) (ha : a.coalesces = false) (hstop : s'.stopped = s.stopped)
    (hw : s'.workers = Function.update s.workers w pc)
    (hqueued : pc.queued = (s.workers w).queued) (hsent : pc.sent = (s.workers w).sent) :
    Messages (as ++ [a]) s' := by
  refine h.of_same hactive hq hp (by rw [hm]) ha (by rw [hstop]; exact id) ?_ ?_
  · rw [hw]
    exact sum_update_eq (f := fun _ (pc : WorkerPc) => pc.queued.toNat) (by rw [hqueued])
  · rw [hw]
    exact sum_update_eq (f := fun _ (pc : WorkerPc) => pc.sent.toNat) (by rw [hsent])

/-- The message is put on the queue. -/
theorem terminate (h : Messages as s) {w : Fin n} {o : σ} {q : Fifo 8 (Fin n)}
    (hw : s.workers w = .terminate) (hq : q.items = s.threadSignalQueue.items ++ [w]) :
    Messages (as ++ [.worker w o]) { s with workers := Function.update s.workers w .asyncSend,
                                            threadSignalQueue := q } where
  active_le := h.active_le
  queued := by
    have hsum := sum_update_add (fun _ (pc : WorkerPc) => pc.queued.toNat) s.workers w .asyncSend
    have hqueued := h.queued
    -- only `w` changes, and it was not counted before
    have hold : (s.workers w).queued.toNat = 0 := by rw [hw]; rfl
    have hnew : WorkerPc.asyncSend.queued.toNat = 1 := rfl
    rw [hq, List.length_append, List.length_singleton]
    show s.activeWorkers + ∑ j, (Function.update s.workers w .asyncSend j).queued.toNat = _
    omega
  notified := by
    have hcount : (as ++ [Action.worker w o]).countP Action.coalesces
        = as.countP Action.coalesces := by simp [Action.coalesces]
    rw [hcount, ← h.notified]
    exact congrArg _ (sum_update_eq (f := fun _ (pc : WorkerPc) => pc.sent.toNat)
      (by simp [hw, WorkerPc.sent]))
  stopped := h.stopped

/-- A notification is sent, or merged. -/
theorem send (h : Messages as s) {w : Fin n} {pending : ℕ} (hw : s.workers w = .asyncSend)
    (hp : pending + (as ++ [a]).countP Action.coalesces
      = s.asyncPending + as.countP Action.coalesces + 1) :
    Messages (as ++ [a]) { s with workers := Function.update s.workers w .threadFree,
                                  asyncPending := pending } where
  active_le := h.active_le
  queued := by
    rw [← h.queued]
    exact congrArg _ (sum_update_eq (f := fun _ (pc : WorkerPc) => pc.queued.toNat)
      (by simp [hw, WorkerPc.queued]))
  notified := by
    have hsum := sum_update_add (fun _ (pc : WorkerPc) => pc.sent.toNat) s.workers w .threadFree
    have hnotified := h.notified
    have hold : (s.workers w).sent.toNat = 0 := by rw [hw]; rfl
    have hnew : WorkerPc.threadFree.sent.toNat = 1 := rfl
    show s.activeWorkers + ∑ j, (Function.update s.workers w .threadFree j).sent.toNat
      = n + pending + s.main.inCallback.toNat + _
    omega
  stopped := h.stopped

/-- `thread_sig_cb` is invoked. -/
theorem async (h : Messages as s) (hm : s.main = .evLoop) (hp : 0 < s.asyncPending) :
    Messages (as ++ [.async]) { s with main := .threadSig, asyncPending := s.asyncPending - 1 } where
  active_le := h.active_le
  queued := h.queued
  notified := by
    have hnotified := h.notified
    rw [hm] at hnotified
    simp only [MainPc.inCallback, Bool.toNat_false, Bool.toNat_true, List.countP_append,
      List.countP_singleton, Action.coalesces, Bool.false_eq_true, if_false] at hnotified ⊢
    omega
  stopped := h.stopped

/-- `thread_sig_cb` takes a message; the decrement does not wrap. -/
theorem threadSig (h : Messages as s) (hm : s.main = .threadSig) {w : Fin n} {q : Fifo 8 (Fin n)}
    (hq : s.threadSignalQueue.items = w :: q.items) :
    Messages (as ++ [.go]) { s with main := .evLoop, threadSignalQueue := q,
                                    activeWorkers := decrement s.activeWorkers,
                                    stopped := s.stopped || decrement s.activeWorkers == 0 } := by
  have hqueued := h.queued
  have hle := sum_toNat_le fun w => (s.workers w).queued
  rw [hq, List.length_cons] at hqueued
  -- the message taken is one of the at most `n` sent, so a worker is still counted
  have hpos : s.activeWorkers ≠ 0 := by omega
  have hdec : decrement s.activeWorkers = s.activeWorkers - 1 := if_neg hpos
  have hactive := h.active_le
  refine ⟨?_, ?_, ?_, ?_⟩
  · simp only [hdec]
    omega
  · simp only [hdec]
    omega
  · have hnotified := h.notified
    rw [hm] at hnotified
    simp only [MainPc.inCallback, Bool.toNat_false, Bool.toNat_true, List.countP_append,
      List.countP_singleton, Action.coalesces, Bool.false_eq_true, if_false] at hnotified ⊢
    simp only [hdec]
    omega
  · intro _ h₀
    simp only at h₀
    simp [h₀]

/-- One step. -/
theorem step (h : Messages as s) (hs : Step c s a s') : Messages (as ++ [a]) s' := by
  cases hs with
  | readDone hm => exact h.of_main rfl rfl rfl (by rw [hm]; rfl) rfl id rfl
  | readData hm => exact h.of_main rfl rfl rfl (by rw [hm]; rfl) rfl id rfl
  | readEof hm => exact h.of_main rfl rfl rfl (by rw [hm]; rfl) rfl id rfl
  | readNothing hm => exact h.of_main rfl rfl rfl (by rw [hm]; rfl) rfl id rfl
  | enqueueLine hm => exact h.of_main rfl rfl rfl (by rw [hm]; rfl) rfl id rfl
  | threadSig hm hq => exact h.threadSig hm hq
  | enqueueNull hm => exact h.of_main rfl rfl rfl (by rw [hm]; rfl) rfl id rfl
  | startJoin hm => exact h.of_main rfl rfl rfl (by rw [hm]; rfl) rfl id rfl
  | join hm => exact h.of_main rfl rfl rfl (by rw [hm]; rfl) rfl id rfl
  | stdin hm => exact h.of_main rfl rfl rfl (by rw [hm]; rfl) rfl id rfl
  | signal => exact h.of_main rfl rfl rfl rfl rfl (fun _ => rfl) rfl
  | async hm hp => exact h.async hm hp
  | watcher => exact h.of_main rfl rfl rfl rfl rfl id rfl
  | leave hm => exact h.of_main rfl rfl rfl (by rw [hm]; rfl) rfl id rfl
  | initThread hw =>
      refine h.of_worker rfl rfl rfl rfl rfl rfl rfl ?_ ?_ <;> rw [hw] <;> split <;> rfl
  | dequeueNull hw =>
      exact h.of_worker rfl rfl rfl rfl rfl rfl rfl (by rw [hw]; rfl) (by rw [hw]; rfl)
  | dequeueJob hw =>
      exact h.of_worker rfl rfl rfl rfl rfl rfl rfl (by rw [hw]; rfl) (by rw [hw]; rfl)
  | request hw =>
      refine h.of_worker rfl rfl rfl rfl rfl rfl rfl ?_ ?_
      · rw [hw, WorkerPc.queued_afterStep]
        rfl
      · rw [hw, WorkerPc.sent_afterStep]
        rfl
  | terminate hw hq => exact h.terminate hw hq
  | asyncSend hw => exact h.send hw (by simp [Action.coalesces]; omega)
  | threadFree hw =>
      exact h.of_worker rfl rfl rfl rfl rfl rfl rfl (by rw [hw]; rfl) (by rw [hw]; rfl)
  | coalesce hw => exact h.send hw (by simp [Action.coalesces]; omega)
  | outside => exact h.of_main rfl rfl rfl rfl rfl id rfl

end Messages

theorem messages_of_exec {c : Core σ ω} {reads : List StdinRead} {world : ω}
    {as : List (Action n σ)} {s : State n ω}
    (h : (helper c n).exec (State.init n reads world) as = some s) : Messages as s :=
  Guarded.exec_induction (P := Messages) (Messages.init reads world)
    (fun _ _ _ _ _ hs hstep => hs.step (step_step hstep)) h

/-! ### When all have sent -/

/-- What is left on the queue are the deaths whose notifications were merged. -/
theorem Messages.left_over {as : List (Action n σ)} {s : State n ω} (h : Messages as s)
    (hsent : ∀ w, (s.workers w).sent = true) (hpend : ¬ NotificationPending s) :
    s.threadSignalQueue.items.length = as.countP Action.coalesces ∧
      s.activeWorkers = as.countP Action.coalesces := by
  have hqueued : ∀ w, (s.workers w).queued = true := by
    intro w
    have hle := (s.workers w).sent_le_queued
    rw [hsent w] at hle
    rcases hq : (s.workers w).queued with - | -
    · rw [hq] at hle
      exact absurd hle (by decide)
    · rfl
  -- with all counts `n` the equations relate what is left over
  have h₁ := h.queued
  have h₂ := h.notified
  rw [sum_toNat_eq hqueued] at h₁
  rw [sum_toNat_eq hsent] at h₂
  have hp : s.asyncPending = 0 := by
    by_contra hp
    exact hpend (.inl (Nat.pos_of_ne_zero hp))
  have hcb : s.main.inCallback = false := by
    by_contra hcb
    refine hpend (.inr ?_)
    cases hm : s.main <;> first | rfl | simp [hm, MainPc.inCallback] at hcb
  rw [hp, hcb, Bool.toNat_false] at h₂
  omega

/-- **No death is lost if and only if no notification is merged into another.** -/
theorem deaths_counted_iff {c : Core σ ω} {reads : List StdinRead} {world : ω}
    {as : List (Action n σ)} {s : State n ω} (hn : 0 < n)
    (h : (helper c n).exec (State.init n reads world) as = some s)
    (hsent : ∀ w, (s.workers w).sent = true) (hpend : ¬ NotificationPending s) :
    (s.threadSignalQueue.items = [] ∧ s.activeWorkers = 0 ∧ s.stopped = true) ↔
      ∀ w, .coalesce w ∉ as := by
  have hmsg := messages_of_exec h
  -- queue and counter are both the number of merged notifications
  obtain ⟨hlen, hactive⟩ := hmsg.left_over hsent hpend
  have hnone : as.countP Action.coalesces = 0 ↔ ∀ w, .coalesce w ∉ as := by
    rw [List.countP_eq_zero]
    refine ⟨fun hall w hw => hall _ hw rfl, ?_⟩
    intro hall a ha hc
    cases a with
    | coalesce w => exact hall w ha
    | _ => cases hc
  rw [← hnone]
  constructor
  · rintro ⟨-, h₀, -⟩
    rw [← hactive, h₀]
  · intro h₀
    rw [h₀] at hlen hactive
    exact ⟨List.eq_nil_of_length_eq_zero hlen, hactive, hmsg.stopped (Nat.ne_of_gt hn) hactive⟩

/-- `thread_init` fails in every thread. -/
def deadCore : Core Unit Unit where
  build := ⟨true⟩
  inetPton := ipv4Only
  plugins := [{ threadInit := some fun _ => -1 }]
  denyByDefault := true

/-- Two workers die one after the other. -/
def apartRun : List (Action 2 Unit) :=
  List.replicate 3 (.worker ⟨0, Nat.two_pos⟩ ()) ++ [.async, .go] ++
    List.replicate 3 (.worker (Fin.last 1) ()) ++ [.async, .go]

/-- Two workers die before the loop looks, and their notifications are merged. -/
def togetherRun : List (Action 2 Unit) :=
  List.replicate 3 (.worker ⟨0, Nat.two_pos⟩ ()) ++ List.replicate 2 (.worker (Fin.last 1) ()) ++
    [.coalesce (Fin.last 1), .async, .go]

/-- Both deaths are seen when they are apart. -/
theorem deaths_counted_apart :
    ∃ s, (helper deadCore 2).exec (State.init 2 [] ()) apartRun = some s ∧
      s.threadSignalQueue.items = [] ∧ s.activeWorkers = 0 ∧ s.stopped = true := by
  have hrun : ((helper deadCore 2).exec (State.init 2 [] ()) apartRun).any (fun s => decide
      ((∀ w, (s.workers w).sent = true) ∧ ¬ (0 < s.asyncPending ∨ s.main = .threadSig))) = true := by
    decide
  obtain ⟨s, hs, hp⟩ := (Option.any_eq_true _ _).mp hrun
  obtain ⟨hsent, hpend⟩ := of_decide_eq_true hp
  refine ⟨s, hs, (deaths_counted_iff (by decide) hs hsent hpend).mpr ?_⟩
  intro w hw
  simp [apartRun] at hw

/-- One of two deaths is lost when they are not: both workers are gone, no
notification is left, and the loop runs on with a message on the queue. -/
theorem death_lost_together :
    ¬ ∀ s : State 2 Unit, (helper deadCore 2).Reaches (State.init 2 [] ()) s →
      (∀ w, (s.workers w).sent = true) → ¬ NotificationPending s →
      s.threadSignalQueue.items = [] ∧ s.activeWorkers = 0 ∧ s.stopped = true := by
  intro hall
  have hrun : ((helper deadCore 2).exec (State.init 2 [] ()) togetherRun).any (fun s => decide
      ((∀ w, (s.workers w).sent = true) ∧ ¬ (0 < s.asyncPending ∨ s.main = .threadSig) ∧
        s.activeWorkers = 1)) = true := by
    decide
  obtain ⟨s, hs, hp⟩ := (Option.any_eq_true _ _).mp hrun
  obtain ⟨hsent, hpend, hactive⟩ := of_decide_eq_true hp
  obtain ⟨-, h₀, -⟩ := hall s ⟨togetherRun, hs⟩ hsent hpend
  rw [hactive] at h₀
  cases h₀

end SquidHelper
