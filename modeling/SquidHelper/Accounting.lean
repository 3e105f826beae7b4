/-
SquidHelper/Accounting.lean

`thread_sig_cb` can rely on what it does not check: that a message is there when it takes
one, that `active_workers` counts the workers whose message it has not taken, and that at
zero there is no worker left.

`Messages` has what it takes for a single state.  The messages taken are read off the run
(`messagesTaken`), so that the counter can be compared with them.
-/
import SquidHelper.Deaths

namespace SquidHelper

variable {σ ω : Type*} {n : ℕ}

/-! ### What there is to count -/

/-- The message that `thread_sig_cb` takes in a step. -/
def takenInStep (s : State n ω) : Action n σ → List (Fin n)
  | .go => if s.main = .threadSig then s.threadSignalQueue.items.head?.toList else []
  | _ => []

/-- The messages that `thread_sig_cb` takes in a run from `s`. -/
def messagesTaken (c : Core σ ω) (s : State n ω) (as : List (Action n σ)) : List (Fin n) :=
  (helper c n).trace takenInStep s as

/-! ### The counter -/

/-- Only `thread_sig_cb` changes the counter. -/
theorem Step.activeWorkers {c : Core σ ω} {s s' : State n ω} {a : Action n σ}
    (h : Step c s a s') (hpos : s.main = .threadSig → 0 < s.activeWorkers) :
    s'.activeWorkers + (takenInStep s a).length = s.activeWorkers := by
  cases h with
  | @threadSig w q hm hq =>
      -- `active_workers` is positive here, so `--active_workers` does not wrap
      have hdec : decrement s.activeWorkers = s.activeWorkers - 1 :=
        if_neg (Nat.ne_of_gt (hpos hm))
      have htaken : takenInStep s (.go : Action n σ) = [w] := by
        rw [takenInStep, if_pos hm, hq]
        rfl
      have hlt := hpos hm
      show decrement s.activeWorkers + _ = s.activeWorkers
      rw [htaken, hdec, List.length_singleton]
      omega
  | readDone hm => simp [takenInStep, hm]
  | readData hm => simp [takenInStep, hm]
  | readEof hm => simp [takenInStep, hm]
  | readNothing hm => simp [takenInStep, hm]
  | enqueueLine hm => simp [takenInStep, hm]
  | enqueueNull hm => simp [takenInStep, hm]
  | startJoin hm => simp [takenInStep, hm]
  | join hm => simp [takenInStep, hm]
  | _ => rfl

section Messages

variable {c : Core σ ω} {as : List (Action n σ)} {s : State n ω}

/-- A notification being answered has its message on the queue. -/
theorem Messages.exists_message (h : Messages as s) (hm : s.main = .threadSig) :
    ∃ w ws, s.threadSignalQueue.items = w :: ws := by
  have hqueued := h.queued
  have hnotified := h.notified
  have hle : ∑ w, (s.workers w).sent.toNat ≤ ∑ w, (s.workers w).queued.toNat :=
    Finset.sum_le_sum fun w _ => (s.workers w).sent_le_queued
  have hcallback : s.main.inCallback.toNat = 1 := by
    rw [hm]
    rfl
  apply List.exists_cons_of_length_pos
  omega

/-- As long as there is one, the counter is not zero. -/
theorem Messages.activeWorkers_pos (h : Messages as s) (hm : s.main = .threadSig) :
    0 < s.activeWorkers := by
  obtain ⟨w, ws, hq⟩ := h.exists_message hm
  have hqueued := h.queued
  have hle := sum_toNat_le fun w => (s.workers w).queued
  rw [hq, List.length_cons] at hqueued
  omega

/-- At zero, every worker is at `terminate` or past it. -/
theorem Messages.all_terminated (h : Messages as s) (hzero : s.activeWorkers = 0) (w : Fin n) :
    (s.workers w).terminated = true := by
  apply WorkerPc.terminated_of_queued
  by_contra hnot
  have hlt := sum_toNat_lt (f := fun w => (s.workers w).queued) (Bool.eq_false_iff.mpr hnot)
  have hqueued := h.queued
  omega

end Messages

/-- **The termination accounting is safe**, in every interleaving. -/
theorem termination_accounting {c : Core σ ω} {reads : List StdinRead} {world : ω}
    {as : List (Action n σ)} {s : State n ω}
    (h : (helper c n).exec (State.init n reads world) as = some s) :
    -- the counter is what it stands for
    s.activeWorkers + (messagesTaken c (State.init n reads world) as).length = n ∧
      -- in `thread_sig_cb` there is a message, and taking it does not block
      (s.main = .threadSig → s.threadSignalQueue.items ≠ [] ∧ 0 < s.activeWorkers ∧
        ∃ s', (helper c n).step s .go = some s' ∧ s'.activeWorkers + 1 = s.activeWorkers ∧
          -- it stops the loop when the last worker has reached `terminate`
          (s'.stopped = true ↔ s.stopped = true ∨ s'.activeWorkers = 0) ∧
          (s'.activeWorkers = 0 → ∀ w, (s'.workers w).terminated = true)) := by
  have hmessages := messages_of_exec h
  constructor
  -- every step keeps the sum of the counter and the messages taken
  · refine Guarded.exec_induction (M := helper c n) (s := State.init n reads world)
      (P := fun as s => s.activeWorkers
        + (messagesTaken c (State.init n reads world) as).length = n)
      rfl (fun as s₁ a s₂ hexec hcount hstep => ?_) h
    have hactive := (step_step hstep).activeWorkers (messages_of_exec hexec).activeWorkers_pos
    rw [messagesTaken, Guarded.trace_concat _ hexec, List.length_append]
    rw [messagesTaken] at hcount
    omega
  · intro hm
    obtain ⟨w, ws, hq⟩ := hmessages.exists_message hm
    have hpos := hmessages.activeWorkers_pos hm
    obtain ⟨q, hdequeue, rfl⟩ := Fifo.exists_dequeue hq
    have hdec : decrement s.activeWorkers = s.activeWorkers - 1 := if_neg (Nat.ne_of_gt hpos)
    have hstep : Step c s .go _ := .threadSig hm hq
    have hmessages' := hmessages.step hstep
    refine ⟨by rw [hq]; simp, hpos, _, hstep.step_eq, ?_, ?_, hmessages'.all_terminated⟩
    · show decrement s.activeWorkers + 1 = _
      omega
    · simp

/-- The first of two workers is gone, and the loop looks after it. -/
def firstDeath : List (Action 2 Unit) :=
  List.replicate 3 (.worker ⟨0, Nat.two_pos⟩ ()) ++ [.async]

/-- One message is taken, and one worker is left. -/
theorem termination_accounting_first :
    ∃ s s' : State 2 Unit, (helper deadCore 2).exec (State.init 2 [] ()) firstDeath = some s ∧
      (helper deadCore 2).step s .go = some s' ∧ s.activeWorkers = 2 ∧ s'.activeWorkers = 1 := by
  have hrun : ((helper deadCore 2).exec (State.init 2 [] ()) firstDeath).any
      (fun s => decide (s.main = .threadSig ∧ s.activeWorkers = 2)) = true := by decide
  obtain ⟨s, hs, hp⟩ := (Option.any_eq_true _ _).mp hrun
  obtain ⟨hm, htwo⟩ := of_decide_eq_true hp
  obtain ⟨-, -, s', hstep, hone, -⟩ := (termination_accounting hs).2 hm
  exact ⟨s, s', hs, hstep, htwo, by omega⟩

end SquidHelper
