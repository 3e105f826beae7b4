/-
SquidHelper/Blocking.lean

The main thread is the only producer of `job_queue`, which holds 256 elements.  It is
stranded when it waits there for room and every worker has exited.

How many elements it wants to enqueue is known beforehand: the lines that arrive before
the end of the input and one `NULL` per worker.  Who takes them is decided by
`thread_init`:

* if it fails everywhere, nothing is ever taken, and the main thread is stranded in
  some run as soon as it has more than 256 elements to enqueue;
* otherwise the survivors take all lines and one `NULL` each.  The failed workers'
  `NULL`s stay, and they must be more than 256; and the survivors must all get to
  exit, although nobody reads `thread_signal_queue` any more, which holds 8.

`strandedFree_iff` puts both together.  One direction is two invariants, the other
builds the runs.  `abandonedFree_iff` is the same for workers that have left their loops,
whether they can exit or not.
-/
import SquidHelper.Deaths

namespace SquidHelper

open CString

variable {σ ω : Type*} {n : ℕ}

/-! ### What the main thread enqueues -/

/-- The workers whose `thread_init` succeeds. -/
def survivors (c : Core σ ω) (n : ℕ) : Finset (Fin n) := Finset.univ.filter fun w => Live c w

/-- The main thread waits in `queue_enqueue` on `job_queue`. -/
def MainBlocked (s : State n ω) : Prop :=
  s.jobQueue.Full ∧ ((∃ line lines more, s.main = .stdinRead (line :: lines) more) ∨
    ∃ left, s.main = .terminating (left + 1))

/-- And there is nobody left: every worker has exited.  One that still waits to enqueue its
message on `thread_signal_queue` does not count as gone. -/
def Stranded (s : State n ω) : Prop := MainBlocked s ∧ ∀ w, s.workers w = .exited

/-- When the main thread is safe. -/
def StrandedFree (c : Core σ ω) (n : ℕ) (reads : List StdinRead) : Prop :=
  if survivors c n = ∅ then (linesBeforeEof reads).length + n ≤ 256
  else n - (survivors c n).card ≤ 256 ∨ 8 < (survivors c n).card

/-- The main thread waits, and every worker is at `terminate` or past it, where none dequeues any
more; some may still be waiting to enqueue their message. -/
def Abandoned (s : State n ω) : Prop := MainBlocked s ∧ ∀ w, (s.workers w).terminated = true

/-- When the main thread is safe from that. -/
def AbandonedFree (c : Core σ ω) (n : ℕ) (reads : List StdinRead) : Prop :=
  if survivors c n = ∅ then (linesBeforeEof reads).length + n ≤ 256
  else n - (survivors c n).card ≤ 256

theorem Stranded.abandoned {s : State n ω} (h : Stranded s) : Abandoned s :=
  ⟨h.1, fun w => by rw [h.2 w]; rfl⟩

theorem sum_live (c : Core σ ω) (n : ℕ) :
    ∑ w : Fin n, (decide (Live c w)).toNat = (survivors c n).card := by
  rw [survivors, Finset.card_filter]
  apply Finset.sum_congr rfl
  intro w _
  by_cases hw : Live c w <;> simp [hw]

/-! ### The supply is limited -/

/-- The lines still to be enqueued in this callback. -/
def MainPc.todo : MainPc → ℕ
  | .stdinRead lines _ => lines.length
  | _ => 0

/-- The lines still to come. -/
def State.toRead (s : State n ω) : ℕ :=
  if s.stdinActive then (linesBeforeEof s.reads).length else 0

structure Supply (L : ℕ) (s : State n ω) : Prop where
  reading : ∀ lines more, s.main = .stdinRead lines more → s.stdinActive = true
  bound : s.jobQueue.items.length + s.main.todo + s.toRead ≤ L + s.main.nullsEnqueued n

namespace Supply

variable {c : Core σ ω} {L : ℕ} {s s' : State n ω}

theorem init (reads : List StdinRead) (world : ω) :
    Supply (linesBeforeEof reads).length (State.init n reads world) where
  reading := nofun
  bound := by simp [State.init, State.toRead, MainPc.todo, MainPc.nullsEnqueued]

/-- Steps that neither read nor enqueue. -/
theorem of_same (h : Supply L s) (hm : s'.main = s.main) (ha : s'.stdinActive = s.stdinActive)
    (hr : s'.reads = s.reads) (hq : s'.jobQueue.items.length ≤ s.jobQueue.items.length) :
    Supply L s' where
  reading := by rw [hm, ha]; exact h.reading
  bound := by
    have hbound := h.bound
    unfold State.toRead at hbound ⊢
    rw [hm, ha, hr]
    omega

/-- Steps of the event loop. -/
theorem of_loop (h : Supply L s) (hm : s.main.todo = 0 ∧ s.main.nullsEnqueued n = 0)
    (hm' : s'.main.todo = 0 ∧ s'.main.nullsEnqueued n = 0)
    (hreading : ∀ lines more, s'.main = .stdinRead lines more → s'.stdinActive = true)
    (hr : s'.toRead ≤ s.toRead) (hq : s'.jobQueue = s.jobQueue) : Supply L s' where
  reading := hreading
  bound := by
    have hbound := h.bound
    rw [hm.1, hm.2] at hbound
    rw [hm'.1, hm'.2, hq]
    omega

/-- One step. -/
theorem step (h : Supply L s) (ht : Terminators c s) {a : Action n σ} (hs : Step c s a s') :
    Supply L s' := by
  have hbound := h.bound
  cases hs with
  | readDone hm =>
      exact h.of_loop (by rw [hm]; exact ⟨rfl, rfl⟩) ⟨rfl, rfl⟩ (by simp)
        (Nat.le_refl _) rfl
  | readData hm hr =>
      have hactive := h.reading _ _ hm
      refine ⟨fun _ _ _ => hactive, ?_⟩
      -- the lines of this read move from `reads` to `todo`
      simp only [hm, hr, hactive, State.toRead, MainPc.todo, MainPc.nullsEnqueued, linesBeforeEof,
        List.length_append, List.length_nil, if_true] at hbound ⊢
      omega
  | readEof hm =>
      refine h.of_loop (by rw [hm]; exact ⟨rfl, rfl⟩) ⟨rfl, rfl⟩ (by simp) ?_ rfl
      exact Nat.zero_le _
  | @readNothing rs hm hr =>
      refine h.of_loop (by rw [hm]; exact ⟨rfl, rfl⟩) ⟨rfl, rfl⟩ (by simp) ?_ rfl
      have hsame : linesBeforeEof rs = linesBeforeEof s.reads := by
        unfold SquidHelper.readNothing at hr
        split at hr <;> cases hr <;> simp_all [linesBeforeEof]
      simp [State.toRead, hsame]
  | enqueueLine hm hq =>
      have hactive := h.reading _ _ hm
      refine ⟨fun _ _ _ => hactive, ?_⟩
      simp only [hm, hq, State.toRead, MainPc.todo, MainPc.nullsEnqueued, List.length_append,
        List.length_cons, List.length_nil] at hbound ⊢
      omega
  | threadSig hm =>
      exact h.of_loop (by rw [hm]; exact ⟨rfl, rfl⟩) ⟨rfl, rfl⟩ (by simp)
        (Nat.le_refl _) rfl
  | enqueueNull hm hq =>
      -- one terminator more in the queue, one less to come
      have hle := ht.bounded
      rw [hm] at hle
      refine ⟨by simp, ?_⟩
      simp only [hm, hq, State.toRead, MainPc.todo, MainPc.nullsEnqueued, MainPc.Bounded,
        List.length_append, List.length_cons, List.length_nil] at hbound hle ⊢
      omega
  | startJoin hm =>
      refine ⟨by simp, ?_⟩
      simpa only [hm, State.toRead, MainPc.todo, MainPc.nullsEnqueued, Nat.sub_zero] using hbound
  | join hm =>
      refine ⟨by simp, ?_⟩
      simpa only [hm, State.toRead, MainPc.todo, MainPc.nullsEnqueued] using hbound
  | stdin hm ha =>
      exact h.of_loop (by rw [hm]; exact ⟨rfl, rfl⟩) ⟨rfl, rfl⟩ (fun _ _ _ => ha) (Nat.le_refl _) rfl
  | signal => exact h.of_same rfl rfl rfl (Nat.le_refl _)
  | async hm =>
      exact h.of_loop (by rw [hm]; exact ⟨rfl, rfl⟩) ⟨rfl, rfl⟩ (by simp)
        (Nat.le_refl _) rfl
  | watcher => exact h.of_same rfl rfl rfl (Nat.le_refl _)
  | leave hm =>
      refine h.of_loop (by rw [hm]; exact ⟨rfl, rfl⟩) ⟨rfl, ?_⟩ (by simp)
        (Nat.le_refl _) rfl
      simp [MainPc.nullsEnqueued]
  | initThread => exact h.of_same rfl rfl rfl (Nat.le_refl _)
  | dequeueNull hw hq => exact h.of_same rfl rfl rfl (by simp [hq])
  | dequeueJob hw hq => exact h.of_same rfl rfl rfl (by simp [hq])
  | request => exact h.of_same rfl rfl rfl (Nat.le_refl _)
  | terminate => exact h.of_same rfl rfl rfl (Nat.le_refl _)
  | asyncSend => exact h.of_same rfl rfl rfl (Nat.le_refl _)
  | threadFree => exact h.of_same rfl rfl rfl (Nat.le_refl _)
  | coalesce => exact h.of_same rfl rfl rfl (Nat.le_refl _)
  | outside => exact h.of_same rfl rfl rfl (Nat.le_refl _)

/-- With no more than 256 elements to enqueue the main thread never waits. -/
theorem not_mainBlocked (h : Supply L s) (ht : Terminators c s) (hL : L + n ≤ 256) :
    ¬ MainBlocked s := by
  rintro ⟨hfull, hm⟩
  have hbound := h.bound
  unfold Fifo.Full at hfull
  rcases hm with ⟨line, lines, more, hm⟩ | ⟨left, hm⟩
  · simp only [hm, MainPc.todo, MainPc.nullsEnqueued, List.length_cons] at hbound
    omega
  · have hle := ht.bounded
    simp only [hm, MainPc.todo, MainPc.nullsEnqueued, MainPc.Bounded] at hbound hle
    omega

end Supply

/-! ### The survivors' messages stay -/

/-- A survivor leaves its loop, and a message, only behind the event loop, where nobody
takes messages any more. -/
def MessagesStay (c : Core σ ω) (s : State n ω) : Prop :=
  ∑ w, (decide (Live c w) && (s.workers w).queued).toNat ≤ s.threadSignalQueue.items.length

namespace MessagesStay

variable {c : Core σ ω} {s s' : State n ω}

theorem init (c : Core σ ω) (reads : List StdinRead) (world : ω) :
    MessagesStay c (State.init n reads world) := by
  simp [MessagesStay, State.init, WorkerPc.queued]

theorem of_main (h : MessagesStay c s) (hw : s'.workers = s.workers)
    (hq : s'.threadSignalQueue = s.threadSignalQueue) : MessagesStay c s' := by
  unfold MessagesStay
  rw [hw, hq]
  exact h

theorem of_worker (h : MessagesStay c s) {w : Fin n} {pc : WorkerPc}
    (hw : s'.workers = Function.update s.workers w pc)
    (hle : (s.workers w).queued.toNat ≤ pc.queued.toNat)
    (hq : s'.threadSignalQueue.items.length + (s.workers w).queued.toNat
      = s.threadSignalQueue.items.length + pc.queued.toNat) : MessagesStay c s' := by
  have hsum := sum_update_add (fun w (pc : WorkerPc) => (decide (Live c w) && pc.queued).toNat)
    s.workers w pc
  unfold MessagesStay at h ⊢
  rw [hw]
  by_cases hlive : Live c w
  · simp only [hlive, decide_true, Bool.true_and] at hsum
    omega
  · simp only [hlive, decide_false, Bool.false_and, Bool.toNat_false] at hsum
    omega

/-- One step. -/
theorem step (h : MessagesStay c s) (ht : Terminators c s) {a : Action n σ}
    (hs : Step c s a s') : MessagesStay c s' := by
  cases hs with
  | threadSig hm =>
      -- no survivor has left its loop yet
      have hzero : ∑ w, (decide (Live c w) && (s.workers w).queued).toNat = 0 := by
        apply Finset.sum_eq_zero
        intro w _
        by_cases hlive : Live c w
        · have hterm := ht.not_terminated (by rw [hm]; rfl) hlive
          have hqueued : (s.workers w).queued = false :=
            Bool.eq_false_iff.mpr fun hq => by simp [WorkerPc.terminated_of_queued hq] at hterm
          simp [hqueued]
        · simp [hlive]
      exact hzero.trans_le (Nat.zero_le _)
  | initThread hw =>
      refine h.of_worker rfl (by rw [hw]; exact Nat.zero_le _) ?_
      rw [hw]
      split <;> rfl
  | dequeueNull hw => exact h.of_worker rfl (by rw [hw]; exact Nat.zero_le _) (by rw [hw]; rfl)
  | dequeueJob hw => exact h.of_worker rfl (by rw [hw]; exact Nat.zero_le _) (by rw [hw]; rfl)
  | request hw =>
      refine h.of_worker rfl (by rw [hw]; exact Nat.zero_le _) ?_
      rw [hw, WorkerPc.queued_afterStep]
      rfl
  | terminate hw hq =>
      refine h.of_worker rfl (by rw [hw]; exact Nat.zero_le _) ?_
      rw [hw]
      simp [hq, WorkerPc.queued]
  | asyncSend hw => exact h.of_worker rfl (by rw [hw]; exact Nat.le_refl _) (by rw [hw]; rfl)
  | threadFree hw => exact h.of_worker rfl (by rw [hw]; exact Nat.le_refl _) (by rw [hw]; rfl)
  | coalesce hw => exact h.of_worker rfl (by rw [hw]; exact Nat.le_refl _) (by rw [hw]; rfl)
  | _ => exact h.of_main rfl rfl

/-- All survivors can exit only when their messages fit. -/
theorem survivors_le (h : MessagesStay c s) (hexited : ∀ w, s.workers w = .exited) :
    (survivors c n).card ≤ 8 := by
  unfold MessagesStay at h
  simp only [hexited, WorkerPc.queued, Bool.and_true, sum_live] at h
  exact h.trans s.threadSignalQueue.bound

end MessagesStay

/-- When the main thread waits although someone survived, and all workers have left their loops,
the queue is full of `NULL`s of workers that failed. -/
theorem Terminators.failed_of_abandoned {c : Core σ ω} {s : State n ω} (h : Terminators c s)
    {w : Fin n} (hw : Live c w) (hs : Abandoned s) : 256 < n - (survivors c n).card := by
  obtain ⟨⟨hfull, hm⟩, hterm⟩ := hs
  -- the lines are no longer being read, since a survivor has its terminator
  have hlate : s.main.nullsEnqueued n ≠ 0 := by
    intro hzero
    have hfalse := h.not_terminated hzero hw
    rw [hterm w] at hfalse
    cases hfalse
  obtain ⟨left, hm⟩ : ∃ left, s.main = .terminating (left + 1) := by
    rcases hm with ⟨line, lines, more, hm⟩ | hm
    · rw [hm] at hlate
      exact absurd rfl hlate
    · exact hm
  -- a survivor takes its terminator only behind all lines
  have hnull : s.jobQueue.items.count none = 256 := by
    have hall : ∀ x ∈ s.jobQueue.items, none = x := by
      intro x hx
      cases x with
      | none => rfl
      | some job => exact absurd hx (h.drained w hw (hterm w) job)
    rw [List.count_eq_length.mpr hall]
    exact hfull
  have hcount := h.count
  have hbound := h.bounded
  -- and all survivors took theirs
  have htaken : ∑ w, (nullTaken c w (s.workers w)).toNat = (survivors c n).card := by
    rw [← sum_live]
    apply Finset.sum_congr rfl
    intro w _
    rw [nullTaken, hterm w, Bool.and_true]
  rw [hm] at hcount hbound
  simp only [MainPc.nullsEnqueued, MainPc.Bounded] at hcount hbound
  omega

/-- The invariants at work. -/
theorem StrandedFree.not_stranded {c : Core σ ω} {reads : List StdinRead}
    (h : StrandedFree c n reads) {world : ω} {s : State n ω}
    (hr : (helper c n).Reaches (State.init n reads world) s) : ¬ Stranded s := by
  have hinv : Terminators c s ∧ Supply (linesBeforeEof reads).length s ∧ MessagesStay c s :=
    hr.invariant (I := fun s => Terminators c s ∧ Supply (linesBeforeEof reads).length s ∧
        MessagesStay c s)
      (fun _ _ _ ⟨ht, hsup, hmsg⟩ hstep =>
        ⟨ht.step (step_step hstep), hsup.step ht (step_step hstep), hmsg.step ht (step_step hstep)⟩)
      ⟨.init c reads world, .init reads world, .init c reads world⟩
  obtain ⟨ht, hsup, hmsg⟩ := hinv
  unfold StrandedFree at h
  split at h
  case isTrue => exact fun hs => hsup.not_mainBlocked ht h hs.1
  case isFalse hne =>
    intro hs
    obtain ⟨w, hw⟩ := Finset.nonempty_iff_ne_empty.mpr hne
    have hlive : Live c w := (Finset.mem_filter.mp hw).2
    have hfailed := ht.failed_of_abandoned hlive hs.abandoned
    have hle := hmsg.survivors_le hs.2
    omega

theorem AbandonedFree.not_abandoned {c : Core σ ω} {reads : List StdinRead}
    (h : AbandonedFree c n reads) {world : ω} {s : State n ω}
    (hr : (helper c n).Reaches (State.init n reads world) s) : ¬ Abandoned s := by
  have hinv : Terminators c s ∧ Supply (linesBeforeEof reads).length s :=
    hr.invariant (I := fun s => Terminators c s ∧ Supply (linesBeforeEof reads).length s)
      (fun _ _ _ ⟨ht, hsup⟩ hstep => ⟨ht.step (step_step hstep), hsup.step ht (step_step hstep)⟩)
      ⟨.init c reads world, .init reads world⟩
  obtain ⟨ht, hsup⟩ := hinv
  unfold AbandonedFree at h
  split at h
  case isTrue => exact fun hs => hsup.not_mainBlocked ht h hs.1
  case isFalse hne =>
    intro hs
    obtain ⟨w, hw⟩ := Finset.nonempty_iff_ne_empty.mpr hne
    have hfailed := ht.failed_of_abandoned (Finset.mem_filter.mp hw).2 hs
    omega

/-! ### Runs that strand the main thread -/

section Runs

variable {c : Core σ ω}

/-- What the main thread does on its own leaves the workers where they are. -/
structure SameWorkers (s s' : State n ω) : Prop where
  workers : s'.workers = s.workers
  signals : s'.threadSignalQueue = s.threadSignalQueue

theorem SameWorkers.refl (s : State n ω) : SameWorkers s s := ⟨rfl, rfl⟩

theorem SameWorkers.trans {s₁ s₂ s₃ : State n ω} (h₁ : SameWorkers s₁ s₂)
    (h₂ : SameWorkers s₂ s₃) : SameWorkers s₁ s₃ :=
  ⟨h₂.workers.trans h₁.workers, h₂.signals.trans h₁.signals⟩

/-- The lines of one read are enqueued until there is no room. -/
theorem reaches_enqueue {lines : List (List Byte)} {more : Bool} {s : State n ω}
    (hm : s.main = .stdinRead lines more) :
    ∃ s', (helper c n).Reaches s s' ∧ SameWorkers s s' ∧ (MainBlocked s' ∨
      s'.main = .stdinRead [] more ∧ s'.reads = s.reads ∧ s'.stdinActive = s.stdinActive ∧
        s'.jobQueue.items.length = s.jobQueue.items.length + lines.length) := by
  induction lines generalizing s with
  | nil => exact ⟨s, .refl s, .refl s, .inr ⟨hm, rfl, rfl, rfl⟩⟩
  | cons line lines ih =>
      by_cases hfull : s.jobQueue.Full
      -- `queue_enqueue` would wait here
      · exact ⟨s, .refl s, .refl s, .inl ⟨hfull, .inl ⟨line, lines, more, hm⟩⟩⟩
      · obtain ⟨q, -, hq⟩ := Fifo.exists_enqueue (some ⟨s.nextId, line⟩)
          (Nat.lt_of_le_of_ne s.jobQueue.bound hfull)
        have hstep := (Step.enqueueLine (c := c) hm hq).reaches
        obtain ⟨s', hr, hsame, hend⟩ := ih
          (s := { s with main := .stdinRead lines more, jobQueue := q, nextId := s.nextId + 1,
                         log := s.log ++ [.enqueued ⟨s.nextId, line⟩] }) rfl
        refine ⟨s', hstep.trans hr, ⟨hsame.workers, hsame.signals⟩, hend.imp_right ?_⟩
        rintro ⟨hm', hreads, hactive, hlen⟩
        refine ⟨hm', hreads, hactive, ?_⟩
        simp only [hlen, hq, List.length_append, List.length_cons, List.length_nil]
        omega

/-- All reads are worked off until there is no room. -/
theorem reaches_read {s : State n ω} (hm : s.main = .evLoop ∨ s.main = .stdinRead [] true)
    (ha : s.stdinActive = true) :
    ∃ s', (helper c n).Reaches s s' ∧ SameWorkers s s' ∧ (MainBlocked s' ∨
      s'.main = .evLoop ∧ s'.jobQueue.items.length
        = s.jobQueue.items.length + (linesBeforeEof s.reads).length) := by
  induction hreads : s.reads generalizing s with
  | nil =>
      rcases hm with hm | hm
      · exact ⟨s, .refl s, .refl s, .inr ⟨hm, rfl⟩⟩
      · have hstep : Step c s .go { s with main := .evLoop, reads := [] } :=
          .readNothing hm (by rw [hreads]; rfl)
        exact ⟨_, hstep.reaches, ⟨rfl, rfl⟩, .inr ⟨rfl, rfl⟩⟩
  | cons r rs ih =>
      -- the loop invokes the callback, or it is still running
      have hcb : ∃ s₁, (helper c n).Reaches s s₁ ∧ SameWorkers s s₁ ∧
          s₁.main = .stdinRead [] true ∧ s₁.stdinActive = true ∧ s₁.reads = r :: rs ∧
          s₁.jobQueue = s.jobQueue := by
        rcases hm with hm | hm
        · have hstep := (Step.stdin (c := c) hm ha (by simp [hreads])).reaches
          exact ⟨_, hstep, ⟨rfl, rfl⟩, rfl, ha, hreads, rfl⟩
        · exact ⟨s, .refl s, .refl s, hm, ha, hreads, rfl⟩
      obtain ⟨s₁, hr₁, hsame₁, hm₁, ha₁, hreads₁, hq₁⟩ := hcb
      cases r with
      | eof =>
          have hstep := (Step.readEof (c := c) hm₁ hreads₁).reaches
          exact ⟨_, hr₁.trans hstep, hsame₁.trans ⟨rfl, rfl⟩, .inr ⟨rfl, by rw [← hq₁]; rfl⟩⟩
      | error =>
          have hstep : Step c s₁ .go { s₁ with main := .evLoop, reads := rs } :=
            .readNothing hm₁ (by rw [hreads₁]; rfl)
          obtain ⟨s', hr, hsame, hend⟩ := ih (s := { s₁ with main := .evLoop, reads := rs })
            (.inl rfl) ha₁ rfl
          refine ⟨s', (hr₁.trans hstep.reaches).trans hr,
            hsame₁.trans ⟨hsame.workers, hsame.signals⟩, hend.imp_right ?_⟩
          rintro ⟨hm', hlen⟩
          exact ⟨hm', by rw [hlen, ← hq₁]; rfl⟩
      | data lines more =>
          have hstep := (Step.readData (c := c) hm₁ hreads₁).reaches
          obtain ⟨s₂, hr₂, hsame₂, hend₂⟩ := reaches_enqueue (c := c)
            (s := { s₁ with main := .stdinRead lines more, reads := rs }) rfl
          have hsame₂' : SameWorkers s s₂ := hsame₁.trans ⟨hsame₂.workers, hsame₂.signals⟩
          rcases hend₂ with hblocked | ⟨hm₂, hreads₂, ha₂, hlen₂⟩
          · exact ⟨s₂, (hr₁.trans hstep).trans hr₂, hsame₂', .inl hblocked⟩
          -- the callback reads again, or returns to the loop
          have hnext : ∃ s₃, (helper c n).Reaches s₂ s₃ ∧ SameWorkers s₂ s₃ ∧
              (s₃.main = .evLoop ∨ s₃.main = .stdinRead [] true) ∧ s₃.stdinActive = true ∧
              s₃.reads = rs ∧ s₃.jobQueue = s₂.jobQueue := by
            cases more with
            | true => exact ⟨s₂, .refl s₂, .refl s₂, .inr hm₂, ha₂.trans ha₁, hreads₂, rfl⟩
            | false =>
                exact ⟨_, (Step.readDone (c := c) hm₂).reaches, ⟨rfl, rfl⟩, .inl rfl,
                  ha₂.trans ha₁, hreads₂, rfl⟩
          obtain ⟨s₃, hr₃, hsame₃, hm₃, ha₃, hreads₃, hq₃⟩ := hnext
          obtain ⟨s', hr, hsame, hend⟩ := ih hm₃ ha₃ hreads₃
          refine ⟨s', (((hr₁.trans hstep).trans hr₂).trans hr₃).trans hr,
            (hsame₂'.trans hsame₃).trans hsame, hend.imp_right ?_⟩
          rintro ⟨hm', hlen⟩
          refine ⟨hm', ?_⟩
          simp only [hlen, hq₃, hlen₂, hq₁, linesBeforeEof, List.length_append]
          omega

/-- Behind the event loop `k` of the terminators are enqueued, if they fit. -/
theorem reaches_terminating (left k : ℕ) {s : State n ω} (hm : s.main = .terminating (left + k))
    (hroom : s.jobQueue.items.length + k ≤ 256) :
    ∃ s', (helper c n).Reaches s s' ∧ SameWorkers s s' ∧ s'.main = .terminating left ∧
      s'.jobQueue.items.length = s.jobQueue.items.length + k := by
  induction k generalizing s with
  | zero => exact ⟨s, .refl s, .refl s, hm, rfl⟩
  | succ k ih =>
      obtain ⟨q, -, hq⟩ := Fifo.exists_enqueue (none : Option Job)
        (q := s.jobQueue) (by omega)
      have hstep := (Step.enqueueNull (c := c) hm hq).reaches
      have hlen : q.items.length = s.jobQueue.items.length + 1 := by simp [hq]
      obtain ⟨s', hr, hsame, hm', hlen'⟩ := ih
        (s := { s with main := .terminating (left + k), jobQueue := q }) rfl (by
          simp only [hlen]; omega)
      refine ⟨s', hstep.trans hr, ⟨hsame.workers, hsame.signals⟩, hm', ?_⟩
      simp only [hlen', hlen]
      omega

/-- Nobody is left to take the next 256 terminators. -/
theorem reaches_blocked {left : ℕ} {s : State n ω} (hm : s.main = .terminating (left + 1 + 256))
    (hq : s.jobQueue.items = []) :
    ∃ s', (helper c n).Reaches s s' ∧ s'.workers = s.workers ∧ MainBlocked s' := by
  obtain ⟨s', hr, hsame, hm', hlen⟩ := reaches_terminating (c := c) (left + 1) 256 hm
    (by rw [hq]; exact Nat.le_refl _)
  refine ⟨s', hr, hsame.workers, ?_, .inr ⟨left, hm'⟩⟩
  unfold Fifo.Full
  rw [hlen, hq]
  rfl

/-- `SIGTERM` ends the event loop. -/
theorem reaches_shutdown {s : State n ω} (hm : s.main = .evLoop) :
    (helper c n).Reaches s { s with main := .terminating n, stopped := true } :=
  (Step.signal (c := c) hm).reaches.trans (Step.reaches (.leave hm rfl))

variable [Inhabited σ]

/-- A worker at `terminate` leaves its message and exits, if there is room. -/
theorem reaches_exit {s : State n ω} {w : Fin n} (hw : s.workers w = .terminate)
    (hroom : s.threadSignalQueue.items.length < 8) :
    ∃ q : Fifo 8 (Fin n), q.items = s.threadSignalQueue.items ++ [w] ∧
      (helper c n).Reaches s { s with workers := Function.update s.workers w .exited,
                                      threadSignalQueue := q,
                                      asyncPending := s.asyncPending + 1 } := by
  obtain ⟨q, -, hq⟩ := Fifo.exists_enqueue w hroom
  have h₁ := (Step.terminate (c := c) (o := default) hw hq).reaches
  have h₂ := h₁.trans (Step.asyncSend (o := default) (Function.update_self w _ _)).reaches
  have h₃ := h₂.trans (Step.threadFree (o := default) (Function.update_self w _ _)).reaches
  simp only [Function.update_idem] at h₃
  exact ⟨q, hq, h₃⟩

/-- A worker whose `thread_init` fails. -/
theorem reaches_die {s : State n ω} {w : Fin n} (hw : s.workers w = .threadInit)
    (hdead : ¬ Live c w) (hroom : s.threadSignalQueue.items.length < 8) :
    ∃ q : Fifo 8 (Fin n), q.items = s.threadSignalQueue.items ++ [w] ∧
      (helper c n).Reaches s { s with workers := Function.update s.workers w .exited,
                                      threadSignalQueue := q,
                                      asyncPending := s.asyncPending + 1 } := by
  have hfail : ¬ c.threadInit (w + 1) = true := hdead
  have hinit := (Step.initThread (c := c) (o := default) hw).reaches
  rw [if_neg hfail] at hinit
  obtain ⟨q, hq, hexit⟩ := reaches_exit (c := c)
    (s := { s with workers := Function.update s.workers w .terminate })
    (Function.update_self w _ _) hroom
  have h := hinit.trans hexit
  simp only [Function.update_idem] at h
  exact ⟨q, hq, h⟩

/-- Failed workers exit one after the other, and the event loop takes each message. -/
theorem reaches_bury {ws : List (Fin n)} (hws : ws.Nodup) {s : State n ω}
    (hm : s.main = .evLoop) (hq : s.threadSignalQueue.items = []) (hp : s.asyncPending = 0)
    (hw : ∀ w ∈ ws, s.workers w = .threadInit ∧ ¬ Live c w) :
    ∃ s', (helper c n).Reaches s s' ∧ s'.main = .evLoop ∧ s'.threadSignalQueue.items = [] ∧
      s'.asyncPending = 0 ∧ (∀ w, s'.workers w = if w ∈ ws then .exited else s.workers w) ∧
      s'.jobQueue = s.jobQueue ∧ s'.reads = s.reads ∧ s'.stdinActive = s.stdinActive := by
  induction ws generalizing s with
  | nil => exact ⟨s, .refl s, hm, hq, hp, by simp, rfl, rfl, rfl⟩
  | cons w ws ih =>
      obtain ⟨hmem, hws⟩ := List.nodup_cons.mp hws
      obtain ⟨hinit, hdead⟩ := hw w List.mem_cons_self
      obtain ⟨q, hq₁, hdie⟩ := reaches_die (c := c) hinit hdead (by simp [hq])
      rw [hq, List.nil_append] at hq₁
      have hasync := hdie.trans (Step.reaches (.async hm (Nat.succ_pos _)))
      have hsig := hasync.trans (Step.reaches (.threadSig (q := .empty) rfl (by rw [hq₁]; rfl)))
      -- worker `w` is buried, and the queue of messages is empty again
      have hone : ∃ s₁, (helper c n).Reaches s s₁ ∧ s₁.main = .evLoop ∧
          s₁.threadSignalQueue.items = [] ∧ s₁.asyncPending = 0 ∧
          s₁.workers = Function.update s.workers w .exited ∧ s₁.jobQueue = s.jobQueue ∧
          s₁.reads = s.reads ∧ s₁.stdinActive = s.stdinActive :=
        ⟨_, hsig, rfl, rfl, hp, rfl, rfl, rfl, rfl⟩
      obtain ⟨s₁, hr₁, hm₁, hq₁, hp₁, hw₁, hjobs₁, hreads₁, hactive₁⟩ := hone
      have hrest : ∀ w' ∈ ws, s₁.workers w' = .threadInit ∧ ¬ Live c w' := by
        intro w' hw'
        have hne : w' ≠ w := fun heq => hmem (heq ▸ hw')
        rw [hw₁, Function.update_of_ne hne]
        exact hw w' (List.mem_cons_of_mem _ hw')
      obtain ⟨s', hr, hm', hq', hp', hw', hjobs, hreads, hactive⟩ := ih hws hm₁ hq₁ hp₁ hrest
      refine ⟨s', hr₁.trans hr, hm', hq', hp', fun w' => ?_, hjobs.trans hjobs₁,
        hreads.trans hreads₁, hactive.trans hactive₁⟩
      rw [hw' w', hw₁]
      rcases eq_or_ne w' w with rfl | hne
      · simp
      · simp [hne]

/-- Nobody survives: the last worker dies once the main thread has enqueued all the
lines there is room for. -/
theorem exists_stranded_of_dead {reads : List StdinRead} {world : ω} (hn : 0 < n)
    (hdead : survivors c n = ∅) (hL : 256 < (linesBeforeEof reads).length + n) :
    ∃ s, (helper c n).Reaches (State.init n reads world) s ∧ Stranded s := by
  have hfail : ∀ w : Fin n, ¬ Live c w := by
    intro w hw
    have hmem : w ∈ survivors c n := Finset.mem_filter.mpr ⟨Finset.mem_univ w, hw⟩
    rw [hdead] at hmem
    exact Finset.notMem_empty w hmem
  obtain ⟨s₁, hr₁, hm₁, hsig₁, -, hw₁, hq₁, hreads₁, ha₁⟩ :=
    reaches_bury (c := c) (Finset.nodup_toList (Finset.univ.erase (⟨0, hn⟩ : Fin n)))
      (s := State.init n reads world) rfl rfl rfl fun w _ => ⟨rfl, hfail w⟩
  -- all but one are dead before the first line is read
  obtain ⟨s₂, hr₂, hsame₂, hend₂⟩ := reaches_read (c := c) (.inl hm₁) (ha₁.trans rfl)
  have hlast : s₂.workers ⟨0, hn⟩ = .threadInit := by
    rw [hsame₂.workers, hw₁]
    simp [State.init]
  obtain ⟨q, -, hr₃⟩ := reaches_die (c := c) hlast (hfail _) (by
    rw [hsame₂.signals, hsig₁]
    exact Nat.zero_lt_succ _)
  have hexited : ∀ w, Function.update s₂.workers ⟨0, hn⟩ .exited w = .exited := by
    intro w
    rcases eq_or_ne w ⟨0, hn⟩ with rfl | hne
    · rw [Function.update_self]
    · rw [Function.update_of_ne hne, hsame₂.workers, hw₁]
      simp [hne]
  have hr := (hr₁.trans hr₂).trans hr₃
  rcases hend₂ with hblocked | ⟨hm₂, hlen₂⟩
  · exact ⟨_, hr, hblocked, hexited⟩
  -- all lines fit, and then the terminators do not
  rw [hq₁, hreads₁] at hlen₂
  have hlen : s₂.jobQueue.items.length = (linesBeforeEof reads).length := by
    rw [hlen₂]
    exact Nat.zero_add _
  have hbound := s₂.jobQueue.bound
  obtain ⟨left, hleft⟩ : ∃ left, n = left + 1 + (256 - (linesBeforeEof reads).length) :=
    ⟨n - (256 - (linesBeforeEof reads).length) - 1, by omega⟩
  have hr₄ := hr.trans (reaches_shutdown (c := c) (s := { s₂ with
    workers := Function.update s₂.workers ⟨0, hn⟩ .exited, threadSignalQueue := q,
    asyncPending := s₂.asyncPending + 1 }) hm₂)
  obtain ⟨s₅, hr₅, hsame₅, hm₅, hlen₅⟩ := reaches_terminating (c := c)
    (left + 1) (256 - (linesBeforeEof reads).length)
    (s := { s₂ with main := .terminating n, stopped := true,
                    workers := Function.update s₂.workers ⟨0, hn⟩ .exited, threadSignalQueue := q,
                    asyncPending := s₂.asyncPending + 1 })
    (congrArg MainPc.terminating hleft) (by simp only [hlen]; omega)
  refine ⟨s₅, hr₄.trans hr₅, ⟨?_, .inr ⟨left, hm₅⟩⟩, fun w => ?_⟩
  · unfold Fifo.Full
    simp only [hlen₅, hlen]
    omega
  · rw [hsame₅.workers]
    exact hexited w

/-- A survivor takes a terminator. -/
theorem reaches_takeNull (left : ℕ) {s : State n ω} {w : Fin n}
    (hm : s.main = .terminating (left + 1)) (hq : s.jobQueue.items = [])
    (hinit : s.workers w = .threadInit) (hlive : Live c w) :
    (helper c n).Reaches s { s with main := .terminating left, jobQueue := .empty,
                                    workers := Function.update s.workers w .terminate } := by
  have hlive' : c.threadInit (w + 1) = true := hlive
  obtain ⟨q, -, hq₁⟩ := Fifo.exists_enqueue (none : Option Job) (q := s.jobQueue)
    (by rw [hq]; exact Nat.zero_lt_succ _)
  rw [hq, List.nil_append] at hq₁
  have h₁ := (Step.enqueueNull (c := c) hm (by rw [hq₁, hq]; rfl)).reaches
  have h₂ := h₁.trans (Step.reaches (.initThread (w := w) (o := default) hinit))
  rw [if_pos hlive'] at h₂
  have h₃ := h₂.trans (Step.reaches (.dequeueNull (w := w) (o := default) (q := .empty)
    (Function.update_self w _ _) hq₁))
  simp only [Function.update_idem] at h₃
  exact h₃

/-- Survivors take one terminator each and exit. -/
theorem reaches_retire (left : ℕ) {ws : List (Fin n)} (hws : ws.Nodup) {s : State n ω}
    (hm : s.main = .terminating (left + ws.length)) (hq : s.jobQueue.items = [])
    (hroom : s.threadSignalQueue.items.length + ws.length ≤ 8)
    (hw : ∀ w ∈ ws, s.workers w = .threadInit ∧ Live c w) :
    ∃ s', (helper c n).Reaches s s' ∧ s'.main = .terminating left ∧ s'.jobQueue.items = [] ∧
      ∀ w, s'.workers w = if w ∈ ws then .exited else s.workers w := by
  induction ws generalizing s with
  | nil => exact ⟨s, .refl s, hm, hq, by simp⟩
  | cons w ws ih =>
      obtain ⟨hmem, hws⟩ := List.nodup_cons.mp hws
      obtain ⟨hinit, hlive⟩ := hw w List.mem_cons_self
      rw [List.length_cons] at hroom
      have h₃ := reaches_takeNull (left + ws.length) hm hq hinit hlive
      -- its own `NULL` in hand, the worker leaves a message and exits
      obtain ⟨sig, hsig, h₄⟩ := reaches_exit (c := c) (w := w)
        (s := { s with main := .terminating (left + ws.length), jobQueue := .empty,
                       workers := Function.update s.workers w .terminate })
        (Function.update_self w _ _) (by simp only; omega)
      simp only [Function.update_idem] at h₄
      obtain ⟨s', hr, hm', hq', hw'⟩ := ih hws
        (s := { s with main := .terminating (left + ws.length), jobQueue := .empty,
                       workers := Function.update s.workers w .exited,
                       threadSignalQueue := sig, asyncPending := s.asyncPending + 1 })
        rfl rfl (by simp only [hsig, List.length_append, List.length_singleton]; omega)
        fun w' hw' => by
          have hne : w' ≠ w := fun heq => hmem (heq ▸ hw')
          simp only [Function.update_of_ne hne]
          exact hw w' (List.mem_cons_of_mem _ hw')
      refine ⟨s', (h₃.trans h₄).trans hr, hm', hq', ?_⟩
      intro w'
      rw [hw' w']
      rcases eq_or_ne w' w with rfl | hne
      · simp
      · simp [hne]

/-- Survivors take one terminator each and stay at `terminate`. -/
theorem reaches_leaveLoop (left : ℕ) {ws : List (Fin n)} (hws : ws.Nodup) {s : State n ω}
    (hm : s.main = .terminating (left + ws.length)) (hq : s.jobQueue.items = [])
    (hw : ∀ w ∈ ws, s.workers w = .threadInit ∧ Live c w) :
    ∃ s', (helper c n).Reaches s s' ∧ s'.main = .terminating left ∧ s'.jobQueue.items = [] ∧
      ∀ w, s'.workers w = if w ∈ ws then .terminate else s.workers w := by
  induction ws generalizing s with
  | nil => exact ⟨s, .refl s, hm, hq, by simp⟩
  | cons w ws ih =>
      obtain ⟨hmem, hws⟩ := List.nodup_cons.mp hws
      obtain ⟨hinit, hlive⟩ := hw w List.mem_cons_self
      have htake := reaches_takeNull (left + ws.length) hm hq hinit hlive
      obtain ⟨s', hr, hm', hq', hw'⟩ := ih hws
        (s := { s with main := .terminating (left + ws.length), jobQueue := .empty,
                       workers := Function.update s.workers w .terminate })
        rfl rfl fun w' hw' => by
          have hne : w' ≠ w := fun heq => hmem (heq ▸ hw')
          simp only [Function.update_of_ne hne]
          exact hw w' (List.mem_cons_of_mem _ hw')
      refine ⟨s', htake.trans hr, hm', hq', ?_⟩
      intro w'
      rw [hw' w']
      rcases eq_or_ne w' w with rfl | hne
      · simp
      · simp [hne]

/-- The failed workers are gone, a signal has ended the event loop, and the survivors have yet to
begin. -/
theorem exists_buried (c : Core σ ω) (reads : List StdinRead) (world : ω) :
    ∃ s, (helper c n).Reaches (State.init n reads world) s ∧ s.main = .terminating n ∧
      s.jobQueue.items = [] ∧ s.threadSignalQueue.items = [] ∧
      ∀ w, s.workers w = if w ∈ survivors c n then .threadInit else .exited := by
  have hlive : ∀ w, w ∈ survivors c n ↔ Live c w := fun w => by simp [survivors]
  obtain ⟨s, hr, hm, hsig, -, hw, hq, -, -⟩ :=
    reaches_bury (c := c) (Finset.nodup_toList (survivors c n)ᶜ)
      (s := State.init n reads world) rfl rfl rfl fun w hw => ⟨rfl, by
        rw [Finset.mem_toList, Finset.mem_compl, hlive] at hw
        exact hw⟩
  refine ⟨_, hr.trans (reaches_shutdown hm), rfl, ?_, hsig, fun w => ?_⟩
  · rw [← (congrArg Fifo.items hq).symm]
    rfl
  · by_cases hmem : w ∈ survivors c n
    · simp [hw, hmem, State.init]
    · simp [hw, hmem]

/-- Few survive and many fail: the survivors exit, and the terminators of the others
fill the queue. -/
theorem exists_stranded_of_survivors {reads : List StdinRead} {world : ω}
    (hfew : (survivors c n).card ≤ 8) (hmany : 256 < n - (survivors c n).card) :
    ∃ s, (helper c n).Reaches (State.init n reads world) s ∧ Stranded s := by
  obtain ⟨s₁, hr₁, hm₁, hq₁, hsig₁, hw₁⟩ := exists_buried (n := n) c reads world
  obtain ⟨left, hleft⟩ : ∃ left, n = left + 1 + 256 + (survivors c n).card :=
    ⟨n - (survivors c n).card - 256 - 1, by omega⟩
  -- one terminator for each survivor
  obtain ⟨s₂, hr₂, hm₂, hq₂, hw₂⟩ := reaches_retire (c := c) (left + 1 + 256)
    (Finset.nodup_toList (survivors c n)) (s := s₁)
    (by rw [hm₁, Finset.length_toList]; exact congrArg MainPc.terminating hleft) hq₁
    (by simpa [hsig₁] using hfew)
    fun w hw => by
      rw [Finset.mem_toList] at hw
      exact ⟨by rw [hw₁, if_pos hw], (Finset.mem_filter.mp hw).2⟩
  obtain ⟨s₃, hr₃, hw₃, hblocked⟩ := reaches_blocked (c := c) hm₂ hq₂
  refine ⟨s₃, (hr₁.trans hr₂).trans hr₃, hblocked, fun w => ?_⟩
  rw [hw₃, hw₂, hw₁]
  by_cases hw : w ∈ survivors c n <;> simp [hw]

/-- However many survive, they can all get as far as `terminate`. -/
theorem exists_abandoned_of_survivors {reads : List StdinRead} {world : ω}
    (hmany : 256 < n - (survivors c n).card) :
    ∃ s, (helper c n).Reaches (State.init n reads world) s ∧ Abandoned s := by
  obtain ⟨s₁, hr₁, hm₁, hq₁, -, hw₁⟩ := exists_buried (n := n) c reads world
  obtain ⟨left, hleft⟩ : ∃ left, n = left + 1 + 256 + (survivors c n).card :=
    ⟨n - (survivors c n).card - 256 - 1, by omega⟩
  obtain ⟨s₂, hr₂, hm₂, hq₂, hw₂⟩ := reaches_leaveLoop (c := c) (left + 1 + 256)
    (Finset.nodup_toList (survivors c n)) (s := s₁)
    (by rw [hm₁, Finset.length_toList]; exact congrArg MainPc.terminating hleft) hq₁
    fun w hw => by
      rw [Finset.mem_toList] at hw
      exact ⟨by rw [hw₁, if_pos hw], (Finset.mem_filter.mp hw).2⟩
  obtain ⟨s₃, hr₃, hw₃, hblocked⟩ := reaches_blocked (c := c) hm₂ hq₂
  refine ⟨s₃, (hr₁.trans hr₂).trans hr₃, hblocked, fun w => ?_⟩
  rw [hw₃, hw₂, hw₁]
  by_cases hw : w ∈ survivors c n <;> simp [hw, WorkerPc.terminated]

end Runs

/-- **The main thread is never stranded if and only if `StrandedFree` holds.** -/
theorem strandedFree_iff [Inhabited σ] {c : Core σ ω} (hn : 0 < n) (reads : List StdinRead)
    (world : ω) :
    (∀ s, (helper c n).Reaches (State.init n reads world) s → ¬ Stranded s) ↔
      StrandedFree c n reads := by
  refine ⟨fun hfree => ?_, fun h s hr => h.not_stranded hr⟩
  by_contra hnot
  have hex : ∃ s, (helper c n).Reaches (State.init n reads world) s ∧ Stranded s := by
    unfold StrandedFree at hnot
    split at hnot
    case isTrue hdead => exact exists_stranded_of_dead hn hdead (Nat.not_le.mp hnot)
    case isFalse =>
      obtain ⟨hmany, hfew⟩ := not_or.mp hnot
      exact exists_stranded_of_survivors (Nat.not_lt.mp hfew) (Nat.not_le.mp hmany)
  obtain ⟨s, hr, hs⟩ := hex
  exact hfree s hr hs

/-- **The same with `terminated` for `exited`**: the main thread never waits for workers that have
all left their loops, if and only if `AbandonedFree` holds.  How many survive no longer
matters, as nobody has to get through `thread_signal_queue`. -/
theorem abandonedFree_iff [Inhabited σ] {c : Core σ ω} (hn : 0 < n) (reads : List StdinRead)
    (world : ω) :
    (∀ s, (helper c n).Reaches (State.init n reads world) s → ¬ Abandoned s) ↔
      AbandonedFree c n reads := by
  refine ⟨fun hfree => ?_, fun h s hr => h.not_abandoned hr⟩
  by_contra hnot
  have hex : ∃ s, (helper c n).Reaches (State.init n reads world) s ∧ Abandoned s := by
    unfold AbandonedFree at hnot
    split at hnot
    case isTrue hdead =>
      obtain ⟨s, hr, hs⟩ : ∃ s, (helper c n).Reaches (State.init n reads world) s ∧ Stranded s :=
        exists_stranded_of_dead hn hdead (Nat.not_le.mp hnot)
      exact ⟨s, hr, hs.abandoned⟩
    case isFalse => exact exists_abandoned_of_survivors (Nat.not_le.mp hnot)
  obtain ⟨s, hr, hs⟩ := hex
  exact hfree s hr hs

/-- A single read with 257 lines. -/
def manyLines : List StdinRead := [.data (List.replicate 257 (ascii "1 10.0.0.1")) false]

/-- Two workers that both die, and one line: the main thread is never stranded. -/
theorem strandedFree_oneLine :
    (∀ s, (helper deadCore 2).Reaches (State.init 2 [.data [ascii "1 10.0.0.1"] false] ()) s →
      ¬ Stranded s) ∧ survivors deadCore 2 = ∅ := by
  have hdead : survivors deadCore 2 = ∅ := by decide
  refine ⟨(strandedFree_iff (by decide) _ ()).mpr ?_, hdead⟩
  rw [StrandedFree, if_pos hdead]
  decide

/-- One worker that dies, and a read of 257 lines: the main thread waits for room that
nobody will make. -/
theorem stranded_manyLines :
    ¬ ∀ s, (helper deadCore 1).Reaches (State.init 1 manyLines ()) s → ¬ Stranded s := by
  intro hfree
  have hdead : survivors deadCore 1 = ∅ := by decide
  have hlen : (linesBeforeEof manyLines).length = 257 := by
    rw [manyLines, linesBeforeEof, List.length_append, List.length_replicate]
    rfl
  have hstranded : ∃ s, (helper deadCore 1).Reaches (State.init 1 manyLines ()) s ∧ Stranded s :=
    exists_stranded_of_dead Nat.zero_lt_one hdead (by rw [hlen]; decide)
  obtain ⟨s, hr, hs⟩ := hstranded
  exact hfree s hr hs

end SquidHelper
