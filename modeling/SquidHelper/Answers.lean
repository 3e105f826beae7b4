/-
SquidHelper/Answers.lean

Every line is answered, and once.  The log of a run is read off in three ways: the
lines enqueued, the lines dequeued, and the answers given to a line.  `Answering` ties
them to the state:

* what was enqueued is what was dequeued followed by what is on the queue;
* the answers given to a line and those its worker still owes add up to the number of
  times it was dequeued;
* every answer carries the channel of its line.

With the terminators accounted for, nothing is left on the queue and nothing owed once
every live worker has taken its `NULL`.
-/
import SquidHelper.Terminators

namespace SquidHelper

open CString

variable {σ ω : Type*} {n : ℕ}

/-! ### Reading the log -/

/-- The lines that were enqueued, in order. -/
def enqueuedJobs (log : List (Event n)) : List Job :=
  log.filterMap fun e => match e with
    | .enqueued job => some job
    | _ => none

/-- The lines that were dequeued, in order. -/
def dequeuedJobs (log : List (Event n)) : List Job :=
  log.filterMap fun e => match e with
    | .dequeued _ job => some job
    | _ => none

/-- The answers given to `job`, in order. -/
def answersTo (job : Job) (log : List (Event n)) : List (List Byte) :=
  log.flatMap fun e => match e with
    | .request job' e => if job' = job then e.output else []
    | _ => []

section Log

variable (job : Job) (log log' : List (Event n))

@[simp] theorem enqueuedJobs_append :
    enqueuedJobs (log ++ log') = enqueuedJobs log ++ enqueuedJobs log' := List.filterMap_append

@[simp] theorem dequeuedJobs_append :
    dequeuedJobs (log ++ log') = dequeuedJobs log ++ dequeuedJobs log' := List.filterMap_append

@[simp] theorem answersTo_append :
    answersTo job (log ++ log') = answersTo job log ++ answersTo job log' := List.flatMap_append

@[simp] theorem enqueuedJobs_request (es : List RequestEvent) :
    enqueuedJobs (es.map (Event.request (n := n) job)) = [] := by
  simp [enqueuedJobs, List.filterMap_map]

@[simp] theorem dequeuedJobs_request (es : List RequestEvent) :
    dequeuedJobs (es.map (Event.request (n := n) job)) = [] := by
  simp [dequeuedJobs, List.filterMap_map]

theorem answersTo_request (job' : Job) (es : List RequestEvent) :
    answersTo job (es.map (Event.request (n := n) job')) = if job' = job then responses es else [] := by
  rw [answersTo, List.flatMap_map]
  split
  case isTrue h => simp [responses, h]
  case isFalse h => simp [h]

end Log

/-- Events that neither enqueue, dequeue nor answer. -/
structure Quiet (es : List (Event n)) : Prop where
  enqueued : enqueuedJobs es = []
  dequeued : dequeuedJobs es = []
  answers : ∀ job, answersTo job es = []

theorem quiet_nil : Quiet ([] : List (Event n)) := ⟨rfl, rfl, fun _ => rfl⟩

theorem quiet_printed (ts : List (List Byte)) : Quiet (ts.map (Event.printed (n := n))) where
  enqueued := by simp [enqueuedJobs, List.filterMap_map]
  dequeued := by simp [dequeuedJobs, List.filterMap_map]
  answers job := by simp [answersTo, List.flatMap_map]

/-! ### The balance -/

/-- The answers a worker at `pc` still owes to `job`. -/
def owedTo (job : Job) : WorkerPc → ℕ
  | .busy job' pc => if job' = job then pc.owed else 0
  | _ => 0

theorem owedTo_afterStep (job job' : Job) (next : Option RequestPc) :
    owedTo job (.afterStep job' next) = if job' = job then owedNext next else 0 := by
  cases next <;> simp [WorkerPc.afterStep, owedTo, owedNext]

structure Answering (s : State n ω) : Prop where
  fifo : enqueuedJobs s.log = dequeuedJobs s.log ++ s.jobQueue.items.reduceOption
  ids : (enqueuedJobs s.log).map Job.id = List.range s.nextId
  balance : ∀ job, (answersTo job s.log).length + ∑ w, owedTo job (s.workers w)
    = (dequeuedJobs s.log).count job
  reading : ∀ w job pc, s.workers w = .busy job pc → pc.From job.line
  channel : ∀ job, ∀ out ∈ answersTo job s.log,
    ∃ status msg, out = sendResponse (lineChannel job.line) status msg

namespace Answering

variable {c : Core σ ω} {s s' : State n ω}

theorem init (reads : List StdinRead) (world : ω) : Answering (State.init n reads world) where
  fifo := rfl
  ids := rfl
  balance job := by simp [State.init, answersTo, owedTo, dequeuedJobs]
  reading _ _ _ h := by cases h
  channel job out h := by cases h

/-- Steps that move no line. -/
theorem of_quiet (h : Answering s) {es : List (Event n)} (hlog : s'.log = s.log ++ es)
    (hes : Quiet es) (hq : s'.jobQueue.items.reduceOption = s.jobQueue.items.reduceOption)
    (hid : s'.nextId = s.nextId)
    (hw : ∀ w, s'.workers w = s.workers w ∨
      (∀ job, owedTo job (s.workers w) = 0) ∧ ∀ job pc, s'.workers w ≠ .busy job pc) :
    Answering s' where
  fifo := by rw [hlog, enqueuedJobs_append, dequeuedJobs_append, hes.enqueued, hes.dequeued,
    List.append_nil, List.append_nil, hq, h.fifo]
  ids := by rw [hlog, enqueuedJobs_append, hes.enqueued, List.append_nil, hid, h.ids]
  balance job := by
    have howed : ∀ w, owedTo job (s'.workers w) = owedTo job (s.workers w) := by
      intro w
      rcases hw w with heq | ⟨h₀, h₁⟩
      · rw [heq]
      · rw [h₀ job]
        cases hpc : s'.workers w with
        | busy job' pc => exact absurd hpc (h₁ job' pc)
        | _ => rfl
    rw [hlog, answersTo_append, dequeuedJobs_append, hes.answers, hes.dequeued, List.append_nil,
      List.append_nil, Finset.sum_congr rfl fun w _ => howed w]
    exact h.balance job
  reading w job pc hpc := by
    rcases hw w with heq | ⟨-, h₁⟩
    · exact h.reading w job pc (heq ▸ hpc)
    · exact absurd hpc (h₁ job pc)
  channel job out hout := by
    rw [hlog, answersTo_append, hes.answers, List.append_nil] at hout
    exact h.channel job out hout

/-- The main thread's steps that move no line. -/
theorem of_main (h : Answering s) {es : List (Event n)} (hlog : s'.log = s.log ++ es)
    (hes : Quiet es) (hq : s'.jobQueue.items.reduceOption = s.jobQueue.items.reduceOption)
    (hid : s'.nextId = s.nextId) (hw : s'.workers = s.workers) : Answering s' :=
  h.of_quiet hlog hes hq hid fun w => .inl (by rw [hw])

/-- A worker's steps outside a request. -/
theorem of_worker (h : Answering s) {w : Fin n} {pc : WorkerPc} {es : List (Event n)}
    (hlog : s'.log = s.log ++ es) (hes : Quiet es)
    (hq : s'.jobQueue.items.reduceOption = s.jobQueue.items.reduceOption)
    (hid : s'.nextId = s.nextId) (hw : s'.workers = Function.update s.workers w pc)
    (hold : ∀ job, owedTo job (s.workers w) = 0) (hnew : ∀ job pc', pc ≠ .busy job pc') :
    Answering s' := by
  apply h.of_quiet hlog hes hq hid
  intro w'
  rcases eq_or_ne w' w with rfl | hne
  · right
    rw [hw, Function.update_self]
    exact ⟨hold, hnew⟩
  · left
    rw [hw, Function.update_of_ne hne]

theorem enqueueLine (h : Answering s) {line : List Byte}
    (hlog : s'.log = s.log ++ [.enqueued ⟨s.nextId, line⟩])
    (hq : s'.jobQueue.items = s.jobQueue.items ++ [some ⟨s.nextId, line⟩])
    (hid : s'.nextId = s.nextId + 1) (hw : s'.workers = s.workers) : Answering s' where
  fifo := by
    rw [hlog, hq, enqueuedJobs_append, dequeuedJobs_append, h.fifo, List.reduceOption_append]
    simp [enqueuedJobs, dequeuedJobs]
  ids := by
    rw [hlog, hid, enqueuedJobs_append, List.map_append, h.ids, List.range_succ]
    rfl
  balance job := by
    rw [hlog, hw, answersTo_append, dequeuedJobs_append]
    simpa [answersTo, dequeuedJobs] using h.balance job
  reading := hw ▸ h.reading
  channel job out hout := by
    rw [hlog, answersTo_append] at hout
    exact h.channel job out (by simpa [answersTo] using hout)

theorem dequeueJob (h : Answering s) {w : Fin n} {job : Job} (hold : s.workers w = .dequeue)
    (hlog : s'.log = s.log ++ [.dequeued w job])
    (hq : s.jobQueue.items = some job :: s'.jobQueue.items) (hid : s'.nextId = s.nextId)
    (hw : s'.workers = Function.update s.workers w (.busy job .parse)) : Answering s' where
  fifo := by
    rw [hlog, enqueuedJobs_append, dequeuedJobs_append, h.fifo, hq]
    simp [enqueuedJobs, dequeuedJobs, List.reduceOption_cons_of_some]
  ids := by
    rw [hlog, enqueuedJobs_append, hid, ← h.ids]
    simp [enqueuedJobs]
  balance job' := by
    have hsum := sum_update_add (fun _ => owedTo job') s.workers w (.busy job .parse)
    have hbal := h.balance job'
    -- the answer that the queue owed is now owed by worker `w`
    have h₀ : owedTo job' (s.workers w) = 0 := by rw [hold]; rfl
    have h₁ : owedTo job' (.busy job .parse) = [job].count job' := by
      simp [owedTo, RequestPc.owed, List.count_singleton]
    have hd : dequeuedJobs [Event.dequeued w job] = [job] := rfl
    have ha : answersTo job' [Event.dequeued w job] = [] := rfl
    rw [hlog, answersTo_append, dequeuedJobs_append, ha, hd, hw, List.append_nil,
      List.count_append]
    omega
  reading w' job' pc hpc := by
    rcases eq_or_ne w' w with rfl | hne
    · rw [hw, Function.update_self] at hpc
      cases hpc
      rintro req ⟨⟩
    · rw [hw, Function.update_of_ne hne] at hpc
      exact h.reading w' job' pc hpc
  channel job' out hout := by
    rw [hlog, answersTo_append] at hout
    exact h.channel job' out (by simpa [answersTo] using hout)

theorem request (h : Answering s) {w : Fin n} {o : σ} {job : Job} {pc : RequestPc}
    {r : RequestStep ω} (hold : s.workers w = .busy job pc)
    (hr : requestStep c job.line o s.world pc = r)
    (hlog : s'.log = s.log ++ r.events.map (.request job))
    (hq : s'.jobQueue = s.jobQueue) (hid : s'.nextId = s.nextId)
    (hw : s'.workers = Function.update s.workers w (.afterStep job r.next)) : Answering s' where
  fifo := by rw [hlog, hq, enqueuedJobs_append, dequeuedJobs_append, enqueuedJobs_request,
    dequeuedJobs_request, List.append_nil, List.append_nil, h.fifo]
  ids := by rw [hlog, hid, enqueuedJobs_append, enqueuedJobs_request, List.append_nil, h.ids]
  balance job' := by
    have hsum := sum_update_add (fun _ => owedTo job') s.workers w (.afterStep job r.next)
    have hbal := h.balance job'
    -- what the move prints it no longer owes
    have hstep := requestStep_responses c job.line o s.world pc
    rw [hr] at hstep
    have h₀ : owedTo job' (s.workers w) = if job = job' then pc.owed else 0 := by rw [hold]; rfl
    have h₁ := owedTo_afterStep job' job r.next
    rw [hlog, hw, answersTo_append, dequeuedJobs_append, dequeuedJobs_request, List.append_nil,
      answersTo_request, List.length_append]
    by_cases hj : job = job'
    · rw [if_pos hj] at h₀ h₁ ⊢
      omega
    · rw [if_neg hj] at h₀ h₁ ⊢
      simp only [List.length_nil]
      omega
  reading w' job' pc' hpc := by
    rcases eq_or_ne w' w with rfl | hne
    · rw [hw, Function.update_self] at hpc
      cases hnext : r.next with
      | none => rw [hnext] at hpc; cases hpc
      | some pc'' =>
          rw [hnext] at hpc
          cases hpc
          -- the request in hand is still the one read from the line
          exact requestStep_from (h.reading _ _ _ hold) (hr ▸ hnext)
    · rw [hw, Function.update_of_ne hne] at hpc
      exact h.reading w' job' pc' hpc
  channel job' out hout := by
    rw [hlog, answersTo_append, answersTo_request, List.mem_append] at hout
    rcases hout with hout | hout
    · exact h.channel job' out hout
    · split at hout
      case isTrue hj =>
        subst hj
        exact requestStep_channel (h.reading _ _ _ hold) (hr ▸ hout)
      case isFalse => cases hout

/-- One step. -/
theorem step (h : Answering s) {a : Action n σ} (hs : Step c s a s') : Answering s' := by
  have hnil := (List.append_nil s.log).symm
  cases hs with
  | readDone => exact h.of_main hnil quiet_nil rfl rfl rfl
  | readData => exact h.of_main hnil quiet_nil rfl rfl rfl
  | readEof => exact h.of_main rfl (quiet_printed [_]) rfl rfl rfl
  | readNothing => exact h.of_main hnil quiet_nil rfl rfl rfl
  | enqueueLine hm hq => exact h.enqueueLine rfl hq rfl rfl
  | threadSig => exact h.of_main hnil quiet_nil rfl rfl rfl
  | enqueueNull hm hq =>
      exact h.of_main hnil quiet_nil (by rw [hq]; simp [List.reduceOption_append]) rfl rfl
  | startJoin => exact h.of_main hnil quiet_nil rfl rfl rfl
  | join => exact h.of_main hnil quiet_nil rfl rfl rfl
  | stdin => exact h.of_main hnil quiet_nil rfl rfl rfl
  | signal => exact h.of_main hnil quiet_nil rfl rfl rfl
  | async => exact h.of_main hnil quiet_nil rfl rfl rfl
  | watcher => exact h.of_main rfl (quiet_printed _) rfl rfl rfl
  | leave => exact h.of_main hnil quiet_nil rfl rfl rfl
  | initThread hw =>
      refine h.of_worker hnil quiet_nil rfl rfl rfl (fun _ => by rw [hw]; rfl) fun job pc => ?_
      split <;> simp
  | dequeueNull hw hq =>
      exact h.of_worker hnil quiet_nil (by rw [hq]; simp [List.reduceOption_cons_of_none]) rfl rfl
        (fun _ => by rw [hw]; rfl) (by simp)
  | dequeueJob hw hq => exact h.dequeueJob hw rfl hq rfl rfl
  | request hw hr => exact h.request hw hr rfl rfl rfl rfl
  | terminate hw =>
      exact h.of_worker hnil quiet_nil rfl rfl rfl (fun _ => by rw [hw]; rfl) (by simp)
  | asyncSend hw =>
      exact h.of_worker hnil quiet_nil rfl rfl rfl (fun _ => by rw [hw]; rfl) (by simp)
  | threadFree hw =>
      exact h.of_worker hnil quiet_nil rfl rfl rfl (fun _ => by rw [hw]; rfl) (by simp)
  | coalesce hw =>
      exact h.of_worker hnil quiet_nil rfl rfl rfl (fun _ => by rw [hw]; rfl) (by simp)
  | outside => exact h.of_main hnil quiet_nil rfl rfl rfl

end Answering

theorem answering_of_reaches {c : Core σ ω} {reads : List StdinRead} {world : ω}
    {s : State n ω} (h : (helper c n).Reaches (State.init n reads world) s) : Answering s :=
  h.invariant (fun _ _ _ hs hstep => hs.step (step_step hstep)) (Answering.init reads world)

/-! ### Whole runs -/

/-- No two lines have the same number. -/
theorem Answering.nodup {s : State n ω} (h : Answering s) : (enqueuedJobs s.log).Nodup := by
  have hids : ((enqueuedJobs s.log).map Job.id).Nodup := h.ids ▸ List.nodup_range
  exact hids.of_map

/-- No line is dequeued twice. -/
theorem Answering.count_dequeued_le {s : State n ω} (h : Answering s) (job : Job) :
    (dequeuedJobs s.log).count job ≤ 1 := by
  have hnodup := h.nodup
  rw [h.fifo] at hnodup
  exact List.nodup_iff_count_le_one.mp hnodup.of_append_left job

/-- Once every live worker has taken its terminator, nothing is under way. -/
theorem Answering.complete {c : Core σ ω} {s : State n ω} (h : Answering s)
    (ht : Terminators c s) (hlive : ∃ w : Fin n, Live c w)
    (hdone : ∀ w, Live c w → (s.workers w).terminated = true) {job : Job}
    (hjob : job ∈ enqueuedJobs s.log) : (answersTo job s.log).length = 1 := by
  obtain ⟨w₀, hw₀⟩ := hlive
  have hqueue : s.jobQueue.items.reduceOption = [] := by
    rw [List.eq_nil_iff_forall_not_mem]
    intro job' hmem
    exact ht.drained w₀ hw₀ (hdone w₀ hw₀) job' (List.reduceOption_mem_iff.mp hmem)
  -- no worker is busy either, since each of them has left its loop
  have howed : ∑ w, owedTo job (s.workers w) = 0 := by
    apply Finset.sum_eq_zero
    intro w _
    cases hpc : s.workers w with
    | busy job' pc =>
        have hloop : (s.workers w).inLoop = true := by rw [hpc]; rfl
        have hterm := hdone w (ht.started w hloop)
        rw [WorkerPc.terminated_eq_false hloop] at hterm
        cases hterm
    | _ => rfl
  have hfifo := h.fifo
  rw [hqueue, List.append_nil] at hfifo
  -- so the line was dequeued, once, and the answers are as many
  have hcount := List.count_eq_one_of_mem (hfifo ▸ h.nodup) (hfifo ▸ hjob)
  have hbal := h.balance job
  omega

/-- **Exactly one answer per line, on its own channel**, in every interleaving. -/
theorem one_answer_per_line {c : Core σ ω} {reads : List StdinRead} {world : ω} {s : State n ω}
    (hlive : ∃ w : Fin n, Live c w)
    (h : (helper c n).Reaches (State.init n reads world) s) :
    ((enqueuedJobs s.log).map Job.id).Nodup ∧
    (∀ job, (answersTo job s.log).length ≤ (dequeuedJobs s.log).count job ∧
      (dequeuedJobs s.log).count job ≤ (enqueuedJobs s.log).count job) ∧
    ((∀ w, Live c w → (s.workers w).terminated = true) →
      ∀ job ∈ enqueuedJobs s.log, (answersTo job s.log).length = 1) ∧
    (∀ job, ∀ out ∈ answersTo job s.log,
      (∀ ds ws rest, job.line = ds ++ ws ++ rest → ds ≠ [] → (∀ d ∈ ds, isDigit d = true) →
        decimalValue ds < 2 ^ 64 → ws ≠ [] → (∀ c ∈ ws, isSpace c = true) →
        firstField out = decimal (decimalValue ds)) ∧
      (scanSize job.line = none → firstField out = decimal 0)) := by
  have hans := answering_of_reaches h
  have hterm := terminators_of_reaches h
  refine ⟨hans.ids ▸ List.nodup_range, fun job => ⟨?_, ?_⟩,
    fun hdone job hjob => hans.complete hterm hlive hdone hjob, fun job out hout => ?_⟩
  · have hbal := hans.balance job
    omega
  · rw [hans.fifo, List.count_append]
    exact Nat.le_add_right _ _
  · obtain ⟨status, msg, rfl⟩ := hans.channel job out hout
    rw [firstField_sendResponse]
    constructor
    · intro ds ws rest hline hne hds hv hne' hws
      rw [hline, lineChannel_number hds hne hv hws hne']
    · intro hscan
      rw [lineChannel, hscan]

/-- Two workers, `thread_init` of the second of which fails, and no handler. -/
def secondFailsCore : Core Unit Unit where
  build := ⟨false⟩
  inetPton := ipv4Only
  plugins := [{ threadInit := some fun number => if number = 2 then -1 else 0 }]
  denyByDefault := true

/-- One line, then `SIGTERM`; the first worker answers it and takes a terminator. -/
def oneLineRun : List (Action 2 Unit) :=
  [.stdin, .go, .go, .go, .signal, .leave, .go, .go, .worker (Fin.last 1) ()] ++
    List.replicate 7 (.worker ⟨0, Nat.two_pos⟩ ())

/-- The line of that run is answered once, on channel 7. -/
theorem one_answer_per_line_oneLine :
    ∃ s, (helper secondFailsCore 2).Reaches
        (State.init 2 [.data [ascii "7 10.0.0.1"] false] ()) s ∧
      (answersTo ⟨0, ascii "7 10.0.0.1"⟩ s.log).length = 1 ∧
      ∀ out ∈ answersTo ⟨0, ascii "7 10.0.0.1"⟩ s.log, firstField out = decimal 7 := by
  have hrun : ((helper secondFailsCore 2).exec (State.init 2 [.data [ascii "7 10.0.0.1"] false] ())
      oneLineRun).any (fun s => decide ((∀ w, Live secondFailsCore w → (s.workers w).terminated = true) ∧
        ⟨0, ascii "7 10.0.0.1"⟩ ∈ enqueuedJobs s.log)) = true := by decide
  obtain ⟨s, hs, hp⟩ := (Option.any_eq_true _ _).mp hrun
  obtain ⟨hdone, hjob⟩ := of_decide_eq_true hp
  have hreach : (helper secondFailsCore 2).Reaches _ s := ⟨oneLineRun, hs⟩
  obtain ⟨-, -, hone, hfirst⟩ := one_answer_per_line ⟨0, by decide⟩ hreach
  have hdigits : (ascii "7").all isDigit = true := by decide
  have hspace : (ascii " ").all isSpace = true := by decide
  refine ⟨s, hreach, hone hdone _ hjob, ?_⟩
  intro out hout
  exact (hfirst _ out hout).1 (ascii "7") (ascii " ") (ascii "10.0.0.1") (by decide) (by decide)
    (List.all_eq_true.mp hdigits) (by decide) (by decide) (List.all_eq_true.mp hspace)

end SquidHelper
