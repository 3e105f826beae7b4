/-
SquidHelper/Helper.lean

The whole process: the main thread of `src/core/main.c` with its event loop, the two
queues, and `n` workers.

A state records where every thread is, the queues, what the loop knows and a log of
what has happened.  An action is one step of one thread, or of the outside (a signal,
a libev notification, the rest of the machine).  `enqueue` on a full queue, `dequeue`
on an empty one and `pthread_join` on a running thread are not enabled: that is what
blocking means here.

`Step` lists the steps one constructor each, with all they change; the results about
runs are proved by cases on it and never look at `step` again.

Of libev it is assumed that an `ev_async_send` adds a notification or, when one is
pending, is merged into it, and that each notification makes the loop invoke
`thread_sig_cb` once.  After `ev_unloop` the loop may still invoke callbacks that are
due before it returns.
-/
import SquidHelper.Lib.Fifo
import SquidHelper.Lib.Guarded
import SquidHelper.Stdin
import SquidHelper.Worker

namespace SquidHelper

open CString

variable {σ ω : Type*} {n : ℕ}

/-! ### Threads -/

/-- A line on `job_queue`; `id` tells equal lines apart, as their pointers do. -/
structure Job where
  id : ℕ
  line : List Byte
  deriving DecidableEq, Repr

/-- What one `read` on standard input comes to: the lines it completes, and whether
`stdin_read_cb` goes on reading. -/
inductive StdinRead
  | data (lines : List (List Byte)) (more : Bool)
  | eof
  | error
  deriving DecidableEq, Repr

/-- `reads` as `stdin_read_cb` frames them, `tmp` being the remainder so far. -/
def StdinRead.ofReads (tmp : List Byte) : List ReadResult → List StdinRead
  | [] => []
  | .data chunk :: rs =>
      .data (frame tmp chunk).1 (decide ((frame tmp chunk).2 ≠ [])) :: ofReads (frame tmp chunk).2 rs
  | .eof :: rs => .eof :: ofReads tmp rs
  | .error :: rs => .error :: ofReads tmp rs

/-- The lines `stdin_read_cb` enqueues before it sees the end of the input. -/
def linesBeforeEof : List StdinRead → List (List Byte)
  | [] => []
  | .data lines _ :: rs => lines ++ linesBeforeEof rs
  | .eof :: _ => []
  | .error :: rs => linesBeforeEof rs

/-- **The lines are those `stdin_read_cb` enqueues.** -/
theorem stdinFold_ofReads {rs : List ReadResult} {s : StdinState} {tmp : List Byte}
    (h : s.tmpLineBuf.Holds tmp) (hrs : ∀ r ∈ rs, r.Valid) :
    ∃ s', stdinFold s rs = .ok s' ∧ s'.jobs.map Buffer.content
      = s.jobs.map Buffer.content ++ linesBeforeEof (StdinRead.ofReads tmp rs) := by
  induction rs generalizing s tmp with
  | nil => exact ⟨s, rfl, by simp [StdinRead.ofReads, linesBeforeEof]⟩
  | cons r rs ih =>
      have hrs' : ∀ r' ∈ rs, r'.Valid := fun r' hr' => hrs r' (List.mem_cons_of_mem _ hr')
      rw [stdinFold_cons]
      cases r with
      | eof => exact absurd (hrs _ List.mem_cons_self) id
      | error => exact ih h hrs'
      | data chunk =>
          obtain ⟨hne, -, hnul⟩ := hrs _ List.mem_cons_self
          obtain ⟨tmp', js, hread, hjs, htmp'⟩ := readChunk_spec h hnul hne
          obtain ⟨s', hs', hjobs⟩ := ih
            (s := { s with tmpLineBuf := tmp', jobs := s.jobs ++ js }) htmp' hrs'
          refine ⟨s', ?_, ?_⟩
          · rw [stdinRead, hread]
            exact hs'
          · rw [hjobs, List.map_append, map_content_of_forall₂ hjs, List.append_assoc]
            rfl

/-- A line is made of bytes that were read. -/
theorem nul_notMem_frame {tmp chunk : List Byte} (htmp : NUL ∉ tmp) (hchunk : NUL ∉ chunk) :
    (∀ l ∈ (frame tmp chunk).1, NUL ∉ l) ∧ NUL ∉ (frame tmp chunk).2 := by
  have hall : NUL ∉ (frame tmp chunk).1.flatMap (· ++ [LF]) ++ (frame tmp chunk).2 := by
    rw [frame_flatten, List.mem_append, not_or]
    exact ⟨htmp, hchunk⟩
  rw [List.mem_append, not_or] at hall
  refine ⟨fun l hl hnul => hall.1 ?_, hall.2⟩
  exact List.mem_flatMap.mpr ⟨l, hl, List.mem_append_left _ hnul⟩

/-- **No line has a NUL in it** as long as none is read, so that `sscanf` gets to its end. -/
theorem nul_notMem_linesBeforeEof {rs : List ReadResult} {tmp : List Byte} (htmp : NUL ∉ tmp)
    (hrs : ∀ r ∈ rs, r.Valid) : ∀ l ∈ linesBeforeEof (StdinRead.ofReads tmp rs), NUL ∉ l := by
  induction rs generalizing tmp with
  | nil => simp [StdinRead.ofReads, linesBeforeEof]
  | cons r rs ih =>
      obtain ⟨hr, hvalid⟩ := List.forall_mem_cons.mp hrs
      cases r with
      | eof => exact absurd hr id
      | error => exact ih htmp hvalid
      | data chunk =>
          obtain ⟨hlines, hrest⟩ := nul_notMem_frame htmp hr.2.2
          rw [StdinRead.ofReads, linesBeforeEof, List.forall_mem_append]
          exact ⟨hlines, ih hrest hvalid⟩

/-- Where the main thread is. -/
inductive MainPc
  /-- In `ev_loop`, between callbacks. -/
  | evLoop
  /-- In `stdin_read_cb`, with lines still to be enqueued. -/
  | stdinRead (lines : List (List Byte)) (more : Bool)
  /-- In `thread_sig_cb`, about to dequeue. -/
  | threadSig
  /-- Past `ev_loop`, with `left` terminators still to be enqueued. -/
  | terminating (left : ℕ)
  | joining (joined : ℕ)
  deriving DecidableEq, Repr

/-- Where a worker is. -/
inductive WorkerPc
  | threadInit
  | dequeue
  | busy (job : Job) (pc : RequestPc)
  /-- At `terminate`, about to enqueue `WORKER_TERMINATE`. -/
  | terminate
  | asyncSend
  | threadFree
  | exited
  deriving DecidableEq, Repr

/-- What happens in a run. -/
inductive Event (n : ℕ)
  | enqueued (job : Job)
  | dequeued (w : Fin n) (job : Job)
  | request (job : Job) (e : RequestEvent)
  /-- A line on standard output that answers no request. -/
  | printed (text : List Byte)
  deriving DecidableEq, Repr

/-- The process; the queues hold 256 and 8 elements as in `webcontrol_core_ctx`, and
`NULL` on `job_queue` is `none`. -/
structure State (n : ℕ) (ω : Type*) where
  main : MainPc
  /-- What standard input still has to deliver. -/
  reads : List StdinRead
  /-- The `ev_io` watcher on standard input is started. -/
  stdinActive : Bool
  jobQueue : Fifo 256 (Option Job)
  threadSignalQueue : Fifo 8 (Fin n)
  /-- Notifications for which `thread_sig_cb` has not been invoked yet. -/
  asyncPending : ℕ
  activeWorkers : ℕ
  /-- `ev_unloop` was called. -/
  stopped : Bool
  workers : Fin n → WorkerPc
  nextId : ℕ
  world : ω
  log : List (Event n)

/-- All threads created, none of them has run. -/
def State.init (n : ℕ) (reads : List StdinRead) (world : ω) : State n ω where
  main := .evLoop
  reads := reads
  stdinActive := true
  jobQueue := .empty
  threadSignalQueue := .empty
  asyncPending := 0
  activeWorkers := n
  stopped := false
  workers := fun _ => .threadInit
  nextId := 0
  world := world
  log := []

inductive Action (n : ℕ) (σ : Type*)
  /-- The next statement of the main thread, outside the choices of the loop. -/
  | go
  /-- The loop invokes `stdin_read_cb`. -/
  | stdin
  /-- The loop invokes `sigint_cb`. -/
  | signal
  /-- The loop invokes `thread_sig_cb`. -/
  | async
  /-- The loop invokes the callback of plugin `i`. -/
  | watcher (i : ℕ) (o : σ)
  /-- `ev_loop` returns. -/
  | leave
  | worker (w : Fin n) (o : σ)
  /-- The `ev_async_send` of `w` is merged into a pending notification. -/
  | coalesce (w : Fin n)
  /-- The rest of the machine. -/
  | outside (o : σ)

/-- `--active_workers` on a `size_t`. -/
def decrement (a : ℕ) : ℕ := if a = 0 then sizeMod - 1 else a - 1

/-! ### The step function -/

/-- `reads` after a `read` that found nothing: `EAGAIN` is in the list, or the list is
used up. -/
def readNothing : List StdinRead → Option (List StdinRead)
  | [] => some []
  | .error :: rs => some rs
  | _ => none

def mainStep (s : State n ω) : Option (State n ω) :=
  match s.main with
  | .evLoop => none
  | .stdinRead [] false => some { s with main := .evLoop }
  | .stdinRead [] true =>
      match s.reads with
      | .data lines more :: rs => some { s with main := .stdinRead lines more, reads := rs }
      | .eof :: rs => some { s with main := .evLoop, reads := rs, stdinActive := false,
                                    log := s.log ++ [.printed (ascii "GOT 0 BYTES. TERMINATE?")] }
      | rs => (readNothing rs).map fun rs' => { s with main := .evLoop, reads := rs' }
  | .stdinRead (line :: lines) more =>
      (s.jobQueue.enqueue (some ⟨s.nextId, line⟩)).map fun q =>
        { s with main := .stdinRead lines more, jobQueue := q, nextId := s.nextId + 1,
                 log := s.log ++ [.enqueued ⟨s.nextId, line⟩] }
  | .threadSig =>
      s.threadSignalQueue.dequeue.map fun r =>
        { s with main := .evLoop, threadSignalQueue := r.2,
                 activeWorkers := decrement s.activeWorkers,
                 stopped := s.stopped || decrement s.activeWorkers == 0 }
  | .terminating 0 => some { s with main := .joining 0 }
  | .terminating (left + 1) =>
      (s.jobQueue.enqueue none).map fun q => { s with main := .terminating left, jobQueue := q }
  | .joining joined =>
      if h : joined < n then
        if s.workers ⟨joined, h⟩ = .exited then some { s with main := .joining (joined + 1) } else none
      else none

/-- The worker's state after a step of a request. -/
def WorkerPc.afterStep (job : Job) : Option RequestPc → WorkerPc
  | none => .dequeue
  | some pc => .busy job pc

theorem WorkerPc.afterStep_eq_busy {job job' : Job} {next : Option RequestPc} {pc : RequestPc} :
    WorkerPc.afterStep job next = .busy job' pc ↔ job = job' ∧ next = some pc := by
  cases next <;> simp [WorkerPc.afterStep]

def workerStep (c : Core σ ω) (s : State n ω) (w : Fin n) (o : σ) : Option (State n ω) :=
  match s.workers w with
  | .threadInit =>
      some { s with workers := Function.update s.workers w
                      (if c.threadInit (w + 1) then .dequeue else .terminate) }
  | .dequeue =>
      s.jobQueue.dequeue.map fun r =>
        match r.1 with
        | none => { s with workers := Function.update s.workers w .terminate, jobQueue := r.2 }
        | some job => { s with workers := Function.update s.workers w (.busy job .parse),
                               jobQueue := r.2, log := s.log ++ [.dequeued w job] }
  | .busy job pc =>
      let r := requestStep c job.line o s.world pc
      some { s with workers := Function.update s.workers w (.afterStep job r.next),
                    world := r.world, log := s.log ++ r.events.map (.request job) }
  | .terminate =>
      (s.threadSignalQueue.enqueue w).map fun q =>
        { s with workers := Function.update s.workers w .asyncSend, threadSignalQueue := q }
  | .asyncSend =>
      some { s with workers := Function.update s.workers w .threadFree,
                    asyncPending := s.asyncPending + 1 }
  | .threadFree => some { s with workers := Function.update s.workers w .exited }
  | .exited => none

def step (c : Core σ ω) (s : State n ω) : Action n σ → Option (State n ω)
  | .go => mainStep s
  | .stdin =>
      if s.main = .evLoop ∧ s.stdinActive = true ∧ s.reads ≠ [] then
        some { s with main := .stdinRead [] true }
      else none
  | .signal => if s.main = .evLoop then some { s with stopped := true } else none
  | .async =>
      if s.main = .evLoop ∧ 0 < s.asyncPending then
        some { s with main := .threadSig, asyncPending := s.asyncPending - 1 }
      else none
  | .watcher i o =>
      if s.main = .evLoop then
        (c.plugins[i]?.bind (·.watcher)).map fun f =>
          { s with world := (f o s.world).1, log := s.log ++ (f o s.world).2.map .printed }
      else none
  | .leave => if s.main = .evLoop ∧ s.stopped = true then some { s with main := .terminating n } else none
  | .worker w o => workerStep c s w o
  | .coalesce w =>
      if s.workers w = .asyncSend ∧ 0 < s.asyncPending then
        some { s with workers := Function.update s.workers w .threadFree }
      else none
  | .outside o => some { s with world := c.outside o s.world }

/-- The helper with `n` workers. -/
def helper (c : Core σ ω) (n : ℕ) : Guarded (State n ω) (Action n σ) := ⟨step c⟩

/-! ### The steps, one by one -/

/-- Every step there is, with all it changes. -/
inductive Step (c : Core σ ω) (s : State n ω) : Action n σ → State n ω → Prop
  | readDone (hm : s.main = .stdinRead [] false) : Step c s .go { s with main := .evLoop }
  | readData {lines more rs} (hm : s.main = .stdinRead [] true)
      (hr : s.reads = .data lines more :: rs) :
      Step c s .go { s with main := .stdinRead lines more, reads := rs }
  | readEof {rs} (hm : s.main = .stdinRead [] true) (hr : s.reads = .eof :: rs) :
      Step c s .go { s with main := .evLoop, reads := rs, stdinActive := false,
                            log := s.log ++ [.printed (ascii "GOT 0 BYTES. TERMINATE?")] }
  | readNothing {rs} (hm : s.main = .stdinRead [] true) (hr : readNothing s.reads = some rs) :
      Step c s .go { s with main := .evLoop, reads := rs }
  | enqueueLine {line lines more q} (hm : s.main = .stdinRead (line :: lines) more)
      (hq : q.items = s.jobQueue.items ++ [some ⟨s.nextId, line⟩]) :
      Step c s .go { s with main := .stdinRead lines more, jobQueue := q, nextId := s.nextId + 1,
                            log := s.log ++ [.enqueued ⟨s.nextId, line⟩] }
  | threadSig {w q} (hm : s.main = .threadSig)
      (hq : s.threadSignalQueue.items = w :: q.items) :
      Step c s .go { s with main := .evLoop, threadSignalQueue := q,
                            activeWorkers := decrement s.activeWorkers,
                            stopped := s.stopped || decrement s.activeWorkers == 0 }
  | enqueueNull {left q} (hm : s.main = .terminating (left + 1))
      (hq : q.items = s.jobQueue.items ++ [none]) :
      Step c s .go { s with main := .terminating left, jobQueue := q }
  | startJoin (hm : s.main = .terminating 0) : Step c s .go { s with main := .joining 0 }
  | join {joined} (hm : s.main = .joining joined) (h : joined < n)
      (hw : s.workers ⟨joined, h⟩ = .exited) :
      Step c s .go { s with main := .joining (joined + 1) }
  | stdin (hm : s.main = .evLoop) (ha : s.stdinActive = true) (hr : s.reads ≠ []) :
      Step c s .stdin { s with main := .stdinRead [] true }
  | signal (hm : s.main = .evLoop) : Step c s .signal { s with stopped := true }
  | async (hm : s.main = .evLoop) (hp : 0 < s.asyncPending) :
      Step c s .async { s with main := .threadSig, asyncPending := s.asyncPending - 1 }
  | watcher {i o p f} (hm : s.main = .evLoop) (hi : c.plugins[i]? = some p)
      (hf : p.watcher = some f) :
      Step c s (.watcher i o) { s with world := (f o s.world).1,
                                       log := s.log ++ (f o s.world).2.map .printed }
  | leave (hm : s.main = .evLoop) (hs : s.stopped = true) :
      Step c s .leave { s with main := .terminating n }
  | initThread {w o} (hw : s.workers w = .threadInit) :
      Step c s (.worker w o) { s with workers := Function.update s.workers w
                                        (if c.threadInit (w + 1) then .dequeue else .terminate) }
  | dequeueNull {w o q} (hw : s.workers w = .dequeue)
      (hq : s.jobQueue.items = none :: q.items) :
      Step c s (.worker w o) { s with workers := Function.update s.workers w .terminate,
                                      jobQueue := q }
  | dequeueJob {w o job q} (hw : s.workers w = .dequeue)
      (hq : s.jobQueue.items = some job :: q.items) :
      Step c s (.worker w o) { s with workers := Function.update s.workers w (.busy job .parse),
                                      jobQueue := q, log := s.log ++ [.dequeued w job] }
  | request {w o job pc r} (hw : s.workers w = .busy job pc)
      (hr : requestStep c job.line o s.world pc = r) :
      Step c s (.worker w o) { s with workers := Function.update s.workers w (.afterStep job r.next),
                                      world := r.world, log := s.log ++ r.events.map (.request job) }
  | terminate {w o q} (hw : s.workers w = .terminate)
      (hq : q.items = s.threadSignalQueue.items ++ [w]) :
      Step c s (.worker w o) { s with workers := Function.update s.workers w .asyncSend,
                                      threadSignalQueue := q }
  | asyncSend {w o} (hw : s.workers w = .asyncSend) :
      Step c s (.worker w o) { s with workers := Function.update s.workers w .threadFree,
                                      asyncPending := s.asyncPending + 1 }
  | threadFree {w o} (hw : s.workers w = .threadFree) :
      Step c s (.worker w o) { s with workers := Function.update s.workers w .exited }
  | coalesce {w} (hw : s.workers w = .asyncSend) (hp : 0 < s.asyncPending) :
      Step c s (.coalesce w) { s with workers := Function.update s.workers w .threadFree }
  | outside {o} : Step c s (.outside o) { s with world := c.outside o s.world }

theorem mainStep_step {c : Core σ ω} {s s' : State n ω} (h : mainStep s = some s') :
    Step c s .go s' := by
  unfold mainStep at h
  split at h
  case h_1 hm => cases h
  case h_2 hm => cases h; exact .readDone hm
  case h_3 hm =>
    split at h
    case h_1 hr => cases h; exact .readData hm hr
    case h_2 hr => cases h; exact .readEof hm hr
    case h_3 =>
      obtain ⟨rs', hr, rfl⟩ := Option.map_eq_some_iff.mp h
      exact .readNothing hm hr
  case h_4 hm =>
    obtain ⟨q, hq, rfl⟩ := Option.map_eq_some_iff.mp h
    exact .enqueueLine hm (Fifo.enqueue_eq_some.mp hq)
  case h_5 hm =>
    obtain ⟨⟨w, q⟩, hq, rfl⟩ := Option.map_eq_some_iff.mp h
    exact .threadSig hm (Fifo.dequeue_eq_some.mp hq)
  case h_6 hm => cases h; exact .startJoin hm
  case h_7 hm =>
    obtain ⟨q, hq, rfl⟩ := Option.map_eq_some_iff.mp h
    exact .enqueueNull hm (Fifo.enqueue_eq_some.mp hq)
  case h_8 hm =>
    split at h
    case isTrue hlt =>
      split at h
      case isTrue hw => cases h; exact .join hm hlt hw
      case isFalse => cases h
    case isFalse => cases h

theorem workerStep_step {c : Core σ ω} {s s' : State n ω} {w : Fin n} {o : σ}
    (h : workerStep c s w o = some s') : Step c s (.worker w o) s' := by
  unfold workerStep at h
  split at h
  case h_1 hw => cases h; exact .initThread hw
  case h_2 hw =>
    obtain ⟨⟨job, q⟩, hq, rfl⟩ := Option.map_eq_some_iff.mp h
    rcases job with - | job
    · exact .dequeueNull hw (Fifo.dequeue_eq_some.mp hq)
    · exact .dequeueJob hw (Fifo.dequeue_eq_some.mp hq)
  case h_3 hw => cases h; exact .request hw rfl
  case h_4 hw =>
    obtain ⟨q, hq, rfl⟩ := Option.map_eq_some_iff.mp h
    exact .terminate hw (Fifo.enqueue_eq_some.mp hq)
  case h_5 hw => cases h; exact .asyncSend hw
  case h_6 hw => cases h; exact .threadFree hw
  case h_7 hw => cases h

/-- `Step` lists all steps. -/
theorem step_step {c : Core σ ω} {s s' : State n ω} {a : Action n σ}
    (h : (helper c n).step s a = some s') : Step c s a s' := by
  change step c s a = some s' at h
  cases a with
  | go => exact mainStep_step h
  | stdin =>
      obtain ⟨⟨hm, ha, hr⟩, h⟩ := Option.ite_none_right_eq_some.mp h
      cases h
      exact .stdin hm ha hr
  | signal =>
      obtain ⟨hm, h⟩ := Option.ite_none_right_eq_some.mp h
      cases h
      exact .signal hm
  | async =>
      obtain ⟨⟨hm, hp⟩, h⟩ := Option.ite_none_right_eq_some.mp h
      cases h
      exact .async hm hp
  | watcher i o =>
      obtain ⟨hm, h⟩ := Option.ite_none_right_eq_some.mp h
      obtain ⟨f, hf, rfl⟩ := Option.map_eq_some_iff.mp h
      obtain ⟨p, hp, hf⟩ := Option.bind_eq_some_iff.mp hf
      exact .watcher hm hp hf
  | leave =>
      obtain ⟨⟨hm, hs⟩, h⟩ := Option.ite_none_right_eq_some.mp h
      cases h
      exact .leave hm hs
  | worker w o => exact workerStep_step h
  | coalesce w =>
      obtain ⟨⟨hw, hp⟩, h⟩ := Option.ite_none_right_eq_some.mp h
      cases h
      exact .coalesce hw hp
  | outside o => cases h; exact .outside

/-- And lists only steps. -/
theorem Step.step_eq {c : Core σ ω} {s s' : State n ω} {a : Action n σ} (h : Step c s a s') :
    (helper c n).step s a = some s' := by
  show step c s a = some s'
  cases h with
  | readDone hm => simp [step, mainStep, hm]
  | readData hm hr => simp [step, mainStep, hm, hr]
  | readEof hm hr => simp [step, mainStep, hm, hr]
  | readNothing hm hr =>
      simp only [step, mainStep, hm]
      split
      case h_1 heq => rw [heq] at hr; cases hr
      case h_2 heq => rw [heq] at hr; cases hr
      case h_3 => rw [hr]; rfl
  | enqueueLine hm hq => simp [step, mainStep, hm, Fifo.enqueue_eq_some.mpr hq]
  | threadSig hm hq => simp [step, mainStep, hm, Fifo.dequeue_eq_some.mpr hq]
  | enqueueNull hm hq => simp [step, mainStep, hm, Fifo.enqueue_eq_some.mpr hq]
  | startJoin hm => simp [step, mainStep, hm]
  | join hm hlt hw => simp [step, mainStep, hm, hlt, hw]
  | stdin hm ha hr => simp [step, hm, ha, hr]
  | signal hm => simp [step, hm]
  | async hm hp => simp [step, hm, hp]
  | watcher hm hi hf => simp [step, hm, hi, hf]
  | leave hm hs => simp [step, hm, hs]
  | initThread hw => simp [step, workerStep, hw]
  | dequeueNull hw hq => simp [step, workerStep, hw, Fifo.dequeue_eq_some.mpr hq]
  | dequeueJob hw hq => simp [step, workerStep, hw, Fifo.dequeue_eq_some.mpr hq]
  | request hw hr => simp [step, workerStep, hw, hr]
  | terminate hw hq => simp [step, workerStep, hw, Fifo.enqueue_eq_some.mpr hq]
  | asyncSend hw => simp [step, workerStep, hw]
  | threadFree hw => simp [step, workerStep, hw]
  | coalesce hw hp => simp [step, hw, hp]
  | outside => rfl

theorem Step.reaches {c : Core σ ω} {s s' : State n ω} {a : Action n σ} (h : Step c s a s') :
    (helper c n).Reaches s s' := .single h.step_eq

/-! ### The steps as the requests see them -/

/-- What happens to the world outside requests. -/
inductive WorldStep (c : Core σ ω) (world : ω) : ω → Prop
  | same : WorldStep c world world
  | watcher {i : ℕ} {p : Plugin σ ω} {o f} (hi : c.plugins[i]? = some p) (hf : p.watcher = some f) :
      WorldStep c world (f o world).1
  | outside {o} : WorldStep c world (c.outside o world)

/-- A step takes one request further, or it takes none. -/
inductive RequestView (c : Core σ ω) (s s' : State n ω) : Prop
  | request {w o job pc r} (hold : s.workers w = .busy job pc)
      (hmove : RequestMove c job.line o s.world pc r)
      (hlog : s'.log = s.log ++ r.events.map (.request job)) (hworld : s'.world = r.world)
      (hw : s'.workers = Function.update s.workers w (.afterStep job r.next))
  | quiet {es} (hlog : s'.log = s.log ++ es) (hes : ∀ e ∈ es, ∀ job e', e ≠ .request job e')
      (hworld : WorldStep c s.world s'.world)
      (hw : ∀ w job pc, s'.workers w = .busy job pc → s.workers w = .busy job pc ∨ pc = .parse)

theorem RequestView.of_main {c : Core σ ω} {s s' : State n ω} {es : List (Event n)}
    (hlog : s'.log = s.log ++ es) (hes : ∀ e ∈ es, ∀ job e', e ≠ .request job e')
    (hworld : WorldStep c s.world s'.world) (hw : s'.workers = s.workers) : RequestView c s s' :=
  .quiet hlog hes hworld fun _ _ _ hpc => .inl (hw ▸ hpc)

theorem RequestView.of_worker {c : Core σ ω} {s s' : State n ω} {w : Fin n} {pc : WorkerPc}
    {es : List (Event n)} (hlog : s'.log = s.log ++ es)
    (hes : ∀ e ∈ es, ∀ job e', e ≠ .request job e') (hworld : s'.world = s.world)
    (hw : s'.workers = Function.update s.workers w pc)
    (hnew : ∀ job pc', pc = .busy job pc' → pc' = .parse) : RequestView c s s' := by
  refine .quiet hlog hes (hworld ▸ .same) fun w' job pc' hpc => ?_
  rcases eq_or_ne w' w with rfl | hne
  · rw [hw, Function.update_self] at hpc
    exact .inr (hnew job pc' hpc)
  · rw [hw, Function.update_of_ne hne] at hpc
    exact .inl hpc

theorem Step.requestView {c : Core σ ω} {s s' : State n ω} {a : Action n σ}
    (h : Step c s a s') : RequestView c s s' := by
  have hnil := (List.append_nil s.log).symm
  have hes : ∀ e ∈ ([] : List (Event n)), ∀ job e', e ≠ .request job e' := by simp
  cases h with
  | readEof => exact .of_main rfl (by simp) .same rfl
  | enqueueLine => exact .of_main rfl (by simp) .same rfl
  | watcher hm hi hf => exact .of_main rfl (by simp) (.watcher hi hf) rfl
  | initThread =>
      refine .of_worker hnil hes rfl rfl fun job pc' hpc => ?_
      split at hpc <;> cases hpc
  | dequeueNull => exact .of_worker hnil hes rfl rfl (by simp)
  | dequeueJob =>
      refine .of_worker rfl (by simp) rfl rfl fun job pc' hpc => ?_
      cases hpc
      rfl
  | request hw hr => exact .request hw (hr ▸ requestStep_move ..) rfl rfl rfl
  | terminate => exact .of_worker hnil hes rfl rfl (by simp)
  | asyncSend => exact .of_worker hnil hes rfl rfl (by simp)
  | threadFree => exact .of_worker hnil hes rfl rfl (by simp)
  | coalesce => exact .of_worker hnil hes rfl rfl (by simp)
  | outside => exact .of_main hnil hes .outside rfl
  | _ => exact .of_main hnil hes .same rfl

end SquidHelper
