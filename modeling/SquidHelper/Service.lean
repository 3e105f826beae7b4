/-
SquidHelper/Service.lean

What the helper gives for what it reads, the whole input against the whole output.

Seen from the proxy the helper is a function on lines, applied to each of them:
`expectedAnswer`.  Any number of workers compute it together, and `answers_conserved` is
what can be said at any moment: the answers given, those in hand, and those for the lines
on the queue and still to be read are, in some order, the answers to the input.  Neither the
cache (`cache_is_transparent`) nor the order of plugins that agree (`order_is_irrelevant`)
changes them, and a single worker keeps the order of the input (`answers_in_order`).

What is enqueued and not answered is bounded (`backlog_bounded`).

From any moment on the workers need no one else to answer what they have, and they need
no more than a number of steps that can be read off the state (`drains`).

And they are never told to stop as long as no signal comes and one of them is alive, even
if the input has ended (`serves_until_signalled`).
-/
import SquidHelper.Accounting
import SquidHelper.Decision
import SquidHelper.Memcached
import SquidHelper.Shutdown

namespace SquidHelper

namespace Service

open CString History

variable {σ ω : Type*} {n : ℕ} {c : Core σ ω}

/-! ### The input -/

/-- The lines that are read or being read, but not yet enqueued. -/
def pendingLines (s : State n ω) : List (List Byte) :=
  (match s.main with
    | .stdinRead lines _ => lines
    | _ => []) ++ if s.stdinActive then linesBeforeEof s.reads else []

/-- In `stdin_read_cb`. -/
def inStdinRead : MainPc → Bool
  | .stdinRead _ _ => true
  | _ => false

/-- Every line of the input is enqueued or pending, in order. -/
structure Input (lines : List (List Byte)) (s : State n ω) : Prop where
  lines_eq : (enqueuedJobs s.log).map Job.line ++ pendingLines s = lines
  /-- `ev_io_stop` is called in the callback only. -/
  active : inStdinRead s.main = true → s.stdinActive = true

theorem linesBeforeEof_readNothing {rs rs' : List StdinRead} (h : readNothing rs = some rs') :
    linesBeforeEof rs' = linesBeforeEof rs := by
  cases rs with
  | nil =>
      cases h
      rfl
  | cons r rs =>
      cases r with
      | error =>
          cases h
          rfl
      | _ => cases h

theorem Input.init (reads : List StdinRead) (world : ω) :
    Input (linesBeforeEof reads) (State.init n reads world) where
  lines_eq := rfl
  active h := by cases h

/-- Steps that read and enqueue nothing. -/
theorem Input.of_quiet {lines : List (List Byte)} {s s' : State n ω} (h : Input lines s)
    (hlog : enqueuedJobs s'.log = enqueuedJobs s.log) (hpending : pendingLines s' = pendingLines s)
    (hactive : inStdinRead s'.main = true → s'.stdinActive = true) : Input lines s' :=
  ⟨by rw [hlog, hpending, h.lines_eq], hactive⟩

theorem Input.step {lines : List (List Byte)} {s s' : State n ω} {a : Action n σ}
    (h : Input lines s) (hs : Step c s a s') : Input lines s' := by
  have hactive := h.active
  cases hs with
  | readDone hm =>
      refine h.of_quiet rfl ?_ fun h' => by cases h'
      simp [pendingLines, hm]
  | readData hm hr =>
      rw [hm] at hactive
      refine h.of_quiet rfl ?_ fun _ => hactive rfl
      simp [pendingLines, hm, hr, hactive rfl, linesBeforeEof]
  | readEof hm hr =>
      rw [hm] at hactive
      refine h.of_quiet (by simp [enqueuedJobs]) ?_ fun h' => by cases h'
      simp [pendingLines, hm, hr, hactive rfl, linesBeforeEof]
  | readNothing hm hr =>
      refine h.of_quiet rfl ?_ fun h' => by cases h'
      simp [pendingLines, hm, linesBeforeEof_readNothing hr]
  | enqueueLine hm hq =>
      rw [hm] at hactive
      refine ⟨?_, fun _ => hactive rfl⟩
      have hlines := h.lines_eq
      simp only [pendingLines, hm] at hlines ⊢
      rw [← hlines, enqueuedJobs_append, List.map_append, List.append_assoc]
      rfl
  | threadSig hm => exact h.of_quiet rfl (by simp [pendingLines, hm]) fun h' => by cases h'
  | enqueueNull hm => exact h.of_quiet rfl (by simp [pendingLines, hm]) fun h' => by cases h'
  | startJoin hm => exact h.of_quiet rfl (by simp [pendingLines, hm]) fun h' => by cases h'
  | join hm => exact h.of_quiet rfl (by simp [pendingLines, hm]) fun h' => by cases h'
  | stdin hm ha => exact h.of_quiet rfl (by simp [pendingLines, hm]) fun _ => ha
  | async hm => exact h.of_quiet rfl (by simp [pendingLines, hm]) fun h' => by cases h'
  | leave hm => exact h.of_quiet rfl (by simp [pendingLines, hm]) fun h' => by cases h'
  | watcher =>
      refine h.of_quiet ?_ rfl hactive
      rw [enqueuedJobs_append, (quiet_printed _).enqueued, List.append_nil]
  | dequeueJob => exact h.of_quiet (by simp [enqueuedJobs]) rfl hactive
  | request => exact h.of_quiet (by simp) rfl hactive
  | _ => exact h.of_quiet rfl rfl hactive

theorem input_of_reaches {reads : List StdinRead} {world : ω} {s : State n ω}
    (h : (helper c n).Reaches (State.init n reads world) s) : Input (linesBeforeEof reads) s :=
  h.invariant (fun _ _ _ hs hstep => hs.step (step_step hstep)) (.init reads world)

/-! ### The output -/

/-- All answers, in the order they were given. -/
def answersIn (log : List (Event n)) : List (List Byte) :=
  log.flatMap fun e => match e with
    | .request _ e => e.output
    | _ => []

/-- The answers that a worker at this point still owes, if lines are answered with `v`. -/
def owedAnswers (v : List Byte → List Byte) : WorkerPc → List (List Byte)
  | .busy job pc => List.replicate pc.owed (v job.line)
  | _ => []

@[simp] theorem answersIn_append (log log' : List (Event n)) :
    answersIn (log ++ log') = answersIn log ++ answersIn log' := List.flatMap_append

theorem answersIn_request (job : Job) (es : List RequestEvent) :
    answersIn (es.map (Event.request (n := n) job)) = responses es := by
  rw [answersIn, List.flatMap_map]
  rfl

theorem answersIn_eq_nil {es : List (Event n)} (h : ∀ e ∈ es, ∀ job e', e ≠ .request job e') :
    answersIn es = [] := by
  rw [answersIn, List.flatMap_eq_nil_iff]
  intro e he
  cases e with
  | request job e' => exact absurd rfl (h _ he job e')
  | _ => rfl

theorem owedAnswers_afterStep (v : List Byte → List Byte) (job : Job) (next : Option RequestPc) :
    owedAnswers v (.afterStep job next) = List.replicate (owedNext next) (v job.line) := by
  cases next <;> rfl

/-- An answer among those of some events. -/
theorem mem_responses {es : List RequestEvent} {out : List Byte} (h : out ∈ responses es) :
    .responded out ∈ es := by
  obtain ⟨e, he, hout⟩ := List.mem_flatMap.mp h
  cases e with
  | responded out' =>
      obtain rfl := List.mem_singleton.mp hout
      exact he
  | _ => cases hout

/-- A step gives of the answers it owes what it does not owe afterwards. -/
theorem owed_eq {v : List Byte → List Byte} {job : Job} {pc : RequestPc} {o : σ} {world : ω}
    {r : RequestStep ω} (hmove : RequestMove c job.line o world pc r)
    (hv : ∀ out, .responded out ∈ r.events → out = v job.line) :
    List.replicate pc.owed (v job.line)
      = responses r.events ++ List.replicate (owedNext r.next) (v job.line) := by
  have hlen := hmove.responses
  have hall : responses r.events = List.replicate (responses r.events).length (v job.line) :=
    List.eq_replicate_iff.mpr ⟨rfl, fun out hout => hv out (mem_responses hout)⟩
  rw [hall, ← List.replicate_add, hlen]

/-! ### What a step does to the answers -/

/-- A step takes one request further, takes a line off the queue, or does neither, as the
answers see it. -/
inductive AnswerView (v : List Byte → List Byte) (s s' : State n ω) : Prop
  | request {w out} (hin : answersIn s'.log = answersIn s.log ++ out)
      (howed : owedAnswers v (s.workers w) = out ++ owedAnswers v (s'.workers w))
      (hjobs : dequeuedJobs s'.log = dequeuedJobs s.log)
      (hw : ∃ pc, s'.workers = Function.update s.workers w pc)
  | dequeue {w job} (hin : answersIn s'.log = answersIn s.log)
      (howed : owedAnswers v (s.workers w) = [])
      (howed' : owedAnswers v (s'.workers w) = [v job.line])
      (hjobs : dequeuedJobs s'.log = dequeuedJobs s.log ++ [job])
      (hw : ∃ pc, s'.workers = Function.update s.workers w pc)
  | quiet (hin : answersIn s'.log = answersIn s.log)
      (howed : ∀ w, owedAnswers v (s'.workers w) = owedAnswers v (s.workers w))
      (hjobs : dequeuedJobs s'.log = dequeuedJobs s.log)

theorem Step.answerView {v : List Byte → List Byte} {s s' : State n ω} {a : Action n σ}
    (hs : Step c s a s')
    (hv : ∀ job out, .request job (.responded out) ∈ s'.log → out = v job.line) :
    AnswerView v s s' := by
  cases hs.jobView with
  | @request w o job pc r ha hold hmove hlog hw =>
      refine .request (w := w) (by rw [hlog, answersIn_append, answersIn_request]) ?_
        (by rw [hlog]; simp) ⟨_, hw⟩
      rw [hw, Function.update_self, owedAnswers_afterStep, hold]
      refine owed_eq hmove fun out hout => hv job out ?_
      rw [hlog]
      exact List.mem_append_right _ (List.mem_map_of_mem hout)
  | @dequeue w o job ha hold hlog hw =>
      refine @AnswerView.dequeue _ _ _ _ _ w job ?_ (by rw [hold]; rfl) ?_ ?_ ⟨_, hw⟩
      · rw [hlog, answersIn_append]
        exact List.append_nil _
      · rw [hw, Function.update_self]
        rfl
      · rw [hlog, dequeuedJobs_append]
        rfl
  | quiet hjobs hevents hcalls hw =>
      refine .quiet ?_ (fun w => ?_) hjobs
      · cases hs.requestView with
        | @request w o job pc r hold hmove hlog hworld hw =>
            have hsame := hevents job
            rw [hlog, jobEvents_append, jobEvents_request, if_pos rfl] at hsame
            rw [hlog, List.append_right_eq_self.mp hsame]
            simp
        | quiet hlog hes => rw [hlog, answersIn_append, answersIn_eq_nil hes, List.append_nil]
      · cases hpc' : s'.workers w with
        | busy job pc => rw [(hw w job pc).mp hpc']
        | _ =>
            cases hpc : s.workers w with
            | busy job pc =>
                rw [(hw w job pc).mpr hpc] at hpc'
                cases hpc'
            | _ => rfl

/-! ### The whole input against the whole output -/

/-- What was answered and what is in hand is what was dequeued. -/
def Conserved (v : List Byte → List Byte) (s : State n ω) : Prop :=
  (answersIn s.log : Multiset (List Byte)) + ∑ w, (owedAnswers v (s.workers w) : Multiset (List Byte))
    = ((dequeuedJobs s.log).map fun job => v job.line : List (List Byte))

theorem Conserved.init (v : List Byte → List Byte) (reads : List StdinRead) (world : ω) :
    Conserved v (State.init n reads world) := by
  simp [Conserved, State.init, answersIn, owedAnswers, dequeuedJobs]

theorem Conserved.step {v : List Byte → List Byte} {s s' : State n ω} (h : Conserved v s)
    (hview : AnswerView v s s') : Conserved v s' := by
  unfold Conserved at h ⊢
  cases hview with
  | @request w out hin howed hjobs hw =>
      obtain ⟨pc, hw⟩ := hw
      have hsum := sum_update_add (fun _ pc => (owedAnswers v pc : Multiset (List Byte)))
        s.workers w pc
      rw [hw, Function.update_self] at howed
      rw [howed, ← Multiset.coe_add, ← add_assoc] at hsum
      rw [hin, hjobs, ← h, hw, ← Multiset.coe_add, add_assoc, add_comm (out : Multiset (List Byte)),
        add_right_cancel hsum]
  | @dequeue w job hin howed howed' hjobs hw =>
      obtain ⟨pc, hw⟩ := hw
      have hsum := sum_update_add (fun _ pc => (owedAnswers v pc : Multiset (List Byte)))
        s.workers w pc
      rw [hw, Function.update_self] at howed'
      rw [howed, howed', Multiset.coe_nil, add_zero] at hsum
      rw [hin, hjobs, List.map_append, ← Multiset.coe_add, ← h, hw, hsum, add_assoc]
      rfl
  | quiet hin howed hjobs =>
      rw [hin, hjobs, ← h]
      congr 1
      exact Finset.sum_congr rfl fun w _ => by rw [howed w]

/-- Every answer is the expected one, in every run. -/
def AnsweredBy (c : Core σ ω) (v : List Byte → List Byte) (s₀ : State n ω) : Prop :=
  ∀ s, (helper c n).Reaches s₀ s → ∀ job out, .request job (.responded out) ∈ s.log →
    out = v job.line

theorem conserved_of_reaches {v : List Byte → List Byte} {reads : List StdinRead} {world : ω}
    (hv : AnsweredBy c v (State.init n reads world)) {s : State n ω}
    (h : (helper c n).Reaches (State.init n reads world) s) : Conserved v s := by
  have hboth := h.invariant
    (I := fun s => (helper c n).Reaches (State.init n reads world) s ∧ Conserved v s)
    (fun s a s' hs hstep => ⟨hs.1.tail hstep,
      hs.2.step (Step.answerView (step_step hstep) (hv s' (hs.1.tail hstep)))⟩)
    ⟨.refl _, .init v reads world⟩
  exact hboth.2

/-- What is still to be answered besides what the workers have in hand. -/
def waitingLines (s : State n ω) : List (List Byte) :=
  s.jobQueue.items.reduceOption.map Job.line ++ pendingLines s

/-- The input, from its beginning. -/
theorem lines_eq {reads : List StdinRead} {world : ω} {s : State n ω}
    (h : (helper c n).Reaches (State.init n reads world) s) :
    (dequeuedJobs s.log).map Job.line ++ waitingLines s = linesBeforeEof reads := by
  have hinput := (input_of_reaches h).lines_eq
  rw [(answering_of_reaches h).fifo, List.map_append, List.append_assoc] at hinput
  exact hinput

/-- The answers to the whole input are those given, those in hand and those to come. -/
theorem conserved {v : List Byte → List Byte} {reads : List StdinRead} {world : ω}
    (hv : AnsweredBy c v (State.init n reads world)) {s : State n ω}
    (h : (helper c n).Reaches (State.init n reads world) s) :
    (answersIn s.log : Multiset (List Byte))
        + ∑ w, (owedAnswers v (s.workers w) : Multiset (List Byte))
        + ((waitingLines s).map v : Multiset (List Byte))
      = ((linesBeforeEof reads).map v : Multiset (List Byte)) := by
  rw [conserved_of_reaches hv h, Multiset.coe_add, ← lines_eq h, List.map_append, List.map_map]
  rfl

theorem mem_answersTo_iff {job : Job} {log : List (Event n)} {out : List Byte} :
    out ∈ answersTo job log ↔ .request job (.responded out) ∈ log :=
  ⟨mem_answersTo, fun h => List.mem_flatMap.mpr ⟨_, h, by simp [RequestEvent.output]⟩⟩

/-- The answer to a line when the plugins go by the address text. -/
def fixedAnswer (c : Core σ ω) (f : Plugin σ ω → List Byte → HandlerStatus) :
    List Byte → List Byte := expectedAnswer c fun text => verdict f text c.plugins

/-- Plugins that go by the address text. -/
theorem answeredBy_of_fixed {f : Plugin σ ω → List Byte → HandlerStatus} (hf : Fixed c f)
    (reads : List StdinRead) (world : ω) :
    AnsweredBy c (fixedAnswer c f) (State.init n reads world) := by
  intro s h job out hout
  exact answer_of_fixed hf h (mem_answersTo_iff.mpr hout)

/-- And the same with a cache among them. -/
theorem answeredBy_of_cached {f : Plugin σ ω → List Byte → HandlerStatus} (hf : Fixed c f)
    (hb : c.build.haveIpv6 = false) (k : ℕ) (m : Memcached) (reads : List StdinRead)
    {world : World ω}
    (hempty : ∀ key, WEBCONTROL_MEMCACHED_DEFAULT_KEY_PREFIX.isPrefixOf key = true →
      world.cache key = none) :
    AnsweredBy (memcachedCore c k m) (fixedAnswer c f) (State.init n reads world) := by
  intro s h job out hout
  have hfair := fair_of_reaches (hf.memcachedChain k m)
    (fun s₁ h₁ => (sound_of_reaches hb hempty h₁).repeats) h
  exact hfair.answer (mem_answersTo_iff.mpr hout)

/-- **Nothing is lost, made up or answered twice**, at any moment of any run: the answers
given, the ones the workers have in hand, and those for the lines on the queue and still to be
read, are the answers to the input, each as often as its line is in it. -/
theorem answers_conserved {f : Plugin σ ω → List Byte → HandlerStatus} (hf : Fixed c f)
    {reads : List StdinRead} {world : ω} {s : State n ω}
    (h : (helper c n).Reaches (State.init n reads world) s) :
    (answersIn s.log : Multiset (List Byte))
        + ∑ w, (owedAnswers (fixedAnswer c f) (s.workers w) : Multiset (List Byte))
        + ((waitingLines s).map (fixedAnswer c f) : Multiset (List Byte))
      = ((linesBeforeEof reads).map (fixedAnswer c f) : Multiset (List Byte)) :=
  conserved (answeredBy_of_fixed hf reads world) h

/-- The plugin of `allowCore`. -/
def allowOne (_ : Plugin Unit Unit) (text : List Byte) : HandlerStatus :=
  if text = ascii "10.0.0.1" then .allow else .goOn

theorem fixed_allowCore : Fixed allowCore allowOne := by
  intro p hp h hh o world req
  obtain rfl := List.mem_singleton.mp hp
  cases hh
  rfl

/-- The same address twice. -/
def twoLines : List StdinRead := [.data [ascii "1 10.0.0.1", ascii "2 10.0.0.1"] false]

/-- The first line is answered, the second is on the queue. -/
def firstAnswered : List (Action 1 Unit) :=
  [.stdin, .go, .go, .go, .go] ++ List.replicate 5 (.worker (Fin.last 0) ())

theorem answers_conserved_firstAnswered :
    ∃ s, (helper allowCore 1).exec (State.init 1 twoLines ()) firstAnswered = some s ∧
      answersIn s.log = [ascii "1 OK"] ∧
      (answersIn s.log : Multiset (List Byte))
        + ∑ w, (owedAnswers (fixedAnswer allowCore allowOne) (s.workers w) : Multiset (List Byte))
        + ((waitingLines s).map (fixedAnswer allowCore allowOne) : Multiset (List Byte))
      = ((linesBeforeEof twoLines).map (fixedAnswer allowCore allowOne) :
          Multiset (List Byte)) := by
  have hrun : ((helper allowCore 1).exec (State.init 1 twoLines ()) firstAnswered).any (fun s =>
      decide (answersIn s.log = [ascii "1 OK"])) = true := by decide +kernel
  obtain ⟨s, hs, hp⟩ := (Option.any_eq_true _ _).mp hrun
  exact ⟨s, hs, of_decide_eq_true hp, answers_conserved fixed_allowCore ⟨firstAnswered, hs⟩⟩

/-- Nothing is waiting, and the workers have nothing in hand. -/
def Served (s : State n ω) : Prop :=
  waitingLines s = [] ∧ ∀ w job pc, s.workers w = .busy job pc → pc.owed = 0

theorem Served.perm {v : List Byte → List Byte} {reads : List StdinRead} {world : ω}
    (hv : AnsweredBy c v (State.init n reads world)) {s : State n ω}
    (h : (helper c n).Reaches (State.init n reads world) s) (hserved : Served s) :
    (answersIn s.log).Perm ((linesBeforeEof reads).map v) := by
  have hall := conserved hv h
  have howed : ∀ w, owedAnswers v (s.workers w) = [] := by
    intro w
    cases hw : s.workers w with
    | busy job pc => rw [owedAnswers, hserved.2 w job pc hw, List.replicate_zero]
    | _ => rfl
  rw [hserved.1, Finset.sum_eq_zero fun w _ => by rw [howed w]; rfl] at hall
  simpa using hall

/-- **Neither the cache nor the number of workers can be seen from outside.**  When the plugins
go by the address text, a run with memcached anywhere among them and a run without it that have
both answered the same input, with any numbers of workers, have given the same answers, up to
their order. -/
theorem cache_is_transparent {f : Plugin σ ω → List Byte → HandlerStatus} (hf : Fixed c f)
    (hb : c.build.haveIpv6 = false) (k : ℕ) (m : Memcached) {reads reads' : List StdinRead}
    (hreads : linesBeforeEof reads = linesBeforeEof reads') {n' : ℕ} {world : World ω} {world' : ω}
    (hempty : ∀ key, WEBCONTROL_MEMCACHED_DEFAULT_KEY_PREFIX.isPrefixOf key = true →
      world.cache key = none)
    {s : State n (World ω)}
    (h : (helper (memcachedCore c k m) n).Reaches (State.init n reads world) s) (hs : Served s)
    {s' : State n' ω} (h' : (helper c n').Reaches (State.init n' reads' world') s')
    (hs' : Served s') : (answersIn s.log).Perm (answersIn s'.log) := by
  have hperm := hs.perm (answeredBy_of_cached hf hb k m reads hempty) h
  have hperm' := hs'.perm (answeredBy_of_fixed hf reads' world') h'
  rw [hreads] at hperm
  exact hperm.trans hperm'.symm

/-- With one worker and the cache. -/
def withCache : List (Action 1 (Chance Unit)) :=
  [.stdin, .go, .go, .go, .go] ++ List.replicate 13 (.worker (Fin.last 0) allGoesWell)

/-- With two workers, of which the second is faster. -/
def withoutCache : List (Action 2 Unit) :=
  [.stdin, .go, .go, .go, .go] ++ List.replicate 2 (.worker ⟨0, Nat.two_pos⟩ ()) ++
    List.replicate 7 (.worker (Fin.last 1) ()) ++ List.replicate 5 (.worker ⟨0, Nat.two_pos⟩ ())

theorem served_of_dequeue {s : State n ω} (hwaiting : waitingLines s = [])
    (hw : ∀ w, s.workers w = .dequeue) : Served s :=
  ⟨hwaiting, fun w job pc hpc => by rw [hw] at hpc; cases hpc⟩

/-- The order is not the same. -/
theorem cache_is_transparent_twoLines :
    ∃ s s', (helper (memcachedCore allowCore 0 memcachedSample) 1).exec
        (State.init 1 twoLines ⟨fun _ => none, ()⟩) withCache = some s ∧
      (helper allowCore 2).exec (State.init 2 twoLines ()) withoutCache = some s' ∧
      answersIn s'.log = [ascii "2 OK", ascii "1 OK"] ∧
      (answersIn s.log).Perm (answersIn s'.log) := by
  have hrun : ((helper (memcachedCore allowCore 0 memcachedSample) 1).exec
      (State.init 1 twoLines ⟨fun _ => none, ()⟩) withCache).any (fun s =>
        decide (waitingLines s = [] ∧ ∀ w, s.workers w = .dequeue)) = true := by decide +kernel
  have hrun' : ((helper allowCore 2).exec (State.init 2 twoLines ()) withoutCache).any (fun s =>
      decide (answersIn s.log = [ascii "2 OK", ascii "1 OK"] ∧ waitingLines s = [] ∧
        ∀ w, s.workers w = .dequeue)) = true := by decide +kernel
  obtain ⟨s, hs, hp⟩ := (Option.any_eq_true _ _).mp hrun
  obtain ⟨s', hs', hp'⟩ := (Option.any_eq_true _ _).mp hrun'
  obtain ⟨hwaiting, hw⟩ := of_decide_eq_true hp
  obtain ⟨hin, hwaiting', hw'⟩ := of_decide_eq_true hp'
  exact ⟨s, s', hs, hs', hin, cache_is_transparent fixed_allowCore rfl 0 memcachedSample rfl
    (fun _ _ => rfl) ⟨_, hs⟩ (served_of_dequeue hwaiting hw) ⟨_, hs'⟩
    (served_of_dequeue hwaiting' hw')⟩

/-! ### The order of the plugins -/

/-- No two plugins contradict each other about an address. -/
def Agree (c : Core σ ω) (f : Plugin σ ω → List Byte → HandlerStatus) : Prop :=
  ∀ p ∈ c.plugins, p.handleRequest.isSome → ∀ q ∈ c.plugins, q.handleRequest.isSome →
    ∀ text, (resolve c.build c.inetPton text).isSome →
      f p text ≠ .goOn → f q text ≠ .goOn → f p text = f q text

/-- Nobody decides, or somebody does. -/
theorem verdict_cases (f : Plugin σ ω → List Byte → HandlerStatus) (text : List Byte)
    (ps : List (Plugin σ ω)) :
    (verdict f text ps = .goOn ∧ ∀ p ∈ ps, p.handleRequest.isSome → f p text = .goOn) ∨
      ∃ p ∈ ps, p.handleRequest.isSome ∧ f p text ≠ .goOn ∧ verdict f text ps = f p text := by
  induction ps with
  | nil => exact .inl ⟨rfl, fun p hp => by cases hp⟩
  | cons p ps ih =>
      by_cases hp : p.handleRequest.isSome ∧ f p text ≠ .goOn
      · exact .inr ⟨p, List.mem_cons_self, hp.1, hp.2, if_pos hp⟩
      · have hskip : verdict f text (p :: ps) = verdict f text ps := if_neg hp
        rw [hskip]
        refine ih.imp ?_ ?_
        · rintro ⟨hverdict, hall⟩
          refine ⟨hverdict, fun q hq hsome => ?_⟩
          rcases List.mem_cons.mp hq with rfl | hq
          · by_contra hne
            exact hp ⟨hsome, hne⟩
          · exact hall q hq hsome
        · rintro ⟨q, hq, hrest⟩
          exact ⟨q, List.mem_cons_of_mem p hq, hrest⟩

/-- What plugins that agree come to does not depend on who is asked first. -/
theorem Agree.verdict_perm {f : Plugin σ ω → List Byte → HandlerStatus} (hagree : Agree c f)
    {ps : List (Plugin σ ω)} (hperm : c.plugins.Perm ps) {text : List Byte}
    (htext : (resolve c.build c.inetPton text).isSome) :
    verdict f text c.plugins = verdict f text ps := by
  rcases verdict_cases f text c.plugins with ⟨hnone, hall⟩ | ⟨p, hp, hsome, hne, hverdict⟩ <;>
    rcases verdict_cases f text ps with ⟨hnone', hall'⟩ | ⟨q, hq, hsome', hne', hverdict'⟩
  · rw [hnone, hnone']
  · exact absurd (hall q (hperm.mem_iff.mpr hq) hsome') hne'
  · exact absurd (hall' p (hperm.mem_iff.mp hp) hsome) hne
  · rw [hverdict, hverdict']
    exact hagree p hp hsome q (hperm.mem_iff.mpr hq) hsome' text htext hne hne'

theorem Agree.fixedAnswer_perm {f : Plugin σ ω → List Byte → HandlerStatus} (hagree : Agree c f)
    {ps : List (Plugin σ ω)} (hperm : c.plugins.Perm ps) :
    fixedAnswer { c with plugins := ps } f = fixedAnswer c f := by
  funext line
  simp only [fixedAnswer, expectedAnswer]
  cases hparse : parseRequest c.build c.inetPton line with
  | invalid req => rfl
  | valid req =>
      obtain ⟨a, ha, -⟩ := parseRequest_valid hparse
      have htext : (resolve c.build c.inetPton req.ipAddr.str).isSome := by rw [ha]; rfl
      simp only [hagree.verdict_perm hperm htext]
      rfl

/-- **The order of `-p` does not matter** for plugins that go by the address text and never
contradict each other: two runs that have answered the same input, with any numbers of
workers, have given the same answers, up to their order. -/
theorem order_is_irrelevant {f : Plugin σ ω → List Byte → HandlerStatus} (hf : Fixed c f)
    (hagree : Agree c f) {ps : List (Plugin σ ω)} (hperm : c.plugins.Perm ps)
    {reads reads' : List StdinRead} (hreads : linesBeforeEof reads = linesBeforeEof reads')
    {n' : ℕ} {world world' : ω} {s : State n ω}
    (h : (helper c n).Reaches (State.init n reads world) s) (hs : Served s) {s' : State n' ω}
    (h' : (helper { c with plugins := ps } n').Reaches (State.init n' reads' world') s')
    (hs' : Served s') : (answersIn s.log).Perm (answersIn s'.log) := by
  have hf' : Fixed { c with plugins := ps } f := fun p hp => hf p (hperm.mem_iff.mpr hp)
  have hgiven := hs.perm (answeredBy_of_fixed hf reads world) h
  have hgiven' := hs'.perm (answeredBy_of_fixed hf' reads' world') h'
  rw [hagree.fixedAnswer_perm hperm, ← hreads] at hgiven'
  exact hgiven.trans hgiven'.symm

/-- What a plugin returns for an address text. -/
def askPlugin (p : Plugin Unit Unit) (text : List Byte) : HandlerStatus :=
  match p.handleRequest with
  | none => .goOn
  | some h =>
      (h () () { Request.init with ipAddr := { Request.init.ipAddr with str := text } }).status

/-- A plugin that knows nothing. -/
def silentPlugin : Plugin Unit Unit where
  handleRequest := some fun _ _ _ => ⟨.goOn, false, ()⟩

/-- It is asked after the plugin of `allowCore`. -/
def silentLast : Core Unit Unit :=
  { allowCore with plugins := allowCore.plugins ++ [silentPlugin] }

theorem mem_silentLast {p : Plugin Unit Unit} (hp : p ∈ silentLast.plugins) :
    p ∈ allowCore.plugins ∨ p = silentPlugin := by
  rcases List.mem_append.mp hp with hp | hp
  · exact .inl hp
  · exact .inr (List.mem_singleton.mp hp)

theorem fixed_silentLast : Fixed silentLast askPlugin := by
  intro p hp h hh o world req
  rcases mem_silentLast hp with hp | rfl
  · obtain rfl := List.mem_singleton.mp hp
    cases hh
    rfl
  · cases hh
    rfl

theorem agree_silentLast : Agree silentLast askPlugin := by
  intro p hp _ q hq _ text _ hne hne'
  rcases mem_silentLast hp with hp | rfl
  · rcases mem_silentLast hq with hq | rfl
    · rw [List.mem_singleton.mp hp, List.mem_singleton.mp hq]
    · exact absurd rfl hne'
  · exact absurd rfl hne

/-- The lines are read, and the only worker takes so many steps. -/
def servedRun (k : ℕ) : List (Action 1 Unit) :=
  [.stdin, .go, .go, .go, .go] ++ List.replicate k (.worker (Fin.last 0) ())

/-- Asking the silent plugin first takes longer. -/
theorem order_is_irrelevant_silent :
    ∃ s s', (helper silentLast 1).exec (State.init 1 twoLines ()) (servedRun 15) = some s ∧
      (helper { silentLast with plugins := [silentPlugin] ++ allowCore.plugins } 1).exec
        (State.init 1 twoLines ()) (servedRun 17) = some s' ∧
      answersIn s.log = [ascii "1 OK", ascii "2 OK"] ∧
      (answersIn s.log).Perm (answersIn s'.log) := by
  have hrun : ((helper silentLast 1).exec (State.init 1 twoLines ()) (servedRun 15)).any (fun s =>
      decide (answersIn s.log = [ascii "1 OK", ascii "2 OK"] ∧ waitingLines s = [] ∧
        ∀ w, s.workers w = .dequeue)) = true := by decide +kernel
  have hrun' : ((helper { silentLast with plugins := [silentPlugin] ++ allowCore.plugins } 1).exec
      (State.init 1 twoLines ()) (servedRun 17)).any (fun s =>
        decide (waitingLines s = [] ∧ ∀ w, s.workers w = .dequeue)) = true := by decide +kernel
  obtain ⟨s, hs, hp⟩ := (Option.any_eq_true _ _).mp hrun
  obtain ⟨s', hs', hp'⟩ := (Option.any_eq_true _ _).mp hrun'
  obtain ⟨hin, hwaiting, hw⟩ := of_decide_eq_true hp
  obtain ⟨hwaiting', hw'⟩ := of_decide_eq_true hp'
  exact ⟨s, s', hs, hs', hin, order_is_irrelevant fixed_silentLast agree_silentLast
    List.perm_append_comm rfl ⟨_, hs⟩ (served_of_dequeue hwaiting hw) ⟨_, hs'⟩
    (served_of_dequeue hwaiting' hw')⟩

/-! ### How much is under way -/

/-- The lines that are enqueued and not answered. -/
def unanswered (log : List (Event n)) : List Job :=
  (enqueuedJobs log).filter fun job => (answersTo job log).isEmpty

theorem RequestPc.owed_le (pc : RequestPc) : pc.owed ≤ 1 := by
  cases pc <;> simp [RequestPc.owed]

/-- A worker has at most one line in hand. -/
theorem sum_owedTo_le (jobs : Finset Job) (pc : WorkerPc) : ∑ job ∈ jobs, owedTo job pc ≤ 1 := by
  cases pc with
  | busy job' pc =>
      simp only [owedTo]
      rw [Finset.sum_ite_eq]
      split
      case isTrue => exact RequestPc.owed_le pc
      case isFalse => exact Nat.zero_le 1
  | _ => simp [owedTo]

/-- A line that is dequeued and not answered is in the hands of a worker. -/
theorem length_taken_le {s : State n ω} (h : Answering s) :
    ((dequeuedJobs s.log).filter fun job => (answersTo job s.log).isEmpty).length ≤ n := by
  have hnodup := h.nodup
  rw [h.fifo] at hnodup
  have htaken := hnodup.of_append_left.filter fun job => (answersTo job s.log).isEmpty
  set jobs := (dequeuedJobs s.log).filter fun job => (answersTo job s.log).isEmpty
  have howed : ∀ job ∈ jobs.toFinset, 1 ≤ ∑ w, owedTo job (s.workers w) := by
    intro job hjob
    obtain ⟨hmem, hnone⟩ := List.mem_filter.mp (List.mem_toFinset.mp hjob)
    have hcount := List.count_pos_iff.mpr hmem
    have hbal := h.balance job
    rw [List.isEmpty_iff.mp hnone, List.length_nil] at hbal
    omega
  calc jobs.length = ∑ _job ∈ jobs.toFinset, 1 := by
        rw [← List.toFinset_card_of_nodup htaken, Finset.card_eq_sum_ones]
    _ ≤ ∑ job ∈ jobs.toFinset, ∑ w, owedTo job (s.workers w) := Finset.sum_le_sum howed
    _ = ∑ w, ∑ job ∈ jobs.toFinset, owedTo job (s.workers w) := Finset.sum_comm
    _ ≤ ∑ _w : Fin n, 1 := Finset.sum_le_sum fun w _ => sum_owedTo_le _ (s.workers w)
    _ = n := by simp

/-- **No more than the queue and the workers can hold is under way.**  At any moment of any
run at most 256 lines and one for each worker are enqueued and not answered. -/
theorem backlog_bounded {reads : List StdinRead} {world : ω} {s : State n ω}
    (h : (helper c n).Reaches (State.init n reads world) s) :
    (unanswered s.log).length ≤ 256 + n := by
  have hans := answering_of_reaches h
  have hqueue : (s.jobQueue.items.reduceOption.filter
      fun job => (answersTo job s.log).isEmpty).length ≤ 256 :=
    (List.length_filter_le _ _).trans ((List.reduceOption_length_le _).trans s.jobQueue.bound)
  have htaken := length_taken_le hans
  rw [unanswered, hans.fifo, List.filter_append, List.length_append]
  omega

theorem backlog_bounded_firstAnswered :
    ∃ s, (helper allowCore 1).exec (State.init 1 twoLines ()) firstAnswered = some s ∧
      unanswered s.log = [⟨1, ascii "2 10.0.0.1"⟩] ∧ (unanswered s.log).length ≤ 256 + 1 := by
  have hrun : ((helper allowCore 1).exec (State.init 1 twoLines ()) firstAnswered).any (fun s =>
      decide (unanswered s.log = [⟨1, ascii "2 10.0.0.1"⟩])) = true := by decide +kernel
  obtain ⟨s, hs, hp⟩ := (Option.any_eq_true _ _).mp hrun
  exact ⟨s, hs, of_decide_eq_true hp, backlog_bounded ⟨firstAnswered, hs⟩⟩

/-! ### A single worker -/

/-- The worker's answers so far, and the one it owes, are those to the lines it has taken. -/
theorem inOrder_of_reaches {v : List Byte → List Byte} {reads : List StdinRead} {world : ω}
    (hv : AnsweredBy c v (State.init 1 reads world)) {s : State 1 ω}
    (h : (helper c 1).Reaches (State.init 1 reads world) s) (w : Fin 1) :
    answersIn s.log ++ owedAnswers v (s.workers w)
      = (dequeuedJobs s.log).map fun job => v job.line := by
  have hboth := h.invariant
    (I := fun s => (helper c 1).Reaches (State.init 1 reads world) s ∧
      answersIn s.log ++ owedAnswers v (s.workers w)
        = (dequeuedJobs s.log).map fun job => v job.line)
    (fun s a s' hs hstep => ⟨hs.1.tail hstep, ?_⟩) ⟨.refl _, rfl⟩
  · exact hboth.2
  · have hin := hs.2
    cases Step.answerView (step_step hstep) (hv s' (hs.1.tail hstep)) with
    | @request w' out hout howed hjobs hw =>
        obtain rfl := Subsingleton.elim w' w
        rw [hout, hjobs, ← hin, howed, List.append_assoc]
    | @dequeue w' job hout howed howed' hjobs hw =>
        obtain rfl := Subsingleton.elim w' w
        rw [howed, List.append_nil] at hin
        rw [hout, hjobs, howed', hin, List.map_append]
        rfl
    | quiet hout howed hjobs => rw [hout, hjobs, howed, hin]

/-- **A single worker answers in the order of the input**: what it has answered, and what
it owes, and the rest of the input. -/
theorem answers_in_order {f : Plugin σ ω → List Byte → HandlerStatus} (hf : Fixed c f)
    {reads : List StdinRead} {world : ω} {s : State 1 ω}
    (h : (helper c 1).Reaches (State.init 1 reads world) s) (w : Fin 1) :
    answersIn s.log ++ owedAnswers (fixedAnswer c f) (s.workers w)
        ++ (waitingLines s).map (fixedAnswer c f)
      = (linesBeforeEof reads).map (fixedAnswer c f) := by
  rw [inOrder_of_reaches (answeredBy_of_fixed hf reads world) h w, ← lines_eq h, List.map_append,
    List.map_map]
  rfl

theorem answers_in_order_firstAnswered :
    ∃ s, (helper allowCore 1).exec (State.init 1 twoLines ()) firstAnswered = some s ∧
      answersIn s.log ++ owedAnswers (fixedAnswer allowCore allowOne) (s.workers (Fin.last 0))
        ++ (waitingLines s).map (fixedAnswer allowCore allowOne) = [ascii "1 OK", ascii "2 OK"] := by
  have hsome : ((helper allowCore 1).exec (State.init 1 twoLines ()) firstAnswered).isSome
      = true := by decide +kernel
  have hexpected : (linesBeforeEof twoLines).map (fixedAnswer allowCore allowOne)
      = [ascii "1 OK", ascii "2 OK"] := by decide +kernel
  obtain ⟨s, hs⟩ := Option.isSome_iff_exists.mp hsome
  exact ⟨s, hs, (answers_in_order fixed_allowCore ⟨firstAnswered, hs⟩ (Fin.last 0)).trans hexpected⟩

/-! ### The workers alone -/

/-- The steps the workers have left, in sum. -/
def workRank (c : Core σ ω) (s : State n ω) : ℕ :=
  (s.jobQueue.items.map (jobRank c.plugins.length)).sum +
    ∑ w, (s.workers w).rank c.plugins.length

theorem workRank_lt {s s' : State n ω} {a : Action n σ} (hs : Step c s a s')
    (ha : a.ofWorker = true) : workRank c s' < workRank c s := by
  obtain ⟨hmain, hlt⟩ := hs.shutdownRank_lt ha
  simp only [shutdownRank, hmain] at hlt
  unfold workRank
  omega

theorem jobRank_le (p : ℕ) (job : Option Job) : jobRank p job ≤ 2 * p + 5 := by
  cases job with
  | none => exact Nat.le_add_left 1 _
  | some job => exact le_rfl

theorem rank_le (p : ℕ) (pc : WorkerPc) : pc.rank p ≤ 2 * p + 8 := by
  cases pc with
  | busy job pc =>
      cases pc <;> simp only [WorkerPc.rank, RequestPc.rank] <;> omega
  | _ =>
      simp only [WorkerPc.rank]
      omega

/-- Per entry of `job_queue`, a line or a `NULL`, and per worker, at most so many. -/
theorem workRank_le (c : Core σ ω) (s : State n ω) :
    workRank c s ≤ s.jobQueue.items.length * (2 * c.plugins.length + 5)
      + n * (2 * c.plugins.length + 8) := by
  refine Nat.add_le_add ?_ ?_
  · have hsum := List.sum_le_card_nsmul (s.jobQueue.items.map (jobRank c.plugins.length))
      (2 * c.plugins.length + 5) (by simpa using fun job _ => jobRank_le _ job)
    simpa using hsum
  · have hsum := Finset.sum_le_card_nsmul Finset.univ
      (fun w => (s.workers w).rank c.plugins.length) (2 * c.plugins.length + 8)
      fun w _ => rank_le _ _
    simpa using hsum

/-- Where no worker can go on, no line is left. -/
theorem idle_of_stuck [Inhabited σ] {s : State n ω} (hterm : Terminators c s)
    (hlive : ∃ w : Fin n, Live c w)
    (hstuck : ∀ a : Action n σ, a.ofWorker = true → ¬ (helper c n).Enabled s a) :
    s.jobQueue.items.reduceOption = [] ∧ ∀ w job pc, s.workers w ≠ .busy job pc := by
  have hready : ∀ w, ¬ WorkerReady s w := fun w hw =>
    hstuck (.worker w default) rfl (enabled_worker hw)
  constructor
  · obtain ⟨w, hw⟩ := hlive
    have hnot := hready w
    -- a live worker waits at an empty queue, or has left its loop behind all lines
    have hdrained : (s.workers w).terminated = true → s.jobQueue.items.reduceOption = [] := by
      intro hdone
      rw [List.eq_nil_iff_forall_not_mem]
      intro job hjob
      exact hterm.drained w hw hdone job (List.reduceOption_mem_iff.mp hjob)
    cases hpc : s.workers w with
    | threadInit => simp [WorkerReady, hpc] at hnot
    | busy => simp [WorkerReady, hpc] at hnot
    | dequeue =>
        simp only [WorkerReady, hpc, ne_eq, not_not] at hnot
        rw [hnot]
        rfl
    | _ => exact hdrained (by rw [hpc]; rfl)
  · intro w job pc hpc
    exact hready w (by simp [WorkerReady, hpc])

/-- A line that is neither on the queue nor in hand has been answered. -/
theorem answered_of_idle {s : State n ω} (h : Answering s)
    (hqueue : s.jobQueue.items.reduceOption = []) (hidle : ∀ w job pc, s.workers w ≠ .busy job pc)
    {job : Job} (hjob : job ∈ enqueuedJobs s.log) : (answersTo job s.log).length = 1 := by
  have howed : ∑ w, owedTo job (s.workers w) = 0 := by
    refine Finset.sum_eq_zero fun w _ => ?_
    cases hpc : s.workers w with
    | busy job' pc => exact absurd hpc (hidle w job' pc)
    | _ => rfl
  have hfifo := h.fifo
  rw [hqueue, List.append_nil] at hfifo
  have hcount := List.count_eq_one_of_mem (hfifo ▸ h.nodup) (hfifo ▸ hjob)
  have hbal := h.balance job
  omega

/-- The workers alone take no more steps than they have left. -/
theorem length_le_workRank {s s' : State n ω} {as : List (Action n σ)}
    (has : ∀ a ∈ as, a.ofWorker = true) (hs' : (helper c n).exec s as = some s') :
    as.length ≤ workRank c s := by
  have hlen := Guarded.length_le_of_rank (fun a : Action n σ => a.ofWorker = true) (workRank c)
    (fun _ _ _ ha hstep => workRank_lt (step_step hstep) ha) hs' has
  omega

/-- Where no worker can go on, every line has its answer. -/
theorem answered_of_stuck [Inhabited σ] {reads : List StdinRead} {world : ω}
    (hlive : ∃ w : Fin n, Live c w) {s : State n ω}
    (h : (helper c n).Reaches (State.init n reads world) s)
    (hstuck : ∀ a : Action n σ, a.ofWorker = true → ¬ (helper c n).Enabled s a) {job : Job}
    (hjob : job ∈ enqueuedJobs s.log) : (answersTo job s.log).length = 1 := by
  obtain ⟨hqueue, hidle⟩ := idle_of_stuck (terminators_of_reaches h) hlive hstuck
  exact answered_of_idle (answering_of_reaches h) hqueue hidle hjob

/-- **Every line is answered, in bounded time.**  From any state the helper can be in, with a
worker alive: the workers alone can take so many steps for each entry of `job_queue`, its
`NULL`s included, and for each worker, and no more, in whatever order; and when none of them
can go on, every line that was ever enqueued has been answered, once. -/
theorem drains [Inhabited σ] {reads : List StdinRead} {world : ω} (hlive : ∃ w : Fin n, Live c w)
    {s : State n ω} (h : (helper c n).Reaches (State.init n reads world) s)
    {as : List (Action n σ)} (has : ∀ a ∈ as, a.ofWorker = true) {s' : State n ω}
    (hs' : (helper c n).exec s as = some s') :
    as.length ≤ s.jobQueue.items.length * (2 * c.plugins.length + 5)
        + n * (2 * c.plugins.length + 8) ∧
      ((∀ a : Action n σ, a.ofWorker = true → ¬ (helper c n).Enabled s' a) →
        ∀ job ∈ enqueuedJobs s'.log, (answersTo job s'.log).length = 1) := by
  refine ⟨(length_le_workRank has hs').trans (workRank_le c s), ?_⟩
  intro hstuck job hjob
  exact answered_of_stuck hlive (h.trans ⟨as, hs'⟩) hstuck hjob

/-- Two lines are on the queue, and the worker has not begun. -/
def queued : List (Action 1 Unit) := [.stdin, .go, .go, .go, .go]

theorem drains_twoLines :
    ∃ s s', (helper allowCore 1).exec (State.init 1 twoLines ()) queued = some s ∧
      (helper allowCore 1).exec s (List.replicate 13 (.worker (Fin.last 0) ())) = some s' ∧
      13 ≤ s.jobQueue.items.length * (2 * 1 + 5) + 1 * (2 * 1 + 8) ∧
      (answersTo ⟨1, ascii "2 10.0.0.1"⟩ s'.log).length = 1 := by
  have hrun : ((helper allowCore 1).exec (State.init 1 twoLines ()) queued).any (fun s =>
      ((helper allowCore 1).exec s (List.replicate 13 (.worker (Fin.last 0) ()))).any fun s' =>
        decide ((∀ w, ¬ (helper allowCore 1).Enabled s' (.worker w ()) ∧
            ¬ (helper allowCore 1).Enabled s' (.coalesce w)) ∧
          ⟨1, ascii "2 10.0.0.1"⟩ ∈ enqueuedJobs s'.log)) = true := by decide +kernel
  obtain ⟨s, hs, hp⟩ := (Option.any_eq_true _ _).mp hrun
  obtain ⟨s', hs', hp'⟩ := (Option.any_eq_true _ _).mp hp
  obtain ⟨hstuck, hjob⟩ := of_decide_eq_true hp'
  obtain ⟨hlen, hanswered⟩ := drains ⟨Fin.last 0, by decide⟩ ⟨queued, hs⟩
    (fun a ha => by rw [List.eq_of_mem_replicate ha]; rfl) hs'
  refine ⟨s, s', hs, hs', hlen, hanswered (fun a ha => ?_) _ hjob⟩
  cases a with
  | worker w o => exact (hstuck w).1
  | coalesce w => exact (hstuck w).2
  | _ => cases ha

/-! ### Without a signal -/

/-- The loop runs on, and nobody alive has left. -/
structure Serving (c : Core σ ω) (s : State n ω) : Prop where
  running : s.main.late = false
  going : s.stopped = false

theorem nullsEnqueued_of_running {m : MainPc} (h : m.late = false) : m.nullsEnqueued n = 0 := by
  cases m <;> first | rfl | cases h

/-- One step; the last message of a worker does not come while one is alive. -/
theorem Serving.step {s s' : State n ω} {a : Action n σ} {as : List (Action n σ)}
    (h : Serving c s) (hlive : ∃ w : Fin n, Live c w) (hterm : Terminators c s)
    (hmsg : Messages as s) (ha : a ≠ .signal) (hs : Step c s a s') : Serving c s' := by
  have hrun := h.running
  have hgo := h.going
  cases hs with
  | signal => exact absurd rfl ha
  | leave hm hstop =>
      rw [hgo] at hstop
      cases hstop
  | @threadSig w q hm hq =>
      refine ⟨rfl, ?_⟩
      obtain ⟨w₀, hw₀⟩ := hlive
      have hnot := hterm.not_terminated (nullsEnqueued_of_running hrun) hw₀
      have hqueued : (s.workers w₀).queued = false := by
        cases hpc : s.workers w₀ <;> first | rfl | (rw [hpc] at hnot; cases hnot)
      have hlt := sum_toNat_lt (f := fun w => (s.workers w).queued) hqueued
      have hcount := hmsg.queued
      rw [hq, List.length_cons] at hcount
      have hdec : decrement s.activeWorkers ≠ 0 := by
        rw [decrement, if_neg (by omega)]
        omega
      show (s.stopped || decrement s.activeWorkers == 0) = false
      rw [hgo, Bool.false_or, beq_eq_false_iff_ne]
      exact hdec
  | enqueueNull hm => rw [hm] at hrun; cases hrun
  | startJoin hm => rw [hm] at hrun; cases hrun
  | join hm => rw [hm] at hrun; cases hrun
  | readDone => exact ⟨rfl, hgo⟩
  | readData => exact ⟨rfl, hgo⟩
  | readEof => exact ⟨rfl, hgo⟩
  | readNothing => exact ⟨rfl, hgo⟩
  | enqueueLine => exact ⟨rfl, hgo⟩
  | stdin => exact ⟨rfl, hgo⟩
  | async => exact ⟨rfl, hgo⟩
  | _ => exact ⟨hrun, hgo⟩

/-- **Only a signal ends the helper.**  In a run without one, and with a worker whose
`thread_init` succeeds, the event loop never returns and no such worker leaves its loop,
whatever is read: also when the input has ended, the process stays. -/
theorem serves_until_signalled {reads : List StdinRead} {world : ω}
    (hlive : ∃ w : Fin n, Live c w) {as : List (Action n σ)} (has : ∀ a ∈ as, a ≠ .signal)
    {s : State n ω} (h : (helper c n).exec (State.init n reads world) as = some s) :
    s.main.late = false ∧ s.stopped = false ∧
      ∀ w, Live c w → (s.workers w).terminated = false := by
  have hserving : (∀ a ∈ as, a ≠ .signal) → Serving c s := by
    refine Guarded.exec_induction (P := fun as s => (∀ a ∈ as, a ≠ .signal) → Serving c s)
      (fun _ => ⟨rfl, rfl⟩) (fun as s₁ a s₂ hexec ih hstep has => ?_) h
    obtain ⟨has, ha⟩ := List.forall_mem_append.mp has
    exact (ih has).step hlive (terminators_of_reaches ⟨as, hexec⟩) (messages_of_exec hexec)
      (ha a (List.mem_singleton_self a)) (step_step hstep)
  obtain ⟨hrun, hgo⟩ := hserving has
  exact ⟨hrun, hgo, fun w hw =>
    (terminators_of_reaches ⟨as, h⟩).not_terminated (nullsEnqueued_of_running hrun) hw⟩

/-- The input ends, and the helper stays. -/
theorem serves_until_signalled_eof :
    ∃ s, (helper allowCore 1).exec (State.init 1 [.eof] ()) [.stdin, .go] = some s ∧
      s.reads = [] ∧ s.stdinActive = false ∧ s.stopped = false := by
  have hrun : ((helper allowCore 1).exec (State.init 1 [.eof] ()) [.stdin, .go]).any (fun s =>
      decide (s.reads = [] ∧ s.stdinActive = false)) = true := by decide
  obtain ⟨s, hs, hp⟩ := (Option.any_eq_true _ _).mp hrun
  obtain ⟨hreads, hactive⟩ := of_decide_eq_true hp
  exact ⟨s, hs, hreads, hactive,
    (serves_until_signalled ⟨Fin.last 0, by decide⟩ (by simp) hs).2.1⟩

end Service

end SquidHelper
