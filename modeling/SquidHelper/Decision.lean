/-
SquidHelper/Decision.lean

Who decides about a request: the first handler that returns anything but `HANDLER_GO_ON`,
and if there is none, `deny_by_default`.

What the handlers return during a run is not in the log, so it is read off the run itself:
`calls` lists the calls made for one line, each with the request that was passed and what
came back.  `RequestRun` follows a single request from `parse` on, and `RequestRun.shape`
says what its events and calls look like at each point.  `Tracked` carries this over to the
whole helper: the events and calls of a line, whatever the other threads do in between, are
those of one request.
-/
import SquidHelper.Verdict

namespace SquidHelper

open CString

variable {σ ω : Type*} {n : ℕ}

/-! ### Calls -/

/-- A call of `handle_request`: the position of the plugin, the request as it is passed, and
what comes back. -/
structure Call where
  plugin : ℕ
  request : Request
  status : HandlerStatus
  skip : Bool
  deriving DecidableEq, Repr

def Call.event (call : Call) : RequestEvent :=
  .handled call.plugin call.request.ipAddr.str call.status

/-- The handler of plugin `i`. -/
def Core.handler (c : Core σ ω) (i : ℕ) : Option (σ → ω → Request → HandlerResult ω) :=
  c.plugins[i]?.bind (·.handleRequest)

theorem Core.handler_eq {c : Core σ ω} {i : ℕ} {p : Plugin σ ω} (hi : c.plugins[i]? = some p) :
    c.handler i = p.handleRequest := by
  rw [Core.handler, hi]
  rfl

/-- The call made at a point of a request. -/
def callAt (c : Core σ ω) (o : σ) (world : ω) : RequestPc → List Call
  | .handle req i =>
      match c.handler i with
      | none => []
      | some h => [⟨i, req, (h o world req).status, (h o world req).skip⟩]
  | _ => []

/-- The call made for `job` in one step of the helper. -/
def callsInStep (c : Core σ ω) (job : Job) (s : State n ω) : Action n σ → List Call
  | .worker w o =>
      match s.workers w with
      | .busy job' pc => if job' = job then callAt c o s.world pc else []
      | _ => []
  | _ => []

/-- The calls made for `job` in a run from `s`. -/
def calls (c : Core σ ω) (job : Job) (s : State n ω) (as : List (Action n σ)) : List Call :=
  (helper c n).trace (callsInStep c job) s as

theorem calls_concat {c : Core σ ω} {job : Job} {s s' : State n ω} {as : List (Action n σ)}
    (h : (helper c n).exec s as = some s') (a : Action n σ) :
    calls c job s (as ++ [a]) = calls c job s as ++ callsInStep c job s' a :=
  Guarded.trace_concat _ h a

/-- The events of one line. -/
def jobEvents (job : Job) (log : List (Event n)) : List RequestEvent :=
  log.flatMap fun e => match e with
    | .request job' e => if job' = job then [e] else []
    | _ => []

@[simp] theorem jobEvents_append (job : Job) (log log' : List (Event n)) :
    jobEvents job (log ++ log') = jobEvents job log ++ jobEvents job log' := List.flatMap_append

theorem jobEvents_request (job job' : Job) (es : List RequestEvent) :
    jobEvents job (es.map (Event.request (n := n) job')) = if job' = job then es else [] := by
  rw [jobEvents, List.flatMap_map]
  split
  case isTrue h => simp [h]
  case isFalse h => simp [h]

/-! ### What the calls come to -/

/-- The positions below `k` with a handler. -/
def handlersBelow (c : Core σ ω) (k : ℕ) : List ℕ :=
  (List.range k).filter fun i => (c.handler i).isSome

/-- The positions below `k` with a post handler. -/
def postsBelow (c : Core σ ω) (k : ℕ) : List ℕ :=
  (List.range k).filter fun i => (c.plugins[i]?.bind (·.postHandleRequest)).isSome

/-- The first status other than `HANDLER_GO_ON`. -/
def decision (cs : List Call) : Option HandlerStatus :=
  (cs.find? fun call => call.status ≠ .goOn).map Call.status

/-- The answer to `line` after the calls `cs`. -/
def answer (c : Core σ ω) (line : List Byte) (cs : List Call) : List Byte :=
  verdictAnswer c (lineChannel line) ((decision cs).getD .goOn)

/-- The post handlers are due: there is a decision, and nobody asked to skip them. -/
def PostsDue (cs : List Call) : Prop :=
  (decision cs = some .allow ∨ decision cs = some .deny) ∧ ∀ call ∈ cs, call.skip = false

instance (cs : List Call) : Decidable (PostsDue cs) := by
  unfold PostsDue; infer_instance

/-- The calls of post handlers below `k`, for a request with address `text`. -/
def postEvents (c : Core σ ω) (text : List Byte) (cs : List Call) (k : ℕ) : List RequestEvent :=
  (postsBelow c k).map fun i => .posted i text ((decision cs).getD .goOn).toInt

/-- All that is seen of a request with the calls `cs`. -/
def fullTrace (c : Core σ ω) (line text : List Byte) (cs : List Call) : List RequestEvent :=
  cs.map Call.event ++ .responded (answer c line cs) ::
    if PostsDue cs then postEvents c text cs c.plugins.length else []

theorem handlersBelow_succ (c : Core σ ω) (i : ℕ) :
    handlersBelow c (i + 1) = handlersBelow c i ++ if (c.handler i).isSome then [i] else [] := by
  rw [handlersBelow, List.range_succ, List.filter_append, List.filter_singleton, ← handlersBelow]
  cases c.handler i <;> rfl

theorem postsBelow_succ (c : Core σ ω) (i : ℕ) :
    postsBelow c (i + 1) = postsBelow c i ++
      if (c.plugins[i]?.bind (·.postHandleRequest)).isSome then [i] else [] := by
  rw [postsBelow, List.range_succ, List.filter_append, List.filter_singleton, ← postsBelow]
  cases c.plugins[i]?.bind (·.postHandleRequest) <;> rfl

/-- Behind the last plugin there is nothing. -/
theorem handlersBelow_of_le {c : Core σ ω} {i : ℕ} (h : c.plugins.length ≤ i) :
    handlersBelow c i = handlersBelow c c.plugins.length := by
  induction i, h using Nat.le_induction with
  | base => rfl
  | succ i hle ih =>
      have hnone : c.handler i = none := by
        rw [Core.handler, List.getElem?_eq_none hle]
        rfl
      rw [handlersBelow_succ, ih, hnone]
      exact List.append_nil _

theorem postsBelow_of_le {c : Core σ ω} {i : ℕ} (h : c.plugins.length ≤ i) :
    postsBelow c i = postsBelow c c.plugins.length := by
  induction i, h using Nat.le_induction with
  | base => rfl
  | succ i hle ih =>
      rw [postsBelow_succ, ih, List.getElem?_eq_none hle]
      exact List.append_nil _

theorem decision_eq_none {cs : List Call} (h : ∀ call ∈ cs, call.status = .goOn) :
    decision cs = none := by
  rw [decision, Option.map_eq_none_iff, List.find?_eq_none]
  intro call hcall
  simp [h call hcall]

theorem decision_concat {cs : List Call} (h : ∀ call ∈ cs, call.status = .goOn) {call : Call}
    (hcall : call.status ≠ .goOn) : decision (cs ++ [call]) = some call.status := by
  have hnone : cs.find? (fun call => decide (call.status ≠ .goOn)) = none := by
    rw [List.find?_eq_none]
    intro call' hcall'
    simp [h call' hcall']
  rw [decision, List.find?_append, hnone]
  simp [hcall]

/-! ### One request -/

/-- What may have been seen of a request, and the calls made, when it is at `next`. -/
inductive RequestRun (c : Core σ ω) (line : List Byte) :
    Option RequestPc → List RequestEvent → List Call → Prop
  | start : RequestRun c line (some .parse) [] []
  | move {pc es cs o world r} (h : RequestRun c line (some pc) es cs)
      (hmove : RequestMove c line o world pc r) :
      RequestRun c line r.next (es ++ r.events) (cs ++ callAt c o world pc)

/-- The handlers up to `i` have been asked, in order, and went on. -/
structure Asked (c : Core σ ω) (line : List Byte) (req : Request) (i : ℕ) (cs : List Call) :
    Prop where
  read : req.ReadFrom c.build c.inetPton line
  passed : ∀ call ∈ cs, call.request.ReadFrom c.build c.inetPton line
  plugins : cs.map Call.plugin = handlersBelow c i
  goOn : ∀ call ∈ cs, call.status = .goOn
  skip : req.skipPostHandleRequest = cs.any Call.skip
  result : req.result = -1 ∨ req.result = HandlerStatus.goOn.toInt

/-- One of them decided, or there are no more. -/
structure Settled (c : Core σ ω) (line : List Byte) (req : Request) (cs : List Call) : Prop where
  read : req.ReadFrom c.build c.inetPton line
  passed : ∀ call ∈ cs, call.request.ReadFrom c.build c.inetPton line
  skip : req.skipPostHandleRequest = cs.any Call.skip
  outcome :
    (decision cs = none ∧ cs.map Call.plugin = handlersBelow c c.plugins.length ∧
      (∀ call ∈ cs, call.status = .goOn) ∧
      (req.result = -1 ∨ req.result = HandlerStatus.goOn.toInt)) ∨
    ∃ before call, cs = before ++ [call] ∧ (∀ call ∈ before, call.status = .goOn) ∧
      call.status ≠ .goOn ∧ before.map Call.plugin = handlersBelow c call.plugin ∧
      (c.handler call.plugin).isSome ∧ req.result = call.status.toInt

/-- The events and calls at each point. -/
def Shape (c : Core σ ω) (line : List Byte) (es : List RequestEvent) (cs : List Call) :
    Option RequestPc → Prop
  | some .parse => es = [] ∧ cs = []
  | some (.invalid req) =>
      parseRequest c.build c.inetPton line = .invalid req ∧ es = [] ∧ cs = []
  | some (.handle req i) => Asked c line req i cs ∧ es = cs.map Call.event
  | some (.respond req) => Settled c line req cs ∧ es = cs.map Call.event
  | some (.post req i) =>
      Settled c line req cs ∧ PostsDue cs ∧
        es = cs.map Call.event ++ .responded (answer c line cs) :: postEvents c req.ipAddr.str cs i
  | none =>
      (∃ req, parseRequest c.build c.inetPton line = .invalid req ∧ cs = [] ∧
        es = [.responded (sendResponse (lineChannel line) (-1)
          (some (ascii "Valid IP address expected")))]) ∨
      ∃ req, Settled c line req cs ∧ es = fullTrace c line req.ipAddr.str cs

section Shape

variable {c : Core σ ω} {line : List Byte} {o : σ} {world : ω} {req : Request} {i : ℕ}
  {es : List RequestEvent} {cs : List Call}

theorem Asked.init {req : Request} (h : parseRequest c.build c.inetPton line = .valid req)
    (hskip : req.skipPostHandleRequest = false) : Asked c line req 0 [] where
  read := .of_parse h
  passed _ hcall := by cases hcall
  plugins := rfl
  goOn _ hcall := by cases hcall
  skip := hskip
  result := .inl (parseRequest_result h)

/-- A plugin without a handler is passed over. -/
theorem Asked.noHandler (h : Asked c line req i cs) (hi : c.handler i = none) :
    Asked c line req (i + 1) cs :=
  ⟨h.read, h.passed, by rw [h.plugins, handlersBelow_succ, hi]; exact (List.append_nil _).symm,
    h.goOn, h.skip, h.result⟩

/-- A handler is called with the address of the line. -/
theorem Asked.passed_concat (h : Asked c line req i cs) (status : HandlerStatus) (skip : Bool) :
    ∀ call ∈ cs ++ [⟨i, req, status, skip⟩],
      call.request.ReadFrom c.build c.inetPton line := by
  refine List.forall_mem_append.mpr ⟨h.passed, ?_⟩
  exact List.forall_mem_singleton.mpr h.read

theorem Asked.goOn_concat (h : Asked c line req i cs) (hi : (c.handler i).isSome) (skip : Bool) :
    Asked c line (req.after .goOn skip) (i + 1) (cs ++ [⟨i, req, .goOn, skip⟩]) where
  read := h.read
  passed := h.passed_concat .goOn skip
  plugins := by
    rw [List.map_append, h.plugins, handlersBelow_succ, if_pos hi]
    rfl
  goOn := List.forall_mem_append.mpr ⟨h.goOn, List.forall_mem_singleton.mpr rfl⟩
  skip := by
    rw [List.any_append, ← h.skip]
    simp [Request.after]
  result := .inr rfl

theorem Asked.decide_concat (h : Asked c line req i cs) (hi : (c.handler i).isSome)
    {status : HandlerStatus} (hstatus : status ≠ .goOn) (skip : Bool) :
    Settled c line (req.after status skip) (cs ++ [⟨i, req, status, skip⟩]) where
  read := h.read
  passed := h.passed_concat status skip
  skip := by
    rw [List.any_append, ← h.skip]
    simp [Request.after]
  outcome := .inr ⟨cs, ⟨i, req, status, skip⟩, rfl, h.goOn, hstatus, h.plugins, hi, rfl⟩

theorem Asked.exhausted (h : Asked c line req i cs) (hi : c.plugins.length ≤ i) :
    Settled c line req cs :=
  ⟨h.read, h.passed, h.skip,
    .inl ⟨decision_eq_none h.goOn, by rw [h.plugins, handlersBelow_of_le hi], h.goOn, h.result⟩⟩

/-- `req->response.result` is the decision, if it is one. -/
theorem Settled.decision_iff (h : Settled c line req cs) {status : HandlerStatus}
    (hd : status.Decisive) : req.result = status.toInt ↔ decision cs = some status := by
  rcases h.outcome with ⟨hnone, -, -, hres⟩ | ⟨before, call, rfl, hgo, hstatus, -, -, hres⟩
  · rw [hnone]
    constructor
    · intro heq
      rcases hres with hres | hres
      · exact absurd (heq.symm.trans hres) status.toInt_ne_neg_one
      · rw [heq, HandlerStatus.toInt_inj] at hres
        exact absurd hres hd.ne_goOn
    · intro heq
      cases heq
  · rw [decision_concat hgo hstatus, hres, HandlerStatus.toInt_inj, Option.some.injEq]

/-- The answer to a decision. -/
theorem Settled.answer_decision (h : Settled c line req cs) {status : HandlerStatus}
    (hd : status.Decisive) (hres : req.result = status.toInt) :
    decisionAnswer req.channel status = answer c line cs := by
  obtain ⟨_, -, -, hchannel⟩ := h.read
  rw [answer, (h.decision_iff hd).mp hres, hchannel]
  rcases hd with rfl | rfl <;> rfl

/-- The answer without one. -/
theorem Settled.answer_undecided (h : Settled c line req cs)
    (hallow : req.result ≠ HandlerStatus.allow.toInt)
    (hdeny : req.result ≠ HandlerStatus.deny.toInt) :
    ¬ PostsDue cs ∧
    sendResponse req.channel (if c.denyByDefault then -1 else 0) (some (ascii "UNKNOWN ERR"))
      = answer c line cs := by
  obtain ⟨_, -, -, hchannel⟩ := h.read
  have hallow' := mt (h.decision_iff (.inl rfl)).mpr hallow
  have hdeny' := mt (h.decision_iff (.inr rfl)).mpr hdeny
  refine ⟨fun hdue => hdue.1.elim hallow' hdeny', ?_⟩
  rw [answer, hchannel]
  cases hdec : decision cs with
  | none => rfl
  | some status =>
      cases status with
      | allow => exact absurd hdec hallow'
      | deny => exact absurd hdec hdeny'
      | _ => rfl

/-- Whether the post handlers are due can be told from the request. -/
theorem Settled.postsDue (h : Settled c line req cs) {status : HandlerStatus}
    (hd : status.Decisive) (hres : req.result = status.toInt) :
    PostsDue cs ↔ req.skipPostHandleRequest = false := by
  have hdec := (h.decision_iff hd).mp hres
  have hany : (∀ call ∈ cs, call.skip = false) ↔ cs.any Call.skip = false := by
    rw [List.any_eq_false]
    exact forall₂_congr fun call _ => by simp
  rw [PostsDue, hany, ← h.skip]
  refine and_iff_right ?_
  rcases hd with rfl | rfl
  · exact .inl hdec
  · exact .inr hdec

/-- After `ALLOW` or `DENY`. -/
theorem Settled.shape_afterDecision (h : Settled c line req cs) {status : HandlerStatus}
    (hd : status.Decisive) (hres : req.result = status.toInt) :
    Shape c line (cs.map Call.event ++ [.responded (answer c line cs)]) cs (afterDecision req) := by
  have hiff := h.postsDue hd hres
  unfold afterDecision
  split
  case isTrue hskip =>
    refine .inr ⟨req, h, ?_⟩
    rw [fullTrace, if_neg]
    intro hdue
    rw [hiff.mp hdue] at hskip
    cases hskip
  case isFalse hskip =>
    refine ⟨h, hiff.mpr (Bool.eq_false_iff.mpr hskip), ?_⟩
    rfl

/-- The answer to a line without an address. -/
theorem shape_invalid (h : parseRequest c.build c.inetPton line = .invalid req) :
    Shape c line [.responded (sendResponse req.channel (-1)
      (some (ascii "Valid IP address expected")))] [] none := by
  refine .inl ⟨req, h, rfl, ?_⟩
  rw [parseRequest_channel (.inr h)]

/-- **One step of a request.** -/
theorem Shape.move {pc : RequestPc} {r : RequestStep ω} (h : Shape c line es cs (some pc))
    (hmove : RequestMove c line o world pc r) :
    Shape c line (es ++ r.events) (cs ++ callAt c o world pc) r.next := by
  cases hmove with
  | accept hparse =>
      obtain ⟨rfl, rfl⟩ := h
      exact ⟨.init hparse (parseRequest_skip hparse), rfl⟩
  | reject hparse =>
      obtain ⟨rfl, rfl⟩ := h
      exact ⟨hparse, rfl, rfl⟩
  | invalid =>
      obtain ⟨hparse, rfl, rfl⟩ := h
      exact shape_invalid hparse
  | @noPlugin req i hi =>
      obtain ⟨hasked, rfl⟩ := h
      have hnone : c.handler i = none := by
        rw [Core.handler, hi]
        rfl
      simp only [callAt, hnone, List.append_nil]
      -- all plugins were asked
      exact ⟨hasked.exhausted (List.getElem?_eq_none_iff.mp hi), rfl⟩
  | @noHandler req i p hi hp =>
      obtain ⟨hasked, rfl⟩ := h
      have hnone : c.handler i = none := (Core.handler_eq hi).trans hp
      simp only [callAt, hnone, List.append_nil]
      exact ⟨hasked.noHandler hnone, rfl⟩
  | @goOn req i p f r hi hp hr hstatus =>
      obtain ⟨hasked, rfl⟩ := h
      have hsome : c.handler i = some f := (Core.handler_eq hi).trans hp
      simp only [callAt, hsome, hr, hstatus]
      refine ⟨hasked.goOn_concat (by rw [hsome]; rfl) r.skip, ?_⟩
      rw [List.map_append]
      rfl
  | @decide req i p f r hi hp hr hstatus =>
      obtain ⟨hasked, rfl⟩ := h
      have hsome : c.handler i = some f := (Core.handler_eq hi).trans hp
      simp only [callAt, hsome, hr]
      -- the loop over the plugins is left
      refine ⟨hasked.decide_concat (by rw [hsome]; rfl) hstatus r.skip, ?_⟩
      rw [List.map_append]
      rfl
  | allow hres =>
      obtain ⟨hsettled, rfl⟩ := h
      have hanswer := hsettled.answer_decision (.inl rfl) hres
      rw [decisionAnswer, if_pos rfl] at hanswer
      simp only [callAt, List.append_nil, hanswer]
      exact hsettled.shape_afterDecision (.inl rfl) hres
  | deny hres =>
      obtain ⟨hsettled, rfl⟩ := h
      have hanswer := hsettled.answer_decision (.inr rfl) hres
      rw [decisionAnswer, if_neg (by decide)] at hanswer
      simp only [callAt, List.append_nil, hanswer]
      exact hsettled.shape_afterDecision (.inr rfl) hres
  | undecided hallow hdeny =>
      obtain ⟨hsettled, rfl⟩ := h
      -- the post handlers are not due without a decision
      obtain ⟨hdue, hanswer⟩ := hsettled.answer_undecided hallow hdeny
      simp only [callAt, List.append_nil, hanswer]
      refine .inr ⟨_, hsettled, ?_⟩
      rw [fullTrace, if_neg hdue]
  | @postDone req i hi =>
      obtain ⟨hsettled, hdue, rfl⟩ := h
      simp only [callAt, List.append_nil]
      refine .inr ⟨req, hsettled, ?_⟩
      rw [fullTrace, if_pos hdue, postEvents, postsBelow_of_le (List.getElem?_eq_none_iff.mp hi)]
      rfl
  | @noPost req i p hi hp =>
      obtain ⟨hsettled, hdue, rfl⟩ := h
      simp only [callAt, List.append_nil]
      refine ⟨hsettled, hdue, ?_⟩
      have hnone : c.plugins[i]?.bind (·.postHandleRequest) = none := by
        rw [hi]
        exact hp
      rw [postEvents, postEvents, postsBelow_succ, hnone]
      simp
  | @posted req i p f hi hp =>
      obtain ⟨hsettled, hdue, rfl⟩ := h
      simp only [callAt, List.append_nil]
      refine ⟨hsettled, hdue, ?_⟩
      have hsome : c.plugins[i]?.bind (·.postHandleRequest) = some f := by
        rw [hi]
        exact hp
      -- `result` still is the decision
      have hres : req.result = ((decision cs).getD .goOn).toInt := by
        rcases hdue.1 with hdec | hdec
        · rw [(hsettled.decision_iff (.inl rfl)).mpr hdec, hdec]
          rfl
        · rw [(hsettled.decision_iff (.inr rfl)).mpr hdec, hdec]
          rfl
      rw [postEvents, postEvents, postsBelow_succ, hsome, hres]
      simp

theorem RequestRun.shape {next : Option RequestPc} (h : RequestRun c line next es cs) :
    Shape c line es cs next := by
  induction h with
  | start => exact ⟨rfl, rfl⟩
  | move _ hmove ih => exact ih.move hmove

end Shape

/-! ### The requests of a run -/

/-- A step takes one request further, takes a line off the queue, or does neither. -/
inductive JobView (c : Core σ ω) (s s' : State n ω) (a : Action n σ) : Prop
  | request {w o job pc r} (ha : a = .worker w o) (hold : s.workers w = .busy job pc)
      (hmove : RequestMove c job.line o s.world pc r)
      (hlog : s'.log = s.log ++ r.events.map (.request job))
      (hw : s'.workers = Function.update s.workers w (.afterStep job r.next))
  | dequeue {w o job} (ha : a = .worker w o) (hold : s.workers w = .dequeue)
      (hlog : s'.log = s.log ++ [.dequeued w job])
      (hw : s'.workers = Function.update s.workers w (.busy job .parse))
  | quiet (hjobs : dequeuedJobs s'.log = dequeuedJobs s.log)
      (hevents : ∀ job, jobEvents job s'.log = jobEvents job s.log)
      (hcalls : ∀ job, callsInStep c job s a = [])
      (hw : ∀ w job pc, s'.workers w = .busy job pc ↔ s.workers w = .busy job pc)

section View

variable {c : Core σ ω} {s s' : State n ω} {a : Action n σ}

/-- The main thread's steps and those of the outside. -/
theorem JobView.of_main {es : List (Event n)} (hlog : s'.log = s.log ++ es)
    (hjobs : dequeuedJobs es = []) (hevents : ∀ job, jobEvents job es = [])
    (ha : ∀ w o, a ≠ .worker w o) (hw : s'.workers = s.workers) : JobView c s s' a := by
  refine .quiet ?_ (fun job => ?_) (fun job => ?_) (fun w job pc => by rw [hw])
  · rw [hlog, dequeuedJobs_append, hjobs, List.append_nil]
  · rw [hlog, jobEvents_append, hevents, List.append_nil]
  · cases a with
    | worker w o => exact absurd rfl (ha w o)
    | _ => rfl

/-- A worker's steps outside a request. -/
theorem JobView.of_worker {w : Fin n} {pc : WorkerPc} (hlog : s'.log = s.log)
    (hold : ∀ job pc', s.workers w ≠ .busy job pc') (hnew : ∀ job pc', pc ≠ .busy job pc')
    (ha : ∀ w' o, a = .worker w' o → w' = w)
    (hw : s'.workers = Function.update s.workers w pc) : JobView c s s' a := by
  refine .quiet (by rw [hlog]) (fun job => by rw [hlog]) (fun job => ?_) (fun w' job pc' => ?_)
  · cases a with
    | worker w' o =>
        obtain rfl := ha w' o rfl
        -- `hold` leaves only the second branch
        simp only [callsInStep]
    | _ => rfl
  · rcases eq_or_ne w' w with rfl | hne
    · rw [hw, Function.update_self]
      exact iff_of_false (hnew job pc') (hold job pc')
    · rw [hw, Function.update_of_ne hne]

theorem Step.jobView (h : Step c s a s') : JobView c s s' a := by
  have hnil := (List.append_nil s.log).symm
  have hquiet : ∀ job, jobEvents job ([] : List (Event n)) = [] := fun _ => rfl
  have hprinted : ∀ (ts : List (List Byte)) (job : Job),
      jobEvents job (ts.map (Event.printed (n := n))) = [] := by
    intro ts job
    simp [jobEvents, List.flatMap_map]
  cases h with
  | readEof => exact .of_main rfl rfl (hprinted [_]) (by simp) rfl
  | enqueueLine => exact .of_main rfl rfl (fun _ => rfl) (by simp) rfl
  | watcher => exact .of_main rfl (quiet_printed _).dequeued (hprinted _) (by simp) rfl
  | initThread hw =>
      refine .of_worker rfl (by simp [hw]) (fun job pc => ?_) (by simp) rfl
      split <;> simp
  | dequeueNull hw => exact .of_worker rfl (by simp [hw]) (by simp) (by simp) rfl
  | dequeueJob hw => exact .dequeue rfl hw rfl rfl
  | request hw hr => exact .request rfl hw (hr ▸ requestStep_move ..) rfl rfl
  | terminate hw => exact .of_worker rfl (by simp [hw]) (by simp) (by simp) rfl
  | asyncSend hw => exact .of_worker rfl (by simp [hw]) (by simp) (by simp) rfl
  | threadFree hw => exact .of_worker rfl (by simp [hw]) (by simp) (by simp) rfl
  | coalesce hw => exact .of_worker rfl (by simp [hw]) (by simp) (by simp) rfl
  | _ => exact .of_main hnil rfl hquiet (by simp) rfl

end View

/-- After the actions `as`: each line that was taken off the queue is one request, with one
worker at most. -/
structure Tracked (c : Core σ ω) (s₀ : State n ω) (as : List (Action n σ)) (s : State n ω) :
    Prop where
  busy : ∀ w job pc, s.workers w = .busy job pc → job ∈ dequeuedJobs s.log ∧
    RequestRun c job.line (some pc) (jobEvents job s.log) (calls c job s₀ as)
  single : ∀ w w' job pc pc', s.workers w = .busy job pc → s.workers w' = .busy job pc' → w = w'
  done : ∀ job ∈ dequeuedJobs s.log, (∃ w pc, s.workers w = .busy job pc) ∨
    RequestRun c job.line none (jobEvents job s.log) (calls c job s₀ as)
  fresh : ∀ job, job ∉ dequeuedJobs s.log → jobEvents job s.log = [] ∧ calls c job s₀ as = []

namespace Tracked

variable {c : Core σ ω} {s₀ s s' : State n ω} {as : List (Action n σ)} {a : Action n σ}

theorem init (reads : List StdinRead) (world : ω) :
    Tracked c (State.init n reads world) [] (State.init n reads world) where
  busy _ _ _ h := by cases h
  single _ _ _ _ _ h := by cases h
  done _ h := by cases h
  fresh _ _ := ⟨rfl, rfl⟩

theorem quiet (h : Tracked c s₀ as s) (hexec : (helper c n).exec s₀ as = some s)
    (hjobs : dequeuedJobs s'.log = dequeuedJobs s.log)
    (hevents : ∀ job, jobEvents job s'.log = jobEvents job s.log)
    (hcalls : ∀ job, callsInStep c job s a = [])
    (hw : ∀ w job pc, s'.workers w = .busy job pc ↔ s.workers w = .busy job pc) :
    Tracked c s₀ (as ++ [a]) s' := by
  have hsame : ∀ job, calls c job s₀ (as ++ [a]) = calls c job s₀ as := by
    intro job
    rw [calls_concat hexec, hcalls, List.append_nil]
  refine ⟨?_, ?_, ?_, ?_⟩
  · intro w job pc hpc
    rw [hjobs, hevents, hsame]
    exact h.busy w job pc ((hw w job pc).mp hpc)
  · intro w w' job pc pc' hpc hpc'
    exact h.single w w' job pc pc' ((hw w job pc).mp hpc) ((hw w' job pc').mp hpc')
  · intro job hjob
    rw [hjobs] at hjob
    rw [hevents, hsame]
    refine (h.done job hjob).imp_left ?_
    rintro ⟨w, pc, hpc⟩
    exact ⟨w, pc, (hw w job pc).mpr hpc⟩
  · intro job hjob
    rw [hjobs] at hjob
    rw [hevents, hsame]
    exact h.fresh job hjob

/-- Worker `w` goes on with its line, which nobody else has; nothing is seen of the others. -/
theorem advance (h : Tracked c s₀ as s) {as' : List (Action n σ)} {w : Fin n} (job : Job)
    (next : Option RequestPc) (hw : s'.workers = Function.update s.workers w (.afterStep job next))
    (hold : ∀ job' pc, s.workers w = .busy job' pc → job' = job)
    (hfree : ∀ {w' job' pc}, w' ≠ w → s.workers w' = .busy job' pc → job' ≠ job)
    (hjobs : ∀ job', job' ∈ dequeuedJobs s'.log ↔ job' = job ∨ job' ∈ dequeuedJobs s.log)
    (hnext : RequestRun c job.line next (jobEvents job s'.log) (calls c job s₀ as'))
    (hsame : ∀ {job'}, job' ≠ job → jobEvents job' s'.log = jobEvents job' s.log ∧
      calls c job' s₀ as' = calls c job' s₀ as) :
    Tracked c s₀ as' s' := by
  have hother : ∀ {w' job' pc}, s'.workers w' = .busy job' pc →
      (w' = w ∧ job' = job ∧ next = some pc) ∨ w' ≠ w ∧ s.workers w' = .busy job' pc := by
    intro w' job' pc hpc
    rcases eq_or_ne w' w with rfl | hne
    · rw [hw, Function.update_self] at hpc
      obtain ⟨rfl, hnext'⟩ := WorkerPc.afterStep_eq_busy.mp hpc
      exact .inl ⟨rfl, rfl, hnext'⟩
    · rw [hw, Function.update_of_ne hne] at hpc
      exact .inr ⟨hne, hpc⟩
  refine ⟨?_, ?_, ?_, ?_⟩
  · intro w' job' pc hpc
    rw [hjobs]
    rcases hother hpc with ⟨rfl, rfl, hpc⟩ | ⟨hne, hpc⟩
    · exact ⟨.inl rfl, hpc ▸ hnext⟩
    · obtain ⟨hmem, hrun⟩ := h.busy w' job' pc hpc
      obtain ⟨he, hc⟩ := hsame (hfree hne hpc)
      rw [he, hc]
      exact ⟨.inr hmem, hrun⟩
  · intro w₁ w₂ job' pc₁ pc₂ h₁ h₂
    rcases hother h₁ with ⟨rfl, rfl, -⟩ | ⟨hne₁, h₁⟩
    · rcases hother h₂ with ⟨rfl, -, -⟩ | ⟨hne₂, h₂⟩
      · rfl
      · exact absurd rfl (hfree hne₂ h₂)
    · rcases hother h₂ with ⟨rfl, rfl, -⟩ | ⟨hne₂, h₂⟩
      · exact absurd rfl (hfree hne₁ h₁)
      · exact h.single w₁ w₂ job' pc₁ pc₂ h₁ h₂
  · intro job' hjob'
    rcases eq_or_ne job' job with rfl | hne
    · cases next with
      | none => exact .inr hnext
      | some pc =>
          refine .inl ⟨w, pc, ?_⟩
          rw [hw, Function.update_self]
          rfl
    · obtain ⟨he, hc⟩ := hsame hne
      rw [he, hc]
      refine (h.done job' (((hjobs job').mp hjob').resolve_left hne)).imp_left ?_
      -- the worker that has this other line is not `w`
      rintro ⟨w', pc, hpc⟩
      have hne' : w' ≠ w := by
        rintro rfl
        exact hne (hold job' pc hpc)
      refine ⟨w', pc, ?_⟩
      rw [hw, Function.update_of_ne hne']
      exact hpc
  · intro job' hjob'
    rw [hjobs, not_or] at hjob'
    obtain ⟨hne, hjob'⟩ := hjob'
    obtain ⟨he, hc⟩ := hsame hne
    rw [he, hc]
    exact h.fresh job' hjob'

/-- The line goes to worker `w`, who is the first to have it. -/
theorem dequeue (h : Tracked c s₀ as s) (hexec : (helper c n).exec s₀ as = some s) {w : Fin n}
    {o : σ} {job : Job} (hold : s.workers w = .dequeue) (hnew : job ∉ dequeuedJobs s.log)
    (hlog : s'.log = s.log ++ [.dequeued w job])
    (hw : s'.workers = Function.update s.workers w (.busy job .parse)) :
    Tracked c s₀ (as ++ [.worker w o]) s' := by
  have hcalls : ∀ job', calls c job' s₀ (as ++ [.worker w o]) = calls c job' s₀ as := by
    intro job'
    rw [calls_concat hexec]
    simp [callsInStep, hold]
  have hevents : ∀ job', jobEvents job' s'.log = jobEvents job' s.log := by
    intro job'
    rw [hlog, jobEvents_append]
    exact List.append_nil _
  refine h.advance job (some .parse) hw (fun job' pc hpc => ?_)
    (fun {w' job' pc} _ hpc => ?_) (fun job' => ?_) ?_ fun _ => ⟨hevents _, hcalls _⟩
  · rw [hold] at hpc
    cases hpc
  -- nobody has the line yet
  · rintro rfl
    exact hnew (h.busy w' job' pc hpc).1
  · rw [hlog, dequeuedJobs_append, List.mem_append]
    simp [dequeuedJobs, or_comm]
  · obtain ⟨he, hc⟩ := h.fresh job hnew
    rw [hevents, hcalls, he, hc]
    exact .start

/-- Worker `w` takes its request one step further. -/
theorem request (h : Tracked c s₀ as s) (hexec : (helper c n).exec s₀ as = some s) {w : Fin n}
    {o : σ} {job : Job} {pc : RequestPc} {r : RequestStep ω} (hold : s.workers w = .busy job pc)
    (hmove : RequestMove c job.line o s.world pc r)
    (hlog : s'.log = s.log ++ r.events.map (.request job))
    (hw : s'.workers = Function.update s.workers w (.afterStep job r.next)) :
    Tracked c s₀ (as ++ [.worker w o]) s' := by
  have hcalls : ∀ job', calls c job' s₀ (as ++ [.worker w o])
      = calls c job' s₀ as ++ if job = job' then callAt c o s.world pc else [] := by
    intro job'
    rw [calls_concat hexec]
    simp only [callsInStep, hold]
  have hevents : ∀ job', jobEvents job' s'.log
      = jobEvents job' s.log ++ if job = job' then r.events else [] := by
    intro job'
    rw [hlog, jobEvents_append, jobEvents_request]
  obtain ⟨hmem, hrun⟩ := h.busy w job pc hold
  refine h.advance job r.next hw (fun job' pc' hpc => ?_) (fun {w' job' pc'} hne hpc => ?_)
    (fun job' => ?_) ?_ fun {job'} hne => ?_
  · rw [hold] at hpc
    cases hpc
    rfl
  -- nobody else is busy with this line
  · rintro rfl
    exact hne (h.single w' w job' pc' pc hpc hold)
  · rw [hlog, dequeuedJobs_append, dequeuedJobs_request, List.append_nil]
    constructor
    · exact .inr
    · rintro (rfl | hjob')
      · exact hmem
      · exact hjob'
  · rw [hevents, hcalls, if_pos rfl, if_pos rfl]
    exact hrun.move hmove
  · rw [hevents, hcalls, if_neg hne.symm, if_neg hne.symm, List.append_nil, List.append_nil]
    exact ⟨rfl, rfl⟩

/-- One step; `hfresh` says that no line is taken off the queue twice. -/
theorem step (h : Tracked c s₀ as s) (hexec : (helper c n).exec s₀ as = some s)
    (hview : JobView c s s' a) (hfresh : ∀ job, (dequeuedJobs s'.log).count job ≤ 1) :
    Tracked c s₀ (as ++ [a]) s' := by
  cases hview with
  | request ha hold hmove hlog hw =>
      subst ha
      exact h.request hexec hold hmove hlog hw
  | @dequeue w o job ha hold hlog hw =>
      subst ha
      refine h.dequeue hexec hold ?_ hlog hw
      intro hmem
      have hcount := hfresh job
      have hone := List.count_pos_iff.mpr hmem
      rw [hlog, dequeuedJobs_append, List.count_append] at hcount
      have hnew : (dequeuedJobs [Event.dequeued w job]).count job = 1 := by simp [dequeuedJobs]
      omega
  | quiet hjobs hevents hcalls hw => exact h.quiet hexec hjobs hevents hcalls hw

end Tracked

theorem tracked_of_exec {c : Core σ ω} {reads : List StdinRead} {world : ω}
    {as : List (Action n σ)} {s : State n ω}
    (h : (helper c n).exec (State.init n reads world) as = some s) :
    Tracked c (State.init n reads world) as s := by
  refine Guarded.exec_induction (P := fun as s => Tracked c (State.init n reads world) as s)
    (.init reads world) (fun as s₁ a s₂ hexec htracked hstep => ?_) h
  have hreach : (helper c n).Reaches (State.init n reads world) s₂ :=
    Guarded.Reaches.tail ⟨as, hexec⟩ hstep
  exact htracked.step hexec (step_step hstep).jobView
    (answering_of_reaches hreach).count_dequeued_le

/-- What was seen of a line, at any moment and once its worker is done with it. -/
theorem shape_of_exec {c : Core σ ω} {reads : List StdinRead} {world : ω}
    {as : List (Action n σ)} {s : State n ω}
    (h : (helper c n).exec (State.init n reads world) as = some s) (job : Job) :
    (∃ next, Shape c job.line (jobEvents job s.log) (calls c job (State.init n reads world) as)
      next) ∧
    (job ∈ dequeuedJobs s.log → (∀ w pc, s.workers w ≠ .busy job pc) →
      Shape c job.line (jobEvents job s.log) (calls c job (State.init n reads world) as) none) := by
  have htracked := tracked_of_exec h
  have hdone : job ∈ dequeuedJobs s.log → (∀ w pc, s.workers w ≠ .busy job pc) →
      Shape c job.line (jobEvents job s.log)
        (calls c job (State.init n reads world) as) none := by
    intro hjob hidle
    have hrun := (htracked.done job hjob).resolve_left fun ⟨w, pc, hpc⟩ => hidle w pc hpc
    exact hrun.shape
  refine ⟨?_, hdone⟩
  by_cases hjob : job ∈ dequeuedJobs s.log
  -- under way, done with, or still in the queue
  · by_cases hbusy : ∃ w pc, s.workers w = .busy job pc
    · obtain ⟨w, pc, hpc⟩ := hbusy
      exact ⟨_, (htracked.busy w job pc hpc).2.shape⟩
    · refine ⟨none, hdone hjob fun w pc hpc => hbusy ⟨w, pc, hpc⟩⟩
  · exact ⟨some .parse, htracked.fresh job hjob⟩

/-! ### First decisive wins -/

section Results

variable {c : Core σ ω} {line : List Byte} {es : List RequestEvent} {cs : List Call}
  {next : Option RequestPc} {req : Request}

theorem handlersBelow_prefix (c : Core σ ω) (i : ℕ) :
    handlersBelow c i <+: handlersBelow c c.plugins.length := by
  rcases Nat.le_total i c.plugins.length with hle | hle
  · obtain ⟨k, hk⟩ := Nat.exists_eq_add_of_le hle
    rw [hk, handlersBelow, handlersBelow, List.range_add, List.filter_append]
    exact List.prefix_append _ _
  · rw [handlersBelow_of_le hle]

/-- The handlers called are the first ones, and all but the last went on. -/
structure InOrder (c : Core σ ω) (cs : List Call) : Prop where
  plugins : cs.map Call.plugin <+: handlersBelow c c.plugins.length
  goOn : ∀ call ∈ cs.dropLast, call.status = .goOn

theorem Asked.inOrder {i : ℕ} (h : Asked c line req i cs) : InOrder c cs where
  plugins := by
    rw [h.plugins]
    exact handlersBelow_prefix c i
  goOn call hcall := h.goOn call (List.dropLast_subset _ hcall)

theorem Settled.inOrder (h : Settled c line req cs) : InOrder c cs := by
  rcases h.outcome with ⟨-, hall, hgo, -⟩ | ⟨before, call, rfl, hgo, -, hbefore, hsome, -⟩
  · refine ⟨?_, fun call hcall => hgo call (List.dropLast_subset _ hcall)⟩
    rw [hall]
  · refine ⟨?_, ?_⟩
    -- the last one called decided, and those before it went on
    · have hplugins : (before ++ [call]).map Call.plugin = handlersBelow c (call.plugin + 1) := by
        rw [List.map_append, hbefore, handlersBelow_succ, if_pos hsome]
        rfl
      rw [hplugins]
      exact handlersBelow_prefix c _
    · rw [List.dropLast_concat]
      exact hgo

/-- A line is read in one way. -/
theorem Request.ReadFrom.ipAddr_eq {b : Build} {pton : InetPton} {req req' : Request}
    (h : req'.ReadFrom b pton line) (hvalid : parseRequest b pton line = .valid req) :
    req'.ipAddr = req.ipAddr := by
  obtain ⟨req₀, hparse, hip, -⟩ := h
  rw [hvalid] at hparse
  cases hparse
  exact hip

/-- What is known of a line with an address at any moment. -/
theorem Shape.valid (h : Shape c line es cs next)
    (hvalid : parseRequest c.build c.inetPton line = .valid req) :
    InOrder c cs ∧ (∀ call ∈ cs, call.request.ipAddr = req.ipAddr) ∧
    (es = cs.map Call.event ∨ (∃ req', Settled c line req' cs) ∧
      ∃ k, es = cs.map Call.event ++ .responded (answer c line cs) ::
        if PostsDue cs then postEvents c req.ipAddr.str cs k else []) := by
  have hpassed : (∀ call ∈ cs, call.request.ReadFrom c.build c.inetPton line) →
      ∀ call ∈ cs, call.request.ipAddr = req.ipAddr :=
    fun hread call hcall => (hread call hcall).ipAddr_eq hvalid
  have hempty : InOrder c [] := ⟨List.nil_prefix, fun _ hcall => by cases hcall⟩
  cases next with
  | none =>
      rcases h with ⟨req', hinvalid, -⟩ | ⟨req', hsettled, hes⟩
      · rw [hvalid] at hinvalid
        cases hinvalid
      · refine ⟨hsettled.inOrder, hpassed hsettled.passed,
          .inr ⟨⟨req', hsettled⟩, c.plugins.length, ?_⟩⟩
        rw [hes, fullTrace, hsettled.read.ipAddr_eq hvalid]
  | some pc =>
      cases pc with
      | parse =>
          obtain ⟨rfl, rfl⟩ := h
          exact ⟨hempty, by simp, .inl rfl⟩
      | invalid req' =>
          obtain ⟨hinvalid, -⟩ := h
          rw [hvalid] at hinvalid
          cases hinvalid
      | handle req' i =>
          obtain ⟨hasked, hes⟩ := h
          exact ⟨hasked.inOrder, hpassed hasked.passed, .inl hes⟩
      | respond req' =>
          obtain ⟨hsettled, hes⟩ := h
          exact ⟨hsettled.inOrder, hpassed hsettled.passed, .inl hes⟩
      | post req' i =>
          obtain ⟨hsettled, hdue, hes⟩ := h
          refine ⟨hsettled.inOrder, hpassed hsettled.passed, .inr ⟨⟨req', hsettled⟩, i, ?_⟩⟩
          rw [hes, if_pos hdue, hsettled.read.ipAddr_eq hvalid]

/-- An event that is no answer. -/
theorem responded_not_mem_map_event {out : List Byte} : .responded out ∉ cs.map Call.event := by
  intro hmem
  obtain ⟨call, -, heq⟩ := List.mem_map.mp hmem
  cases heq

theorem responded_not_mem_postEvents {out text : List Byte} {k : ℕ} :
    .responded out ∉ postEvents c text cs k := by
  intro hmem
  obtain ⟨i, -, heq⟩ := List.mem_map.mp hmem
  cases heq

/-- The answer in the log is the answer to the calls, and by then they are settled. -/
theorem Shape.responded (h : Shape c line es cs next)
    (hvalid : parseRequest c.build c.inetPton line = .valid req) {out : List Byte}
    (hout : .responded out ∈ es) : out = answer c line cs ∧ ∃ req', Settled c line req' cs := by
  obtain ⟨-, -, hes | ⟨hsettled, k, hes⟩⟩ := h.valid hvalid
  · rw [hes] at hout
    exact absurd hout responded_not_mem_map_event
  · refine ⟨?_, hsettled⟩
    rw [hes, List.mem_append, List.mem_cons] at hout
    rcases hout with hout | hout | hout
    · exact absurd hout responded_not_mem_map_event
    · cases hout
      rfl
    · split at hout
      · exact absurd hout responded_not_mem_postEvents
      · cases hout

/-- With `deny_by_default`, everything but `ALLOW` is answered with `ERR`. -/
theorem verdictAnswer_err (hdeny : c.denyByDefault = true) (channel : ℕ) {status : HandlerStatus}
    (h : status ≠ .allow) : ∃ msg, verdictAnswer c channel status = sendResponse channel (-1) msg := by
  have hdefault : sendResponse channel (if c.denyByDefault then -1 else 0)
      (some (ascii "UNKNOWN ERR")) = sendResponse channel (-1) (some (ascii "UNKNOWN ERR")) := by
    rw [if_pos hdeny]
  cases status with
  | allow => exact absurd rfl h
  | deny => exact ⟨some (ascii "DENIED"), rfl⟩
  | _ => exact ⟨some (ascii "UNKNOWN ERR"), hdefault⟩

/-- With `deny_by_default`, `OK` comes from an `ALLOW`. -/
theorem Settled.allow_of_ok (h : Settled c line req cs) (hdeny : c.denyByDefault = true)
    {msg : Option (List Byte)} (hok : sendResponse (lineChannel line) 0 msg = answer c line cs) :
    ∃ before call, cs = before ++ [call] ∧ call.status = .allow ∧
      (∀ call' ∈ before, call'.status = .goOn) ∧
      before.map Call.plugin = handlersBelow c call.plugin := by
  -- any other outcome would have been answered with `ERR`
  have hallow : decision cs = some .allow := by
    by_contra hne
    have hstatus : (decision cs).getD .goOn ≠ .allow := by
      cases hdec : decision cs with
      | none => simp
      | some status =>
          rintro rfl
          exact hne hdec
    obtain ⟨msg', herr⟩ := verdictAnswer_err hdeny (lineChannel line) hstatus
    rw [← answer] at herr
    rw [herr] at hok
    exact absurd ((sendResponse_ok_iff hok).mp rfl) (by decide)
  rcases h.outcome with ⟨hnone, -⟩ | ⟨before, call, rfl, hgo, hstatus, hbefore, -, -⟩
  · rw [hnone] at hallow
    cases hallow
  · rw [decision_concat hgo hstatus, Option.some.injEq] at hallow
    exact ⟨before, call, rfl, hallow, hgo, hbefore⟩

end Results

/-- **The first decisive handler wins, and without one `deny_by_default` decides**, in every
run and for every line with an address. -/
theorem first_decisive_wins {c : Core σ ω} {reads : List StdinRead} {world : ω}
    {as : List (Action n σ)} {s : State n ω}
    (h : (helper c n).exec (State.init n reads world) as = some s) {job : Job} {req : Request}
    (hvalid : parseRequest c.build c.inetPton job.line = .valid req) :
    ∃ cs, cs = calls c job (State.init n reads world) as ∧
      -- at any moment: nobody is asked after the first who does not go on
      InOrder c cs ∧ (∀ call ∈ cs, call.request.ipAddr = req.ipAddr) ∧
      (jobEvents job s.log = cs.map Call.event ∨
        ∃ k, jobEvents job s.log = cs.map Call.event ++ .responded (answer c job.line cs) ::
          if PostsDue cs then postEvents c req.ipAddr.str cs k else []) ∧
      -- when the worker is done with the line
      (job ∈ dequeuedJobs s.log → (∀ w pc, s.workers w ≠ .busy job pc) →
        (decision cs = none → cs.map Call.plugin = handlersBelow c c.plugins.length) ∧
        jobEvents job s.log = fullTrace c job.line req.ipAddr.str cs) ∧
      (c.denyByDefault = true → ∀ msg,
        .responded (sendResponse (lineChannel job.line) 0 msg) ∈ jobEvents job s.log →
        ∃ before call, cs = before ++ [call] ∧ call.status = .allow ∧
          (∀ call' ∈ before, call'.status = .goOn) ∧
          before.map Call.plugin = handlersBelow c call.plugin) := by
  obtain ⟨⟨next, hshape⟩, hdone⟩ := shape_of_exec h job
  obtain ⟨horder, hpassed, hevents⟩ := hshape.valid hvalid
  refine ⟨_, rfl, horder, hpassed, hevents.imp_right And.right, ?_, ?_⟩
  · intro hjob hidle
    rcases hdone hjob hidle with ⟨req', hinvalid, -⟩ | ⟨req', hsettled, hes⟩
    · rw [hvalid] at hinvalid
      cases hinvalid
    · rw [hsettled.read.ipAddr_eq hvalid] at hes
      refine ⟨fun hnone => ?_, hes⟩
      rcases hsettled.outcome with ⟨-, hall, -⟩ | ⟨before, call, hcs, hgo, hstatus, -⟩
      · exact hall
      · rw [hcs, decision_concat hgo hstatus] at hnone
        cases hnone
  · intro hdeny msg hok
    obtain ⟨hanswer, req', hsettled⟩ := hshape.responded hvalid hok
    exact hsettled.allow_of_ok hdeny hanswer

/-- The second of four plugins goes on, the third allows, the fourth would deny; the second
and the fourth have a post handler. -/
def thirdAllowsCore : Core Unit Unit where
  build := ⟨false⟩
  inetPton := ipv4Only
  plugins :=
    [{}, { handleRequest := some fun _ world _ => ⟨.goOn, false, world⟩,
           postHandleRequest := some fun _ world _ => world },
     { handleRequest := some fun _ world _ => ⟨.allow, false, world⟩ },
     { handleRequest := some fun _ world _ => ⟨.deny, false, world⟩,
       postHandleRequest := some fun _ world _ => world }]
  denyByDefault := true

/-- One line, and the worker until it is done with it. -/
def thirdAllowsRun : List (Action 1 Unit) :=
  [.stdin, .go, .go] ++ List.replicate 12 (.worker (Fin.last 0) ())

/-- The third plugin's `ALLOW` counts, and then the post handlers run. -/
theorem first_decisive_wins_third :
    ∃ s, (helper thirdAllowsCore 1).exec (State.init 1 [.data [ascii "5 10.0.0.1"] false] ())
        thirdAllowsRun = some s ∧
      jobEvents ⟨0, ascii "5 10.0.0.1"⟩ s.log =
        [.handled 1 (ascii "10.0.0.1") .goOn, .handled 2 (ascii "10.0.0.1") .allow,
          .responded (ascii "5 OK"), .posted 1 (ascii "10.0.0.1") 1,
          .posted 3 (ascii "10.0.0.1") 1] := by
  have hrun : ((helper thirdAllowsCore 1).exec
      (State.init 1 [.data [ascii "5 10.0.0.1"] false] ()) thirdAllowsRun).any (fun s => decide
        (⟨0, ascii "5 10.0.0.1"⟩ ∈ dequeuedJobs s.log ∧ ∀ w, s.workers w = .dequeue)) = true := by
    decide
  have htrace : fullTrace thirdAllowsCore (ascii "5 10.0.0.1") (ascii "10.0.0.1")
      (calls thirdAllowsCore ⟨0, ascii "5 10.0.0.1"⟩
        (State.init 1 [.data [ascii "5 10.0.0.1"] false] ()) thirdAllowsRun)
      = [.handled 1 (ascii "10.0.0.1") .goOn, .handled 2 (ascii "10.0.0.1") .allow,
          .responded (ascii "5 OK"), .posted 1 (ascii "10.0.0.1") 1,
          .posted 3 (ascii "10.0.0.1") 1] := by decide
  obtain ⟨req, hvalid, htext⟩ : ∃ req, parseRequest thirdAllowsCore.build
      thirdAllowsCore.inetPton (ascii "5 10.0.0.1") = .valid req ∧
      req.ipAddr.str = ascii "10.0.0.1" := ⟨_, rfl, by decide⟩
  obtain ⟨s, hs, hp⟩ := (Option.any_eq_true _ _).mp hrun
  obtain ⟨hjob, hidle⟩ := of_decide_eq_true hp
  obtain ⟨cs, rfl, -, -, -, hdone, -⟩ :=
    @first_decisive_wins _ _ _ _ _ _ _ _ hs ⟨0, ascii "5 10.0.0.1"⟩ _ hvalid
  obtain ⟨-, hevents⟩ := hdone hjob fun w pc hpc => by rw [hidle w] at hpc; cases hpc
  refine ⟨s, hs, ?_⟩
  rw [hevents, htext]
  exact htrace

end SquidHelper
