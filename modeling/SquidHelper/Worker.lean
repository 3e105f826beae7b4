/-
SquidHelper/Worker.lean

One request in `worker` of `src/core/main.c`, from the line to the end of the loop
body: the address is parsed, the plugins are asked in order until one decides, the
answer is sent, and unless a handler asked to skip them the post handlers run.

The loop body is cut at the calls another thread can see: every handler call, every
`send_response` and every post handler is a step of its own (`requestStep`).  What
a handler finds out elsewhere (a cache, a directory) is a world `ω` that it reads and
changes; `σ` is what the outside decides during the call.

Five ways lead out of the body.  `requestStep_responses` is the balance that all of
them keep: a step sends the answer exactly when the request stops owing one.
-/
import SquidHelper.Request

namespace SquidHelper

open CString

variable {σ ω : Type*}

/-! ### Plugins -/

/-- `handler_status`. -/
inductive HandlerStatus
  | goOn
  | allow
  | deny
  | ok
  | error
  deriving DecidableEq, Repr

/-- The values the C enumeration gives them. -/
def HandlerStatus.toInt : HandlerStatus → ℤ
  | goOn => 0
  | allow => 1
  | deny => 2
  | ok => 3
  | error => 4

theorem HandlerStatus.toInt_injective : Function.Injective HandlerStatus.toInt := by
  intro s t h
  cases s <;> cases t <;> first | rfl | cases h

@[simp] theorem HandlerStatus.toInt_inj {s t : HandlerStatus} : s.toInt = t.toInt ↔ s = t :=
  HandlerStatus.toInt_injective.eq_iff

/-- `req->response.result` before the first handler is no status. -/
theorem HandlerStatus.toInt_ne_neg_one (s : HandlerStatus) : s.toInt ≠ -1 := by
  cases s <;> decide

/-- What a call of `handle_request` returns and leaves behind. -/
structure HandlerResult (ω : Type*) where
  status : HandlerStatus
  /-- The handler sets `skip_post_handle_request`. -/
  skip : Bool
  world : ω

/-- The hooks of a `plugin`; each may be `NULL`. -/
structure Plugin (σ ω : Type*) where
  /-- Called with the thread's number; 0 is success. -/
  threadInit : Option (ℕ → ℤ) := none
  handleRequest : Option (σ → ω → Request → HandlerResult ω) := none
  postHandleRequest : Option (σ → ω → Request → ω) := none
  /-- The callback of a watcher the plugin put on the event loop: the world after it
  and the lines it prints on standard output. -/
  watcher : Option (σ → ω → ω × List (List Byte)) := none

/-- What the workers read of `webcontrol_core_ctx`, the build, and their surroundings. -/
structure Core (σ ω : Type*) where
  build : Build
  inetPton : InetPton
  plugins : List (Plugin σ ω)
  denyByDefault : Bool
  /-- What the rest of the machine does to the world, at any moment. -/
  outside : σ → ω → ω := fun _ world => world

/-- Every `thread_init` there is returns 0 for thread `number`. -/
def Core.threadInit (c : Core σ ω) (number : ℕ) : Bool :=
  c.plugins.all fun p => match p.threadInit with
    | none => true
    | some f => f number == 0

/-! ### Steps -/

/-- Where a worker is in the body of its loop. -/
inductive RequestPc
  | parse
  /-- No address was recognised. -/
  | invalid (req : Request)
  /-- At plugin `i` of the `handle_request` loop. -/
  | handle (req : Request) (i : ℕ)
  /-- At the `switch`. -/
  | respond (req : Request)
  /-- At plugin `i` of the `post_handle_request` loop. -/
  | post (req : Request) (i : ℕ)
  deriving DecidableEq, Repr

/-- What is seen of a request from outside the worker. -/
inductive RequestEvent
  /-- `handle_request` of plugin `i` returned. -/
  | handled (i : ℕ) (text : List Byte) (status : HandlerStatus)
  | responded (output : List Byte)
  /-- `post_handle_request` of plugin `i` returned. -/
  | posted (i : ℕ) (text : List Byte) (result : ℤ)
  deriving DecidableEq, Repr

/-- The outcome of a step; `next` is `none` at `endrequest`. -/
structure RequestStep (ω : Type*) where
  next : Option RequestPc
  world : ω
  events : List RequestEvent

/-- After `ALLOW` or `DENY`: the post handlers, unless they are to be skipped. -/
def afterDecision (req : Request) : Option RequestPc :=
  if req.skipPostHandleRequest then none else some (.post req 0)

/-- The `switch` over `req->response.result`. -/
def respond (c : Core σ ω) (world : ω) (req : Request) : RequestStep ω :=
  if req.result = HandlerStatus.allow.toInt then
    ⟨afterDecision req, world, [.responded (sendResponse req.channel 0 none)]⟩
  else if req.result = HandlerStatus.deny.toInt then
    ⟨afterDecision req, world, [.responded (sendResponse req.channel (-1) (some (ascii "DENIED")))]⟩
  else
    ⟨none, world, [.responded (sendResponse req.channel (if c.denyByDefault then -1 else 0)
      (some (ascii "UNKNOWN ERR")))]⟩

/-- One step of the worker on the request for `line`. -/
def requestStep (c : Core σ ω) (line : List Byte) (o : σ) (world : ω) :
    RequestPc → RequestStep ω
  | .parse =>
      match parseRequest c.build c.inetPton line with
      | .invalid req => ⟨some (.invalid req), world, []⟩
      | .valid req => ⟨some (.handle req 0), world, []⟩
  | .invalid req =>
      ⟨none, world, [.responded (sendResponse req.channel (-1)
        (some (ascii "Valid IP address expected")))]⟩
  | .handle req i =>
      match c.plugins[i]? with
      | none => ⟨some (.respond req), world, []⟩
      | some p =>
          match p.handleRequest with
          | none => ⟨some (.handle req (i + 1)), world, []⟩
          | some h =>
              let r := h o world req
              let req' := { req with result := r.status.toInt,
                                     skipPostHandleRequest := req.skipPostHandleRequest || r.skip }
              ⟨some (if r.status ≠ .goOn then .respond req' else .handle req' (i + 1)), r.world,
                [.handled i req.ipAddr.str r.status]⟩
  | .respond req => respond c world req
  | .post req i =>
      match c.plugins[i]? with
      | none => ⟨none, world, []⟩
      | some p =>
          match p.postHandleRequest with
          | none => ⟨some (.post req (i + 1)), world, []⟩
          | some h => ⟨some (.post req (i + 1)), h o world req, [.posted i req.ipAddr.str req.result]⟩

/-! ### The steps, one by one -/

/-- The request after a handler call. -/
def Request.after (req : Request) (status : HandlerStatus) (skip : Bool) : Request :=
  { req with result := status.toInt, skipPostHandleRequest := req.skipPostHandleRequest || skip }

/-- Every step there is. -/
inductive RequestMove (c : Core σ ω) (line : List Byte) (o : σ) (world : ω) :
    RequestPc → RequestStep ω → Prop
  | accept {req} (hparse : parseRequest c.build c.inetPton line = .valid req) :
      RequestMove c line o world .parse ⟨some (.handle req 0), world, []⟩
  | reject {req} (hparse : parseRequest c.build c.inetPton line = .invalid req) :
      RequestMove c line o world .parse ⟨some (.invalid req), world, []⟩
  | invalid {req} :
      RequestMove c line o world (.invalid req)
        ⟨none, world, [.responded (sendResponse req.channel (-1)
          (some (ascii "Valid IP address expected")))]⟩
  | noPlugin {req i} (hi : c.plugins[i]? = none) :
      RequestMove c line o world (.handle req i) ⟨some (.respond req), world, []⟩
  | noHandler {req i p} (hi : c.plugins[i]? = some p) (hp : p.handleRequest = none) :
      RequestMove c line o world (.handle req i) ⟨some (.handle req (i + 1)), world, []⟩
  | goOn {req i p h r} (hi : c.plugins[i]? = some p) (hp : p.handleRequest = some h)
      (hr : h o world req = r) (hstatus : r.status = .goOn) :
      RequestMove c line o world (.handle req i)
        ⟨some (.handle (req.after .goOn r.skip) (i + 1)), r.world,
          [.handled i req.ipAddr.str .goOn]⟩
  | decide {req i p h r} (hi : c.plugins[i]? = some p) (hp : p.handleRequest = some h)
      (hr : h o world req = r) (hstatus : r.status ≠ .goOn) :
      RequestMove c line o world (.handle req i)
        ⟨some (.respond (req.after r.status r.skip)), r.world,
          [.handled i req.ipAddr.str r.status]⟩
  | allow {req} (hres : req.result = HandlerStatus.allow.toInt) :
      RequestMove c line o world (.respond req)
        ⟨afterDecision req, world, [.responded (sendResponse req.channel 0 none)]⟩
  | deny {req} (hres : req.result = HandlerStatus.deny.toInt) :
      RequestMove c line o world (.respond req)
        ⟨afterDecision req, world,
          [.responded (sendResponse req.channel (-1) (some (ascii "DENIED")))]⟩
  | undecided {req} (hallow : req.result ≠ HandlerStatus.allow.toInt)
      (hdeny : req.result ≠ HandlerStatus.deny.toInt) :
      RequestMove c line o world (.respond req)
        ⟨none, world, [.responded (sendResponse req.channel (if c.denyByDefault then -1 else 0)
          (some (ascii "UNKNOWN ERR")))]⟩
  | postDone {req i} (hi : c.plugins[i]? = none) :
      RequestMove c line o world (.post req i) ⟨none, world, []⟩
  | noPost {req i p} (hi : c.plugins[i]? = some p) (hp : p.postHandleRequest = none) :
      RequestMove c line o world (.post req i) ⟨some (.post req (i + 1)), world, []⟩
  | posted {req i p h} (hi : c.plugins[i]? = some p) (hp : p.postHandleRequest = some h) :
      RequestMove c line o world (.post req i)
        ⟨some (.post req (i + 1)), h o world req, [.posted i req.ipAddr.str req.result]⟩

theorem requestStep_move (c : Core σ ω) (line : List Byte) (o : σ) (world : ω) (pc : RequestPc) :
    RequestMove c line o world pc (requestStep c line o world pc) := by
  cases pc with
  | parse =>
      simp only [requestStep]
      split
      case h_1 hparse => exact .reject hparse
      case h_2 hparse => exact .accept hparse
  | invalid req => exact .invalid
  | handle req i =>
      simp only [requestStep]
      split
      case h_1 hi => exact .noPlugin hi
      case h_2 p hi =>
        split
        case h_1 hp => exact .noHandler hi hp
        case h_2 h hp =>
          by_cases hstatus : (h o world req).status = .goOn
          · rw [if_neg (not_not.mpr hstatus), hstatus]
            exact .goOn hi hp rfl hstatus
          · rw [if_pos hstatus]
            exact .decide hi hp rfl hstatus
  | respond req =>
      simp only [requestStep, respond]
      split
      case isTrue hres => exact .allow hres
      case isFalse hallow =>
        split
        case isTrue hres => exact .deny hres
        case isFalse hdeny => exact .undecided hallow hdeny
  | post req i =>
      simp only [requestStep]
      split
      case h_1 hi => exact .postDone hi
      case h_2 p hi =>
        split
        case h_1 hp => exact .noPost hi hp
        case h_2 h hp => exact .posted hi hp

/-! ### One answer -/

/-- The lines of an event that go to standard output. -/
def RequestEvent.output : RequestEvent → List (List Byte)
  | .handled _ _ _ => []
  | .responded out => [out]
  | .posted _ _ _ => []

/-- The answers among some events. -/
def responses (es : List RequestEvent) : List (List Byte) := es.flatMap RequestEvent.output

@[simp] theorem responses_nil : responses [] = [] := rfl

@[simp] theorem responses_append (es es' : List RequestEvent) :
    responses (es ++ es') = responses es ++ responses es' := List.flatMap_append

/-- How many answers are still to come at a point of the loop body. -/
def RequestPc.owed : RequestPc → ℕ
  | .post _ _ => 0
  | _ => 1

/-- The same for the outcome of a step; at `endrequest` nothing is owed. -/
def owedNext : Option RequestPc → ℕ
  | none => 0
  | some pc => pc.owed

@[simp] theorem owedNext_afterDecision (req : Request) : owedNext (afterDecision req) = 0 := by
  unfold afterDecision
  split <;> rfl

/-- **A step answers exactly when it stops owing.** -/
theorem RequestMove.responses {c : Core σ ω} {line : List Byte} {o : σ} {world : ω}
    {pc : RequestPc} {r : RequestStep ω} (h : RequestMove c line o world pc r) :
    (SquidHelper.responses r.events).length + owedNext r.next = pc.owed := by
  cases h with
  | allow => simp [SquidHelper.responses, RequestEvent.output, RequestPc.owed]
  | deny => simp [SquidHelper.responses, RequestEvent.output, RequestPc.owed]
  | _ => rfl

theorem requestStep_responses (c : Core σ ω) (line : List Byte) (o : σ) (world : ω)
    (pc : RequestPc) :
    (responses (requestStep c line o world pc).events).length +
      owedNext (requestStep c line o world pc).next = pc.owed :=
  (requestStep_move c line o world pc).responses

/-! ### The channel -/

/-- The request a worker has read from the line, once it has. -/
def RequestPc.request : RequestPc → Option Request
  | .parse => none
  | .invalid req => some req
  | .handle req _ => some req
  | .respond req => some req
  | .post req _ => some req

/-- The request at this point was read from `line`. -/
def RequestPc.From (line : List Byte) (pc : RequestPc) : Prop :=
  ∀ req ∈ pc.request, req.channel = lineChannel line

/-- What follows a decision is the post loop on the same request. -/
theorem eq_post_of_afterDecision {req : Request} {pc : RequestPc}
    (h : afterDecision req = some pc) :
    req.skipPostHandleRequest = false ∧ pc = .post req 0 := by
  unfold afterDecision at h
  split at h
  · cases h
  case isFalse hskip =>
    cases h
    exact ⟨Bool.eq_false_iff.mpr hskip, rfl⟩

theorem requestStep_from {c : Core σ ω} {line : List Byte} {o : σ} {world : ω}
    {pc pc' : RequestPc} (h : pc.From line)
    (hnext : (requestStep c line o world pc).next = some pc') : pc'.From line := by
  have hmove := requestStep_move c line o world pc
  generalize requestStep c line o world pc = r at hmove hnext
  cases hmove with
  | accept hparse =>
      cases hnext
      rintro req ⟨⟩
      exact parseRequest_channel (.inl hparse)
  | reject hparse =>
      cases hnext
      rintro req ⟨⟩
      exact parseRequest_channel (.inr hparse)
  | goOn =>
      have hchannel := h _ rfl
      cases hnext
      rintro req ⟨⟩
      exact hchannel
  | decide =>
      have hchannel := h _ rfl
      cases hnext
      rintro req ⟨⟩
      exact hchannel
  | allow =>
      -- the post loop goes on with the same request
      obtain ⟨-, rfl⟩ := eq_post_of_afterDecision hnext
      exact h
  | deny =>
      obtain ⟨-, rfl⟩ := eq_post_of_afterDecision hnext
      exact h
  | _ =>
      cases hnext
      try exact h

/-- Every answer carries the channel of its line. -/
theorem requestStep_channel {c : Core σ ω} {line : List Byte} {o : σ} {world : ω}
    {pc : RequestPc} (h : pc.From line) {out : List Byte}
    (hout : out ∈ responses (requestStep c line o world pc).events) :
    ∃ status msg, out = sendResponse (lineChannel line) status msg := by
  have hmove := requestStep_move c line o world pc
  generalize requestStep c line o world pc = r at hmove hout
  cases hmove with
  | invalid => exact ⟨_, _, h _ rfl ▸ List.mem_singleton.mp hout⟩
  | allow => exact ⟨_, _, h _ rfl ▸ List.mem_singleton.mp hout⟩
  | deny => exact ⟨_, _, h _ rfl ▸ List.mem_singleton.mp hout⟩
  | undecided => exact ⟨_, _, h _ rfl ▸ List.mem_singleton.mp hout⟩
  | _ => cases hout

/-! ### A request ends -/

/-- A bound on the steps left, with `n` plugins. -/
def RequestPc.rank (n : ℕ) : RequestPc → ℕ
  | .parse => 2 * n + 4
  | .invalid _ => 1
  | .handle _ i => n + 3 + (n - i)
  | .respond _ => n + 2
  | .post _ i => 1 + (n - i)

theorem RequestPc.rank_pos (n : ℕ) (pc : RequestPc) : 0 < pc.rank n := by
  cases pc <;> simp only [RequestPc.rank] <;> omega

theorem requestStep_rank {c : Core σ ω} {line : List Byte} {o : σ} {world : ω}
    {pc pc' : RequestPc} (hnext : (requestStep c line o world pc).next = some pc') :
    pc'.rank c.plugins.length < pc.rank c.plugins.length := by
  have hmove := requestStep_move c line o world pc
  generalize requestStep c line o world pc = r at hmove hnext
  -- the index of a plugin is in range
  have hlt : ∀ {i p}, c.plugins[i]? = some p → i < c.plugins.length :=
    fun hi => (List.getElem?_eq_some_iff.mp hi).1
  cases hmove with
  | noHandler hi =>
      cases hnext
      have := hlt hi
      simp only [RequestPc.rank]
      omega
  | goOn hi =>
      cases hnext
      have := hlt hi
      simp only [RequestPc.rank]
      omega
  | noPost hi =>
      cases hnext
      have := hlt hi
      simp only [RequestPc.rank]
      omega
  | posted hi =>
      cases hnext
      have := hlt hi
      simp only [RequestPc.rank]
      omega
  | allow =>
      obtain ⟨-, rfl⟩ := eq_post_of_afterDecision hnext
      simp only [RequestPc.rank]
      omega
  | deny =>
      obtain ⟨-, rfl⟩ := eq_post_of_afterDecision hnext
      simp only [RequestPc.rank]
      omega
  | _ =>
      cases hnext
      try (simp only [RequestPc.rank]; omega)

end SquidHelper
