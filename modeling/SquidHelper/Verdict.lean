/-
SquidHelper/Verdict.lean

What the answers are when the decisions of the plugins are a function of the address.

`verdict` is the first status other than `HANDLER_GO_ON` in list order, and
`expectedAnswer` the line that goes with it.  Runs are compared with it in one form that
covers both a plain plugin list and one with a cache in it: at most one position may
answer otherwise than by a fixed function, provided that it only repeats decisions that
another plugin has already made for the same text (`Repeats`).
-/
import SquidHelper.Lib.History
import SquidHelper.Answers

namespace SquidHelper

open CString History

variable {σ ω : Type*} {n : ℕ}

/-! ### Decisions -/

/-- `ALLOW` and `DENY`. -/
def HandlerStatus.Decisive (status : HandlerStatus) : Prop := status = allow ∨ status = deny

theorem HandlerStatus.Decisive.ne_goOn {status : HandlerStatus} (h : status.Decisive) :
    status ≠ .goOn := by
  rcases h with rfl | rfl <;> decide

/-- The answer to a decision. -/
def decisionAnswer (channel : ℕ) (status : HandlerStatus) : List Byte :=
  if status = .allow then sendResponse channel 0 none
  else sendResponse channel (-1) (some (ascii "DENIED"))

/-- The first status other than `GO_ON`, if plugin `p` answers `f p text`. -/
def verdict (f : Plugin σ ω → List Byte → HandlerStatus) (text : List Byte) :
    List (Plugin σ ω) → HandlerStatus
  | [] => .goOn
  | p :: ps =>
      if p.handleRequest.isSome ∧ f p text ≠ .goOn then f p text else verdict f text ps

/-- The answer when the plugins come to a status. -/
def verdictAnswer (c : Core σ ω) (channel : ℕ) : HandlerStatus → List Byte
  | .allow => decisionAnswer channel .allow
  | .deny => decisionAnswer channel .deny
  | _ => sendResponse channel (if c.denyByDefault then -1 else 0) (some (ascii "UNKNOWN ERR"))

/-- The answer to a line when the plugins come to `v text`. -/
def expectedAnswer (c : Core σ ω) (v : List Byte → HandlerStatus) (line : List Byte) :
    List Byte :=
  match parseRequest c.build c.inetPton line with
  | .invalid _ => sendResponse (lineChannel line) (-1) (some (ascii "Valid IP address expected"))
  | .valid req => verdictAnswer c (lineChannel line) (v req.ipAddr.str)

/-- The handlers of `c` go by the address text alone. -/
def Fixed (c : Core σ ω) (f : Plugin σ ω → List Byte → HandlerStatus) : Prop :=
  ∀ p ∈ c.plugins, ∀ h, p.handleRequest = some h →
    ∀ o world req, (h o world req).status = f p req.ipAddr.str

/-! ### Requests under way -/

/-- The address and the channel are those read from `line`. -/
def Request.ReadFrom (b : Build) (pton : InetPton) (line : List Byte) (req : Request) : Prop :=
  ∃ req₀, parseRequest b pton line = .valid req₀ ∧ req.ipAddr = req₀.ipAddr ∧
    req.channel = lineChannel line

theorem Request.ReadFrom.of_parse {b : Build} {pton : InetPton} {line : List Byte} {req : Request}
    (h : parseRequest b pton line = .valid req) : req.ReadFrom b pton line :=
  ⟨req, h, rfl, parseRequest_channel (.inl h)⟩

theorem Request.ReadFrom.expectedAnswer {c : Core σ ω} {line : List Byte} {req : Request}
    (h : req.ReadFrom c.build c.inetPton line) (v : List Byte → HandlerStatus) :
    expectedAnswer c v line = verdictAnswer c req.channel (v req.ipAddr.str) := by
  obtain ⟨req₀, hparse, hip, hchannel⟩ := h
  rw [SquidHelper.expectedAnswer, hparse, hchannel, hip]

/-- A chain of handlers: `rest i text` is what the plugins from the `i`-th on come to, not
counting the one at `k`, which decides nothing but `ALLOW` and `DENY`. -/
structure Chain (c : Core σ ω) (k : Option ℕ) (rest : ℕ → List Byte → HandlerStatus) : Prop where
  done {i text} (hi : c.plugins[i]? = none) : rest i text = .goOn
  skip {i p text} (hi : c.plugins[i]? = some p) (hp : p.handleRequest = none) :
    rest i text = rest (i + 1) text
  call {i p h} (hi : c.plugins[i]? = some p) (hp : p.handleRequest = some h) (hk : some i ≠ k)
    (o : σ) (world : ω) (req : Request) :
    rest i req.ipAddr.str = if (h o world req).status = .goOn then rest (i + 1) req.ipAddr.str
      else (h o world req).status
  cache {i p h text} (hi : c.plugins[i]? = some p) (hp : p.handleRequest = some h)
    (hk : some i = k) : rest i text = rest (i + 1) text
  cacheStatus {i p h} (hi : c.plugins[i]? = some p) (hp : p.handleRequest = some h)
    (hk : some i = k) (o : σ) (world : ω) (req : Request) :
    (h o world req).status = .goOn ∨ (h o world req).status.Decisive

/-- Decisions at `k` repeat decisions made elsewhere for the same text. -/
def Repeats (k : Option ℕ) (log : List (Event n)) : Event n → Prop
  | .request _ (.handled i text status) =>
      some i = k → status.Decisive →
        ∃ job j, some j ≠ k ∧ .request job (.handled j text status) ∈ log
  | _ => True

/-- What a worker knows at a point of a request. -/
def PcFair (c : Core σ ω) (rest : ℕ → List Byte → HandlerStatus) (line : List Byte) :
    RequestPc → Prop
  | .parse => True
  | .invalid req => parseRequest c.build c.inetPton line = .invalid req
  | .handle req i => req.ReadFrom c.build c.inetPton line ∧
      rest 0 req.ipAddr.str = rest i req.ipAddr.str ∧
      ∀ status : HandlerStatus, status.Decisive → req.result ≠ status.toInt
  | .respond req => req.ReadFrom c.build c.inetPton line ∧
      ∀ status : HandlerStatus, status.Decisive →
        (req.result = status.toInt ↔ rest 0 req.ipAddr.str = status)
  | .post _ _ => True

/-- What an event shows. -/
def EventFair (c : Core σ ω) (k : Option ℕ) (rest : ℕ → List Byte → HandlerStatus) :
    Event n → Prop
  | .request _ (.handled i text status) => some i ≠ k → status.Decisive → rest 0 text = status
  | .request job (.responded out) => out = expectedAnswer c (rest 0) job.line
  | _ => True

structure Fair (c : Core σ ω) (k : Option ℕ) (rest : ℕ → List Byte → HandlerStatus)
    (s : State n ω) : Prop where
  pc : ∀ w job pc, s.workers w = .busy job pc → PcFair c rest job.line pc
  log : ∀ e ∈ s.log, EventFair c k rest e

/-! ### One step of a request -/

section Move

variable {c : Core σ ω} {k : Option ℕ} {rest : ℕ → List Byte → HandlerStatus} {job : Job} {o : σ}
  {world : ω} {pc : RequestPc} {r : RequestStep ω} {log : List (Event n)}

/-- What a handler that decides comes to is what the whole chain comes to. -/
theorem decide_rest (hchain : Chain c k rest) {req : Request} {i : ℕ} {p : Plugin σ ω}
    {h : σ → ω → Request → HandlerResult ω} (hi : c.plugins[i]? = some p)
    (hp : p.handleRequest = some h) (hpc : PcFair c rest job.line (.handle req i))
    (hstatus : (h o world req).status ≠ .goOn)
    (hlog : ∀ e ∈ log, EventFair c k rest e)
    (hrep : Repeats k log (.request job (.handled i req.ipAddr.str (h o world req).status))) :
    rest 0 req.ipAddr.str = (h o world req).status := by
  by_cases hk : some i = k
  · -- the cache: another plugin has decided so before
    have hd : (h o world req).status.Decisive :=
      (hchain.cacheStatus hi hp hk o world req).resolve_left hstatus
    obtain ⟨job', j, hj, hmem⟩ := hrep hk hd
    exact hlog _ hmem hj hd
  · rw [hpc.2.1, hchain.call hi hp hk o world req, if_neg hstatus]

/-- The worker's knowledge after a step. -/
theorem RequestMove.pcFair (hchain : Chain c k rest)
    (h : RequestMove c job.line o world pc r) (hpc : PcFair c rest job.line pc)
    (hlog : ∀ e ∈ log, EventFair c k rest e)
    (hrep : Justified (Repeats k) (log ++ r.events.map (.request job))) :
    ∀ pc' ∈ r.next, PcFair c rest job.line pc' := by
  intro pc' hnext
  cases h with
  | accept hparse =>
      cases hnext
      refine ⟨.of_parse hparse, rfl, ?_⟩
      intro status _ hres
      rw [parseRequest_result hparse] at hres
      exact status.toInt_ne_neg_one hres.symm
  | reject hparse => cases hnext; exact hparse
  | noPlugin hi =>
      cases hnext
      -- nobody decided, and behind the last plugin the verdict is to go on
      obtain ⟨hread, hrest, hres⟩ := hpc
      refine ⟨hread, fun status hd => ⟨fun heq => absurd heq (hres status hd), fun heq => ?_⟩⟩
      rw [hrest, hchain.done hi] at heq
      exact absurd heq.symm hd.ne_goOn
  | noHandler hi hp =>
      cases hnext
      exact ⟨hpc.1, hpc.2.1.trans (hchain.skip hi hp), hpc.2.2⟩
  | @goOn req i p f r' hi hp hr hstatus =>
      cases hnext
      refine ⟨hpc.1, hpc.2.1.trans ?_, fun status hd hres => ?_⟩
      -- a handler that goes on leaves the verdict to those behind it
      · by_cases hk : some i = k
        · exact hchain.cache hi hp hk
        · rw [hchain.call hi hp hk o world req, hr, if_pos hstatus]
          rfl
      · rw [Request.after, HandlerStatus.toInt_inj] at hres
        exact hd.ne_goOn hres.symm
  | @decide req i p f r' hi hp hr hstatus =>
      cases hnext
      subst hr
      refine ⟨hpc.1, ?_⟩
      intro status hd
      -- the decision is the verdict of the chain from here on
      have hrest := decide_rest hchain hi hp hpc hstatus hlog (hrep log _ [] rfl)
      rw [Request.after, HandlerStatus.toInt_inj]
      exact ⟨fun heq => hrest.trans heq, fun heq => hrest.symm.trans heq⟩
  | allow => obtain ⟨-, rfl⟩ := eq_post_of_afterDecision hnext; trivial
  | deny => obtain ⟨-, rfl⟩ := eq_post_of_afterDecision hnext; trivial
  | noPost => cases hnext; trivial
  | posted => cases hnext; trivial
  | _ => cases hnext

/-- A decision is answered as expected. -/
theorem PcFair.decision {req : Request} {status : HandlerStatus}
    (hpc : PcFair c rest job.line (.respond req)) (hd : status.Decisive)
    (hres : req.result = status.toInt) :
    decisionAnswer req.channel status = expectedAnswer c (rest 0) job.line := by
  obtain ⟨hread, hrest⟩ := hpc
  rw [hread.expectedAnswer, (hrest status hd).mp hres]
  rcases hd with rfl | rfl <;> rfl

/-- And so is a request without one. -/
theorem PcFair.undecided {req : Request} (hpc : PcFair c rest job.line (.respond req))
    (hallow : req.result ≠ HandlerStatus.allow.toInt)
    (hdeny : req.result ≠ HandlerStatus.deny.toInt) :
    sendResponse req.channel (if c.denyByDefault then -1 else 0) (some (ascii "UNKNOWN ERR"))
      = expectedAnswer c (rest 0) job.line := by
  obtain ⟨hread, hrest⟩ := hpc
  have hallow' := mt (hrest .allow (.inl rfl)).mpr hallow
  have hdeny' := mt (hrest .deny (.inr rfl)).mpr hdeny
  rw [hread.expectedAnswer]
  cases hv : rest 0 req.ipAddr.str with
  | allow => exact absurd hv hallow'
  | deny => exact absurd hv hdeny'
  | _ => rfl

/-- The events of a step. -/
theorem RequestMove.eventFair (hchain : Chain c k rest)
    (h : RequestMove c job.line o world pc r) (hpc : PcFair c rest job.line pc)
    (hlog : ∀ e ∈ log, EventFair c k rest e)
    (hrep : Justified (Repeats k) (log ++ r.events.map (.request job))) :
    ∀ e ∈ r.events, EventFair (n := n) c k rest (.request job e) := by
  intro e he
  cases h with
  | @invalid req =>
      obtain rfl := List.mem_singleton.mp he
      have hchannel := parseRequest_channel (.inr hpc)
      rw [EventFair, expectedAnswer, hpc, hchannel]
  | goOn hi hp hr hstatus =>
      obtain rfl := List.mem_singleton.mp he
      exact fun _ hd => absurd rfl hd.ne_goOn
  | decide hi hp hr hstatus =>
      obtain rfl := List.mem_singleton.mp he
      subst hr
      exact fun _ _ => decide_rest hchain hi hp hpc hstatus hlog (hrep log _ [] rfl)
  | allow hres =>
      obtain rfl := List.mem_singleton.mp he
      exact hpc.decision (.inl rfl) hres
  | deny hres =>
      obtain rfl := List.mem_singleton.mp he
      exact hpc.decision (.inr rfl) hres
  | undecided hallow hdeny =>
      obtain rfl := List.mem_singleton.mp he
      exact hpc.undecided hallow hdeny
  | posted => obtain rfl := List.mem_singleton.mp he; trivial
  | _ => cases he

end Move

/-! ### Whole runs -/

theorem Fair.init {c : Core σ ω} {k : Option ℕ} {rest : ℕ → List Byte → HandlerStatus}
    (reads : List StdinRead) (world : ω) : Fair c k rest (State.init n reads world) where
  pc _ _ _ h := by cases h
  log _ h := by cases h

theorem Fair.step {c : Core σ ω} {k : Option ℕ} {rest : ℕ → List Byte → HandlerStatus}
    (hchain : Chain c k rest) {s s' : State n ω} (h : Fair c k rest s) (hs : RequestView c s s')
    (hrep : Justified (Repeats k) s'.log) : Fair c k rest s' := by
  cases hs with
  | @request w o job pc r hold hmove hlog hworld hw =>
      rw [hlog] at hrep
      constructor
      · intro w' job' pc' hpc
        rcases eq_or_ne w' w with rfl | hne
        · rw [hw, Function.update_self] at hpc
          obtain ⟨rfl, hnext⟩ := WorkerPc.afterStep_eq_busy.mp hpc
          exact hmove.pcFair hchain (h.pc _ _ _ hold) h.log hrep _ hnext
        · rw [hw, Function.update_of_ne hne] at hpc
          exact h.pc w' job' pc' hpc
      · rw [hlog]
        refine List.forall_mem_append.mpr ⟨h.log, List.forall_mem_map.mpr ?_⟩
        exact hmove.eventFair hchain (h.pc _ _ _ hold) h.log hrep
  | @quiet es hlog hes hworld hw =>
      constructor
      · intro w job pc hpc
        rcases hw w job pc hpc with hold | rfl
        · exact h.pc w job pc hold
        · trivial
      · rw [hlog]
        refine List.forall_mem_append.mpr ⟨h.log, ?_⟩
        intro e he
        cases e with
        | request job e' => exact absurd rfl (hes _ he job e')
        | _ => trivial

/-- **Every answer is the expected one**, in every run whose hits repeat decisions. -/
theorem fair_of_reaches {c : Core σ ω} {k : Option ℕ} {rest : ℕ → List Byte → HandlerStatus}
    (hchain : Chain c k rest) {reads : List StdinRead} {world : ω}
    (hrep : ∀ s, (helper c n).Reaches (State.init n reads world) s →
      Justified (Repeats k) s.log)
    {s : State n ω} (h : (helper c n).Reaches (State.init n reads world) s) :
    Fair c k rest s := by
  have hboth := h.invariant
    (I := fun s => (helper c n).Reaches (State.init n reads world) s ∧ Fair c k rest s)
    (fun s a s' hs hstep => ⟨hs.1.tail hstep,
      hs.2.step hchain (step_step hstep).requestView (hrep s' (hs.1.tail hstep))⟩)
    ⟨.refl _, .init reads world⟩
  exact hboth.2

/-- The answers to a line are among the responses in the log. -/
theorem mem_answersTo {job : Job} {log : List (Event n)} {out : List Byte}
    (h : out ∈ answersTo job log) : .request job (.responded out) ∈ log := by
  obtain ⟨e, he, hout⟩ := List.mem_flatMap.mp h
  cases e with
  | request job' e =>
      simp only at hout
      split at hout
      case isTrue heq =>
        subst heq
        cases e with
        | responded out' =>
            obtain rfl := List.mem_singleton.mp hout
            exact he
        | _ => cases hout
      case isFalse => cases hout
  | _ => cases hout

theorem Fair.answer {c : Core σ ω} {k : Option ℕ} {rest : ℕ → List Byte → HandlerStatus}
    {s : State n ω} (h : Fair c k rest s) {job : Job} {out : List Byte}
    (hout : out ∈ answersTo job s.log) : out = expectedAnswer c (rest 0) job.line :=
  h.log _ (mem_answersTo hout)

/-! ### Without a cache -/

theorem verdict_cons_of_none {f : Plugin σ ω → List Byte → HandlerStatus} {p : Plugin σ ω}
    (hp : p.handleRequest = none) (text : List Byte) (ps : List (Plugin σ ω)) :
    verdict f text (p :: ps) = verdict f text ps := by
  rw [verdict, if_neg (by simp [hp])]

theorem verdict_cons {f : Plugin σ ω → List Byte → HandlerStatus} {p : Plugin σ ω}
    (hp : p.handleRequest.isSome) (text : List Byte) (ps : List (Plugin σ ω)) :
    verdict f text (p :: ps) = if f p text = .goOn then verdict f text ps else f p text := by
  rw [verdict]
  by_cases hgo : f p text = .goOn <;> simp [hp, hgo]

/-- The plugins of `c` themselves. -/
theorem Fixed.chain {c : Core σ ω} {f : Plugin σ ω → List Byte → HandlerStatus}
    (h : Fixed c f) : Chain c none fun i text => verdict f text (c.plugins.drop i) where
  done hi := by rw [List.drop_eq_nil_of_le (List.getElem?_eq_none_iff.mp hi), verdict]
  skip {i p text} hi hp := by
    rw [List.drop_eq_getElem?_toList_append, hi]
    exact verdict_cons_of_none hp text _
  call {i p g} hi hp _ o world req := by
    rw [List.drop_eq_getElem?_toList_append, hi, h p (List.mem_of_getElem? hi) g hp]
    exact verdict_cons (by rw [hp]; rfl) _ _
  cache _ _ hk := by cases hk
  cacheStatus _ _ hk := by cases hk

/-- **Plugins that go by the address give every line the expected answer.** -/
theorem answer_of_fixed {c : Core σ ω} {f : Plugin σ ω → List Byte → HandlerStatus}
    (hf : Fixed c f) {reads : List StdinRead} {world : ω} {s : State n ω}
    (h : (helper c n).Reaches (State.init n reads world) s) {job : Job} {out : List Byte}
    (hout : out ∈ answersTo job s.log) :
    out = expectedAnswer c (fun text => verdict f text c.plugins) job.line := by
  have hrep : ∀ s', (helper c n).Reaches (State.init n reads world) s' →
      Justified (Repeats none) s'.log := by
    intro s' _ before e after _
    cases e with
    | request job e =>
        cases e with
        | handled => nofun
        | _ => trivial
    | _ => trivial
  exact (fair_of_reaches hf.chain hrep h).answer hout

end SquidHelper
