/-
SquidHelper/Provenance.lean

Where the decisions come from.  A decision in the log was returned by a handler that was
called at some moment of the run, with the world as it was then, for the address of the
line (`handled_of_exec`).  An answer that tells of a decision has one in the log, and if
it was a cache that made it, some other handler had made the same one for the same address
(`decided_of_exec`).

Nothing is assumed of the handlers here.
-/
import SquidHelper.Decision

namespace SquidHelper

open CString History

variable {σ ω : Type*} {n : ℕ} {c : Core σ ω}

/-! ### The call behind a decision -/

/-- Worker `w` is about to make this call, with `o` as the chances. -/
structure CallOf (c : Core σ ω) (job : Job) (i : ℕ) (status : HandlerStatus) (s : State n ω)
    (w : Fin n) (o : σ) (req : Request) : Prop where
  busy : s.workers w = .busy job (.handle req i)
  read : req.ReadFrom c.build c.inetPton job.line
  returns : ∃ h, c.handler i = some h ∧ (h o s.world req).status = status

/-- At some moment of the run the call was made. -/
def CalledIn (c : Core σ ω) (s₀ : State n ω) (as : List (Action n σ)) (job : Job) (i : ℕ)
    (text : List Byte) (status : HandlerStatus) : Prop :=
  ∃ as₁ w o s₁ req, as₁ ++ [.worker w o] <+: as ∧ (helper c n).exec s₀ as₁ = some s₁ ∧
    CallOf c job i status s₁ w o req ∧ req.ipAddr.str = text

theorem CalledIn.mono {s₀ : State n ω} {as : List (Action n σ)} {job : Job} {i : ℕ}
    {text : List Byte} {status : HandlerStatus} (h : CalledIn c s₀ as job i text status)
    (bs : List (Action n σ)) : CalledIn c s₀ (as ++ bs) job i text status := by
  obtain ⟨as₁, w, o, s₁, req, hprefix, h⟩ := h
  exact ⟨as₁, w, o, s₁, req, hprefix.trans (List.prefix_append ..), h⟩

theorem mem_jobEvents {job : Job} {e : RequestEvent} {log : List (Event n)} :
    e ∈ jobEvents job log ↔ .request job e ∈ log := by
  rw [jobEvents, List.mem_flatMap]
  constructor
  · rintro ⟨e', he', hmem⟩
    cases e' with
    | request job' e' =>
        obtain ⟨heq, hmem'⟩ := List.mem_ite_nil_right.mp hmem
        rw [← heq, List.mem_singleton.mp hmem']
        exact he'
    | _ => cases hmem
  · intro h
    exact ⟨_, h, by simp⟩

/-- A step of a request in which a handler returns. -/
theorem RequestMove.callOf {s : State n ω} {w : Fin n} {o : σ} {job : Job} {pc : RequestPc}
    {r : RequestStep ω} (h : RequestMove c job.line o s.world pc r)
    (hold : s.workers w = .busy job pc)
    (hread : ∀ req i, pc = .handle req i → req.ReadFrom c.build c.inetPton job.line)
    {i : ℕ} {text : List Byte} {status : HandlerStatus}
    (he : .handled i text status ∈ r.events) :
    ∃ req, CallOf c job i status s w o req ∧ req.ipAddr.str = text := by
  cases h with
  | @goOn req i p f r' hi hp hr hstatus =>
      cases List.mem_singleton.mp he
      exact ⟨req, ⟨hold, hread req _ rfl, f, (Core.handler_eq hi).trans hp, by rw [hr, hstatus]⟩,
        rfl⟩
  | @decide req i p f r' hi hp hr hstatus =>
      cases List.mem_singleton.mp he
      exact ⟨req, ⟨hold, hread req _ rfl, f, (Core.handler_eq hi).trans hp, by rw [hr]⟩, rfl⟩
  | allow => cases List.mem_singleton.mp he
  | deny => cases List.mem_singleton.mp he
  | undecided => cases List.mem_singleton.mp he
  | invalid => cases List.mem_singleton.mp he
  | posted => cases List.mem_singleton.mp he
  | _ => cases he

/-- **What a handler is said to have returned, it has returned.** -/
theorem handled_of_exec {reads : List StdinRead} {world : ω} {as : List (Action n σ)}
    {s : State n ω} (h : (helper c n).exec (State.init n reads world) as = some s) {job : Job}
    {i : ℕ} {text : List Byte} {status : HandlerStatus}
    (he : .handled i text status ∈ jobEvents job s.log) :
    CalledIn c (State.init n reads world) as job i text status := by
  revert job i text status
  refine Guarded.exec_induction (P := fun as s => ∀ {job : Job} {i : ℕ} {text : List Byte}
    {status : HandlerStatus}, .handled i text status ∈ jobEvents job s.log →
    CalledIn c (State.init n reads world) as job i text status) (fun he => by cases he)
    (fun as s₁ a s₂ hexec ih hstep {job i text status} he => ?_) h
  cases (step_step hstep).jobView with
  | @request w o job' pc r ha hold hmove hlog hw =>
      subst ha
      rw [hlog, jobEvents_append, jobEvents_request, List.mem_append] at he
      rcases he with he | he
      · exact (ih he).mono _
      -- the step is the return of this call
      · obtain ⟨heq, hr⟩ := List.mem_ite_nil_right.mp he
        subst heq
        have hread : ∀ req i, pc = .handle req i → req.ReadFrom c.build c.inetPton job'.line := by
          rintro req i rfl
          exact ((tracked_of_exec hexec).busy w job' _ hold).2.shape.1.read
        obtain ⟨req, hcall, htext⟩ := hmove.callOf hold hread hr
        exact ⟨as, w, o, s₁, req, List.prefix_rfl, hexec, hcall, htext⟩
  | dequeue ha hold hlog hw =>
      rw [hlog, jobEvents_append, List.mem_append] at he
      rcases he with he | he
      · exact (ih he).mono _
      · cases he
  | quiet hjobs hevents hcalls hw =>
      rw [hevents] at he
      exact (ih he).mono _

/-! ### The decision behind an answer -/

/-- What an answer to `line` tells of the decision. -/
inductive Tells (c : Core σ ω) (line : List Byte) : List Byte → HandlerStatus → Prop
  | allow : Tells c line (sendResponse (lineChannel line) 0 none) .allow
  | deny : Tells c line (sendResponse (lineChannel line) (-1) (some (ascii "DENIED"))) .deny
  /-- By default clients are denied, so that any `OK` is a decision. -/
  | ok {msg} (hdeny : c.denyByDefault = true) :
      Tells c line (sendResponse (lineChannel line) 0 msg) .allow

theorem Tells.decisive {line out : List Byte} {status : HandlerStatus}
    (h : Tells c line out status) : status.Decisive := by
  cases h with
  | allow => exact .inl rfl
  | deny => exact .inr rfl
  | ok => exact .inl rfl

section Answer

variable {line : List Byte} {es : List RequestEvent} {cs : List Call} {next : Option RequestPc}
  {req : Request} {out : List Byte} {status : HandlerStatus}

/-- An answer on a channel says one thing only. -/
theorem sendResponse_inj {channel : ℕ} {result result' : ℤ} {msg msg' : Option (List Byte)}
    (h : sendResponse channel result msg = sendResponse channel result' msg') :
    (result = 0 ↔ result' = 0) ∧ msg = msg' := by
  have hok := sendResponse_ok_iff h
  refine ⟨hok, ?_⟩
  have hstatus : (if result = 0 then ascii "OK" else ascii "ERR")
      = if result' = 0 then ascii "OK" else ascii "ERR" := if_congr hok rfl rfl
  unfold sendResponse at h
  rw [hstatus, List.append_cancel_left_eq] at h
  have hlog : ascii " log=" ≠ [] := by decide
  cases msg with
  | none =>
      cases msg' with
      | none => rfl
      | some m => exact absurd (List.append_eq_nil_iff.mp h.symm).1 hlog
  | some m =>
      cases msg' with
      | none => exact absurd (List.append_eq_nil_iff.mp h).1 hlog
      | some m' => exact congrArg some (List.append_cancel_left h)

/-- An answer that is no decision tells of none. -/
theorem not_tells {result : ℤ} {msg : List Byte}
    (hresult : result = 0 → c.denyByDefault = false) (hmsg : msg ≠ ascii "DENIED") :
    ¬ Tells c line (sendResponse (lineChannel line) result (some msg)) status := by
  intro h
  generalize heq : sendResponse (lineChannel line) result (some msg) = out at h
  cases h with
  | allow => cases (sendResponse_inj heq).2
  | deny => exact hmsg (Option.some.inj (sendResponse_inj heq).2)
  | ok hdeny =>
      rw [hresult ((sendResponse_inj heq).1.mpr rfl)] at hdeny
      cases hdeny

theorem tells_allow (h : Tells c line (sendResponse (lineChannel line) 0 none) status) :
    status = .allow := by
  generalize heq : sendResponse (lineChannel line) 0 none = out at h
  cases h with
  | deny => cases (sendResponse_inj heq).2
  | _ => rfl

theorem tells_deny
    (h : Tells c line (sendResponse (lineChannel line) (-1) (some (ascii "DENIED"))) status) :
    status = .deny := by
  generalize heq : sendResponse (lineChannel line) (-1) (some (ascii "DENIED")) = out at h
  cases h with
  | deny => rfl
  | _ => exact absurd ((sendResponse_inj heq).1.mpr rfl) (by decide)

/-- A line that tells of a decision has an address. -/
theorem Shape.valid_of_tells (h : Shape c line es cs next) (hout : .responded out ∈ es)
    (htells : Tells c line out status) :
    ∃ req, parseRequest c.build c.inetPton line = .valid req := by
  cases hparse : parseRequest c.build c.inetPton line with
  | valid req => exact ⟨req, rfl⟩
  | invalid req =>
      exfalso
      have hread : ∀ req' : Request, ¬ req'.ReadFrom c.build c.inetPton line := by
        rintro req' ⟨req₀, hvalid, -⟩
        rw [hparse] at hvalid
        cases hvalid
      cases next with
      | none =>
          rcases h with ⟨req', -, -, rfl⟩ | ⟨req', hsettled, -⟩
          · cases List.mem_singleton.mp hout
            exact not_tells (fun h => absurd h (by decide)) (by decide) htells
          · exact hread req' hsettled.read
      | some pc =>
          cases pc with
          | parse =>
              obtain ⟨rfl, -⟩ := h
              cases hout
          | invalid req' =>
              obtain ⟨-, rfl, -⟩ := h
              cases hout
          | handle req' i => exact hread req' h.1.read
          | respond req' => exact hread req' h.1.read
          | post req' i => exact hread req' h.1.read

/-- A decision that can be told from the answer was made by one of the handlers. -/
theorem decision_of_tells (h : Tells c line (answer c line cs) status) :
    decision cs = some status := by
  have hundecided : ¬ Tells c line (sendResponse (lineChannel line)
      (if c.denyByDefault then -1 else 0) (some (ascii "UNKNOWN ERR"))) status := by
    refine not_tells (fun h => ?_) (by decide)
    rw [← Bool.not_eq_true]
    intro hdeny
    rw [if_pos hdeny] at h
    cases h
  rw [answer] at h
  cases hdec : decision cs with
  | none =>
      rw [hdec] at h
      exact absurd h hundecided
  | some status' =>
      rw [hdec] at h
      cases status' with
      | allow => rw [tells_allow h]
      | deny => rw [tells_deny h]
      | _ => exact absurd h hundecided

/-- The decision is among the calls. -/
theorem exists_call_of_decision (h : decision cs = some status) :
    ∃ call ∈ cs, call.status = status := by
  obtain ⟨call, hfind, rfl⟩ := Option.map_eq_some_iff.mp h
  exact ⟨call, List.mem_of_find?_eq_some hfind, rfl⟩

/-- An address text stands for one address. -/
theorem Request.ReadFrom.ipAddr_eq_of_str {b : Build} {pton : InetPton} {line' : List Byte}
    {req' : Request} (h : req.ReadFrom b pton line) (h' : req'.ReadFrom b pton line')
    (hstr : req.ipAddr.str = req'.ipAddr.str) : req.ipAddr = req'.ipAddr := by
  obtain ⟨req₀, hparse, hip, -⟩ := h
  obtain ⟨req₀', hparse', hip', -⟩ := h'
  obtain ⟨a, ha, heq, -⟩ := parseRequest_valid hparse
  obtain ⟨a', ha', heq', -⟩ := parseRequest_valid hparse'
  rw [hip, hip'] at hstr ⊢
  rw [hstr, ha', Option.some.injEq] at ha
  rw [heq, heq', hstr, ha]

end Answer

/-- **Every decision was made by a handler.**  When the hits of the cache at `k` repeat
decisions, an answer that tells of one goes back to a call of another handler, at some
moment of the run, for the address of the line. -/
theorem decided_of_exec {k : Option ℕ} {reads : List StdinRead} {world : ω}
    {as : List (Action n σ)} {s : State n ω}
    (h : (helper c n).exec (State.init n reads world) as = some s)
    (hrep : Justified (Repeats k) s.log) {job : Job} {out : List Byte} {status : HandlerStatus}
    (hout : .request job (.responded out) ∈ s.log) (htells : Tells c job.line out status) :
    ∃ req, parseRequest c.build c.inetPton job.line = .valid req ∧
      ∃ as₁ w o s₁ req' job' i, as₁ ++ [.worker w o] <+: as ∧
        (helper c n).exec (State.init n reads world) as₁ = some s₁ ∧ some i ≠ k ∧
        CallOf c job' i status s₁ w o req' ∧ req'.ipAddr = req.ipAddr := by
  obtain ⟨⟨next, hshape⟩, -⟩ := shape_of_exec h job
  have hout' := mem_jobEvents.mpr hout
  obtain ⟨req, hvalid⟩ := hshape.valid_of_tells hout' htells
  refine ⟨req, hvalid, ?_⟩
  obtain ⟨rfl, -⟩ := hshape.responded hvalid hout'
  obtain ⟨call, hcall, rfl⟩ := exists_call_of_decision (decision_of_tells htells)
  obtain ⟨-, hpassed, hevents⟩ := hshape.valid hvalid
  -- the call is in the log
  have hmem : call.event ∈ jobEvents job s.log := by
    rcases hevents with hes | ⟨-, k, hes⟩
    · rw [hes]
      exact List.mem_map_of_mem hcall
    · rw [hes]
      exact List.mem_append_left _ (List.mem_map_of_mem hcall)
  have htext : call.request.ipAddr.str = req.ipAddr.str := by rw [hpassed call hcall]
  rw [Call.event, htext] at hmem
  -- if the cache made it, look for the decision that it repeats
  have hother : ∃ job' i, some i ≠ k ∧
      .handled i req.ipAddr.str call.status ∈ jobEvents job' s.log := by
    by_cases hk : some call.plugin = k
    · obtain ⟨before, after, hlog⟩ := List.append_of_mem (mem_jobEvents.mp hmem)
      obtain ⟨job', i, hi, hmem'⟩ := hrep before _ after hlog hk htells.decisive
      refine ⟨job', i, hi, mem_jobEvents.mpr ?_⟩
      rw [hlog]
      exact List.mem_append_left _ hmem'
    · exact ⟨job, call.plugin, hk, hmem⟩
  obtain ⟨job', i, hi, hmem'⟩ := hother
  obtain ⟨as₁, w, o, s₁, req', hprefix, hexec, hcallOf, hstr⟩ := handled_of_exec h hmem'
  exact ⟨as₁, w, o, s₁, req', job', i, hprefix, hexec, hi, hcallOf,
    hcallOf.read.ipAddr_eq_of_str (.of_parse hvalid) hstr⟩

end SquidHelper
