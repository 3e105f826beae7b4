/-
SquidHelper/Stdout.lean

What the process writes to standard output: the answers, and two lines that are none.
`stdin_read_cb` reports the end of the input with `printf`, and so does `parse_file` when
the hosts file cannot be opened, at start-up and at every reload.

`Setup` is a helper with any list of plugins, `txtfile` among them any number of times.  A
null pointer in `parse_line` ends the process, so `Setup.process` has no step there.
-/
import SquidHelper.Answers
import SquidHelper.TxtFile

namespace SquidHelper

open CString

variable {σ ω : Type*} {n : ℕ}

/-! ### Plugins and files -/

/-- A plugin that was loaded: `txtfile`, or one of the others, none of which has a watcher or
writes to standard output. -/
inductive LoadedPlugin (σ ω : Type*)
  | txtfile
  | other (p : Plugin σ ω)

/-- What the plugins work on: the `plugin_data` of the plugin at each place of the list, the
files that can be opened, by name, and what the other plugins use. -/
structure PluginWorld (ω : Type*) where
  data : ℕ → PluginData
  files : List Byte → Option (List Byte)
  rest : ω

structure Setup (σ ω : Type*) where
  build : Build
  inetPton : InetPton
  plugins : List (LoadedPlugin σ ω)
  denyByDefault : Bool
  /-- Files come and go, and so does what the other plugins use. -/
  outside : σ → (List Byte → Option (List Byte)) × ω → (List Byte → Option (List Byte)) × ω

namespace Setup

/-- The plugin at place `i` is `txtfile`. -/
def isTxtfile (c : Setup σ ω) (i : ℕ) : Bool :=
  match c.plugins[i]? with
  | some .txtfile => true
  | _ => false

/-- `parse_file` for the plugin at place `i`. -/
def parse (c : Setup σ ω) (w : PluginWorld ω) (i : ℕ) :
    Except Fault (PluginData × List (List Byte)) :=
  parseFile c.build c.inetPton (w.data i) (w.files (w.data i).filename)

/-- `file_change_cb`; nothing follows a fault, see `process`. -/
def fileChangeCb (c : Setup σ ω) (i : ℕ) (w : PluginWorld ω) : PluginWorld ω × List (List Byte) :=
  match c.parse w i with
  | .ok (pd, out) => ({ w with data := Function.update w.data i pd }, out)
  | .error _ => (w, [])

/-- A plugin at its place. -/
def load (c : Setup σ ω) (i : ℕ) : LoadedPlugin σ ω → Plugin σ (PluginWorld ω)
  | .txtfile =>
      { handleRequest := some fun _ w req => ⟨txtfileHandleRequest (w.data i) req, false, w⟩
        watcher := some fun _ w => c.fileChangeCb i w }
  | .other p =>
      { threadInit := p.threadInit
        handleRequest := p.handleRequest.map fun h o w req =>
          ⟨(h o w.rest req).status, (h o w.rest req).skip, { w with rest := (h o w.rest req).world }⟩
        postHandleRequest := p.postHandleRequest.map fun h o w req =>
          { w with rest := h o w.rest req } }

def core (c : Setup σ ω) : Core σ (PluginWorld ω) where
  build := c.build
  inetPton := c.inetPton
  plugins := c.plugins.mapIdx c.load
  denyByDefault := c.denyByDefault
  outside o w := ⟨w.data, (c.outside o (w.files, w.rest)).1, (c.outside o (w.files, w.rest)).2⟩

/-- The callback of the plugin at place `i` would hand on a null pointer. -/
def faults (c : Setup σ ω) (s : State n (PluginWorld ω)) : Action n σ → Bool
  | .watcher i _ => c.isTxtfile i && (c.parse s.world i).toOption.isNone
  | _ => false

/-- The helper, which ends when `parse_line` uses a null pointer. -/
def process (c : Setup σ ω) (n : ℕ) : Guarded (State n (PluginWorld ω)) (Action n σ) :=
  ⟨fun s a => if c.faults s a then none else (helper c.core n).step s a⟩

/-- The `config_file_parsed` hooks of the plugins from place `i` on: the data afterwards and
the lines printed.  `found` is what `fopen` gives each plugin. -/
def configFileParsed (c : Setup σ ω) (found : ℕ → Option (List Byte)) :
    ℕ → List (LoadedPlugin σ ω) → (ℕ → PluginData) →
      Except Fault ((ℕ → PluginData) × List (List Byte))
  | _, [], data => .ok (data, [])
  | i, .other _ :: ps, data => configFileParsed c found (i + 1) ps data
  | i, .txtfile :: ps, data => do
      let r ← parseFile c.build c.inetPton (data i) (found i)
      let r' ← configFileParsed c found (i + 1) ps (Function.update data i r.1)
      return (r'.1, r.2 ++ r'.2)

/-- The end of `init_config`. -/
def startUp (c : Setup σ ω) (found : ℕ → Option (List Byte)) (data : ℕ → PluginData) :
    Except Fault ((ℕ → PluginData) × List (List Byte)) :=
  c.configFileParsed found 0 c.plugins data

/-- A step that is going to write something else: `stdin_read_cb` at the end of the input, or
a reload of a file that is not there. -/
def stray (c : Setup σ ω) (s : State n (PluginWorld ω)) : Action n σ → Bool
  | .go =>
      match s.main, s.reads with
      | .stdinRead [] true, .eof :: _ => true
      | _, _ => false
  | .watcher i _ => c.isTxtfile i && (s.world.files (s.world.data i).filename).isNone
  | _ => false

/-- Such steps of a run. -/
def straySteps (c : Setup σ ω) (s : State n (PluginWorld ω)) (as : List (Action n σ)) :
    List (Action n σ) :=
  (c.process n).trace (fun s a => if c.stray s a then [a] else []) s as

end Setup

/-! ### What is written -/

/-- The lines on standard output. -/
def stdoutLines (log : List (Event n)) : List (List Byte) :=
  log.flatMap fun e => match e with
    | .request _ e => e.output
    | .printed text => [text]
    | _ => []

/-- The lines that are no answers. -/
def printedLines (log : List (Event n)) : List (List Byte) :=
  log.flatMap fun e => match e with
    | .printed text => [text]
    | _ => []

/-- The requests that were answered, one for each answer. -/
def answeredJobs (log : List (Event n)) : List Job :=
  log.flatMap fun e => match e with
    | .request job e => e.output.map fun _ => job
    | _ => []

/-- **Standard output carries the protocol and nothing else**: the lines, those of the start-up
included, are the answers to different requests, each in its place and on its channel. -/
structure SpeaksProtocol (startUp : List (List Byte)) (s : State n ω) : Prop where
  answers : List.Forall₂
    (fun line job => ∃ status msg, line = sendResponse (lineChannel job.line) status msg)
    (startUp ++ stdoutLines s.log) (answeredJobs s.log)
  once : (answeredJobs s.log).Nodup
  dequeued : ∀ job ∈ answeredJobs s.log, job ∈ dequeuedJobs s.log

@[simp] theorem printedLines_append (log log' : List (Event n)) :
    printedLines (log ++ log') = printedLines log ++ printedLines log' := List.flatMap_append

@[simp] theorem printedLines_printed (ts : List (List Byte)) :
    printedLines (ts.map (Event.printed (n := n))) = ts := by
  rw [printedLines, List.flatMap_map]
  exact List.flatMap_singleton' ts

@[simp] theorem printedLines_request (job : Job) (es : List RequestEvent) :
    printedLines (es.map (Event.request (n := n) job)) = [] := by
  simp [printedLines, List.flatMap_map]

/-- Every line answers a request or is one of the others. -/
theorem length_stdoutLines (log : List (Event n)) :
    (stdoutLines log).length = (answeredJobs log).length + (printedLines log).length := by
  induction log with
  | nil => rfl
  | cons e log ih =>
      have hcons : ∀ {α : Type} (f : Event n → List α),
          ((e :: log).flatMap f).length = (f e).length + (log.flatMap f).length := by
        intro α f
        rw [List.flatMap_cons, List.length_append]
      rw [stdoutLines, answeredJobs, printedLines] at ih ⊢
      rw [hcons, hcons, hcons, ih]
      cases e with
      | request job e => simp; omega
      | printed text => simp; omega
      | enqueued job => simp
      | dequeued w job => simp

/-- Without other lines, the answers stand against the requests. -/
theorem forall₂_stdoutLines {log : List (Event n)} (hprinted : printedLines log = [])
    {P : List Byte → Job → Prop} (hP : ∀ job, ∀ out ∈ answersTo job log, P out job) :
    List.Forall₂ P (stdoutLines log) (answeredJobs log) := by
  induction log with
  | nil => exact .nil
  | cons e log ih =>
      rw [printedLines, List.flatMap_cons, List.append_eq_nil_iff] at hprinted
      obtain ⟨hhead, htail⟩ := hprinted
      have hcons : ∀ job, answersTo job (e :: log) = answersTo job [e] ++ answersTo job log :=
        fun job => answersTo_append job [e] log
      have hih := ih htail fun job out hout => hP job out (by
        rw [hcons]
        exact List.mem_append_right _ hout)
      rw [stdoutLines, answeredJobs, List.flatMap_cons, List.flatMap_cons]
      refine List.rel_append ?_ hih
      cases e with
      | request job e =>
          -- an answer stands in both lists, once
          show List.Forall₂ P e.output (e.output.map fun _ => job)
          rw [List.forall₂_map_right_iff, List.forall₂_same]
          intro out hout
          refine hP job out ?_
          rw [hcons]
          exact List.mem_append_left _ (by simpa [answersTo] using hout)
      | printed text => cases hhead
      | enqueued job => exact .nil
      | dequeued w job => exact .nil

theorem count_answeredJobs (job : Job) (log : List (Event n)) :
    (answeredJobs log).count job = (answersTo job log).length := by
  rw [answeredJobs, answersTo, List.count_flatMap, List.length_flatMap]
  congr 2
  funext e
  cases e with
  | request job' e =>
      by_cases hj : job' = job
      · simp [hj]
      · simp [hj, List.count_replicate]
  | _ => rfl

/-! ### One step -/

namespace Setup

variable {c : Setup σ ω}

/-- `parse_file` prints a line if and only if there is no file. -/
theorem printed_eq_nil_iff {b : Build} {pton : InetPton} {pd pd' : PluginData}
    {contents : Option (List Byte)} {out : List (List Byte)}
    (h : parseFile b pton pd contents = .ok (pd', out)) : out = [] ↔ contents ≠ none := by
  cases contents with
  | none =>
      cases h
      simp
  | some file =>
      rw [parseFile_some] at h
      cases hparse : parseContents b pton file with
      | error e =>
          rw [hparse] at h
          cases h
      | ok chain =>
          rw [hparse] at h
          cases h
          simp

theorem process_step {s s' : State n (PluginWorld ω)} {a : Action n σ}
    (h : (c.process n).step s a = some s') :
    c.faults s a = false ∧ (helper c.core n).step s a = some s' := by
  obtain ⟨hfault, h⟩ := Option.ite_none_left_eq_some.mp h
  exact ⟨Bool.eq_false_iff.mpr hfault, h⟩

/-- The runs of the process are runs of the helper. -/
theorem process_exec {s s' : State n (PluginWorld ω)} {as : List (Action n σ)}
    (h : (c.process n).exec s as = some s') : (helper c.core n).exec s as = some s' :=
  Guarded.exec_of_step (fun _ _ _ hstep => (process_step hstep).2) h

/-- Only `txtfile` has a watcher. -/
theorem watcher_core {i : ℕ} {p : Plugin σ (PluginWorld ω)} (hi : c.core.plugins[i]? = some p)
    {f : σ → PluginWorld ω → PluginWorld ω × List (List Byte)} (hf : p.watcher = some f) :
    c.isTxtfile i = true ∧ f = fun _ w => c.fileChangeCb i w := by
  obtain ⟨q, hq, rfl⟩ := Option.map_eq_some_iff.mp (List.getElem?_mapIdx.symm.trans hi)
  cases q with
  | txtfile =>
      cases hf
      exact ⟨by rw [isTxtfile, hq], rfl⟩
  | other p => cases hf

/-- What the callback prints, and when. -/
theorem fileChangeCb_printed {s : State n (PluginWorld ω)} {i : ℕ} {o : σ}
    (hi : c.isTxtfile i = true) (hfault : c.faults s (.watcher i o) = false) :
    (c.fileChangeCb i s.world).2 = [] ↔ c.stray s (.watcher i o) = false := by
  simp only [faults, hi, Bool.true_and, Option.isNone_eq_false_iff] at hfault
  simp only [stray, hi, Bool.true_and, Option.isNone_eq_false_iff]
  rw [fileChangeCb]
  cases hparse : c.parse s.world i with
  | error e =>
      rw [hparse] at hfault
      cases hfault
  | ok r =>
      obtain ⟨pd, out⟩ := r
      rw [← Option.ne_none_iff_isSome]
      exact printed_eq_nil_iff hparse

/-- **A step writes a line that is no answer if and only if it is stray.** -/
theorem step_printedLines {s s' : State n (PluginWorld ω)} {a : Action n σ}
    (hstep : Step c.core s a s') (hfault : c.faults s a = false) :
    printedLines s'.log = [] ↔ printedLines s.log = [] ∧ c.stray s a = false := by
  -- most steps print nothing and are not stray
  have hquiet : ∀ {es : List (Event n)}, s'.log = s.log ++ es → printedLines es = [] →
      c.stray s a = false →
      (printedLines s'.log = [] ↔ printedLines s.log = [] ∧ c.stray s a = false) := by
    intro es hlog hes hstray
    rw [hlog, printedLines_append, hes, List.append_nil, hstray]
    simp
  have hnil := (List.append_nil s.log).symm
  cases hstep with
  | readEof hm hr =>
      have hstray : c.stray s (.go : Action n σ) = true := by simp only [stray, hm, hr]
      rw [hstray]
      simp [printedLines]
  | watcher hm hi hf =>
      -- `file_change_cb` prints if `fopen` fails, and only then
      obtain ⟨htxt, rfl⟩ := watcher_core hi hf
      rw [printedLines_append, printedLines_printed, List.append_eq_nil_iff,
        fileChangeCb_printed htxt hfault]
  | readDone hm => exact hquiet hnil rfl (by simp only [stray, hm])
  | readData hm hr => exact hquiet hnil rfl (by simp only [stray, hm, hr])
  | readNothing hm hr =>
      refine hquiet hnil rfl ?_
      simp only [stray, hm]
      split
      case h_1 heq =>
        rw [heq] at hr
        cases hr
      case h_2 => rfl
  | enqueueLine hm => exact hquiet rfl rfl (by simp only [stray, hm])
  | threadSig hm => exact hquiet hnil rfl (by simp only [stray, hm])
  | enqueueNull hm => exact hquiet hnil rfl (by simp only [stray, hm])
  | startJoin hm => exact hquiet hnil rfl (by simp only [stray, hm])
  | join hm => exact hquiet hnil rfl (by simp only [stray, hm])
  | dequeueJob => exact hquiet rfl rfl rfl
  | request => exact hquiet rfl (printedLines_request _ _) rfl
  | _ => exact hquiet hnil rfl rfl

/-! ### Whole runs -/

theorem printedLines_eq_nil_iff {s₀ s : State n (PluginWorld ω)} {as : List (Action n σ)}
    (h₀ : printedLines s₀.log = []) (h : (c.process n).exec s₀ as = some s) :
    printedLines s.log = [] ↔ c.straySteps s₀ as = [] := by
  refine Guarded.exec_induction (P := fun as s => printedLines s.log = [] ↔ c.straySteps s₀ as = [])
    (by simp [h₀, straySteps]) (fun as s₁ a s₂ hexec hiff hs => ?_) h
  obtain ⟨hfault, hhelper⟩ := process_step hs
  rw [step_printedLines (step_step hhelper) hfault, hiff, straySteps, straySteps,
    Guarded.trace_concat _ hexec, List.append_eq_nil_iff]
  cases c.stray s₁ a <;> simp

/-- At start-up a line is printed for every hosts file that is not there. -/
theorem configFileParsed_printed {found : ℕ → Option (List Byte)} {i : ℕ}
    {ps : List (LoadedPlugin σ ω)} {data data' : ℕ → PluginData} {out : List (List Byte)}
    (h : c.configFileParsed found i ps data = .ok (data', out)) :
    out = [] ↔ ∀ j, ps[j]? = some .txtfile → found (i + j) ≠ none := by
  induction ps generalizing i data data' out with
  | nil =>
      cases h
      simp
  | cons p ps ih =>
      -- the first plugin, and those behind it
      have hsplit : (∀ j, (p :: ps)[j]? = some .txtfile → found (i + j) ≠ none) ↔
          (p = .txtfile → found i ≠ none) ∧
            ∀ j, ps[j]? = some .txtfile → found (i + 1 + j) ≠ none := by
        refine ⟨fun hall => ⟨fun hp => hall 0 (by rw [hp]; rfl), fun j hj => ?_⟩,
          fun hall j hj => ?_⟩
        · rw [Nat.add_assoc, Nat.add_comm 1 j]
          exact hall (j + 1) hj
        · cases j with
          | zero => exact hall.1 (Option.some.inj hj)
          | succ j =>
              have htail := hall.2 j hj
              rwa [Nat.add_assoc, Nat.add_comm 1 j] at htail
      rw [hsplit]
      cases p with
      | other p =>
          rw [ih h]
          simp
      | txtfile =>
          rw [configFileParsed] at h
          obtain ⟨⟨pd, line⟩, hparse, h⟩ := of_bind_eq_ok h
          obtain ⟨⟨data₁, lines⟩, hrest, h⟩ := of_bind_eq_ok h
          cases h
          rw [List.append_eq_nil_iff, printed_eq_nil_iff hparse, ih hrest]
          simp

theorem startUp_printed {found : ℕ → Option (List Byte)} {data data' : ℕ → PluginData}
    {out : List (List Byte)} (h : c.startUp found data = .ok (data', out)) :
    out = [] ↔ ∀ i, c.isTxtfile i = true → found i ≠ none := by
  rw [configFileParsed_printed h]
  apply forall_congr'
  intro i
  have hi : c.isTxtfile i = true ↔ c.plugins[i]? = some .txtfile := by
    rw [isTxtfile]
    split
    case h_1 heq => simp [heq]
    case h_2 hne => exact ⟨fun hfalse => (by cases hfalse), fun heq => absurd heq hne⟩
  rw [Nat.zero_add, hi]

end Setup

/-- The answers are in order whatever else is written. -/
theorem Answering.speaksProtocol {s : State n ω} (h : Answering s)
    {startUp : List (List Byte)} (hstart : startUp = []) (hprinted : printedLines s.log = []) :
    SpeaksProtocol startUp s where
  answers := by
    rw [hstart, List.nil_append]
    exact forall₂_stdoutLines hprinted h.channel
  once := by
    rw [List.nodup_iff_count_le_one]
    intro job
    have hbal := h.balance job
    have hle := h.count_dequeued_le job
    rw [count_answeredJobs]
    omega
  dequeued job hjob := by
    have hpos := List.count_pos_iff.mpr hjob
    have hbal := h.balance job
    rw [count_answeredJobs] at hpos
    exact List.count_pos_iff.mp (by omega)

/-- As many lines as answers leave no room for others. -/
theorem SpeaksProtocol.nothing_else {startUp : List (List Byte)} {s : State n ω}
    (h : SpeaksProtocol startUp s) : startUp = [] ∧ printedLines s.log = [] := by
  have hlength := h.answers.length_eq
  rw [List.length_append, length_stdoutLines] at hlength
  refine ⟨List.eq_nil_of_length_eq_zero ?_, List.eq_nil_of_length_eq_zero ?_⟩ <;> omega

/-- **Standard output carries the protocol, in every interleaving, if and only if every hosts
file is there at start-up and at each reload, and the end of the input is not reached.** -/
theorem speaksProtocol_iff {c : Setup σ ω} {found : ℕ → Option (List Byte)}
    {data data' : ℕ → PluginData} {out : List (List Byte)}
    (hstart : c.startUp found data = .ok (data', out)) {reads : List StdinRead}
    {files : List Byte → Option (List Byte)} {rest : ω} {as : List (Action n σ)}
    {s : State n (PluginWorld ω)}
    (h : (c.process n).exec (State.init n reads ⟨data', files, rest⟩) as = some s) :
    SpeaksProtocol out s ↔
      (∀ i, c.isTxtfile i = true → found i ≠ none) ∧
        c.straySteps (State.init n reads ⟨data', files, rest⟩) as = [] := by
  rw [← Setup.startUp_printed hstart, ← Setup.printedLines_eq_nil_iff rfl h]
  refine ⟨SpeaksProtocol.nothing_else, ?_⟩
  intro hnothing
  have hreach : (helper c.core n).Reaches _ s := ⟨as, Setup.process_exec h⟩
  exact (answering_of_reaches hreach).speaksProtocol hnothing.1 hnothing.2

/-- A helper with `txtfile` and nothing else. -/
def txtfileSetup : Setup Unit Unit where
  build := ⟨false⟩
  inetPton := ipv4Only
  plugins := [.txtfile]
  denyByDefault := true
  outside _ w := w

/-- The `plugin_data` after `cfg_parse`, without a chain. -/
def hostsData : ℕ → PluginData := fun _ => ⟨ascii "hosts.txt", []⟩

/-- The file is reloaded, and then a request is answered. -/
def reloadRun : List (Action 1 Unit) :=
  [.watcher 0 (), .stdin, .go, .go] ++ List.replicate 6 (.worker (Fin.last 0) ())

/-- What is on disk by then counts, and the answer is all that is written. -/
theorem speaksProtocol_reload :
    ∃ data' s, txtfileSetup.startUp (fun _ => some (ascii "10.0.0.1 DENY\n")) hostsData
        = .ok (data', []) ∧
      (txtfileSetup.process 1).exec (State.init 1 [.data [ascii "7 10.0.0.1"] false]
        ⟨data', fun _ => some (ascii "10.0.0.1 ALLOW\n"), ()⟩) reloadRun = some s ∧
      SpeaksProtocol [] s ∧ stdoutLines s.log = [ascii "7 OK"] := by
  have hrun : (txtfileSetup.startUp (fun _ => some (ascii "10.0.0.1 DENY\n"))
      hostsData).toOption.any (fun r => decide (r.2 = []) &&
        ((txtfileSetup.process 1).exec (State.init 1 [.data [ascii "7 10.0.0.1"] false]
          ⟨r.1, fun _ => some (ascii "10.0.0.1 ALLOW\n"), ()⟩) reloadRun).any fun s => decide
            ((txtfileSetup.straySteps (State.init 1 [.data [ascii "7 10.0.0.1"] false]
              ⟨r.1, fun _ => some (ascii "10.0.0.1 ALLOW\n"), ()⟩) reloadRun).length = 0 ∧
              stdoutLines s.log = [ascii "7 OK"])) = true := by decide
  obtain ⟨⟨data', out⟩, hr, hp⟩ := (Option.any_eq_true _ _).mp hrun
  obtain ⟨hout, hp⟩ := Bool.and_eq_true_iff.mp hp
  obtain ⟨s, hs, hp⟩ := (Option.any_eq_true _ _).mp hp
  obtain ⟨hstray, hlines⟩ := of_decide_eq_true hp
  obtain rfl : out = [] := of_decide_eq_true hout
  have hstart : txtfileSetup.startUp (fun _ => some (ascii "10.0.0.1 DENY\n")) hostsData
      = .ok (data', []) := by
    cases hload : txtfileSetup.startUp (fun _ => some (ascii "10.0.0.1 DENY\n")) hostsData with
    | error e =>
        rw [hload] at hr
        cases hr
    | ok r =>
        rw [hload] at hr
        rw [Option.some.inj hr]
  refine ⟨data', s, hstart, hs, (speaksProtocol_iff hstart hs).mpr ⟨?_, ?_⟩, hlines⟩
  · intro i _ hnone
    cases hnone
  · exact List.eq_nil_of_length_eq_zero hstray

/-- Standard input is closed. -/
def eofRun : List (Action 1 Unit) := [.stdin, .go]

/-- The line that is written then answers nothing. -/
theorem not_speaksProtocol_eof :
    ∃ s, (txtfileSetup.process 1).exec
        (State.init 1 [.eof] ⟨hostsData, fun _ => some [], ()⟩) eofRun = some s ∧
      ¬ SpeaksProtocol [] s := by
  refine ⟨_, rfl, ?_⟩
  intro h
  have hprinted := h.nothing_else.2
  cases hprinted

end SquidHelper
