/-
SquidHelper/Hooks.lean

When the functions of the plugins are called, from the first `thread_init` of a worker to
the last `plugin_unload` at the end of `main`.

`Helper.lean` has one step for the loop over `thread_init` at the head of `worker`, one
for `CALL_HOOK(thread_free)` at its end, and stops when all workers are joined.  Here the
loops are taken apart, one plugin a step, and `main` goes on: it calls `plugin_free` of
every plugin that has it and unloads the plugin.  Every call of a plugin's function is
recorded (`Life.calls`), with the worker that makes it.

`life_of_plugins` says what order the calls are in.  A plugin without `plugin_free` is
never unloaded; a `thread_free` is called in every worker, also where the `thread_init`
of the same plugin was not, because the one of a plugin before it had failed.

The destructors of thread-specific data run in `pthread_exit`, which is the last step of
a worker.
-/
import SquidHelper.Terminators

namespace SquidHelper

namespace Hooks

variable {σ ω : Type*} {n : ℕ}

/-! ### Calls -/

/-- The hooks that free something, where they are not `NULL`. -/
structure Cleanup where
  threadFree : Bool
  pluginFree : Bool

/-- A call of a function of the plugin at some position. -/
inductive Call (n : ℕ)
  | threadInit (w : Fin n) (i : ℕ)
  | handleRequest (w : Fin n) (i : ℕ)
  | postHandleRequest (w : Fin n) (i : ℕ)
  | threadFree (w : Fin n) (i : ℕ)
  /-- The callback of a watcher, in the main thread. -/
  | watcher (i : ℕ)
  | pluginFree (i : ℕ)
  | unload (i : ℕ)
  deriving DecidableEq

/-- The worker that makes the call. -/
def Call.worker : Call n → Option (Fin n)
  | .threadInit w _ | .handleRequest w _ | .postHandleRequest w _ | .threadFree w _ => some w
  | .watcher _ | .pluginFree _ | .unload _ => none

/-- `handle_request` and `post_handle_request`. -/
def Call.handles : Call n → Bool
  | .handleRequest _ _ | .postHandleRequest _ _ => true
  | _ => false

def Call.tearsDown : Call n → Bool
  | .pluginFree _ | .unload _ => true
  | _ => false

/-- The calls of one worker. -/
def callsBy (w : Fin n) (l : List (Call n)) : List (Call n) := l.filter (·.worker == some w)

/-! ### The process -/

/-- Where the process is, with the indexes of the three loops. -/
structure Life (n : ℕ) (ω : Type*) where
  base : State n ω
  /-- `i` of the loop over `thread_init`. -/
  inits : Fin n → ℕ
  /-- `i` of `CALL_HOOK(thread_free)`. -/
  frees : Fin n → ℕ
  /-- `i` of the last loop of `main`. -/
  unloaded : ℕ
  calls : List (Call n)

def Life.init (n : ℕ) (reads : List StdinRead) (world : ω) : Life n ω where
  base := .init n reads world
  inits := fun _ => 0
  frees := fun _ => 0
  unloaded := 0
  calls := []

inductive LifeAction (n : ℕ) (σ : Type*)
  /-- A step that is not in one of the loops. -/
  | own (a : Action n σ)
  /-- A round of the loop over `thread_init`. -/
  | init (w : Fin n)
  /-- A round of `CALL_HOOK(thread_free)`. -/
  | free (w : Fin n)
  /-- A round of the last loop of `main`. -/
  | unload

/-- The calls made in a step that is not in one of the loops. -/
def callsIn (c : Core σ ω) (s : State n ω) : Action n σ → List (Call n)
  | .worker w _ =>
      match s.workers w with
      | .busy _ (.handle _ i) =>
          if (c.plugins[i]?.bind (·.handleRequest)).isSome then [.handleRequest w i] else []
      | .busy _ (.post _ i) =>
          if (c.plugins[i]?.bind (·.postHandleRequest)).isSome then [.postHandleRequest w i] else []
      | _ => []
  | .watcher i _ => [.watcher i]
  | _ => []

/-- The step is not in one of the loops. -/
def outsideLoops (s : State n ω) : Action n σ → Bool
  | .worker w _ =>
      match s.workers w with
      | .threadInit | .threadFree => false
      | _ => true
  | _ => true

def setWorker (s : State n ω) (w : Fin n) (pc : WorkerPc) : State n ω :=
  { s with workers := Function.update s.workers w pc }

def lifeStep (c : Core σ ω) (u : ℕ → Cleanup) (s : Life n ω) : LifeAction n σ → Option (Life n ω)
  | .own a =>
      if outsideLoops s.base a = true then
        (step c s.base a).map fun base =>
          { s with base := base, calls := s.calls ++ callsIn c s.base a }
      else none
  | .init w =>
      match s.base.workers w with
      | .threadInit =>
          match c.plugins[s.inits w]? with
          | none => some { s with base := setWorker s.base w .dequeue }
          | some p =>
              match p.threadInit with
              | none => some { s with inits := Function.update s.inits w (s.inits w + 1) }
              | some f =>
                  if f (w + 1) = 0 then
                    some { s with inits := Function.update s.inits w (s.inits w + 1),
                                  calls := s.calls ++ [.threadInit w (s.inits w)] }
                  else
                    some { s with base := setWorker s.base w .terminate,
                                  calls := s.calls ++ [.threadInit w (s.inits w)] }
      | _ => none
  | .free w =>
      match s.base.workers w with
      | .threadFree =>
          if s.frees w < c.plugins.length then
            some { s with frees := Function.update s.frees w (s.frees w + 1),
                          calls := s.calls ++ if (u (s.frees w)).threadFree
                            then [.threadFree w (s.frees w)] else [] }
          else some { s with base := setWorker s.base w .exited }
      | _ => none
  | .unload =>
      if s.base.main = .joining n ∧ s.unloaded < c.plugins.length then
        some { s with unloaded := s.unloaded + 1,
                      calls := s.calls ++ if (u s.unloaded).pluginFree
                        then [.pluginFree s.unloaded, .unload s.unloaded] else [] }
      else none

/-- The process with `n` workers, to its end. -/
def life (c : Core σ ω) (u : ℕ → Cleanup) (n : ℕ) : Guarded (Life n ω) (LifeAction n σ) :=
  ⟨lifeStep c u⟩

/-! ### One step -/

/-- `thread_init` fails in this thread. -/
def fails (number : ℕ) (p : Plugin σ ω) : Bool :=
  match p.threadInit with
  | none => false
  | some f => f number != 0

/-- The steps, one constructor each. -/
inductive LifeMove (c : Core σ ω) (u : ℕ → Cleanup) (s : Life n ω) : LifeAction n σ → Life n ω → Prop
  | own {a base} (ha : outsideLoops s.base a = true) (hs : Step c s.base a base) :
      LifeMove c u s (.own a) { s with base := base, calls := s.calls ++ callsIn c s.base a }
  | noInit {w p} (hw : s.base.workers w = .threadInit) (hp : c.plugins[s.inits w]? = some p)
      (hi : p.threadInit = none) :
      LifeMove c u s (.init w) { s with inits := Function.update s.inits w (s.inits w + 1) }
  | init {w p} (hw : s.base.workers w = .threadInit) (hp : c.plugins[s.inits w]? = some p)
      (hi : p.threadInit.isSome = true) (hok : fails (w + 1) p = false) :
      LifeMove c u s (.init w) { s with inits := Function.update s.inits w (s.inits w + 1),
                                        calls := s.calls ++ [.threadInit w (s.inits w)] }
  | initFails {w p} (hw : s.base.workers w = .threadInit) (hp : c.plugins[s.inits w]? = some p)
      (hfails : fails (w + 1) p = true) :
      LifeMove c u s (.init w) { s with base := setWorker s.base w .terminate,
                                        calls := s.calls ++ [.threadInit w (s.inits w)] }
  | initDone {w} (hw : s.base.workers w = .threadInit) (hp : c.plugins.length ≤ s.inits w) :
      LifeMove c u s (.init w) { s with base := setWorker s.base w .dequeue }
  | free {w} (hw : s.base.workers w = .threadFree) (hp : s.frees w < c.plugins.length) :
      LifeMove c u s (.free w) { s with
        frees := Function.update s.frees w (s.frees w + 1),
        calls := s.calls ++ if (u (s.frees w)).threadFree then [.threadFree w (s.frees w)] else [] }
  | freeDone {w} (hw : s.base.workers w = .threadFree) (hp : c.plugins.length ≤ s.frees w) :
      LifeMove c u s (.free w) { s with base := setWorker s.base w .exited }
  | unload (hm : s.base.main = .joining n) (hp : s.unloaded < c.plugins.length) :
      LifeMove c u s .unload { s with
        unloaded := s.unloaded + 1,
        calls := s.calls ++ if (u s.unloaded).pluginFree
          then [.pluginFree s.unloaded, .unload s.unloaded] else [] }

variable {c : Core σ ω} {u : ℕ → Cleanup} {s s' : Life n ω}

/-- Only a hook that is there fails. -/
theorem threadInit_isSome {number : ℕ} {p : Plugin σ ω} (h : fails number p = true) :
    p.threadInit.isSome = true := by
  rw [fails] at h
  cases hp : p.threadInit with
  | none =>
      rw [hp] at h
      cases h
  | some f => rfl

theorem lifeStep_move {a : LifeAction n σ} (h : lifeStep c u s a = some s') : LifeMove c u s a s' := by
  cases a with
  | own a =>
      obtain ⟨ha, h⟩ := Option.ite_none_right_eq_some.mp h
      obtain ⟨base, hs, rfl⟩ := Option.map_eq_some_iff.mp h
      exact .own ha (step_step hs)
  | init w =>
      simp only [lifeStep] at h
      split at h
      case h_1 hw =>
        split at h
        case h_1 hp =>
          cases h
          exact .initDone hw (List.getElem?_eq_none_iff.mp hp)
        case h_2 p hp =>
          split at h
          case h_1 hi =>
            cases h
            exact .noInit hw hp hi
          case h_2 f hi =>
            split at h
            case isTrue hok =>
              cases h
              exact .init hw hp (by rw [hi]; rfl) (by simp [fails, hi, hok])
            case isFalse hok =>
              cases h
              exact .initFails hw hp (by simp [fails, hi, hok])
      case h_2 => cases h
  | free w =>
      simp only [lifeStep] at h
      split at h
      case h_1 hw =>
        split at h
        case isTrue hp =>
          cases h
          exact .free hw hp
        case isFalse hp =>
          cases h
          exact .freeDone hw (Nat.le_of_not_lt hp)
      case h_2 => cases h
  | unload =>
      obtain ⟨⟨hm, hp⟩, h⟩ := Option.ite_none_right_eq_some.mp h
      cases h
      exact .unload hm hp

/-! ### The order the calls are in -/

/-- The calls of `thread_init` for the plugins below `k`. -/
def initCalls (c : Core σ ω) (w : Fin n) (k : ℕ) : List (Call n) :=
  ((List.range k).filter fun i => (c.plugins[i]?.bind (·.threadInit)).isSome).map (.threadInit w)

/-- The calls of `thread_init` in a worker: of every plugin that has it, in order, up to
the first that fails. -/
def prologue (c : Core σ ω) (w : Fin n) : List (Call n) :=
  initCalls c w (min (c.plugins.findIdx (fails (w + 1)) + 1) c.plugins.length)

/-- The calls of `thread_free` for the plugins below `k`. -/
def freeCalls (u : ℕ → Cleanup) (w : Fin n) (k : ℕ) : List (Call n) :=
  ((List.range k).filter fun i => (u i).threadFree).map (.threadFree w)

/-- What `main` calls at its end for the plugins below `k`. -/
def teardown (u : ℕ → Cleanup) (k : ℕ) : List (Call n) :=
  (List.range k).flatMap fun i => if (u i).pluginFree then [.pluginFree i, .unload i] else []

theorem initCalls_succ (c : Core σ ω) (w : Fin n) (k : ℕ) :
    initCalls c w (k + 1) = initCalls c w k ++
      if (c.plugins[k]?.bind (·.threadInit)).isSome then [.threadInit w k] else [] := by
  rw [initCalls, List.range_succ, List.filter_append, List.map_append, List.filter_singleton,
    ← initCalls]
  cases c.plugins[k]?.bind (·.threadInit) <;> rfl

theorem freeCalls_succ (u : ℕ → Cleanup) (w : Fin n) (k : ℕ) :
    freeCalls u w (k + 1)
      = freeCalls u w k ++ if (u k).threadFree then [.threadFree w k] else [] := by
  rw [freeCalls, List.range_succ, List.filter_append, List.map_append, List.filter_singleton,
    ← freeCalls]
  cases (u k).threadFree <;> rfl

theorem teardown_succ (u : ℕ → Cleanup) (k : ℕ) :
    (teardown u (k + 1) : List (Call n)) = teardown u k ++
      if (u k).pluginFree then [.pluginFree k, .unload k] else [] := by
  rw [teardown, List.range_succ, List.flatMap_append, ← teardown, List.flatMap_singleton]

/-- The loop over `thread_init` runs to its end exactly where the model says so. -/
theorem threadInit_iff (c : Core σ ω) (number : ℕ) :
    c.threadInit number = true ↔ c.plugins.findIdx (fails number) = c.plugins.length := by
  rw [List.findIdx_eq_length, Core.threadInit, List.all_eq_true]
  refine forall₂_congr fun p _ => ?_
  rw [fails]
  cases p.threadInit <;> simp

/-- The calls up to the end of `worker`'s loop: the prologue, and handlers if it went well. -/
def Began (c : Core σ ω) (w : Fin n) (l : List (Call n)) : Prop :=
  ∃ hs, l = prologue c w ++ hs ∧ (∀ e ∈ hs, e.handles = true) ∧ (hs ≠ [] → Live c w)

/-- The calls of a worker at each of its places. -/
def WorkerCalls (c : Core σ ω) (u : ℕ → Cleanup) (w : Fin n) (inits frees : ℕ) (l : List (Call n)) :
    WorkerPc → Prop
  | .threadInit => l = initCalls c w inits ∧ frees = 0 ∧
      inits ≤ c.plugins.findIdx (fails (w + 1))
  | .dequeue | .busy _ _ => Began c w l ∧ frees = 0 ∧ Live c w
  | .terminate | .asyncSend => Began c w l ∧ frees = 0
  | .threadFree => ∃ b, Began c w b ∧ l = b ++ freeCalls u w frees ∧ frees ≤ c.plugins.length
  | .exited => ∃ b, Began c w b ∧ l = b ++ freeCalls u w c.plugins.length

/-- All workers below the one `main` waits for have exited. -/
def Joined (s : State n ω) : Prop :=
  ∀ k, s.main = .joining k → ∀ w : Fin n, w < k → s.workers w = .exited

/-- The calls so far. -/
structure Ordered (c : Core σ ω) (u : ℕ → Cleanup) (s : Life n ω) : Prop where
  calls : ∃ live, s.calls = live ++ teardown u s.unloaded ∧ (∀ e ∈ live, e.tearsDown = false) ∧
    ∀ w, WorkerCalls c u w (s.inits w) (s.frees w) (callsBy w live) (s.base.workers w)
  /-- The last loop of `main` comes after all joins. -/
  unloading : 0 < s.unloaded → s.base.main = .joining n
  unloaded_le : s.unloaded ≤ c.plugins.length
  joined : Joined s.base

@[simp] theorem callsBy_append (w : Fin n) (l l' : List (Call n)) :
    callsBy w (l ++ l') = callsBy w l ++ callsBy w l' := List.filter_append ..

/-- Nobody else's calls. -/
theorem callsBy_eq_nil {w : Fin n} {l : List (Call n)} (h : ∀ e ∈ l, e.worker ≠ some w) :
    callsBy w l = [] := by
  rw [callsBy, List.filter_eq_nil_iff]
  intro e he
  simpa using h e he

theorem callsBy_eq_self {w : Fin n} {l : List (Call n)} (h : ∀ e ∈ l, e.worker = some w) :
    callsBy w l = l := by
  rw [callsBy, List.filter_eq_self]
  intro e he
  simpa using h e he

theorem ordered_init (c : Core σ ω) (u : ℕ → Cleanup) (reads : List StdinRead) (world : ω) :
    Ordered c u (Life.init n reads world) where
  calls := ⟨[], rfl, by simp, fun w => ⟨rfl, rfl, Nat.zero_le _⟩⟩
  unloading h := absurd h (Nat.lt_irrefl 0)
  unloaded_le := Nat.zero_le _
  joined k hk := by cases hk

/-- While some worker has not ended, nothing is unloaded. -/
theorem Ordered.unloaded_eq_zero (h : Ordered c u s) {w : Fin n}
    (hw : s.base.workers w ≠ .exited) : s.unloaded = 0 := by
  by_contra hne
  exact hw (h.joined n (h.unloading (Nat.pos_of_ne_zero hne)) w w.isLt)

/-! ### A worker's turn -/

/-- What a step outside the loops does to a worker, and the calls it makes meanwhile. -/
inductive Turn (w : Fin n) : WorkerPc → List (Call n) → WorkerPc → Prop
  | same {pc} : Turn w pc [] pc
  | null : Turn w .dequeue [] .terminate
  | job {job} : Turn w .dequeue [] (.busy job .parse)
  | request {job pc es next} (hes : ∀ e ∈ es, e.worker = some w ∧ e.handles = true) :
      Turn w (.busy job pc) es (.afterStep job next)
  | terminate : Turn w .terminate [] .asyncSend
  | sent : Turn w .asyncSend [] .threadFree

/-- A worker calls handlers while it is busy, and nothing else outside the loops. -/
theorem callsIn_worker (c : Core σ ω) (s : State n ω) (w : Fin n) (o : σ) :
    ∀ e ∈ callsIn c s (.worker w o), e.worker = some w ∧ e.handles = true := by
  intro e he
  simp only [callsIn] at he
  split at he
  case h_1 =>
    obtain ⟨-, rfl⟩ := List.mem_ite_nil_right.mp he |>.imp_right List.mem_singleton.mp
    exact ⟨rfl, rfl⟩
  case h_2 =>
    obtain ⟨-, rfl⟩ := List.mem_ite_nil_right.mp he |>.imp_right List.mem_singleton.mp
    exact ⟨rfl, rfl⟩
  case h_3 => cases he

theorem callsIn_eq_nil {c : Core σ ω} {s : State n ω} {w : Fin n} {o : σ}
    (h : ∀ job pc, s.workers w ≠ .busy job pc) : callsIn c s (.worker w o) = [] := by
  simp only [callsIn]
  split
  case h_1 hw => exact absurd hw (h _ _)
  case h_2 hw => exact absurd hw (h _ _)
  case h_3 => rfl

/-- Nothing is torn down outside the last loop. -/
theorem callsIn_tearsDown (c : Core σ ω) (s : State n ω) (a : Action n σ) :
    ∀ e ∈ callsIn c s a, e.tearsDown = false := by
  intro e he
  cases a with
  | worker w o =>
      obtain ⟨-, hhandles⟩ := callsIn_worker c s w o e he
      cases e <;> first | rfl | cases hhandles
  | watcher i o =>
      obtain rfl := List.mem_singleton.mp he
      rfl
  | _ => cases he

/-- A step of worker `w` as all workers see it. -/
theorem Turn.of_worker {c : Core σ ω} {s s' : State n ω} {w : Fin n} {o : σ} {pc : WorkerPc}
    (hs : s'.workers = Function.update s.workers w pc)
    (hw : Turn w (s.workers w) (callsIn c s (.worker w o)) pc) (w' : Fin n) :
    Turn w' (s.workers w') (callsBy w' (callsIn c s (.worker w o))) (s'.workers w') := by
  rcases eq_or_ne w' w with rfl | hne
  · rw [hs, Function.update_self, callsBy_eq_self fun e he => (callsIn_worker c s w' o e he).1]
    exact hw
  · rw [hs, Function.update_of_ne hne, callsBy_eq_nil]
    · exact .same
    · intro e he
      rw [(callsIn_worker c s w o e he).1]
      exact fun heq => hne (Option.some.inj heq).symm

theorem Turn.of_step {c : Core σ ω} {s s' : State n ω} {a : Action n σ}
    (ha : outsideLoops s a = true) (hs : Step c s a s') (w : Fin n) :
    Turn w (s.workers w) (callsBy w (callsIn c s a)) (s'.workers w) := by
  cases hs with
  | watcher =>
      rw [callsIn, callsBy_eq_nil (by simp [Call.worker])]
      exact .same
  | initThread hw => simp [outsideLoops, hw] at ha
  | threadFree hw => simp [outsideLoops, hw] at ha
  | dequeueNull hw =>
      refine .of_worker rfl ?_ w
      rw [callsIn_eq_nil (by simp [hw]), hw]
      exact .null
  | dequeueJob hw =>
      refine .of_worker rfl ?_ w
      rw [callsIn_eq_nil (by simp [hw]), hw]
      exact .job
  | @request w' o job pc r hw =>
      refine .of_worker rfl ?_ w
      have hes := callsIn_worker c s w' o
      rw [hw]
      exact .request hes
  | terminate hw =>
      refine .of_worker rfl ?_ w
      rw [callsIn_eq_nil (by simp [hw]), hw]
      exact .terminate
  | asyncSend hw =>
      refine .of_worker rfl ?_ w
      rw [callsIn_eq_nil (by simp [hw]), hw]
      exact .sent
  | @coalesce w' hw =>
      rcases eq_or_ne w w' with rfl | hne
      · simp only [Function.update_self, hw]
        exact .sent
      · simp only [Function.update_of_ne hne]
        exact .same
  | _ => exact .same

/-- Nothing moves a worker that has exited. -/
theorem Turn.exited {w : Fin n} {pc pc' : WorkerPc} {es : List (Call n)} (h : Turn w pc es pc')
    (hpc : pc = .exited) : es = [] ∧ pc' = .exited := by
  cases h with
  | same => exact ⟨rfl, hpc⟩
  | _ => cases hpc

theorem prologue_of_live {w : Fin n} (h : Live c w) :
    prologue c w = initCalls c w c.plugins.length := by
  rw [prologue, (threadInit_iff c (w + 1)).mp h, min_eq_right (Nat.le_succ _)]

theorem began_prologue (c : Core σ ω) (w : Fin n) : Began c w (prologue c w) :=
  ⟨[], (List.append_nil _).symm, by simp, fun h => absurd rfl h⟩

/-- **The calls of a worker stay in order.** -/
theorem Turn.workerCalls {w : Fin n} {pc pc' : WorkerPc} {es l : List (Call n)} {inits frees : ℕ}
    (h : Turn w pc es pc') (hl : WorkerCalls c u w inits frees l pc) :
    WorkerCalls c u w inits frees (l ++ es) pc' := by
  cases h with
  | same =>
      rw [List.append_nil]
      exact hl
  | null =>
      rw [List.append_nil]
      exact ⟨hl.1, hl.2.1⟩
  | job =>
      rw [List.append_nil]
      exact hl
  | @request job pc _ next hes =>
      obtain ⟨⟨hs, rfl, hhs, -⟩, hfrees, hlive⟩ := hl
      have hbegan : Began c w (prologue c w ++ hs ++ es) := by
        refine ⟨hs ++ es, List.append_assoc .., fun e he => ?_, fun _ => hlive⟩
        rcases List.mem_append.mp he with he | he
        · exact hhs e he
        · exact (hes e he).2
      cases next <;> exact ⟨hbegan, hfrees, hlive⟩
  | terminate =>
      rw [List.append_nil]
      exact hl
  | sent =>
      obtain ⟨hbegan, rfl⟩ := hl
      exact ⟨l, hbegan, by simp [freeCalls], Nat.zero_le _⟩

/-! ### Every step keeps the order -/

theorem joined_step {s s' : State n ω} {a : Action n σ} (h : Joined s) (hs : Step c s a s')
    (hexited : ∀ w, s.workers w = .exited → s'.workers w = .exited) : Joined s' := by
  intro k hk w hw
  refine hexited w ?_
  cases hs with
  | startJoin =>
      cases hk
      exact absurd hw (Nat.not_lt_zero _)
  | @join j hm hlt hexit =>
      cases hk
      rcases Nat.lt_succ_iff_lt_or_eq.mp hw with hw | heq
      · exact h j hm w hw
      · rw [show w = ⟨j, hlt⟩ from Fin.ext heq]
        exact hexit
  | _ =>
      first
      | cases hk
      | exact h k hk w hw

/-- After all joins only the rest of the machine moves. -/
theorem step_of_joined {s s' : State n ω} {a : Action n σ} (hm : s.main = .joining n)
    (hw : ∀ w, s.workers w = .exited) (hs : Step c s a s') :
    callsIn c s a = [] ∧ s'.main = .joining n := by
  cases hs with
  | outside => exact ⟨rfl, hm⟩
  | join hm' hlt =>
      rw [hm] at hm'
      cases hm'
      exact absurd hlt (Nat.lt_irrefl n)
  | _ => simp_all

/-- A step that is not in one of the loops. -/
theorem Ordered.own (h : Ordered c u s) {a : Action n σ} {base : State n ω}
    (ha : outsideLoops s.base a = true) (hs : Step c s.base a base) :
    Ordered c u { s with base := base, calls := s.calls ++ callsIn c s.base a } := by
  have hturn := Turn.of_step ha hs
  have hexited : ∀ w, s.base.workers w = .exited → base.workers w = .exited := fun w hw =>
    ((hturn w).exited hw).2
  obtain ⟨live, hcalls, hlive, hworkers⟩ := h.calls
  have hmoved : ∀ w, WorkerCalls c u w (s.inits w) (s.frees w)
      (callsBy w live ++ callsBy w (callsIn c s.base a)) (base.workers w) := fun w =>
    (hturn w).workerCalls (hworkers w)
  have hjoined := joined_step h.joined hs hexited
  rcases Nat.eq_zero_or_pos s.unloaded with h₀ | hpos
  · refine ⟨⟨live ++ callsIn c s.base a, ?_, ?_, fun w => ?_⟩, ?_, h.unloaded_le, hjoined⟩
    · simp [hcalls, h₀, teardown]
    · intro e he
      rcases List.mem_append.mp he with he | he
      · exact hlive e he
      · exact callsIn_tearsDown c s.base a e he
    · rw [callsBy_append]
      exact hmoved w
    · exact fun hpos => absurd h₀ (Nat.pos_iff_ne_zero.mp hpos)
  · -- the last loop has begun
    have hm := h.unloading hpos
    obtain ⟨hnil, hmain⟩ := step_of_joined hm (fun w => h.joined n hm w w.isLt) hs
    rw [hnil] at hmoved ⊢
    refine ⟨⟨live, by rw [List.append_nil]; exact hcalls, hlive, fun w => ?_⟩, fun _ => hmain,
      h.unloaded_le, hjoined⟩
    have hw := hmoved w
    rw [show callsBy w [] = ([] : List (Call n)) from rfl, List.append_nil] at hw
    exact hw

theorem setWorker_self (s : State n ω) (w : Fin n) : setWorker s w (s.workers w) = s := by
  rw [setWorker, Function.update_eq_self]

/-- A round of one of the loops in worker `w`. -/
theorem Ordered.of_worker (h : Ordered c u s) (w : Fin n) (pc : WorkerPc) (es : List (Call n))
    (i f : ℕ) (hw : s.base.workers w ≠ .exited) (hes : ∀ e ∈ es, e.worker = some w)
    (hnew : ∀ l, WorkerCalls c u w (s.inits w) (s.frees w) l (s.base.workers w) →
      WorkerCalls c u w i f (l ++ es) pc) :
    Ordered c u { s with base := setWorker s.base w pc, inits := Function.update s.inits w i,
                         frees := Function.update s.frees w f, calls := s.calls ++ es } := by
  have h₀ := h.unloaded_eq_zero hw
  obtain ⟨live, hcalls, hlive, hworkers⟩ := h.calls
  refine ⟨⟨live ++ es, ?_, ?_, fun w' => ?_⟩, fun hpos => absurd h₀ (Nat.pos_iff_ne_zero.mp hpos),
    h.unloaded_le, fun k hk w' hlt => ?_⟩
  · simp [hcalls, h₀, teardown]
  · intro e he
    rcases List.mem_append.mp he with he | he
    · exact hlive e he
    · have hworker := hes e he
      cases e <;> first | rfl | cases hworker
  · rw [callsBy_append]
    rcases eq_or_ne w' w with rfl | hne
    · simp only [setWorker, Function.update_self]
      rw [callsBy_eq_self hes]
      exact hnew _ (hworkers w')
    · simp only [setWorker, Function.update_of_ne hne]
      rw [callsBy_eq_nil fun e he heq => hne (Option.some.inj ((hes e he).symm.trans heq)).symm,
        List.append_nil]
      exact hworkers w'
  · have hexited := h.joined k hk w' hlt
    have hne : w' ≠ w := by
      rintro rfl
      exact hw hexited
    show Function.update s.base.workers w pc w' = .exited
    rw [Function.update_of_ne hne]
    exact hexited

/-- The plugins before the first failure do not fail. -/
theorem succ_le_findIdx {α : Type*} {p : α → Bool} {xs : List α} {i : ℕ} {x : α}
    (hi : i ≤ xs.findIdx p) (hx : xs[i]? = some x) (hp : p x = false) : i + 1 ≤ xs.findIdx p := by
  rcases Nat.lt_or_eq_of_le hi with hlt | heq
  · exact hlt
  · obtain ⟨hlt, rfl⟩ := List.getElem?_eq_some_iff.mp hx
    have htrue : p xs[i] = true := by
      simp only [heq]
      exact List.findIdx_getElem
    rw [hp] at htrue
    cases htrue

theorem findIdx_eq {α : Type*} {p : α → Bool} {xs : List α} {i : ℕ} {x : α}
    (hi : i ≤ xs.findIdx p) (hx : xs[i]? = some x) (hp : p x = true) : xs.findIdx p = i := by
  refine le_antisymm ?_ hi
  obtain ⟨hlt, rfl⟩ := List.getElem?_eq_some_iff.mp hx
  by_contra hnot
  have hfalse := List.not_of_lt_findIdx (Nat.lt_of_not_le hnot)
  rw [hp] at hfalse
  cases hfalse

/-- **Every step keeps the calls in order.** -/
theorem Ordered.step (h : Ordered c u s) {a : LifeAction n σ} (hmove : LifeMove c u s a s') :
    Ordered c u s' := by
  cases hmove with
  | own ha hs => exact h.own ha hs
  | @noInit w p hw hp hi =>
      have hstep := h.of_worker w .threadInit [] (s.inits w + 1) (s.frees w) (by simp [hw]) (by simp)
        fun l hl => by
          rw [hw] at hl
          obtain ⟨rfl, hfrees, hle⟩ := hl
          refine ⟨?_, hfrees, succ_le_findIdx hle hp (by simp [fails, hi])⟩
          rw [initCalls_succ, hp, Option.bind_some, hi]
          rfl
      simpa [← hw, setWorker_self] using hstep
  | @init w p hw hp hi hok =>
      have hstep := h.of_worker w .threadInit [.threadInit w (s.inits w)] (s.inits w + 1) (s.frees w)
        (by simp [hw]) (by simp [Call.worker]) fun l hl => by
          rw [hw] at hl
          obtain ⟨rfl, hfrees, hle⟩ := hl
          refine ⟨?_, hfrees, succ_le_findIdx hle hp hok⟩
          rw [initCalls_succ, hp, Option.bind_some, hi]
          rfl
      simpa [← hw, setWorker_self] using hstep
  | @initFails w p hw hp hfails =>
      have hstep := h.of_worker w .terminate [.threadInit w (s.inits w)] (s.inits w) (s.frees w)
        (by simp [hw]) (by simp [Call.worker]) fun l hl => by
          rw [hw] at hl
          obtain ⟨rfl, hfrees, hle⟩ := hl
          refine ⟨?_, hfrees⟩
          -- the call that fails is the last one of the prologue
          have hprologue : initCalls c w (s.inits w) ++ [.threadInit w (s.inits w)]
              = prologue c w := by
            rw [prologue, findIdx_eq hle hp hfails,
              min_eq_left (Nat.succ_le_of_lt (List.getElem?_eq_some_iff.mp hp).1), initCalls_succ,
              hp, Option.bind_some, if_pos (threadInit_isSome hfails)]
          rw [hprologue]
          exact began_prologue c w
      simpa using hstep
  | @initDone w hw hp =>
      have hstep := h.of_worker w .dequeue [] (s.inits w) (s.frees w) (by simp [hw]) (by simp)
        fun l hl => by
          rw [hw] at hl
          obtain ⟨rfl, hfrees, hle⟩ := hl
          have hidx : c.plugins.findIdx (fails (w + 1)) = c.plugins.length :=
            le_antisymm List.findIdx_le_length (hp.trans hle)
          have hlive : Live c w := (threadInit_iff c (w + 1)).mpr hidx
          refine ⟨?_, hfrees, hlive⟩
          rw [List.append_nil, le_antisymm (hle.trans_eq hidx) hp, ← prologue_of_live hlive]
          exact began_prologue c w
      simpa using hstep
  | @free w hw hp =>
      have hstep := h.of_worker w .threadFree
        (if (u (s.frees w)).threadFree then [.threadFree w (s.frees w)] else [])
        (s.inits w) (s.frees w + 1) (by simp [hw]) (by simp [Call.worker]) fun l hl => by
          rw [hw] at hl
          obtain ⟨b, hbegan, rfl, -⟩ := hl
          exact ⟨b, hbegan, by rw [freeCalls_succ, List.append_assoc], hp⟩
      simpa [← hw, setWorker_self] using hstep
  | @freeDone w hw hp =>
      have hstep := h.of_worker w .exited [] (s.inits w) (s.frees w) (by simp [hw]) (by simp)
        fun l hl => by
          rw [hw] at hl
          obtain ⟨b, hbegan, rfl, hle⟩ := hl
          exact ⟨b, hbegan, by rw [List.append_nil, le_antisymm hle hp]⟩
      simpa using hstep
  | unload hm hp =>
      obtain ⟨live, hcalls, hlive, hworkers⟩ := h.calls
      refine ⟨⟨live, ?_, hlive, hworkers⟩, fun _ => hm, hp, h.joined⟩
      rw [teardown_succ, ← List.append_assoc, ← hcalls]

/-! ### Whole runs -/

theorem ordered_of_exec {reads : List StdinRead} {world : ω} {as : List (LifeAction n σ)}
    (h : (life c u n).exec (.init n reads world) as = some s) : Ordered c u s :=
  Guarded.exec_induction (P := fun _ s => Ordered c u s) (ordered_init c u reads world)
    (fun _ _ _ _ _ hP hstep => hP.step (lifeStep_move hstep)) h

/-- The helper makes the step, or stands still. -/
theorem reaches_of_move [Inhabited σ] (h : Ordered c u s) {a : LifeAction n σ}
    (hmove : LifeMove c u s a s') : (helper c n).Reaches s.base s'.base := by
  cases hmove with
  | own ha hs => exact hs.reaches
  | @initFails w p hw hp hfails =>
      obtain ⟨live, -, -, hworkers⟩ := h.calls
      have hl := hworkers w
      rw [hw] at hl
      have hnot : c.threadInit (w + 1) ≠ true := by
        rw [Ne, threadInit_iff, findIdx_eq hl.2.2 hp hfails]
        exact Nat.ne_of_lt (List.getElem?_eq_some_iff.mp hp).1
      have hstep := (Step.initThread (c := c) (o := default) hw).reaches
      rw [if_neg hnot] at hstep
      exact hstep
  | @initDone w hw hp =>
      obtain ⟨live, -, -, hworkers⟩ := h.calls
      have hl := hworkers w
      rw [hw] at hl
      have hlive : c.threadInit (w + 1) = true :=
        (threadInit_iff c (w + 1)).mpr (le_antisymm List.findIdx_le_length (hp.trans hl.2.2))
      have hstep := (Step.initThread (c := c) (o := default) hw).reaches
      rw [if_pos hlive] at hstep
      exact hstep
  | freeDone hw hp => exact (Step.threadFree (o := default) hw).reaches
  | _ => exact .refl _

theorem isPrefix_range {k m : ℕ} (h : k ≤ m) : List.range k <+: List.range m := by
  rw [← min_eq_left h, ← List.take_range]
  exact List.take_prefix k _

theorem initCalls_prefix (c : Core σ ω) (w : Fin n) {k m : ℕ} (h : k ≤ m) :
    initCalls c w k <+: initCalls c w m :=
  ((isPrefix_range h).filter _).map _

theorem freeCalls_prefix (u : ℕ → Cleanup) (w : Fin n) {k m : ℕ} (h : k ≤ m) :
    freeCalls u w k <+: freeCalls u w m :=
  ((isPrefix_range h).filter _).map _

/-- The calls of one worker, first to last: `thread_init`s, handlers, `thread_free`s. -/
def InOrder (c : Core σ ω) (u : ℕ → Cleanup) (w : Fin n) (l : List (Call n)) (exited : Prop) :
    Prop :=
  ∃ inits hs frees, l = inits ++ hs ++ frees ∧
    inits <+: prologue c w ∧
    (∀ e ∈ hs, e.handles = true) ∧
    frees <+: freeCalls u w c.plugins.length ∧
    (hs ≠ [] → inits = prologue c w ∧ Live c w) ∧
    (frees ≠ [] → inits = prologue c w) ∧
    (exited → inits = prologue c w ∧ frees = freeCalls u w c.plugins.length)

theorem Began.inOrder {w : Fin n} {l : List (Call n)} (h : Began c w l) {exited : Prop}
    (hexited : ¬ exited) : InOrder c u w l exited := by
  obtain ⟨hs, rfl, hhs, hlive⟩ := h
  exact ⟨prologue c w, hs, [], (List.append_nil _).symm, List.prefix_rfl, hhs, List.nil_prefix,
    fun hne => ⟨rfl, hlive hne⟩, fun _ => rfl, fun h => absurd h hexited⟩

theorem WorkerCalls.inOrder {w : Fin n} {inits frees : ℕ} {l : List (Call n)} {pc : WorkerPc}
    (h : WorkerCalls c u w inits frees l pc) : InOrder c u w l (pc = .exited) := by
  cases pc with
  | threadInit =>
      obtain ⟨rfl, -, hle⟩ := h
      refine ⟨initCalls c w inits, [], [], by simp, initCalls_prefix c w ?_, by simp,
        List.nil_prefix, fun hne => absurd rfl hne, fun hne => absurd rfl hne, fun hpc => by cases hpc⟩
      exact le_min (hle.trans (Nat.le_succ _)) (hle.trans List.findIdx_le_length)
  | dequeue => exact h.1.inOrder (by simp)
  | busy => exact h.1.inOrder (by simp)
  | terminate => exact h.1.inOrder (by simp)
  | asyncSend => exact h.1.inOrder (by simp)
  | threadFree =>
      obtain ⟨b, ⟨hs, rfl, hhs, hlive⟩, rfl, hle⟩ := h
      exact ⟨prologue c w, hs, freeCalls u w frees, rfl, List.prefix_rfl, hhs,
        freeCalls_prefix u w hle, fun hne => ⟨rfl, hlive hne⟩, fun _ => rfl, fun hpc => by cases hpc⟩
  | exited =>
      obtain ⟨b, ⟨hs, rfl, hhs, hlive⟩, rfl⟩ := h
      exact ⟨prologue c w, hs, freeCalls u w c.plugins.length, rfl, List.prefix_rfl, hhs,
        List.prefix_rfl, fun hne => ⟨rfl, hlive hne⟩, fun _ => rfl, fun _ => ⟨rfl, rfl⟩⟩

/-- **The life of the plugins.**  Taking the loops apart changes nothing for the helper.  In
every run a worker calls the `thread_init`s up to the first failure, then handlers if none
failed, then all `thread_free`s; when it has exited, it has made all these calls.  After the
last worker has exited, and not before, `main` goes through the plugins in order and calls
`plugin_free` and `plugin_unload` of each that has the former. -/
theorem life_of_plugins [Inhabited σ] {reads : List StdinRead} {world : ω}
    {as : List (LifeAction n σ)} (h : (life c u n).exec (.init n reads world) as = some s) :
    (helper c n).Reaches (.init n reads world) s.base ∧
      ∃ live k, s.calls = live ++ teardown u k ∧ k ≤ c.plugins.length ∧
        (∀ e ∈ live, e.tearsDown = false) ∧
        (0 < k → ∀ w, s.base.workers w = .exited) ∧
        ∀ w, InOrder c u w (callsBy w live) (s.base.workers w = .exited) := by
  constructor
  · refine Guarded.exec_induction (P := fun _ s => (helper c n).Reaches (.init n reads world) s.base)
      (.refl _) (fun as s₁ a s₂ h₁ hP hstep => ?_) h
    exact hP.trans (reaches_of_move (ordered_of_exec h₁) (lifeStep_move hstep))
  · have hord := ordered_of_exec h
    obtain ⟨live, hcalls, hlive, hworkers⟩ := hord.calls
    exact ⟨live, s.unloaded, hcalls, hord.unloaded_le, hlive,
      fun hpos w => hord.joined n (hord.unloading hpos) w w.isLt, fun w => (hworkers w).inOrder⟩

/-- Two plugins; `thread_init` of the second one fails. -/
def twoPlugins : Core Unit Unit where
  build := ⟨true⟩
  inetPton := ipv4Only
  plugins := [{ threadInit := some fun _ => 0 }, { threadInit := some fun _ => -1 }]
  denyByDefault := false

/-- The only worker gives up, and the process ends. -/
def givesUp : List (LifeAction 1 Unit) :=
  [.init (Fin.last 0), .init (Fin.last 0)] ++ List.replicate 2 (.own (.worker (Fin.last 0) ())) ++
    [.own .async, .own .go, .own .leave, .own .go, .own .go] ++
    List.replicate 3 (.free (Fin.last 0)) ++ [.own .go, .unload, .unload]

/-- Its `thread_free`s are called all the same. -/
theorem life_of_plugins_givesUp :
    ∃ s, (life twoPlugins (fun _ => ⟨true, true⟩) 1).exec (.init 1 [] ()) givesUp = some s ∧
      s.calls = [.threadInit (Fin.last 0) 0, .threadInit (Fin.last 0) 1,
        .threadFree (Fin.last 0) 0, .threadFree (Fin.last 0) 1, .pluginFree 0, .unload 0,
        .pluginFree 1, .unload 1] ∧
      (helper twoPlugins 1).Reaches (.init 1 [] ()) s.base := by
  have hcalls : ((life twoPlugins (fun _ => ⟨true, true⟩) 1).exec (.init 1 [] ()) givesUp).map
      (·.calls) = some [.threadInit (Fin.last 0) 0, .threadInit (Fin.last 0) 1,
        .threadFree (Fin.last 0) 0, .threadFree (Fin.last 0) 1, .pluginFree 0, .unload 0,
        .pluginFree 1, .unload 1] := by decide
  obtain ⟨s, hs, hcalls⟩ := Option.map_eq_some_iff.mp hcalls
  exact ⟨s, hs, hcalls, (life_of_plugins hs).1⟩

end Hooks

end SquidHelper
