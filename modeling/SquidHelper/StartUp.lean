/-
SquidHelper/StartUp.lean

Start-up in `src/core/main.c`, from the command line to the event loop, and the default policy
that the workers go by from then on.

`main` loads the plugins, `init_config` has libconfuse read the file and calls the
`config_file_parsed` hooks, and the threads are started.  `default_behavior` is a null pointer
until libconfuse finds the option, and is used all the same; nothing looks at what `calloc`
returns for the threads.

libconfuse, the linker, the plugins' own functions, `fopen` and `calloc` are parameters
(`Environment`); of `cfg_parse` it is assumed that a string option which is not found leaves
its variable as it was, and of `pthread_create`, as everywhere, that there is a thread
afterwards.
-/
import SquidHelper.HostsLines
import SquidHelper.OptionTable
import SquidHelper.Service

namespace SquidHelper

namespace StartUp

open CString Memory Slots Config Plugins OptionTable

variable {σ ω ο : Type*}

/-! ### Surroundings -/

/-- What `cfg_parse` comes to; the variables of the options that are in the file. -/
inductive CfgResult
  | fileError
  | parseError
  | success (logfile defaultBehavior : Option Argument)
  deriving DecidableEq

/-- `default_behavior` once the file is read. -/
def CfgResult.defaultBehavior : CfgResult → Option Argument
  | .success _ defaultBehavior => defaultBehavior
  | _ => none

/-- `logfile` once the file is read. -/
def CfgResult.logfile : CfgResult → Option Argument
  | .success logfile _ => logfile
  | _ => none

/-- `ω` is the state of the process outside of `webcontrol_core_ctx`, with what the plugins keep
for themselves. -/
structure Environment (σ ω ο : Type*) where
  build : Build
  inetPton : InetPton
  outside : σ → ω → ω
  linker : Linker ω σ ω ο
  /-- `cfg_parse` for these options, on the file with this name. -/
  cfgParse : List (CfgOpt ο) → List Byte → ω → CfgResult × ω
  /-- `fopen(.., "w")`, `none` when it does not return: a null pointer need not be accepted. -/
  fopen : Option Argument → Option Bool
  fopen_isSome : ∀ path, (fopen (some path)).isSome
  /-- Whether `calloc(nmemb, size)` finds the memory. -/
  calloc : ℕ → ℕ → Bool
  calloc_overflow : ∀ nmemb size, sizeMod ≤ nmemb * size → calloc nmemb size = false

/-! ### `init_config` -/

/-- `CALL_HOOK_SIMPLE(config_file_parsed)` for `currentPlugin`. -/
def configFileParsed (world : ω) (currentPlugin : PluginObject σ ω ο) : Except Fault ω :=
  match currentPlugin.configFileParsed with
  | none => .ok world
  | some hook => hook world

/-- The loop for `i`. -/
def callHookAt (plugins : PluginTable σ ω ο) (world : ω) (i : ℕ) : Except Fault ω :=
  match plugins.plugins[i]? with
  | none => .error .outOfBounds
  | some none => .error .nullPointer
  | some (some currentPlugin) => configFileParsed world currentPlugin

/-- The loop. -/
def callConfigFileParsed (plugins : PluginTable σ ω ο) (world : ω) : Except Fault ω :=
  (List.range plugins.numPlugins).foldlM (callHookAt plugins) world

/-- What `init_config` leaves in `webcontrol_core_ctx`. -/
structure Settings where
  denyByDefault : Bool
  logfileOpen : Bool
  deriving DecidableEq

/-- `init_config` from `strcmp(default_behavior, "deny")` on. -/
def applySettings (env : Environment σ ω ο) (plugins : PluginTable σ ω ο)
    (logfile defaultBehavior : Option Argument) (world : ω) : Except StartFault (Settings × ω) :=
  match defaultBehavior with
  | none => .error (.memory .nullPointer)
  | some behavior =>
      match env.fopen logfile with
      | none => .error (.memory .nullPointer)
      | some logfileOpen =>
          ((callConfigFileParsed plugins world).mapError .memory).map fun world =>
            (⟨decide (behavior.val = ascii "deny"), logfileOpen⟩, world)

/-- `init_config` from the `switch` on; no settings is -1.  After `CFG_FILE_ERROR` it goes on as
after `CFG_SUCCESS`. -/
def afterParse (env : Environment σ ω ο) (plugins : PluginTable σ ω ο) (r : CfgResult × ω) :
    Except StartFault (Option Settings × ω) :=
  if r.1 = .parseError then .ok (none, r.2)
  else
    (applySettings env plugins r.1.logfile r.1.defaultBehavior r.2).map fun x => (some x.1, x.2)

/-- `init_config`. -/
def initConfig (env : Environment σ ω ο) (plugins : PluginTable σ ω ο) (configFile : List Byte)
    (world : ω) : Except StartFault (Option Settings × ω) :=
  match configOptions plugins with
  | .error f => .error (.memory f)
  | .ok table =>
      match readOptions table.opts with
      | none => .error (.memory .outOfBounds)
      | some opts => afterParse env plugins (env.cfgParse opts configFile world)

/-! ### The threads -/

/-- `thread`: a pointer, a `pthread_t` and a `size_t`. -/
def threadMembers : List Member := List.replicate 3 ⟨8, 8⟩

/-- `sizeof(thread)`. -/
def threadSize : ℕ := (structOf threadMembers).size

theorem threadSize_eq : threadSize = 24 := by decide

/-- The stores into `workers[i]`; `workers` is a null pointer, or an array of this length. -/
def startThread (workers : Option ℕ) (i : ℕ) : Except Fault Unit :=
  match workers with
  | none => .error .nullPointer
  | some length => if i < length then .ok () else .error .outOfBounds

/-- The loop, with so many rounds left. -/
def startLoop (workers : Option ℕ) (numThreads : ℕ) : ℕ → Except Fault Unit
  | 0 => .ok ()
  | left + 1 =>
      (startThread workers (numThreads - (left + 1))).bind fun _ =>
        startLoop workers numThreads left

/-- `workers = calloc(sizeof(thread), num_threads)` and the loop. -/
def startThreads (env : Environment σ ω ο) (numThreads : ℕ) : Except Fault Unit :=
  startLoop (if env.calloc threadSize numThreads then some numThreads else none) numThreads
    numThreads

/-! ### `main` -/

/-- What `main` has when it enters the event loop. -/
structure Serving (σ ω ο : Type*) where
  settings : Settings
  plugins : PluginTable σ ω ο
  numThreads : ℕ
  world : ω

/-- Where start-up ends: in the event loop, or with `exit(-1)`. -/
structure Started (σ ω ο : Type*) where
  /-- The path that `cfg_parse` was given. -/
  path : List Byte
  serving : Option (Serving σ ω ο)

/-- `main` up to `ev_loop`.  The test `config_file == NULL` is false, and the first to read the
array is the message with its name in it. -/
def startUp (env : Environment σ ω ο) (opts : List Opt) (world : ω) :
    Except StartFault (Started σ ω ο) :=
  (parseOptions .init opts).bind fun s =>
    (readString s.configFile).bind fun path =>
      ((loadPlugins env.linker s.pluginList world).mapError .memory).bind fun t =>
        (initConfig env t.1 path t.2).bind fun r =>
          match r.1 with
          | none => .ok ⟨path, none⟩
          | some settings =>
              ((startThreads env s.numThreads).mapError .memory).map fun _ =>
                ⟨path, some ⟨settings, t.1, s.numThreads, r.2⟩⟩

/-- What the workers go by. -/
def Serving.core (env : Environment σ ω ο) (r : Serving σ ω ο) : Core σ ω where
  build := env.build
  inetPton := env.inetPton
  plugins := (r.plugins.plugins.take r.plugins.numPlugins).reduceOption.map PluginObject.hooks
  denyByDefault := r.settings.denyByDefault
  outside := env.outside

/-! ### What the command line and the file come to -/

section Inputs

variable (env : Environment σ ω ο) (opts : List Opt) (world : ω)

/-- The plugins asked for that can be loaded. -/
def loadedPlugins : List (PluginObject σ ω ο) :=
  match wantedPlugins opts with
  | none => []
  | some optarg => loaded env.linker (pluginNames optarg) world

/-- The world after that. -/
def worldLoaded : ω :=
  match wantedPlugins opts with
  | none => world
  | some optarg => worldAfter env.linker (pluginNames optarg) world

/-- What libconfuse makes of the file that is asked for, with the sections of these plugins. -/
def parsed : CfgResult × ω :=
  env.cfgParse (coreOptions ++ (loadedPlugins env opts world).filterMap pluginSection)
    (wantedPath opts) (worldLoaded env opts world)

end Inputs

/-- The `config_file_parsed` hooks return, each called where the one before it has left the
world. -/
def HooksReturn : List (PluginObject σ ω ο) → ω → Prop
  | [], _ => True
  | p :: ps, world => ∃ world', configFileParsed world p = .ok world' ∧ HooksReturn ps world'

/-- The `thread_init` hooks return 0 in thread `number`. -/
def ThreadInits (ps : List (PluginObject σ ω ο)) (number : ℕ) : Prop :=
  ∀ p ∈ ps, ∀ f, p.hooks.threadInit = some f → f number = 0

/-! ### The purpose -/

/-- Requests that no plugin decides are answered `ERR` if and only if `behavior` is `deny`, in
every run of the helper. -/
def GoesBy (c : Core σ ω) (n : ℕ) (world : ω) (behavior : List Byte) : Prop :=
  ∀ (reads : List StdinRead) (as : List (Action n σ)) (s : State n ω),
    (helper c n).exec (State.init n reads world) as = some s →
    ∀ (job : Job) (req : Request), parseRequest c.build c.inetPton job.line = .valid req →
      decision (calls c job (State.init n reads world) as) ≠ some .allow →
      decision (calls c job (State.init n reads world) as) ≠ some .deny →
      ∀ out, .responded out ∈ jobEvents job s.log →
        ∃ status msg, out = sendResponse (lineChannel job.line) status msg ∧
          (status ≠ 0 ↔ behavior = ascii "deny")

/-- Every request is answered, decided or not: from any moment of any run the workers alone can
take so many steps and no more, and when none of them can go on, every line that was enqueued
has its one answer. -/
def Answers (c : Core σ ω) (n : ℕ) (world : ω) : Prop :=
  ∀ (reads : List StdinRead) (s : State n ω), (helper c n).Reaches (State.init n reads world) s →
    ∃ k, ∀ (as : List (Action n σ)) (s' : State n ω), (∀ a ∈ as, a.ofWorker = true) →
      (helper c n).exec s as = some s' → as.length ≤ k ∧
        ((∀ a : Action n σ, a.ofWorker = true → ¬ (helper c n).Enabled s' a) →
          ∀ job ∈ enqueuedJobs s'.log, (answersTo job s'.log).length = 1)

/-- **There is always a default policy**: start-up gets through, with the file that is wanted,
and unless `init_config` gives up, it comes to the event loop, with a `default_behavior` that
the workers go by, in every answer they give, and they do answer. -/
def DefaultPolicy (env : Environment σ ω ο) (opts : List Opt) (world : ω) : Prop :=
  ∃ r, startUp env opts world = .ok r ∧ r.path = wantedPath opts ∧
    (r.serving = none → (parsed env opts world).1 = .parseError) ∧
    ∀ serving, r.serving = some serving →
      ∃ behavior, (parsed env opts world).1.defaultBehavior = some behavior ∧
        GoesBy (serving.core env) serving.numThreads serving.world behavior.val ∧
        Answers (serving.core env) serving.numThreads serving.world

/-- What the helper needs to get from a file without errors to answers. -/
structure Serviceable (env : Environment σ ω ο) (opts : List Opt) (world : ω) : Prop where
  behavior : (parsed env opts world).1.defaultBehavior ≠ none
  logfile : env.fopen (parsed env opts world).1.logfile ≠ none
  hooks : HooksReturn (loadedPlugins env opts world) (parsed env opts world).2
  memory : env.calloc threadSize (wantedThreads opts) = true
  alive : ∃ number, 1 ≤ number ∧ number ≤ wantedThreads opts ∧
    ThreadInits (loadedPlugins env opts world) number

/-- A `-c` option, none too long, no more plugins than there is room for, and a file that
libconfuse refuses or that leads to answers. -/
structure Configured (env : Environment σ ω ο) (opts : List Opt) (world : ω) : Prop where
  given : configArguments opts ≠ []
  short : ∀ optarg ∈ configArguments opts, optarg.val.length < PATH_MAX
  few : (loadedPlugins env opts world).length ≤ 120
  serviceable : (parsed env opts world).1 ≠ .parseError → Serviceable env opts world

/-! ### The hooks -/

/-- The loop over the array calls the hooks of the plugins in it. -/
theorem callConfigFileParsed_tableOf (n : ℕ) (ps : List (PluginObject σ ω ο)) (world : ω) :
    callConfigFileParsed (tableOf n ps) world = ps.foldlM configFileParsed world := by
  refine foldlM_range (fun world i hi => ?_) world
  simp only [callHookAt, tableOf, getElem?_filled hi]

theorem hooksReturn_iff {ps : List (PluginObject σ ω ο)} {world : ω} :
    HooksReturn ps world ↔ ∃ world', ps.foldlM configFileParsed world = .ok world' := by
  induction ps generalizing world with
  | nil => exact ⟨fun _ => ⟨world, rfl⟩, fun _ => trivial⟩
  | cons p ps ih =>
      rw [HooksReturn]
      constructor
      · rintro ⟨world₁, hp, hps⟩
        obtain ⟨world', hps⟩ := ih.mp hps
        refine ⟨world', ?_⟩
        rw [List.foldlM_cons, hp]
        exact hps
      · rintro ⟨world', h⟩
        obtain ⟨world₁, hp, hps⟩ := bind_eq_ok_iff.mp h
        exact ⟨world₁, hp, ih.mpr ⟨world', hps⟩⟩

/-! ### The threads -/

theorem startLoop_some {numThreads left : ℕ} (h : left ≤ numThreads) :
    startLoop (some numThreads) numThreads left = .ok () := by
  induction left with
  | zero => rfl
  | succ left ih =>
      have hlt : numThreads - (left + 1) < numThreads := by omega
      rw [startLoop, startThread, if_pos hlt]
      exact ih (Nat.le_of_succ_le h)

/-- Without memory not even one thread can be started. -/
theorem startThreads_eq_ok_iff {env : Environment σ ω ο} {numThreads : ℕ} :
    startThreads env numThreads = .ok () ↔
      numThreads = 0 ∨ env.calloc threadSize numThreads = true := by
  rw [startThreads]
  by_cases hmemory : env.calloc threadSize numThreads = true
  · rw [if_pos hmemory, startLoop_some le_rfl]
    simp [hmemory]
  · rw [if_neg hmemory]
    cases numThreads with
    | zero => exact ⟨fun _ => .inl rfl, fun _ => rfl⟩
    | succ numThreads =>
        constructor
        · intro h
          cases h
        · rintro (hzero | hsome)
          · cases hzero
          · exact absurd hsome hmemory

/-! ### The settings -/

variable {env : Environment σ ω ο} {opts : List Opt} {world : ω}

theorem applySettings_eq_ok_iff {plugins : PluginTable σ ω ο}
    {logfile defaultBehavior : Option Argument} {x : Settings × ω} :
    applySettings env plugins logfile defaultBehavior world = .ok x ↔
      ∃ behavior logfileOpen, defaultBehavior = some behavior ∧
        env.fopen logfile = some logfileOpen ∧ callConfigFileParsed plugins world = .ok x.2 ∧
        x.1 = ⟨decide (behavior.val = ascii "deny"), logfileOpen⟩ := by
  unfold applySettings
  constructor
  · intro h
    split at h
    case h_1 => cases h
    case h_2 behavior =>
      split at h
      case h_1 => cases h
      case h_2 logfileOpen hopen =>
        obtain ⟨world', hcall, rfl⟩ := of_map_eq_ok h
        exact ⟨behavior, logfileOpen, rfl, hopen, mapError_eq_ok_iff.mp hcall, rfl⟩
  · rintro ⟨behavior, logfileOpen, rfl, hopen, hcall, hx⟩
    simp only [hopen, hcall]
    rw [← hx]
    rfl

/-- `init_config` on a table of plugins. -/
theorem initConfig_tableOf (n : ℕ) (ps : List (PluginObject σ ω ο)) (path : List Byte) :
    initConfig env (tableOf n ps) path world
      = afterParse env (tableOf n ps)
          (env.cfgParse (coreOptions ++ ps.filterMap pluginSection) path world) := by
  obtain ⟨table, hconfig, -, -, -, hread⟩ := configOptions_tableOf n ps
  simp only [initConfig, hconfig, hread]

/-- What `init_config` comes to: it gives up, or goes on after either of the other results. -/
theorem afterParse_eq_ok_iff {plugins : PluginTable σ ω ο} {r : CfgResult × ω}
    {x : Option Settings × ω} :
    afterParse env plugins r = .ok x ↔
      (r.1 = .parseError ∧ x = (none, r.2)) ∨
      (r.1 ≠ .parseError ∧ ∃ settings, x.1 = some settings ∧
        applySettings env plugins r.1.logfile r.1.defaultBehavior r.2 = .ok (settings, x.2)) := by
  rw [afterParse]
  by_cases hparse : r.1 = .parseError
  · rw [if_pos hparse]
    simp [hparse, eq_comm]
  · rw [if_neg hparse]
    constructor
    · intro h
      obtain ⟨y, hy, rfl⟩ := of_map_eq_ok h
      exact .inr ⟨hparse, y.1, rfl, hy⟩
    · rintro (⟨herror, -⟩ | ⟨-, settings, hx, h⟩)
      · exact absurd herror hparse
      · rw [h]
        show Except.ok (some settings, x.2) = _
        rw [← hx]

/-- A file that sets `logfile` is all that `fopen` needs. -/
theorem fopen_ne_none {logfile : Option Argument} (h : logfile ≠ none) :
    env.fopen logfile ≠ none := by
  obtain ⟨path, rfl⟩ := Option.ne_none_iff_exists'.mp h
  exact Option.isSome_iff_ne_none.mp (env.fopen_isSome path)

/-! ### Start-up as a whole -/

/-- Loading the plugins that are asked for. -/
theorem loadPlugins_wanted :
    loadPlugins env.linker (wantedPlugins opts) world
      = if (loadedPlugins env opts world).length ≤ pluginSlots then
          .ok (tableOf pluginSlots (loadedPlugins env opts world), worldLoaded env opts world)
        else .error .outOfBounds := by
  rw [loadedPlugins, worldLoaded]
  cases wantedPlugins opts with
  | none => rfl
  | some optarg => exact loadPlugins_eq env.linker optarg world

/-- The two ends of start-up. -/
inductive Outcome (env : Environment σ ω ο) (opts : List Opt) (world : ω) : Started σ ω ο → Prop
  | exits (hparse : (parsed env opts world).1 = .parseError) :
      Outcome env opts world ⟨wantedPath opts, none⟩
  | serves {behavior logfileOpen world'} (hparse : (parsed env opts world).1 ≠ .parseError)
      (hbehavior : (parsed env opts world).1.defaultBehavior = some behavior)
      (hopen : env.fopen (parsed env opts world).1.logfile = some logfileOpen)
      (hhooks : (loadedPlugins env opts world).foldlM configFileParsed (parsed env opts world).2
        = .ok world')
      (hthreads : startThreads env (wantedThreads opts) = .ok ()) :
      Outcome env opts world ⟨wantedPath opts,
        some ⟨⟨decide (behavior.val = ascii "deny"), logfileOpen⟩,
          tableOf pluginSlots (loadedPlugins env opts world), wantedThreads opts, world'⟩⟩

/-- **What start-up comes to.** -/
theorem startUp_eq_ok_iff {r : Started σ ω ο} :
    startUp env opts world = .ok r ↔
      configArguments opts ≠ [] ∧
        (∀ optarg ∈ configArguments opts, optarg.val.length < PATH_MAX) ∧
        (loadedPlugins env opts world).length ≤ pluginSlots ∧ Outcome env opts world r := by
  constructor
  · intro h
    obtain ⟨s, hs, h⟩ := bind_eq_ok_iff.mp h
    obtain ⟨path, hread, h⟩ := bind_eq_ok_iff.mp h
    obtain ⟨t, hload, h⟩ := bind_eq_ok_iff.mp h
    obtain ⟨x, hinit, h⟩ := bind_eq_ok_iff.mp h
    obtain ⟨hholds, hshort⟩ := holds_init.parseOptions hs
    obtain ⟨hgiven, rfl⟩ := hholds.readString_eq_ok_iff.mp hread
    rw [mapError_eq_ok_iff, hholds.plugins, List.nil_append, loadPlugins_wanted] at hload
    split at hload
    case isFalse => cases hload
    case isTrue hfew =>
      cases hload
      refine ⟨hgiven, hshort, hfew, ?_⟩
      rw [initConfig_tableOf, afterParse_eq_ok_iff] at hinit
      rcases hinit with ⟨hparse, rfl⟩ | ⟨hparse, settings, hx, hsettings⟩
      · cases h
        exact .exits hparse
      · obtain ⟨behavior, logfileOpen, hbehavior, hopen, hhooks, rfl⟩ :=
          applySettings_eq_ok_iff.mp hsettings
        obtain ⟨x, world'⟩ := x
        cases hx
        obtain ⟨u, hthreads, rfl⟩ := of_map_eq_ok h
        rw [mapError_eq_ok_iff, hholds.threads] at hthreads
        rw [callConfigFileParsed_tableOf] at hhooks
        rw [hholds.threads]
        exact .serves hparse hbehavior hopen hhooks hthreads
  · rintro ⟨hgiven, hshort, hfew, hend⟩
    obtain ⟨s, hs⟩ := parseOptions_ok holds_init hshort
    obtain ⟨hholds, -⟩ := holds_init.parseOptions hs
    refine bind_eq_ok_iff.mpr ⟨s, hs, bind_eq_ok_iff.mpr ⟨wantedPath opts, ?_,
      bind_eq_ok_iff.mpr ⟨(tableOf pluginSlots (loadedPlugins env opts world),
        worldLoaded env opts world), ?_, ?_⟩⟩⟩
    · exact hholds.readString_eq_ok_iff.mpr ⟨hgiven, rfl⟩
    · rw [mapError_eq_ok_iff, hholds.plugins, List.nil_append, loadPlugins_wanted, if_pos hfew]
    · rw [initConfig_tableOf, hholds.threads]
      cases hend with
      | exits hparse =>
          exact bind_eq_ok_iff.mpr ⟨_, afterParse_eq_ok_iff.mpr (.inl ⟨hparse, rfl⟩), rfl⟩
      | @serves behavior logfileOpen world' hparse hbehavior hopen hhooks hthreads =>
          rw [← callConfigFileParsed_tableOf pluginSlots] at hhooks
          have hsettings : applySettings env _ _ _ _
              = .ok (⟨decide (behavior.val = ascii "deny"), logfileOpen⟩, world') :=
            applySettings_eq_ok_iff.mpr ⟨behavior, logfileOpen, hbehavior, hopen, hhooks, rfl⟩
          have hinit : afterParse env _ (parsed env opts world)
              = .ok (some ⟨decide (behavior.val = ascii "deny"), logfileOpen⟩, world') :=
            afterParse_eq_ok_iff.mpr (.inr ⟨hparse, _, rfl, hsettings⟩)
          refine bind_eq_ok_iff.mpr ⟨_, hinit, ?_⟩
          simp only [List.nil_append, hthreads]
          rfl

/-! ### The workers -/

/-- The workers go through the plugins that were loaded, from the front. -/
theorem core_plugins (env : Environment σ ω ο) (settings : Settings) (n numThreads : ℕ)
    (ps : List (PluginObject σ ω ο)) (world : ω) :
    (Serving.core env ⟨settings, tableOf n ps, numThreads, world⟩).plugins
      = ps.map PluginObject.hooks := by
  have hsome : (ps.map some).reduceOption = ps := by
    rw [List.reduceOption, List.filterMap_map]
    exact List.filterMap_some
  simp only [Serving.core, tableOf, take_filled, hsome]

/-- A worker is alive if its `thread_init` hooks return 0. -/
theorem live_iff {settings : Settings} {n numThreads k : ℕ} {ps : List (PluginObject σ ω ο)}
    {world : ω} {w : Fin k} :
    Live (Serving.core env ⟨settings, tableOf n ps, numThreads, world⟩) w ↔
      ThreadInits ps (w + 1) := by
  rw [Live, Core.threadInit, core_plugins, List.all_eq_true]
  constructor
  · intro h p hp f hf
    have hzero := h p.hooks (List.mem_map_of_mem hp)
    rw [hf] at hzero
    simpa using hzero
  · intro h p hp
    obtain ⟨plugin, hplugin, rfl⟩ := List.mem_map.mp hp
    cases hf : plugin.hooks.threadInit with
    | none => rfl
    | some f => simpa using h plugin hplugin f hf

/-- The default branch of the worker goes by `deny_by_default`. -/
theorem goesBy_of_denyByDefault {c : Core σ ω} {behavior : List Byte}
    (hdeny : c.denyByDefault = decide (behavior = ascii "deny")) (n : ℕ) (world : ω) :
    GoesBy c n world behavior := by
  intro reads as s h job req hvalid hallow hdeny' out hout
  obtain ⟨⟨next, hshape⟩, -⟩ := shape_of_exec h job
  obtain ⟨hanswer, -⟩ := hshape.responded hvalid hout
  -- the answer comes from the last branch of the worker
  refine ⟨if c.denyByDefault then -1 else 0, some (ascii "UNKNOWN ERR"), ?_, ?_⟩
  · rw [hanswer, answer]
    cases hdec : decision (calls c job (State.init n reads world) as) with
    | none => rfl
    | some status =>
        rw [hdec] at hallow hdeny'
        cases status with
        | allow => exact absurd rfl hallow
        | deny => exact absurd rfl hdeny'
        | _ => rfl
  · rw [hdeny]
    by_cases hb : behavior = ascii "deny"
    · simp [hb]
    · simp [hb]

theorem answers_of_live [Inhabited σ] {c : Core σ ω} {n : ℕ} (hlive : ∃ w : Fin n, Live c w)
    (world : ω) : Answers c n world := by
  intro reads s h
  refine ⟨Service.workRank c s, ?_⟩
  intro as s' has hs'
  refine ⟨Service.length_le_workRank has hs', ?_⟩
  intro hstuck job hjob
  exact Service.answered_of_stuck hlive (h.trans ⟨as, hs'⟩) hstuck hjob

/-- Nobody takes a line if no worker is alive. -/
theorem dequeuedJobs_of_dead {c : Core σ ω} {n : ℕ} (hdead : ∀ w : Fin n, ¬ Live c w)
    {reads : List StdinRead} {s : State n ω}
    (h : (helper c n).Reaches (State.init n reads world) s) : dequeuedJobs s.log = [] := by
  have hboth := h.invariant (I := fun s => Terminators c s ∧ dequeuedJobs s.log = [])
    (fun s a s' hs hstep => ⟨hs.1.step (step_step hstep), ?_⟩) ⟨.init c reads world, rfl⟩
  · exact hboth.2
  · obtain ⟨hterm, hnone⟩ := hs
    have hout : ∀ w, (s.workers w).inLoop ≠ true := fun w hw => hdead w (hterm.started w hw)
    cases (step_step hstep).jobView with
    | @request w o job pc r ha hold => exact absurd (by rw [hold]; rfl) (hout w)
    | @dequeue w o job ha hold => exact absurd (by rw [hold]; rfl) (hout w)
    | quiet hjobs => rw [hjobs, hnone]

theorem mem_enqueuedJobs_of_step {c : Core σ ω} {n : ℕ} {s s' : State n ω} {a : Action n σ}
    (hs : Step c s a s') {job : Job} (hjob : job ∈ enqueuedJobs s.log) :
    job ∈ enqueuedJobs s'.log := by
  cases hs with
  | readEof | enqueueLine | watcher | dequeueJob | request =>
      rw [enqueuedJobs_append]
      exact List.mem_append_left _ hjob
  | _ => exact hjob

/-- The workers go on until none of them can. -/
theorem exists_workers_stuck (c : Core σ ω) {n : ℕ} (s : State n ω) :
    ∃ as s', (∀ a ∈ as, a.ofWorker = true) ∧ (helper c n).exec s as = some s' ∧
      (∀ job ∈ enqueuedJobs s.log, job ∈ enqueuedJobs s'.log) ∧
      ∀ a : Action n σ, a.ofWorker = true → ¬ (helper c n).Enabled s' a := by
  have hkeep : ∀ s₁ (a : Action n σ) s₂,
      (∃ as, (∀ a ∈ as, a.ofWorker = true) ∧ (helper c n).exec s as = some s₁ ∧
        ∀ job ∈ enqueuedJobs s.log, job ∈ enqueuedJobs s₁.log) →
      a.ofWorker = true → (helper c n).step s₁ a = some s₂ →
      ∃ as, (∀ a ∈ as, a.ofWorker = true) ∧ (helper c n).exec s as = some s₂ ∧
        ∀ job ∈ enqueuedJobs s.log, job ∈ enqueuedJobs s₂.log := by
    rintro s₁ a s₂ ⟨as, has, hexec, hjobs⟩ ha hstep
    refine ⟨as ++ [a], ?_, ?_, fun job hjob => ?_⟩
    · rw [List.forall_mem_append]
      exact ⟨has, List.forall_mem_singleton.mpr ha⟩
    · rw [Guarded.exec_concat, hexec]
      exact hstep
    · exact mem_enqueuedJobs_of_step (step_step hstep) (hjobs job hjob)
  obtain ⟨s', -, ⟨as, has, hexec, hjobs⟩, hstuck⟩ := Guarded.exists_stuck_of_rank
    (fun a : Action n σ => a.ofWorker = true) _ (Service.workRank c) hkeep
    (fun _ _ _ _ ha hstep => Service.workRank_lt (step_step hstep) ha) s
    ⟨[], by simp, rfl, fun _ hjob => hjob⟩
  exact ⟨as, s', has, hexec, hjobs, hstuck⟩

/-- If every line is answered, a worker is alive: with none, a line that is read stays. -/
theorem exists_live_of_answers {c : Core σ ω} {n : ℕ} (h : Answers c n world) :
    ∃ w : Fin n, Live c w := by
  by_contra hdead
  rw [not_exists] at hdead
  obtain ⟨q, -, hq⟩ := Fifo.exists_enqueue (q := (.empty : Fifo 256 (Option Job)))
    (some ⟨0, []⟩) (by decide)
  have hstdin : Step c (State.init n [.data [[]] false] world) .stdin _ :=
    .stdin rfl rfl (List.cons_ne_nil _ _)
  have hdata := hstdin.reaches.trans (Step.readData rfl rfl).reaches
  have hline := hdata.trans (Step.enqueueLine rfl hq).reaches
  -- one line is enqueued, and the workers go on until they stop
  obtain ⟨as, s, has, hexec, hjobs, hstuck⟩ := exists_workers_stuck c _
  obtain ⟨k, hk⟩ := h _ _ hline
  have hone := (hk as s has hexec).2 hstuck ⟨0, []⟩ (hjobs _ (by simp [enqueuedJobs, State.init]))
  have hreach := hline.trans ⟨as, hexec⟩
  have hbalance := (answering_of_reaches hreach).balance ⟨0, []⟩
  rw [dequeuedJobs_of_dead hdead hreach, List.count_nil] at hbalance
  omega

/-- **There is a default policy if and only if `Configured`**: the command line names a
configuration file, no such name is too long, no more plugins can be loaded than the array
holds, and unless libconfuse reports an error the file sets `default_behavior`, and `logfile`
if `fopen` needs it, the plugins accept what they are configured with, there is memory for the
threads, and one of them gets through its `thread_init`s. -/
theorem defaultPolicy_iff [Inhabited σ] (env : Environment σ ω ο) (opts : List Opt) (world : ω) :
    DefaultPolicy env opts world ↔ Configured env opts world := by
  constructor
  · rintro ⟨r, hr, -, -, hserving⟩
    obtain ⟨hgiven, hshort, hfew, hend⟩ := startUp_eq_ok_iff.mp hr
    rw [pluginSlots_eq] at hfew
    refine ⟨hgiven, hshort, hfew, fun hparse => ?_⟩
    cases hend with
    | exits herror => exact absurd herror hparse
    | serves _ hbehavior hopen hhooks hthreads =>
        obtain ⟨-, -, -, hanswers⟩ := hserving _ rfl
        obtain ⟨w, hw⟩ := exists_live_of_answers hanswers
        have hpos : wantedThreads opts ≠ 0 := Nat.ne_of_gt (Nat.zero_lt_of_lt w.isLt)
        exact {
          behavior := by rw [hbehavior]; simp
          logfile := by rw [hopen]; simp
          hooks := hooksReturn_iff.mpr ⟨_, hhooks⟩
          memory := (startThreads_eq_ok_iff.mp hthreads).resolve_left hpos
          alive := ⟨w + 1, Nat.le_add_left 1 _, w.isLt, live_iff.mp hw⟩ }
  · rintro ⟨hgiven, hshort, hfew, hserviceable⟩
    rw [← pluginSlots_eq] at hfew
    by_cases hparse : (parsed env opts world).1 = .parseError
    · refine ⟨_, startUp_eq_ok_iff.mpr ⟨hgiven, hshort, hfew, .exits hparse⟩, rfl,
        fun _ => hparse, ?_⟩
      rintro serving ⟨⟩
    · obtain ⟨hset, hlogfile, hhooks, hmemory, number, hpos, hle, hinits⟩ := hserviceable hparse
      obtain ⟨behavior, hbehavior⟩ := Option.ne_none_iff_exists'.mp hset
      obtain ⟨logfileOpen, hopen⟩ := Option.ne_none_iff_exists'.mp hlogfile
      obtain ⟨world', hhooks⟩ := hooksReturn_iff.mp hhooks
      have hthreads := startThreads_eq_ok_iff.mpr (.inr hmemory)
      refine ⟨_, startUp_eq_ok_iff.mpr ⟨hgiven, hshort, hfew,
        .serves hparse hbehavior hopen hhooks hthreads⟩, rfl, ?_, ?_⟩
      · rintro ⟨⟩
      · rintro serving ⟨⟩
        refine ⟨behavior, hbehavior, goesBy_of_denyByDefault rfl _ _, answers_of_live ?_ _⟩
        -- thread `number` is worker `number - 1`
        have hlt : number - 1 < wantedThreads opts := by omega
        refine ⟨⟨number - 1, hlt⟩, live_iff.mpr ?_⟩
        show ThreadInits _ (number - 1 + 1)
        rwa [Nat.sub_add_cancel hpos]

/-- Any file that is asked for sets both options, there is memory for every array that is not
too large for a `size_t`, and plugins are found that have no hooks. -/
def bothSet : Environment Unit Unit Unit where
  build := ⟨false⟩
  inetPton := ipv4Only
  outside _ world := world
  linker := txtfileLinker
  cfgParse _ _ world :=
    (.success (some ⟨ascii "webcontrol.log", by decide⟩) (some ⟨ascii "deny", by decide⟩), world)
  fopen path := path.map fun _ => true
  fopen_isSome _ := rfl
  calloc nmemb size := decide (nmemb * size < sizeMod)
  calloc_overflow _ _ h := decide_eq_false (Nat.not_lt.mpr h)

/-- Without `-c` not even that is enough: nothing has been written to `config_file`. -/
theorem not_defaultPolicy_noOption : ¬ DefaultPolicy bothSet [] () := by
  rintro ⟨r, hr, -⟩
  have hfault : startUp bothSet [] () = .error .uninitialised := rfl
  rw [hfault] at hr
  cases hr

/-- With it, it is. -/
theorem defaultPolicy_conf :
    DefaultPolicy bothSet [.c ⟨ascii "webcontrol.conf", by decide⟩] () := by
  refine (defaultPolicy_iff _ _ _).mpr ⟨by decide, by decide, Nat.zero_le _, fun _ => ?_⟩
  exact {
    behavior := by decide
    logfile := fopen_ne_none (by decide)
    hooks := trivial
    memory := by decide
    alive := ⟨1, by decide, by decide, fun p hp => by cases hp⟩ }

/-! ### Ways to fail -/

/-- `-t -1`, for one: so many threads that `calloc` cannot even count the bytes. -/
theorem not_configured_of_threads (hparse : (parsed env opts world).1 ≠ .parseError)
    (hmany : sizeMod ≤ 24 * wantedThreads opts) : ¬ Configured env opts world := by
  intro h
  rw [← threadSize_eq] at hmany
  have hmemory := (h.serviceable hparse).memory
  rw [env.calloc_overflow _ _ hmany] at hmemory
  cases hmemory

example : sizeMod ≤ 24 * wantedThreads [.t ⟨ascii "-1", by decide⟩] := by decide

/-- `-t 0`: nobody is there to answer. -/
theorem not_configured_of_noThread (hparse : (parsed env opts world).1 ≠ .parseError)
    (hnone : wantedThreads opts = 0) : ¬ Configured env opts world := by
  intro h
  obtain ⟨number, hpos, hle, -⟩ := (h.serviceable hparse).alive
  omega

/-- `webcontrol_txtfile_process_config`; the plugin's data and the file are in the world. -/
def txtfileProcessConfig (b : Build) (pton : InetPton) (data : ω → PluginData)
    (contents : ω → Option (List Byte)) (store : ω → PluginData → ω) (world : ω) :
    Except Fault ω :=
  (parseFile b pton (data world) (contents world)).map fun r => store world r.1

/-- **The hook of the text file returns if and only if no piece of the hosts file lacks a
token.** -/
theorem txtfileProcessConfig_returns_iff {b : Build} {pton : InetPton} {data : ω → PluginData}
    {contents : ω → Option (List Byte)} {store : ω → PluginData → ω} :
    (∃ world', txtfileProcessConfig b pton data contents store world = .ok world') ↔
      ∀ file, contents world = some file → ∀ p ∈ filePieces file, ¬ NullToken b pton p := by
  cases hfile : contents world with
  | none => simp [txtfileProcessConfig, hfile, parseFile, Except.map]
  | some file =>
      rw [txtfileProcessConfig, hfile, parseFile_some, parseContents_eq_parsePieces]
      constructor
      · rintro ⟨world', h⟩ file' ⟨⟩
        obtain ⟨r, hr, -⟩ := of_map_eq_ok h
        obtain ⟨chain, hchain, -⟩ := of_map_eq_ok hr
        exact (parsePieces_eq_ok_iff.mp hchain).1
      · intro htokens
        rw [parsePieces_eq_ok_iff.mpr ⟨htokens file rfl, rfl⟩]
        exact ⟨_, rfl⟩

/-- The same with the text file among the plugins, and a space at the end of its only line. -/
def trailingBlank : Environment Unit Unit Unit where
  __ := bothSet
  linker := { txtfileLinker with
    dlsym := fun _ _ _ => some fun plugin world =>
      ({ plugin with configFileParsed := some (txtfileProcessConfig ⟨false⟩ ipv4Only
          (fun _ => ⟨[], []⟩) (fun _ => some (ascii "10.0.0.1 \n")) fun _ _ => ()) }, world) }

example : (startUp trailingBlank [.c ⟨ascii "webcontrol.conf", by decide⟩,
    .p ⟨ascii "txtfile", by decide⟩] ()).isOk = false := by decide +kernel

end StartUp

end SquidHelper
