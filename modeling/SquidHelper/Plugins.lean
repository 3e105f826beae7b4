/-
SquidHelper/Plugins.lean

`src/core/webcontrol_plugin.c`: the plugins named on the command line are loaded one by one
and stored in an array that `main` has allocated.

`main` allocates `10 * sizeof(plugin)` bytes, but what is stored are pointers, so that there
are 120 slots.  Nothing compares `num_plugins` with that: the names are loaded in order as
long as at most 120 of them can be loaded, and the next one is stored behind the array.

The dynamic linker and the plugins' own functions are parameters (`Linker`).
-/
import SquidHelper.Config
import SquidHelper.Lib.Memory
import SquidHelper.Lib.Slots
import SquidHelper.Lib.Tokens
import SquidHelper.Worker

namespace SquidHelper

namespace Plugins

open CString Memory Slots Config

variable {τ σ ω ο : Type*}

/-- `','`. -/
abbrev COMMA : Byte := 44

/-- A `plugin` in memory: its hooks, and what start-up reads. -/
structure PluginObject (σ ω ο : Type*) where
  name : Option Argument
  /-- The handle from `dlopen`. -/
  lib : ℕ
  options : Option ο
  /-- Called at the end of `init_config`. -/
  configFileParsed : Option (ω → Except Fault ω)
  hooks : Plugin σ ω

/-- A plugin before its init function has run. -/
def PluginObject.blank (handle : ℕ) : PluginObject σ ω ο := ⟨none, handle, none, none, {}⟩

/-- What is outside; `τ` is the state of the process. -/
structure Linker (τ σ ω ο : Type*) where
  /-- `MODULE_DIR`. -/
  moduleDir : Argument
  dlopen : List Byte → τ → Option ℕ × τ
  /-- The init function with this name. -/
  dlsym : ℕ → List Byte → τ → Option (PluginObject σ ω ο → τ → PluginObject σ ω ο × τ)
  dlclose : ℕ → τ → τ

/-! ### `plugin_load` -/

def appendNext (b : Buffer) (s : List Byte) : Except Fault Buffer := do
  let r ← bufferAppendString b (some (s ++ [NUL]))
  return r.2

/-- The string that `buffer_append_string` makes of several ones, as C code reads it. -/
def joinStrings (s : List Byte) (ss : List (List Byte)) : Except Fault (List Byte) := do
  let b ← bufferInitString (some (s ++ [NUL]))
  let b ← ss.foldlM appendNext b
  match b.memory with
  | none => .error .nullPointer
  | some m => .ok (cString m)

def pluginFilename (moduleDir : Argument) (name : List Byte) : Except Fault (List Byte) :=
  joinStrings moduleDir.val [ascii "/mod_", name, ascii ".so"]

def pluginSymbolname (name : List Byte) : Except Fault (List Byte) :=
  joinStrings (ascii "webcontrol_mod_") [name, ascii "_plugin_init"]

/-- `plugin_load`. -/
def pluginLoad (l : Linker τ σ ω ο) (name : List Byte) (world : τ) :
    Except Fault (Option (PluginObject σ ω ο) × τ) :=
  match pluginFilename l.moduleDir name with
  | .error f => .error f
  | .ok filename =>
      match l.dlopen filename world with
      | (none, world) => .ok (none, world)
      | (some handle, world) =>
          match pluginSymbolname name with
          | .error f => .error f
          | .ok symbolname =>
              match l.dlsym handle symbolname world with
              | none => .ok (none, l.dlclose handle world)
              | some initFunc =>
                  let r := initFunc (.blank handle) world
                  .ok (some r.1, r.2)

/-! ### The array -/

/-- `plugin`, with `HAVE_LIBCONFUSE`: twelve pointers. -/
def pluginMembers : List Member := List.replicate 12 ⟨8, 8⟩

/-- The pointers that fit into what `calloc(sizeof(plugin), 10)` returns. -/
def pluginSlots : ℕ := (structOf pluginMembers).size * 10 / 8

theorem pluginSlots_eq : pluginSlots = 120 := by decide

/-- `plugins` and `num_plugins` of `webcontrol_core_ctx`. -/
structure PluginTable (σ ω ο : Type*) where
  plugins : List (Option (PluginObject σ ω ο))
  numPlugins : ℕ

def PluginTable.init : PluginTable σ ω ο := ⟨fresh pluginSlots, 0⟩

/-- `webcontrol->plugins[webcontrol->num_plugins++] = plugin`. -/
def PluginTable.push (t : PluginTable σ ω ο) (plugin : PluginObject σ ω ο) :
    Except Fault (PluginTable σ ω ο) :=
  match store t.plugins t.numPlugins plugin with
  | none => .error .outOfBounds
  | some plugins => .ok ⟨plugins, t.numPlugins + 1⟩

/-- The body of the loop. -/
def loadNext (l : Linker τ σ ω ο) (s : PluginTable σ ω ο × τ) (pch : List Byte) :
    Except Fault (PluginTable σ ω ο × τ) :=
  match pluginLoad l pch s.2 with
  | .error f => .error f
  | .ok (none, world) => .ok (s.1, world)
  | .ok (some plugin, world) => (s.1.push plugin).map fun t => (t, world)

/-- `plugins_load_string`. -/
def pluginsLoadString (l : Linker τ σ ω ο) (t : PluginTable σ ω ο) (plugins : Option Buffer)
    (world : τ) : Except Fault (PluginTable σ ω ο × τ) :=
  match plugins with
  | none => .ok (t, world)
  | some plugins =>
      match plugins.memory with
      | none => .error .nullPointer
      | some m =>
          strtokLoop (· == COMMA) (loadNext l) ((cString m).length + 1) (cString m) (t, world)

/-- What `main` does for the argument of `-p`. -/
def loadPlugins (l : Linker τ σ ω ο) (pluginList : Option Argument) (world : τ) :
    Except Fault (PluginTable σ ω ο × τ) :=
  match pluginList with
  | none => pluginsLoadString l .init none world
  | some optarg =>
      match bufferInitString (some (optarg.val ++ [NUL])) with
      | .error f => .error f
      | .ok plugins => pluginsLoadString l .init (some plugins) world

/-! ### Loading one plugin -/

theorem foldlM_appendNext {b : Buffer} {xs : List Byte} (h : b.Holds xs) {ss : List (List Byte)}
    (hss : ∀ s ∈ ss, NUL ∉ s) :
    ∃ b', ss.foldlM appendNext b = .ok b' ∧ b'.Holds (xs ++ ss.flatten) := by
  induction ss generalizing b xs with
  | nil => exact ⟨b, rfl, by rwa [List.flatten_nil, List.append_nil]⟩
  | cons s ss ih =>
      obtain ⟨hs, hss⟩ := List.forall_mem_cons.mp hss
      obtain ⟨b₁, happend, h₁⟩ := bufferAppendString_spec h hs []
      obtain ⟨b', hfold, h'⟩ := ih h₁ hss
      refine ⟨b', ?_, by rwa [List.flatten_cons, ← List.append_assoc]⟩
      rw [List.foldlM_cons, appendNext, happend]
      exact hfold

theorem joinStrings_eq {s : List Byte} {ss : List (List Byte)} (hs : NUL ∉ s)
    (hss : ∀ s ∈ ss, NUL ∉ s) (hne : s ++ ss.flatten ≠ []) :
    joinStrings s ss = .ok (s ++ ss.flatten) := by
  obtain ⟨b, hinit, hb⟩ := bufferInitString_spec hs []
  obtain ⟨b', hfold, hb'⟩ := foldlM_appendNext hb hss
  have hnul : NUL ∉ s ++ ss.flatten := by
    rw [List.mem_append, List.mem_flatten, not_or]
    refine ⟨hs, ?_⟩
    rintro ⟨t, ht, hmem⟩
    exact hss t ht hmem
  obtain ⟨m, hm, hread⟩ := hb'.cString_memory (hb'.len_ne_zero hne) hnul
  simp only [joinStrings, hinit, hfold, hm, hread, bind, Except.bind]

/-- What `plugin_load` looks for and returns. -/
def Linker.load (l : Linker τ σ ω ο) (name : List Byte) (world : τ) :
    Option (PluginObject σ ω ο) × τ :=
  match l.dlopen (l.moduleDir.val ++ ascii "/mod_" ++ name ++ ascii ".so") world with
  | (none, world) => (none, world)
  | (some handle, world) =>
      match l.dlsym handle (ascii "webcontrol_mod_" ++ name ++ ascii "_plugin_init") world with
      | none => (none, l.dlclose handle world)
      | some initFunc =>
          let r := initFunc (.blank handle) world
          (some r.1, r.2)

theorem pluginFilename_eq (moduleDir : Argument) {name : List Byte} (hname : NUL ∉ name) :
    pluginFilename moduleDir name
      = .ok (moduleDir.val ++ ascii "/mod_" ++ name ++ ascii ".so") := by
  have hparts : ∀ s ∈ [ascii "/mod_", name, ascii ".so"], NUL ∉ s := by
    simp only [List.forall_mem_cons, hname]
    decide
  have hne : moduleDir.val ++ [ascii "/mod_", name, ascii ".so"].flatten ≠ [] := by
    simp [ascii]
  rw [pluginFilename, joinStrings_eq moduleDir.property hparts hne]
  simp

theorem pluginSymbolname_eq {name : List Byte} (hname : NUL ∉ name) :
    pluginSymbolname name = .ok (ascii "webcontrol_mod_" ++ name ++ ascii "_plugin_init") := by
  have hparts : ∀ s ∈ [name, ascii "_plugin_init"], NUL ∉ s := by
    simp only [List.forall_mem_cons, hname]
    decide
  have hne : ascii "webcontrol_mod_" ++ [name, ascii "_plugin_init"].flatten ≠ [] := by
    simp [ascii]
  rw [pluginSymbolname, joinStrings_eq (by decide) hparts hne]
  simp

/-- The buffers hold the names they should, and no fault occurs. -/
theorem pluginLoad_eq (l : Linker τ σ ω ο) {name : List Byte} (hname : NUL ∉ name) (world : τ) :
    pluginLoad l name world = .ok (l.load name world) := by
  simp only [pluginLoad, pluginFilename_eq l.moduleDir hname, pluginSymbolname_eq hname,
    Linker.load]
  rcases l.dlopen (l.moduleDir.val ++ ascii "/mod_" ++ name ++ ascii ".so") world with
    ⟨- | handle, world'⟩
  · rfl
  · simp only
    cases l.dlsym handle (ascii "webcontrol_mod_" ++ name ++ ascii "_plugin_init") world' with
    | none => rfl
    | some initFunc => rfl

/-! ### Loading all of them -/

/-- What comes of loading each of the names, one after the other. -/
def outcomes (l : Linker τ σ ω ο) : List (List Byte) → τ → List (Option (PluginObject σ ω ο))
  | [], _ => []
  | name :: names, world => (l.load name world).1 :: outcomes l names (l.load name world).2

/-- The plugins that could be loaded. -/
def loaded (l : Linker τ σ ω ο) (names : List (List Byte)) (world : τ) :
    List (PluginObject σ ω ο) :=
  (outcomes l names world).reduceOption

/-- The process after that. -/
def worldAfter (l : Linker τ σ ω ο) (names : List (List Byte)) (world : τ) : τ :=
  names.foldl (fun world name => (l.load name world).2) world

/-- The array of `n` slots with some plugins in it. -/
def tableOf (n : ℕ) (ps : List (PluginObject σ ω ο)) : PluginTable σ ω ο := ⟨filled n ps, ps.length⟩

theorem push_tableOf {n : ℕ} {ps : List (PluginObject σ ω ο)} (h : ps.length < n)
    (plugin : PluginObject σ ω ο) :
    (tableOf n ps).push plugin = .ok (tableOf n (ps ++ [plugin])) := by
  simp only [PluginTable.push, tableOf, store_filled h, List.length_append, List.length_singleton]

theorem push_tableOf_full {n : ℕ} {ps : List (PluginObject σ ω ο)} (h : ps.length = n)
    (plugin : PluginObject σ ω ο) : (tableOf n ps).push plugin = .error .outOfBounds := by
  simp only [PluginTable.push, tableOf, store_filled_full h]

theorem loaded_cons {l : Linker τ σ ω ο} {name : List Byte} {world world' : τ}
    {r : Option (PluginObject σ ω ο)} (h : l.load name world = (r, world'))
    (names : List (List Byte)) :
    loaded l (name :: names) world = r.toList ++ loaded l names world' := by
  rw [loaded, outcomes, h]
  cases r with
  | none => exact List.reduceOption_cons_of_none _
  | some plugin => exact List.reduceOption_cons_of_some plugin _

theorem worldAfter_cons {l : Linker τ σ ω ο} {name : List Byte} {world world' : τ}
    {r : Option (PluginObject σ ω ο)} (h : l.load name world = (r, world'))
    (names : List (List Byte)) :
    worldAfter l (name :: names) world = worldAfter l names world' := by
  rw [worldAfter, List.foldl_cons, h]
  rfl

/-- **The loop** stores what it loads, behind what is there already, until the array is
full. -/
theorem foldlM_loadNext (l : Linker τ σ ω ο) {n : ℕ} {names : List (List Byte)}
    (hnames : ∀ name ∈ names, NUL ∉ name) {ps : List (PluginObject σ ω ο)} (hps : ps.length ≤ n)
    (world : τ) :
    names.foldlM (loadNext l) (tableOf n ps, world)
      = if ps.length + (loaded l names world).length ≤ n then
          .ok (tableOf n (ps ++ loaded l names world), worldAfter l names world)
        else .error .outOfBounds := by
  induction names generalizing ps world with
  | nil =>
      have hfit : ps.length + (loaded l [] world).length ≤ n := hps
      have happend : ps ++ loaded l [] world = ps := List.append_nil ps
      rw [if_pos hfit, happend]
      rfl
  | cons name names ih =>
      obtain ⟨hname, hnames⟩ := List.forall_mem_cons.mp hnames
      rw [List.foldlM_cons, loadNext, pluginLoad_eq l hname]
      rcases hload : l.load name world with ⟨- | plugin, world'⟩
      · rw [loaded_cons hload, worldAfter_cons hload]
        exact ih hnames hps world'
      · rw [loaded_cons hload, worldAfter_cons hload, Option.toList_some, ← List.append_assoc,
          List.length_append, ← Nat.add_assoc, ← List.length_append]
        rcases Nat.lt_or_ge ps.length n with hroom | hfull
        · have hmore : (ps ++ [plugin]).length ≤ n := by
            rw [List.length_append, List.length_singleton]
            exact hroom
          rw [← ih hnames hmore world']
          simp only [push_tableOf hroom]
          rfl
        · -- this one is stored behind the array
          have hmany : ¬ (ps ++ [plugin]).length + (loaded l names world').length ≤ n := by
            rw [List.length_append, List.length_singleton]
            omega
          rw [if_neg hmany]
          simp only [push_tableOf_full (Nat.le_antisymm hps hfull)]
          rfl

/-! ### The argument of `-p` -/

/-- The names between the commas, without the empty ones. -/
def pluginNames (optarg : Argument) : List (List Byte) :=
  (optarg.val.splitOn COMMA).filter (· ≠ [])

theorem bufferInitString_len {m : List Byte} {b : Buffer} (h : bufferInitString (some m) = .ok b) :
    b.len ≠ 0 := by
  obtain ⟨r, hcopy, hr⟩ := of_bind_eq_ok h
  obtain ⟨n, -, hcopy⟩ := of_bind_eq_ok hcopy
  obtain ⟨src, -, hcopy⟩ := of_bind_eq_ok hcopy
  obtain ⟨ptr, -, hcopy⟩ := of_bind_eq_ok hcopy
  cases hcopy
  cases hr
  exact Nat.succ_ne_zero n

/-- Start-up loads as many plugins as there are slots, and no more. -/
theorem loadPlugins_eq (l : Linker τ σ ω ο) (optarg : Argument) (world : τ) :
    loadPlugins l (some optarg) world
      = if (loaded l (pluginNames optarg) world).length ≤ pluginSlots then
          .ok (tableOf pluginSlots (loaded l (pluginNames optarg) world),
            worldAfter l (pluginNames optarg) world)
        else .error .outOfBounds := by
  obtain ⟨b, hinit, hb⟩ := bufferInitString_spec optarg.property []
  obtain ⟨m, hm, hread⟩ := hb.cString_memory (bufferInitString_len hinit) optarg.property
  have hnames : ∀ name ∈ pluginNames optarg, NUL ∉ name := by
    intro name hname hnul
    have htoken : name ∈ tokens (· == COMMA) optarg.val := hname
    exact optarg.property (mem_of_mem_tokens htoken hnul)
  have hnone : ([] : List (PluginObject σ ω ο)).length ≤ pluginSlots := Nat.zero_le _
  have hloop := foldlM_loadNext l hnames hnone world
  rw [List.length_nil, Nat.zero_add, List.nil_append] at hloop
  simp only [loadPlugins, hinit, pluginsLoadString, hm, hread,
    strtokLoop_eq (loadNext l) (Nat.lt_succ_self _)]
  exact hloop

/-- The plugins that could be loaded are in the array in the order of their names, and every
store was into one of the slots. -/
def LoadsInOrder (l : Linker τ σ ω ο) (optarg : Argument) (world : τ) : Prop :=
  ∃ t world', loadPlugins l (some optarg) world = .ok (t, world') ∧
    t.plugins.length = pluginSlots ∧ t.numPlugins ≤ pluginSlots ∧
    t.plugins.take t.numPlugins = (loaded l (pluginNames optarg) world).map some

/-- **Plugins are loaded in order, into the array, if and only if at most 120 of those named
can be loaded.** -/
theorem loadsInOrder_iff (l : Linker τ σ ω ο) (optarg : Argument) (world : τ) :
    LoadsInOrder l optarg world ↔ (loaded l (pluginNames optarg) world).length ≤ 120 := by
  rw [← pluginSlots_eq, LoadsInOrder, loadPlugins_eq]
  constructor
  · rintro ⟨t, world', ht, -, -, -⟩
    by_contra hmany
    rw [if_neg hmany] at ht
    cases ht
  · intro hfew
    rw [if_pos hfew]
    exact ⟨_, _, rfl, length_filled hfew, hfew, take_filled _ _⟩

theorem length_loaded {l : Linker τ σ ω ο} (h : ∀ name world, (l.load name world).1.isSome = true)
    (names : List (List Byte)) (world : τ) : (loaded l names world).length = names.length := by
  induction names generalizing world with
  | nil => rfl
  | cons name names ih =>
      obtain ⟨plugin, hplugin⟩ := Option.isSome_iff_exists.mp (h name world)
      rw [loaded, outcomes, hplugin, List.reduceOption_cons_of_some, List.length_cons,
        List.length_cons]
      exact congrArg (· + 1) (ih _)

/-- A name 121 times. -/
def manyPlugins : Argument :=
  ⟨[COMMA].intercalate (List.replicate 121 (ascii "txtfile")), by decide +kernel⟩

/-- A linker that always finds the plugin. -/
def txtfileLinker : Linker Unit Unit Unit Unit where
  moduleDir := ⟨ascii "/usr/lib/webcontrol", by decide⟩
  dlopen _ world := (some 0, world)
  dlsym _ _ _ := some fun plugin world => (plugin, world)
  dlclose _ world := world

/-- The last of 121 plugins is stored behind the array. -/
theorem manyPlugins_not_loadsInOrder :
    loadPlugins txtfileLinker (some manyPlugins) () = .error .outOfBounds ∧
      ¬ LoadsInOrder txtfileLinker manyPlugins () := by
  have hnames : pluginNames manyPlugins = List.replicate 121 (ascii "txtfile") := by
    have hcomma : ∀ name ∈ List.replicate 121 (ascii "txtfile"), COMMA ∉ name := by
      intro name hname
      rw [List.eq_of_mem_replicate hname]
      decide
    have hne : List.replicate 121 (ascii "txtfile") ≠ [] := List.cons_ne_nil _ _
    rw [pluginNames, manyPlugins, List.splitOn_intercalate COMMA hcomma hne,
      List.filter_replicate_of_pos (by decide)]
  have hlen : ¬ (loaded txtfileLinker (pluginNames manyPlugins) ()).length ≤ pluginSlots := by
    rw [length_loaded (fun _ _ => rfl), hnames, List.length_replicate, pluginSlots_eq]
    omega
  have hfault := loadPlugins_eq txtfileLinker manyPlugins ()
  rw [if_neg hlen] at hfault
  refine ⟨hfault, ?_⟩
  rintro ⟨t, world', ht, -⟩
  rw [hfault] at ht
  cases ht

end Plugins

end SquidHelper
