/-
SquidHelper/OptionTable.lean

The table of options that `init_config` of `src/core/main.c` builds for libconfuse: the core
options, a section for each plugin that has options and a name, and `CFG_END`.

The table grows when `num_slots == num_opts+1`, and not when it is less.  That is enough:
there are free slots at the beginning, and a round adds one option at most, so `num_opts+1`
cannot get past `num_slots`.  `Holds` keeps the one slot that `CFG_END` needs.
-/
import SquidHelper.Plugins

namespace SquidHelper

namespace OptionTable

open CString Slots Config Plugins

variable {τ σ ω ο : Type*}

def CONFIG_SLOTS_BLOCKSIZE : ℕ := 32

def CFGF_NONE : ℕ := 0

/-- The variables behind the core options. -/
inductive Variable
  | logfile | loglevel | defaultBehavior
  deriving DecidableEq, Repr

/-- `cfg_opt_t`, by the macro that makes it. -/
inductive CfgOpt (ο : Type*)
  | simpleStr (name : List Byte) (value : Variable)
  | simpleInt (name : List Byte) (value : Variable)
  | sec (name : Argument) (opts : ο) (flags : ℕ)
  | cfgEnd

/-- `webcontrol->opts`, `num_opts` and `num_slots`. -/
structure Table (ο : Type*) where
  opts : List (Option (CfgOpt ο))
  numOpts : ℕ
  numSlots : ℕ

def Table.init : Table ο := ⟨fresh CONFIG_SLOTS_BLOCKSIZE, 0, CONFIG_SLOTS_BLOCKSIZE⟩

/-- `webcontrol->opts[num_opts++] = opt`. -/
def Table.add (t : Table ο) (opt : CfgOpt ο) : Except Fault (Table ο) :=
  match store t.opts t.numOpts opt with
  | none => .error .outOfBounds
  | some opts => .ok { t with opts := opts, numOpts := t.numOpts + 1 }

/-- One block more. -/
def Table.grow (t : Table ο) : Table ο :=
  { t with opts := resize t.opts (t.numSlots + CONFIG_SLOTS_BLOCKSIZE),
           numSlots := t.numSlots + CONFIG_SLOTS_BLOCKSIZE }

/-- The body of the loop over the plugins. -/
def addPlugin (t : Table ο) (plugin : PluginObject σ ω ο) : Except Fault (Table ο) :=
  match plugin.options, plugin.name with
  | some options, some name =>
      (if t.numSlots = t.numOpts + 1 then t.grow else t).add (.sec name options CFGF_NONE)
  | _, _ => .ok t

/-- The core options. -/
def addCore (t : Table ο) : Except Fault (Table ο) := do
  let t ← t.add (.simpleStr (ascii "logfile") .logfile)
  let t ← t.add (.simpleInt (ascii "loglevel") .loglevel)
  t.add (.simpleStr (ascii "default_behavior") .defaultBehavior)

/-- The loop for `i`. -/
def addPluginAt (plugins : PluginTable σ ω ο) (t : Table ο) (i : ℕ) : Except Fault (Table ο) :=
  match plugins.plugins[i]? with
  | none => .error .outOfBounds
  | some none => .error .nullPointer
  | some (some plugin) => addPlugin t plugin

/-- The table after `k` rounds of the loop. -/
def optionsAfter (plugins : PluginTable σ ω ο) (k : ℕ) : Except Fault (Table ο) := do
  let t ← addCore .init
  (List.range k).foldlM (addPluginAt plugins) t

/-- The table that is handed to `cfg_init`. -/
def configOptions (plugins : PluginTable σ ω ο) : Except Fault (Table ο) := do
  let t ← optionsAfter plugins plugins.numPlugins
  t.add .cfgEnd

/-! ### The purpose -/

def coreOptions : List (CfgOpt ο) :=
  [.simpleStr (ascii "logfile") .logfile, .simpleInt (ascii "loglevel") .loglevel,
    .simpleStr (ascii "default_behavior") .defaultBehavior]

/-- The section of a plugin, if it has one. -/
def pluginSection (plugin : PluginObject σ ω ο) : Option (CfgOpt ο) :=
  plugin.options.bind fun options => plugin.name.map fun name => .sec name options CFGF_NONE

/-- The options that `cfg_init` goes through, up to `CFG_END`; nothing if it gets to a slot that
was not written, or out of the table. -/
def readOptions : List (Option (CfgOpt ο)) → Option (List (CfgOpt ο))
  | some .cfgEnd :: _ => some []
  | some opt :: opts => (readOptions opts).map (opt :: ·)
  | _ => none

/-- The table has `entries` in it, and a slot is free. -/
structure Table.Holds (t : Table ο) (entries : List (CfgOpt ο)) : Prop where
  opts : t.opts = filled t.numSlots entries
  numOpts : t.numOpts = entries.length
  room : t.numOpts < t.numSlots

/-! ### Steps -/

variable {t : Table ο} {entries : List (CfgOpt ο)}

theorem holds_init : (Table.init : Table ο).Holds [] :=
  ⟨(filled_nil _).symm, rfl, Nat.zero_lt_succ 31⟩

theorem Table.Holds.length_opts (h : t.Holds entries) : t.opts.length = t.numSlots := by
  have hroom := h.room
  rw [h.numOpts] at hroom
  rw [h.opts]
  exact length_filled (Nat.le_of_lt hroom)

/-- The free slot is there for one more option. -/
theorem Table.Holds.add (h : t.Holds entries) (opt : CfgOpt ο) :
    t.add opt
      = .ok ⟨filled t.numSlots (entries ++ [opt]), (entries ++ [opt]).length, t.numSlots⟩ := by
  have hroom := h.room
  rw [h.numOpts] at hroom
  rw [Table.add, h.opts, h.numOpts, store_filled hroom, List.length_append, List.length_singleton]

/-- It is free again if there were two. -/
theorem Table.Holds.add_holds (h : t.Holds entries) (hroom : t.numOpts + 1 < t.numSlots)
    (opt : CfgOpt ο) : ∃ t', t.add opt = .ok t' ∧ t'.Holds (entries ++ [opt]) ∧
      t'.numOpts = t.numOpts + 1 ∧ t'.numSlots = t.numSlots := by
  have hlen : (entries ++ [opt]).length = t.numOpts + 1 := by
    rw [List.length_append, List.length_singleton, h.numOpts]
  exact ⟨_, h.add opt, ⟨rfl, rfl, by rw [hlen]; exact hroom⟩, hlen, rfl⟩

theorem Table.Holds.grow (h : t.Holds entries) : t.grow.Holds entries := by
  have hroom := h.room
  rw [h.numOpts] at hroom
  refine ⟨?_, h.numOpts, Nat.lt_add_right _ h.room⟩
  rw [Table.grow, h.opts, resize_filled (Nat.le_of_lt hroom) (Nat.le_add_right _ _)]

/-- **One round**: the test for equality is enough, as a slot was free before. -/
theorem addPlugin_holds (h : t.Holds entries) (plugin : PluginObject σ ω ο) :
    ∃ t', addPlugin t plugin = .ok t' ∧ t'.Holds (entries ++ (pluginSection plugin).toList) := by
  obtain ⟨name, lib, options, configFileParsed, hooks⟩ := plugin
  cases options with
  | none => exact ⟨t, rfl, by simpa [pluginSection] using h⟩
  | some options =>
      cases name with
      | none => exact ⟨t, rfl, by simpa [pluginSection] using h⟩
      | some name =>
          simp only [addPlugin]
          by_cases hfull : t.numSlots = t.numOpts + 1
          · rw [if_pos hfull]
            have hroom : t.grow.numOpts + 1 < t.grow.numSlots := by
              show t.numOpts + 1 < t.numSlots + CONFIG_SLOTS_BLOCKSIZE
              rw [hfull, CONFIG_SLOTS_BLOCKSIZE]
              omega
            obtain ⟨t', hadd, ht', -⟩ := h.grow.add_holds hroom (.sec name options CFGF_NONE)
            exact ⟨t', hadd, ht'⟩
          · rw [if_neg hfull]
            have hroom := h.room
            obtain ⟨t', hadd, ht', -⟩ := h.add_holds (by omega) (.sec name options CFGF_NONE)
            exact ⟨t', hadd, ht'⟩

/-! ### The whole of it -/

theorem addCore_holds :
    ∃ t : Table ο, addCore .init = .ok t ∧ t.Holds coreOptions := by
  obtain ⟨t₁, hadd₁, h₁, hnum₁, hslots₁⟩ := (@holds_init ο).add_holds
    (show 0 + 1 < 32 by omega) (.simpleStr (ascii "logfile") .logfile)
  obtain ⟨t₂, hadd₂, h₂, hnum₂, hslots₂⟩ := h₁.add_holds
    (by rw [hnum₁, hslots₁]; exact (show 0 + 1 + 1 < 32 by omega))
    (.simpleInt (ascii "loglevel") .loglevel)
  obtain ⟨t₃, hadd₃, h₃, -, -⟩ := h₂.add_holds
    (by rw [hnum₂, hslots₂, hnum₁, hslots₁]; exact (show 0 + 1 + 1 + 1 < 32 by omega))
    (.simpleStr (ascii "default_behavior") .defaultBehavior)
  refine ⟨t₃, ?_, h₃⟩
  simp only [addCore, hadd₁, hadd₂, bind, Except.bind]
  exact hadd₃

theorem optionsAfter_succ (plugins : PluginTable σ ω ο) (k : ℕ) :
    optionsAfter plugins (k + 1) = optionsAfter plugins k >>= fun t => addPluginAt plugins t k := by
  simp only [optionsAfter, List.range_succ, List.foldlM_append, List.foldlM_cons,
    List.foldlM_nil, bind_assoc, bind_pure]

theorem addPluginAt_tableOf {n k : ℕ} {ps : List (PluginObject σ ω ο)} (hk : k < ps.length)
    (t : Table ο) : addPluginAt (tableOf n ps) t k = addPlugin t ps[k] := by
  simp only [addPluginAt, tableOf, getElem?_filled hk]

/-- **After each round** the table has the core options and the sections so far. -/
theorem optionsAfter_holds (n : ℕ) {k : ℕ} {ps : List (PluginObject σ ω ο)} (hk : k ≤ ps.length) :
    ∃ t, optionsAfter (tableOf n ps) k = .ok t ∧
      t.Holds (coreOptions ++ (ps.take k).filterMap pluginSection) := by
  induction k with
  | zero =>
      obtain ⟨t, hcore, ht⟩ := @addCore_holds ο
      refine ⟨t, by simp only [optionsAfter, hcore]; rfl, ?_⟩
      rwa [List.take_zero, List.filterMap_nil, List.append_nil]
  | succ k ih =>
      obtain ⟨t, hbefore, ht⟩ := ih (Nat.le_of_succ_le hk)
      obtain ⟨t', hround, ht'⟩ := addPlugin_holds ht ps[k]
      refine ⟨t', ?_, ?_⟩
      · rw [optionsAfter_succ, hbefore, ← hround, ← addPluginAt_tableOf hk t]
        rfl
      · have hsection : ([ps[k]] : List (PluginObject σ ω ο)).filterMap pluginSection
            = (pluginSection ps[k]).toList := by
          cases hs : pluginSection ps[k] <;> simp [hs]
        rw [List.take_add_one, List.getElem?_eq_getElem hk, List.filterMap_append,
          Option.toList_some, hsection, ← List.append_assoc]
        exact ht'

theorem readOptions_append {opts : List (CfgOpt ο)} (h : ∀ opt ∈ opts, opt ≠ .cfgEnd)
    (rest : List (Option (CfgOpt ο))) :
    readOptions (opts.map some ++ some .cfgEnd :: rest) = some opts := by
  induction opts with
  | nil => rfl
  | cons opt opts ih =>
      obtain ⟨hopt, hopts⟩ := List.forall_mem_cons.mp h
      rw [List.map_cons, List.cons_append, readOptions, ih hopts, Option.map_some]
      exact hopt

/-- `CFG_END` is the end of the table only. -/
theorem ne_cfgEnd {ps : List (PluginObject σ ω ο)} {opt : CfgOpt ο}
    (h : opt ∈ coreOptions ++ ps.filterMap pluginSection) : opt ≠ .cfgEnd := by
  rintro rfl
  rcases List.mem_append.mp h with hcore | hsection
  · simp [coreOptions] at hcore
  · obtain ⟨plugin, -, hplugin⟩ := List.mem_filterMap.mp hsection
    simp [pluginSection, Option.bind_eq_some_iff] at hplugin

/-- The table that `cfg_init` gets. -/
theorem configOptions_tableOf (n : ℕ) (ps : List (PluginObject σ ω ο)) :
    ∃ t, configOptions (tableOf n ps) = .ok t ∧ t.opts.length = t.numSlots ∧
      t.numOpts ≤ t.numSlots ∧
      t.opts.take t.numOpts
        = (coreOptions ++ ps.filterMap pluginSection ++ [CfgOpt.cfgEnd]).map some ∧
      readOptions t.opts = some (coreOptions ++ ps.filterMap pluginSection) := by
  obtain ⟨t, hafter, ht⟩ := optionsAfter_holds n (Nat.le_refl ps.length)
  rw [List.take_length] at ht
  have hfit : (coreOptions ++ ps.filterMap pluginSection ++ [CfgOpt.cfgEnd]).length
      ≤ t.numSlots := by
    have hroom := ht.room
    rw [ht.numOpts] at hroom
    rw [List.length_append, List.length_singleton]
    exact hroom
  have hconfig : configOptions (tableOf n ps) = t.add .cfgEnd := by
    show optionsAfter (tableOf n ps) ps.length >>= _ = _
    rw [hafter]
    rfl
  rw [ht.add] at hconfig
  refine ⟨_, hconfig, length_filled hfit, hfit, take_filled _ _, ?_⟩
  simp only [filled, List.map_append, List.map_cons, List.map_nil, List.append_assoc,
    List.singleton_append]
  rw [← List.append_assoc, ← List.map_append]
  exact readOptions_append (fun opt => ne_cfgEnd) _

/-- **The option table is complete, and every option is written into a slot it has**, for any
plugins, however many: a slot is free after each round, and so before each store; the
table is the core options, a section for each plugin with options and a name in the order
of loading, and `CFG_END`, where `cfg_init` stops. -/
theorem configOptions_complete (n : ℕ) (ps : List (PluginObject σ ω ο)) :
    (∀ k ≤ ps.length, ∃ t, optionsAfter (tableOf n ps) k = .ok t ∧
      t.numOpts < t.numSlots ∧ t.opts.length = t.numSlots) ∧
    ∃ t, configOptions (tableOf n ps) = .ok t ∧ t.opts.length = t.numSlots ∧
      t.numOpts ≤ t.numSlots ∧
      t.opts.take t.numOpts
        = (coreOptions ++ ps.filterMap pluginSection ++ [CfgOpt.cfgEnd]).map some ∧
      readOptions t.opts = some (coreOptions ++ ps.filterMap pluginSection) := by
  refine ⟨?_, configOptions_tableOf n ps⟩
  intro k hk
  obtain ⟨t, hafter, ht⟩ := optionsAfter_holds n hk
  exact ⟨t, hafter, ht.room, ht.length_opts⟩

/-- From the command line to libconfuse: a section for each plugin that was loaded. -/
theorem configOptions_loadPlugins {l : Linker τ σ ω ο} {optarg : Argument} {world world' : τ}
    {plugins : PluginTable σ ω ο} (h : loadPlugins l (some optarg) world = .ok (plugins, world')) :
    ∃ t, configOptions plugins = .ok t ∧
      readOptions t.opts = some (coreOptions ++
        (loaded l (pluginNames optarg) world).filterMap pluginSection) := by
  rw [loadPlugins_eq] at h
  split at h
  case isTrue hfew =>
    cases h
    obtain ⟨t, hconfig, -, -, -, hread⟩ := configOptions_tableOf pluginSlots
      (loaded l (pluginNames optarg) world)
    exact ⟨t, hconfig, hread⟩
  case isFalse hmany => cases h

end OptionTable

end SquidHelper
