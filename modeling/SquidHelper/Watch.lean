/-
SquidHelper/Watch.lean

Which file the rule table follows.  `plugin_init` puts a watcher on the default file
name; only afterwards `cfg_parse` replaces the name by the configured one, which is the
file `parse_file` reads.

Paths lead to files by a map `locate`, so that two names of one file are told apart
from two files.  The table follows the configured file in all runs if and only if that
file is the one with the default name (`follows_iff`).
-/
import SquidHelper.Lib.Guarded
import SquidHelper.TxtFile

namespace SquidHelper

namespace Watch

open CString

variable {ι : Type} [DecidableEq ι]

def WEBCONTROL_TXTFILE_DEFAULT_FILENAME : List Byte := ascii "webcontrol_hosts.txt"

/-! ### The plugin and the file system -/

/-- The contents of the files that can be opened. -/
abbrev FileSystem (ι : Type) := ι → Option (List Byte)

structure State (ι : Type) where
  files : FileSystem ι
  pd : PluginData
  /-- The path passed to `ev_stat_init`. -/
  statPath : List Byte
  /-- The watcher has seen a change and its callback has not been invoked since. -/
  changed : Bool
  /-- The lines printed on standard output. -/
  printed : List (List Byte)

inductive Action (ι : Type)
  /-- A file is written, created or removed. -/
  | modify (file : ι) (contents : Option (List Byte))
  /-- The event loop invokes `file_change_cb`. -/
  | deliver

/-- `webcontrol_mod_txtfile_plugin_init`. -/
def pluginInit (files : FileSystem ι) : State ι :=
  let pd : PluginData := ⟨WEBCONTROL_TXTFILE_DEFAULT_FILENAME, []⟩
  ⟨files, pd, pd.filename, false, []⟩

/-- What `cfg_parse` does to the plugin: a configured value replaces the string behind
`CFG_SIMPLE_STR("file", &pd->filename)`. -/
def cfgParse (configured : Option (List Byte)) (s : State ι) : State ι :=
  { s with pd := { s.pd with filename := configured.getD s.pd.filename } }

/-- `parse_file` on the plugin's data. -/
def runParseFile (b : Build) (pton : InetPton) (locate : List Byte → ι) (s : State ι) :
    Except Fault (State ι) := do
  let r ← parseFile b pton s.pd (s.files (locate s.pd.filename))
  return { s with pd := r.1, printed := s.printed ++ r.2 }

/-- Start-up: `plugins_load_string`, then `init_config`, whose last part is the
`config_file_parsed` hook. -/
def startUp (b : Build) (pton : InetPton) (locate : List Byte → ι)
    (configured : Option (List Byte)) (files : FileSystem ι) : Except Fault (State ι) :=
  runParseFile b pton locate (cfgParse configured (pluginInit files))

/-- A fault in `parse_file` ends the process, so that no state follows. -/
def step (b : Build) (pton : InetPton) (locate : List Byte → ι) (s : State ι) :
    Action ι → Option (State ι)
  | .modify file contents =>
      some { s with files := Function.update s.files file contents,
                    changed := s.changed || file == locate s.statPath }
  | .deliver =>
      if s.changed = true then (runParseFile b pton locate { s with changed := false }).toOption
      else none

def watch (b : Build) (pton : InetPton) (locate : List Byte → ι) :
    Guarded (State ι) (Action ι) := ⟨step b pton locate⟩

/-- The table is what `parse_file` makes of the file with the plugin's name for it, if
that file can be read and nothing the watcher has seen is undelivered. -/
def Follows (b : Build) (pton : InetPton) (locate : List Byte → ι) (s : State ι) : Prop :=
  ∀ file chain, s.files (locate s.pd.filename) = some file → s.changed = false →
    parseContents b pton file = .ok chain → s.pd.entryChain = chain

/-! ### Where the watcher is in the right place -/

variable {b : Build} {pton : InetPton} {locate : List Byte → ι}

omit [DecidableEq ι] in
theorem runParseFile_spec {s s' : State ι} (h : runParseFile b pton locate s = .ok s') :
    s'.files = s.files ∧ s'.statPath = s.statPath ∧ s'.changed = s.changed ∧
      s'.pd.filename = s.pd.filename ∧
      ∀ file, s.files (locate s.pd.filename) = some file →
        parseContents b pton file = .ok s'.pd.entryChain := by
  rcases hr : parseFile b pton s.pd (s.files (locate s.pd.filename)) with e | r
  · simp [runParseFile, hr, bind, Except.bind] at h
  · simp only [runParseFile, hr, bind, Except.bind, pure, Except.pure, Except.ok.injEq] at h
    subst h
    cases hfile : s.files (locate s.pd.filename) with
    | none =>
        rw [hfile] at hr
        cases hr
        exact ⟨rfl, rfl, rfl, rfl, nofun⟩
    | some file =>
        rw [hfile, parseFile_some] at hr
        rcases hparse : parseContents b pton file with e | chain
        · rw [hparse] at hr
          cases hr
        · rw [hparse] at hr
          cases hr
          refine ⟨rfl, rfl, rfl, rfl, ?_⟩
          rintro file' ⟨⟩
          exact hparse

/-- The watcher and `parse_file` look at the same file, and the table follows it. -/
structure WatchInv (b : Build) (pton : InetPton) (locate : List Byte → ι) (s : State ι) :
    Prop where
  same : locate s.statPath = locate s.pd.filename
  follows : Follows b pton locate s

omit [DecidableEq ι] in
theorem WatchInv.of_parse {s s' : State ι} (h : runParseFile b pton locate s = .ok s')
    (hsame : locate s.statPath = locate s.pd.filename) : WatchInv b pton locate s' := by
  obtain ⟨hfiles, hstat, -, hname, hparse⟩ := runParseFile_spec h
  refine ⟨by rw [hstat, hname, hsame], ?_⟩
  intro file chain hfile _ hchain
  rw [hfiles, hname] at hfile
  rw [hparse file hfile] at hchain
  exact Except.ok.inj hchain

theorem WatchInv.step {s s' : State ι} {a : Action ι} (h : WatchInv b pton locate s)
    (hs : (watch b pton locate).step s a = some s') : WatchInv b pton locate s' := by
  change Watch.step b pton locate s a = some s' at hs
  cases a with
  | modify file contents =>
      cases hs
      refine ⟨h.same, ?_⟩
      intro file' chain hfile hchanged hchain
      simp only [Bool.or_eq_false_iff, beq_eq_false_iff_ne] at hchanged
      -- another file than the one that is parsed, since that one is watched
      have hne : locate s.pd.filename ≠ file := h.same ▸ hchanged.2.symm
      simp only [Function.update_of_ne hne] at hfile
      exact h.follows file' chain hfile hchanged.1 hchain
  | deliver =>
      obtain ⟨-, hs⟩ := Option.ite_none_right_eq_some.mp hs
      rcases hr : runParseFile b pton locate { s with changed := false } with e | s₁
      · rw [hr] at hs
        cases hs
      · rw [hr] at hs
        cases hs
        exact .of_parse hr h.same

omit [DecidableEq ι] in
theorem startUp_same {configured : Option (List Byte)} {files : FileSystem ι} {s : State ι}
    (h : startUp b pton locate configured files = .ok s) :
    s.files = files ∧ s.statPath = WEBCONTROL_TXTFILE_DEFAULT_FILENAME ∧ s.changed = false ∧
      s.pd.filename = configured.getD WEBCONTROL_TXTFILE_DEFAULT_FILENAME := by
  obtain ⟨hfiles, hstat, hchanged, hname, -⟩ := runParseFile_spec h
  exact ⟨hfiles, hstat, hchanged, hname⟩

/-! ### Where it is not -/

/-- A line that allows `addr`. -/
def allowLine (addr : List Byte) : HostsLine := .entry 0 addr (ascii "ALLOW") .lf

/-- The file that consists of that line. -/
def allowOnly {addr : List Byte} {a : Address} (ha : resolve b pton addr = some a)
    (hlen : addr.length ≤ 45) : HostsFile b pton where
  lines := [allowLine addr]
  valid l hl := by
    obtain rfl := List.mem_singleton.mp hl
    refine ⟨?_, ⟨a, ha⟩, by decide, by decide, by decide, by decide⟩
    have hbytes : (allowLine addr).bytes.length = addr.length + 7 := by
      simp [allowLine, HostsLine.bytes, LineEnd.bytes, ascii]
    rw [hbytes, LINE_MAX]
    omega
  terminated := by simp

theorem allowOnly_chain {addr : List Byte} {a : Address} (ha : resolve b pton addr = some a)
    (hlen : addr.length ≤ 45) : (allowOnly ha hlen).chain = [⟨a, .allow⟩] := by
  have hflag : wordFlag (ascii "ALLOW") = .allow := by decide
  simp [HostsFile.chain, allowOnly, allowLine, HostsLine.toEntry, HostsLine.rule, ha, hflag]

/-- The configured file is edited after start-up, and the watcher looks elsewhere. -/
theorem not_follows {configured : Option (List Byte)} {addr : List Byte} {a : Address}
    (ha : resolve b pton addr = some a) (hlen : addr.length ≤ 45)
    (hne : locate (configured.getD WEBCONTROL_TXTFILE_DEFAULT_FILENAME)
      ≠ locate WEBCONTROL_TXTFILE_DEFAULT_FILENAME) :
    ∃ files s₀ s, startUp b pton locate configured files = .ok s₀ ∧
      (watch b pton locate).Reaches s₀ s ∧ ¬ Follows b pton locate s := by
  have hstart : ∃ s₀, startUp b pton locate configured (fun _ => some []) = .ok s₀ ∧
      s₀.pd.entryChain = [] := ⟨_, rfl, rfl⟩
  obtain ⟨s₀, hs₀, hchain₀⟩ := hstart
  obtain ⟨-, hstat, hchanged, hname⟩ := startUp_same hs₀
  have hedit : (watch b pton locate).step s₀ (.modify (locate s₀.pd.filename)
      (some (allowOnly ha hlen).bytes)) = some _ := rfl
  refine ⟨_, s₀, _, hs₀, .single hedit, ?_⟩
  intro hfollows
  -- the watcher does not see the edit
  have hlook : (locate s₀.pd.filename == locate s₀.statPath) = false := by
    rw [hstat, hname, beq_eq_false_iff_ne]
    exact hne
  have hstale := hfollows (allowOnly ha hlen).bytes (allowOnly ha hlen).chain
    (Function.update_self ..) (by simp only [hchanged, hlook, Bool.or_self])
    (allowOnly ha hlen).parseContents
  rw [hchain₀, allowOnly_chain] at hstale
  cases hstale

/-- **The rule table follows the configured file, in every run, if and only if that is
the file with the default name.** -/
theorem follows_iff {addr : List Byte} {a : Address} (ha : resolve b pton addr = some a)
    (hlen : addr.length ≤ 45) (configured : Option (List Byte)) :
    (∀ files s₀ s, startUp b pton locate configured files = .ok s₀ →
      (watch b pton locate).Reaches s₀ s → Follows b pton locate s) ↔
    locate (configured.getD WEBCONTROL_TXTFILE_DEFAULT_FILENAME)
      = locate WEBCONTROL_TXTFILE_DEFAULT_FILENAME := by
  constructor
  · intro hall
    by_contra hne
    obtain ⟨files, s₀, s, hs₀, hr, hnot⟩ := not_follows ha hlen hne
    exact hnot (hall files s₀ s hs₀ hr)
  · intro hsame files s₀ s hs₀ hr
    have hinv := hr.invariant (fun _ _ _ hs hstep => hs.step hstep)
      (WatchInv.of_parse hs₀ hsame.symm)
    exact hinv.follows

/-- An address that `ipv4Only` accepts. -/
theorem resolve_sample :
    resolve ⟨false⟩ ipv4Only (ascii "10.0.0.1") = some (.inet #v[10, 0, 0, 1]) := by decide

/-- Without a configured name the table follows the file, and with another name it does not. -/
theorem follows_default :
    (∀ files s₀ s, startUp ⟨false⟩ ipv4Only id none files = .ok s₀ →
      (watch ⟨false⟩ ipv4Only id).Reaches s₀ s → Follows ⟨false⟩ ipv4Only id s) ∧
    ¬ ∀ files s₀ s, startUp ⟨false⟩ ipv4Only id (some (ascii "hosts.txt")) files = .ok s₀ →
      (watch ⟨false⟩ ipv4Only id).Reaches s₀ s → Follows ⟨false⟩ ipv4Only id s := by
  refine ⟨(follows_iff resolve_sample (by decide) none).mpr rfl, ?_⟩
  intro hall
  have hsame := (follows_iff resolve_sample (by decide) (some (ascii "hosts.txt"))).mp hall
  exact absurd hsame (by decide)

/-- With another name it does not: an edit of the configured file goes unseen. -/
theorem not_follows_configured :
    ¬ ∀ files s₀ s, startUp ⟨false⟩ ipv4Only id (some (ascii "/etc/squid/hosts.txt")) files
        = .ok s₀ →
      (watch ⟨false⟩ ipv4Only id).Reaches s₀ s → Follows ⟨false⟩ ipv4Only id s := by
  intro hall
  have hstale : ∃ files s₀ s,
      startUp ⟨false⟩ ipv4Only id (some (ascii "/etc/squid/hosts.txt")) files = .ok s₀ ∧
      (watch ⟨false⟩ ipv4Only id).Reaches s₀ s ∧ ¬ Follows ⟨false⟩ ipv4Only id s :=
    not_follows resolve_sample (by decide) (by decide)
  obtain ⟨files, s₀, s, hs₀, hr, hnot⟩ := hstale
  exact hnot (hall files s₀ s hs₀ hr)

end Watch

end SquidHelper
