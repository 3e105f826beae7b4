/-
SquidHelper/Config.lean

The command line of `src/core/main.c`: the loop over `getopt`, and what it leaves in the
variables of `main`.

`config_file` is an array, so `config_file == NULL` is never true and the default file name
is never put there.  Without a `-c` option nothing has been written to it when it is read.
-/
import SquidHelper.Buffer

namespace SquidHelper

namespace Config

open CString

/-- From `limits.h`. -/
def PATH_MAX : ℕ := 4096

def DEFAULT_CONFIG_FILE_NAME : List Byte := ascii "webcontrol.conf"

/-! ### The options -/

/-- A string of `argv`, or one that libconfuse has read. -/
abbrev Argument := {s : List Byte // NUL ∉ s}

/-- The options that do not end the program. -/
inductive Opt
  | c (optarg : Argument)
  | t (optarg : Argument)
  | p (optarg : Argument)
  deriving DecidableEq

/-- Undefined behaviour on the way. -/
inductive StartFault
  | uninitialised
  | memory (f : Fault)
  deriving DecidableEq, Repr

/-- The variables of `main` that the options set. -/
structure Options where
  configFile : List Cell
  numThreads : ℕ
  pluginList : Option Argument
  deriving DecidableEq

def Options.init : Options := ⟨List.replicate PATH_MAX none, 2, none⟩

/-- `strcpy(dest, src)`. -/
def strcpy (dest : List Cell) (src : List Byte) : Except StartFault (List Cell) :=
  if src.length < dest.length then
    .ok (src.map some ++ some NUL :: dest.drop (src.length + 1))
  else .error (.memory .outOfBounds)

/-- The string in an array. -/
def readString : List Cell → Except StartFault (List Byte)
  | [] => .error (.memory .outOfBounds)
  | none :: _ => .error .uninitialised
  | some c :: cells => if c = NUL then .ok [] else (readString cells).map (c :: ·)

/-- `sscanf(optarg, "%zu", &num_threads)`. -/
def scanThreads (numThreads : ℕ) (optarg : Argument) : ℕ :=
  match scanSize optarg.val with
  | none => numThreads
  | some (v, _) => v

/-- The body of the `getopt` loop. -/
def getopt (s : Options) : Opt → Except StartFault Options
  | .c optarg => (strcpy s.configFile optarg.val).map fun cells => { s with configFile := cells }
  | .t optarg => .ok { s with numThreads := scanThreads s.numThreads optarg }
  | .p optarg => .ok { s with pluginList := some optarg }

/-- The loop. -/
def parseOptions (s : Options) : List Opt → Except StartFault Options
  | [] => .ok s
  | opt :: opts => getopt s opt >>= fun s' => parseOptions s' opts

/-! ### What the command line asks for -/

/-- The arguments of `-c`. -/
def configArguments (opts : List Opt) : List Argument :=
  opts.filterMap fun opt => match opt with
    | .c optarg => some optarg
    | _ => none

/-- The file that the command line asks for. -/
def wantedPath (opts : List Opt) : List Byte :=
  match (configArguments opts).getLast? with
  | none => DEFAULT_CONFIG_FILE_NAME
  | some optarg => optarg.val

/-- The number of threads it asks for: that of the last `-t` with a number. -/
def wantedThreads (opts : List Opt) : ℕ :=
  ((opts.filterMap fun opt => match opt with
    | .t optarg => (scanSize optarg.val).map Prod.fst
    | _ => none).getLast?).getD 2

/-- The plugins it asks for. -/
def wantedPlugins (opts : List Opt) : Option Argument :=
  (opts.filterMap fun opt => match opt with
    | .p optarg => some optarg
    | _ => none).getLast?

/-! ### The loop -/

theorem of_map_eq_ok {ε α β : Type*} {x : Except ε α} {f : α → β} {r : β}
    (h : x.map f = .ok r) : ∃ a, x = .ok a ∧ f a = r := by
  cases x with
  | error e => cases h
  | ok a => exact ⟨a, rfl, Except.ok.inj h⟩

theorem bind_eq_ok_iff {ε α β : Type*} {x : Except ε α} {f : α → Except ε β} {r : β} :
    x.bind f = .ok r ↔ ∃ a, x = .ok a ∧ f a = .ok r := by
  cases x with
  | error e => simp [Except.bind]
  | ok a => simp [Except.bind]

theorem mapError_eq_ok_iff {ε δ α : Type*} {x : Except ε α} {f : ε → δ} {a : α} :
    x.mapError f = .ok a ↔ x = .ok a := by
  cases x <;> simp [Except.mapError]

theorem readString_map {s : List Byte} (hs : NUL ∉ s) (cells : List Cell) :
    readString (s.map some ++ some NUL :: cells) = .ok s := by
  induction s with
  | nil => rfl
  | cons c s ih =>
      rw [List.mem_cons, not_or] at hs
      rw [List.map_cons, List.cons_append, readString, if_neg (Ne.symm hs.1), ih hs.2]
      rfl

/-- After the options so far: the array holds the last argument of `-c`, and nothing as long as
there is none. -/
structure Holds (s : Options) (opts : List Opt) : Prop where
  size : s.configFile.length = PATH_MAX
  unset : configArguments opts = [] → readString s.configFile = .error .uninitialised
  last : ∀ optarg, (configArguments opts).getLast? = some optarg →
    readString s.configFile = .ok optarg.val
  threads : s.numThreads = wantedThreads opts
  plugins : s.pluginList = wantedPlugins opts

theorem holds_init : Holds .init [] where
  size := List.length_replicate
  unset _ := rfl
  last optarg h := by cases h
  threads := rfl
  plugins := rfl

theorem strcpy_eq_ok {dest cells : List Cell} {src : List Byte} (h : strcpy dest src = .ok cells) :
    src.length < dest.length ∧ cells = src.map some ++ some NUL :: dest.drop (src.length + 1) := by
  unfold strcpy at h
  split at h
  case isTrue hlt =>
    cases h
    exact ⟨hlt, rfl⟩
  case isFalse => cases h

/-- One option. -/
theorem Holds.getopt {s s' : Options} {opts : List Opt} (h : Holds s opts) {opt : Opt}
    (hs : getopt s opt = .ok s') :
    Holds s' (opts ++ [opt]) ∧
      ∀ optarg ∈ configArguments [opt], optarg.val.length < PATH_MAX := by
  obtain ⟨hsize, hunset, hlast, hthreads, hplugins⟩ := h
  cases opt with
  | c optarg =>
      obtain ⟨cells, hcells, rfl⟩ := of_map_eq_ok hs
      obtain ⟨hlt, rfl⟩ := strcpy_eq_ok hcells
      rw [hsize] at hlt
      refine ⟨⟨?_, fun hnil => ?_, fun optarg' hlast' => ?_, ?_, ?_⟩,
        List.forall_mem_singleton.mpr hlt⟩
      -- the argument and its NUL overwrite as many cells
      · simp only [List.length_append, List.length_map, List.length_cons, List.length_drop]
        omega
      · simp [configArguments] at hnil
      · obtain rfl : optarg = optarg' := by simpa [configArguments] using hlast'
        exact readString_map optarg.property _
      · simpa [wantedThreads] using hthreads
      · simpa [wantedPlugins] using hplugins
  | t optarg =>
      cases hs
      refine ⟨⟨hsize, ?_, ?_, ?_, ?_⟩, by simp [configArguments]⟩
      · simpa [configArguments] using hunset
      · simpa [configArguments] using hlast
      · -- without a number the variable stays as it was
        show scanThreads s.numThreads optarg = _
        rw [scanThreads, wantedThreads, List.filterMap_append]
        cases hscan : scanSize optarg.val with
        | none => simpa [hscan, wantedThreads] using hthreads
        | some r => simp [hscan]
      · simpa [wantedPlugins] using hplugins
  | p optarg =>
      cases hs
      refine ⟨⟨hsize, ?_, ?_, ?_, ?_⟩, by simp [configArguments]⟩
      · simpa [configArguments] using hunset
      · simpa [configArguments] using hlast
      · simpa [wantedThreads] using hthreads
      · simp [wantedPlugins]

theorem getopt_ok {s : Options} (hsize : s.configFile.length = PATH_MAX) {opt : Opt}
    (hshort : ∀ optarg ∈ configArguments [opt], optarg.val.length < PATH_MAX) :
    ∃ s', getopt s opt = .ok s' := by
  cases opt with
  | c optarg =>
      have hlt : optarg.val.length < s.configFile.length := by
        rw [hsize]
        exact hshort optarg (List.mem_singleton_self _)
      rw [getopt, strcpy, if_pos hlt]
      exact ⟨_, rfl⟩
  | t optarg => exact ⟨_, rfl⟩
  | p optarg => exact ⟨_, rfl⟩

theorem configArguments_cons (opt : Opt) (opts : List Opt) :
    configArguments (opt :: opts) = configArguments [opt] ++ configArguments opts := by
  rw [configArguments, configArguments, configArguments, ← List.filterMap_append,
    List.singleton_append]

/-- The loop. -/
theorem Holds.parseOptions {s s' : Options} {before : List Opt} (h : Holds s before)
    {opts : List Opt} (hs : parseOptions s opts = .ok s') :
    Holds s' (before ++ opts) ∧
      ∀ optarg ∈ configArguments opts, optarg.val.length < PATH_MAX := by
  induction opts generalizing s before with
  | nil =>
      cases hs
      rw [List.append_nil]
      exact ⟨h, by simp [configArguments]⟩
  | cons opt opts ih =>
      obtain ⟨s₁, hopt, hs⟩ := of_bind_eq_ok hs
      obtain ⟨h₁, hshort⟩ := h.getopt hopt
      obtain ⟨h', hshort'⟩ := ih h₁ hs
      rw [List.append_assoc, List.singleton_append] at h'
      rw [configArguments_cons, List.forall_mem_append]
      exact ⟨h', hshort, hshort'⟩

theorem parseOptions_ok {s : Options} {before : List Opt} (h : Holds s before) {opts : List Opt}
    (hshort : ∀ optarg ∈ configArguments opts, optarg.val.length < PATH_MAX) :
    ∃ s', parseOptions s opts = .ok s' := by
  induction opts generalizing s before with
  | nil => exact ⟨s, rfl⟩
  | cons opt opts ih =>
      rw [configArguments_cons, List.forall_mem_append] at hshort
      obtain ⟨s₁, hopt⟩ := getopt_ok h.size hshort.1
      obtain ⟨s', hs'⟩ := ih (h.getopt hopt).1 hshort.2
      refine ⟨s', ?_⟩
      rw [Config.parseOptions, hopt]
      exact hs'

/-- **The path can be read if and only if there is a `-c` option**, and then it is the one that
is wanted. -/
theorem Holds.readString_eq_ok_iff {s : Options} {opts : List Opt} (h : Holds s opts)
    {path : List Byte} :
    readString s.configFile = .ok path ↔ configArguments opts ≠ [] ∧ path = wantedPath opts := by
  rcases hlast : (configArguments opts).getLast? with - | optarg
  -- nothing was written to the array
  · have hnone := List.getLast?_eq_none_iff.mp hlast
    rw [h.unset hnone]
    simp [hnone]
  · have hgiven : configArguments opts ≠ [] := by
      intro hnone
      rw [hnone] at hlast
      cases hlast
    rw [h.last _ hlast, wantedPath, hlast, Except.ok.injEq]
    simp [hgiven, eq_comm]

end Config

end SquidHelper
