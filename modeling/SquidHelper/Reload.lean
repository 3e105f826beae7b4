/-
SquidHelper/Reload.lean

Reloads of the hosts file against running lookups.

`parse_file` frees the old chain node by node and builds the new one in place, while
the workers walk the chain; the plugin's mutex keeps them apart.  Here both are run in
small steps over one heap: one node freed, one line parsed, one node visited per step.

A lookup notes the files of the reloads that had finished when it took the lock
(`seen`); what it must return is what the parser makes of the last of them.  `ReloadInv`
says who holds the mutex, which part of the new file is installed and where each walk
stands.
-/
import SquidHelper.Lib.Guarded
import SquidHelper.Lib.LinkedList
import SquidHelper.TxtFile

namespace SquidHelper

namespace Reload

open CString LinkedList

variable {n : ℕ}

/-! ### The two programs -/

/-- Where the main thread is in `parse_file`; `file` is what `fopen` opened. -/
inductive MainPc
  | idle
  /-- At `pthread_mutex_lock`. -/
  | locking (file : List Byte)
  | clearing (file : List Byte)
  /-- In the `fgets` loop, with `rest` unread. -/
  | inserting (file rest : List Byte)
  | unlocking (file : List Byte)
  deriving DecidableEq

/-- Where a worker is in `webcontrol_txtfile_handle_request`. -/
inductive WorkerPc
  | idle
  | locking (addr : Option Address)
  | walking (addr : Option Address) (seen : List (List Byte)) (entry : Option ℕ)
  | unlocking (addr : Option Address) (seen : List (List Byte)) (status : HandlerStatus)
  deriving DecidableEq

inductive Owner (n : ℕ)
  | main
  | worker (w : Fin n)
  deriving DecidableEq

/-- Why the process died. -/
inductive Crash
  /-- `strtok_r` returned a null pointer, which `parse_line` follows. -/
  | nullToken
  /-- A freed node was followed. -/
  | freedNode
  deriving DecidableEq

/-- A lookup that has returned. -/
structure Answer (n : ℕ) where
  worker : Fin n
  addr : Option Address
  /-- The files of the reloads finished when it took the lock, oldest first. -/
  seen : List (List Byte)
  status : HandlerStatus
  deriving DecidableEq

structure State (n : ℕ) where
  heap : Heap HostEntry
  entryChain : Option ℕ
  mtx : Option (Owner n)
  main : MainPc
  workers : Fin n → WorkerPc
  /-- The files of the reloads that have finished, oldest first. -/
  finished : List (List Byte)
  answers : List (Answer n)
  /-- The lines printed on standard output. -/
  printed : List (List Byte)
  crashed : Option Crash

/-- Behind `plugin_init`: an empty chain. -/
def State.init (n : ℕ) : State n where
  heap := fun _ => none
  entryChain := none
  mtx := none
  main := .idle
  workers := fun _ => .idle
  finished := []
  answers := []
  printed := []
  crashed := none

inductive Action (n : ℕ)
  /-- The main thread calls `parse_file`; `contents` is what `fopen` opens, if it does. -/
  | reload (contents : Option (List Byte))
  /-- Its next step; `fresh` is the address `malloc` returns, if it is called. -/
  | main (fresh : ℕ)
  /-- A worker calls `handle_request`. -/
  | lookup (w : Fin n) (addr : Option Address)
  | worker (w : Fin n)

/-- A step of the main thread inside `parse_file`. -/
def mainStep (b : Build) (pton : InetPton) (s : State n) (fresh : ℕ) : Option (State n) :=
  match s.main with
  | .idle => none
  | .locking file =>
      if s.mtx = none then some { s with main := .clearing file, mtx := some .main } else none
  | .clearing file =>
      match s.entryChain with
      | none => some { s with main := .inserting file file }
      | some p =>
          match s.heap p with
          | none => some { s with crashed := some .freedNode }
          | some node => some { s with heap := Function.update s.heap p none,
                                       entryChain := node.next }
  | .inserting file rest =>
      match fgets LINE_MAX rest with
      | none => some { s with main := .unlocking file }
      | some (line, rest') =>
          match parseLine b pton line with
          | .error _ => some { s with crashed := some .nullToken }
          | .ok none => some { s with main := .inserting file rest' }
          | .ok (some entry) =>
              if s.heap fresh = none then
                some { s with main := .inserting file rest', entryChain := some fresh,
                              heap := Function.update s.heap fresh (some ⟨entry, s.entryChain⟩) }
              else none
  | .unlocking file =>
      some { s with main := .idle, mtx := none, finished := s.finished ++ [file] }

/-- A step of a worker inside `webcontrol_txtfile_handle_request`. -/
def workerStep (s : State n) (w : Fin n) : Option (State n) :=
  match s.workers w with
  | .idle => none
  | .locking addr =>
      if s.mtx = none then
        some { s with mtx := some (.worker w),
                      workers := Function.update s.workers w
                        (.walking addr s.finished s.entryChain) }
      else none
  | .walking addr seen none =>
      some { s with workers := Function.update s.workers w (.unlocking addr seen .goOn) }
  | .walking addr seen (some p) =>
      match s.heap p with
      | none => some { s with crashed := some .freedNode }
      | some entry =>
          if compareAddresses addr (some entry.value.address) = 1 then
            some { s with workers := Function.update s.workers w
                            (.unlocking addr seen entry.value.flag) }
          else
            some { s with workers := Function.update s.workers w (.walking addr seen entry.next) }
  | .unlocking addr seen status =>
      some { s with mtx := none, workers := Function.update s.workers w .idle,
                    answers := s.answers ++ [⟨w, addr, seen, status⟩] }

def step (b : Build) (pton : InetPton) (s : State n) : Action n → Option (State n)
  | .reload contents =>
      if s.crashed = none ∧ s.main = .idle then
        match contents with
        | none => some { s with printed := s.printed ++ [ascii "ERROR"] }
        | some file => some { s with main := .locking file }
      else none
  | .main fresh => if s.crashed = none then mainStep b pton s fresh else none
  | .lookup w addr =>
      if s.crashed = none ∧ s.workers w = .idle then
        some { s with workers := Function.update s.workers w (.locking addr) }
      else none
  | .worker w => if s.crashed = none then workerStep s w else none

/-- The plugin with `n` workers. -/
def reload (b : Build) (pton : InetPton) (n : ℕ) : Guarded (State n) (Action n) :=
  ⟨step b pton⟩

/-! ### The steps, one by one -/

/-- Every step there is, with all it changes. -/
inductive Step (b : Build) (pton : InetPton) (s : State n) : Action n → State n → Prop
  | openFail (hm : s.main = .idle) :
      Step b pton s (.reload none) { s with printed := s.printed ++ [ascii "ERROR"] }
  | openFile {file} (hm : s.main = .idle) :
      Step b pton s (.reload (some file)) { s with main := .locking file }
  | lock {file fresh} (hm : s.main = .locking file) (hmtx : s.mtx = none) :
      Step b pton s (.main fresh) { s with main := .clearing file, mtx := some .main }
  | cleared {file fresh} (hm : s.main = .clearing file) (hc : s.entryChain = none) :
      Step b pton s (.main fresh) { s with main := .inserting file file }
  | clear {file fresh p node} (hm : s.main = .clearing file) (hc : s.entryChain = some p)
      (hp : s.heap p = some node) :
      Step b pton s (.main fresh) { s with heap := Function.update s.heap p none,
                                           entryChain := node.next }
  | clearFreed {file fresh p} (hm : s.main = .clearing file) (hc : s.entryChain = some p)
      (hp : s.heap p = none) : Step b pton s (.main fresh) { s with crashed := some .freedNode }
  | endOfFile {file rest fresh} (hm : s.main = .inserting file rest)
      (hr : fgets LINE_MAX rest = none) : Step b pton s (.main fresh) { s with main := .unlocking file }
  | nullToken {file rest fresh line rest' e} (hm : s.main = .inserting file rest)
      (hr : fgets LINE_MAX rest = some (line, rest')) (hl : parseLine b pton line = .error e) :
      Step b pton s (.main fresh) { s with crashed := some .nullToken }
  | skip {file rest fresh line rest'} (hm : s.main = .inserting file rest)
      (hr : fgets LINE_MAX rest = some (line, rest')) (hl : parseLine b pton line = .ok none) :
      Step b pton s (.main fresh) { s with main := .inserting file rest' }
  | insert {file rest fresh line rest' entry} (hm : s.main = .inserting file rest)
      (hr : fgets LINE_MAX rest = some (line, rest'))
      (hl : parseLine b pton line = .ok (some entry)) (hf : s.heap fresh = none) :
      Step b pton s (.main fresh)
        { s with main := .inserting file rest', entryChain := some fresh,
                 heap := Function.update s.heap fresh (some ⟨entry, s.entryChain⟩) }
  | unlock {file fresh} (hm : s.main = .unlocking file) :
      Step b pton s (.main fresh)
        { s with main := .idle, mtx := none, finished := s.finished ++ [file] }
  | lookup {w addr} (hw : s.workers w = .idle) :
      Step b pton s (.lookup w addr)
        { s with workers := Function.update s.workers w (.locking addr) }
  | take {w addr} (hw : s.workers w = .locking addr) (hmtx : s.mtx = none) :
      Step b pton s (.worker w)
        { s with mtx := some (.worker w), workers := Function.update s.workers w
                   (.walking addr s.finished s.entryChain) }
  | walkEnd {w addr seen} (hw : s.workers w = .walking addr seen none) :
      Step b pton s (.worker w)
        { s with workers := Function.update s.workers w (.unlocking addr seen .goOn) }
  | walkFreed {w addr seen p} (hw : s.workers w = .walking addr seen (some p))
      (hp : s.heap p = none) : Step b pton s (.worker w) { s with crashed := some .freedNode }
  | walkHit {w addr seen p entry} (hw : s.workers w = .walking addr seen (some p))
      (hp : s.heap p = some entry)
      (ha : compareAddresses addr (some entry.value.address) = 1) :
      Step b pton s (.worker w)
        { s with workers := Function.update s.workers w
                   (.unlocking addr seen entry.value.flag) }
  | walkNext {w addr seen p entry} (hw : s.workers w = .walking addr seen (some p))
      (hp : s.heap p = some entry)
      (ha : ¬ compareAddresses addr (some entry.value.address) = 1) :
      Step b pton s (.worker w)
        { s with workers := Function.update s.workers w (.walking addr seen entry.next) }
  | answer {w addr seen status} (hw : s.workers w = .unlocking addr seen status) :
      Step b pton s (.worker w)
        { s with mtx := none, workers := Function.update s.workers w .idle,
                 answers := s.answers ++ [⟨w, addr, seen, status⟩] }

theorem mainStep_step {b : Build} {pton : InetPton} {s s' : State n} {fresh : ℕ}
    (h : mainStep b pton s fresh = some s') : Step b pton s (.main fresh) s' := by
  unfold mainStep at h
  split at h
  case h_1 => cases h
  case h_2 file hm =>
    obtain ⟨hmtx, h⟩ := Option.ite_none_right_eq_some.mp h
    cases h
    exact .lock hm hmtx
  case h_3 file hm =>
    split at h
    case h_1 hc => cases h; exact .cleared hm hc
    case h_2 p hc =>
      split at h
      case h_1 hp => cases h; exact .clearFreed hm hc hp
      case h_2 node hp => cases h; exact .clear hm hc hp
  case h_4 file rest hm =>
    split at h
    case h_1 hr => cases h; exact .endOfFile hm hr
    case h_2 line rest' hr =>
      split at h
      case h_1 e hl => cases h; exact .nullToken hm hr hl
      case h_2 hl => cases h; exact .skip hm hr hl
      case h_3 entry hl =>
        obtain ⟨hf, h⟩ := Option.ite_none_right_eq_some.mp h
        cases h
        exact .insert hm hr hl hf
  case h_5 file hm => cases h; exact .unlock hm

theorem workerStep_step {b : Build} {pton : InetPton} {s s' : State n} {w : Fin n}
    (h : workerStep s w = some s') : Step b pton s (.worker w) s' := by
  unfold workerStep at h
  split at h
  case h_1 => cases h
  case h_2 addr hw =>
    obtain ⟨hmtx, h⟩ := Option.ite_none_right_eq_some.mp h
    cases h
    exact .take hw hmtx
  case h_3 addr seen hw => cases h; exact .walkEnd hw
  case h_4 addr seen p hw =>
    split at h
    case h_1 hp => cases h; exact .walkFreed hw hp
    case h_2 entry hp =>
      split at h
      case isTrue ha => cases h; exact .walkHit hw hp ha
      case isFalse ha => cases h; exact .walkNext hw hp ha
  case h_5 addr seen status hw => cases h; exact .answer hw

/-- `Step` lists all steps, and there are none after a crash. -/
theorem step_step {b : Build} {pton : InetPton} {s s' : State n} {a : Action n}
    (h : (reload b pton n).step s a = some s') : s.crashed = none ∧ Step b pton s a s' := by
  change step b pton s a = some s' at h
  cases a with
  | reload contents =>
      obtain ⟨⟨hc, hm⟩, h⟩ := Option.ite_none_right_eq_some.mp h
      cases contents with
      | none => cases h; exact ⟨hc, .openFail hm⟩
      | some file => cases h; exact ⟨hc, .openFile hm⟩
  | main fresh =>
      obtain ⟨hc, h⟩ := Option.ite_none_right_eq_some.mp h
      exact ⟨hc, mainStep_step h⟩
  | lookup w addr =>
      obtain ⟨⟨hc, hw⟩, h⟩ := Option.ite_none_right_eq_some.mp h
      cases h
      exact ⟨hc, .lookup hw⟩
  | worker w =>
      obtain ⟨hc, h⟩ := Option.ite_none_right_eq_some.mp h
      exact ⟨hc, workerStep_step h⟩

/-- And lists only steps. -/
theorem Step.step_eq {b : Build} {pton : InetPton} {s s' : State n} {a : Action n}
    (h : Step b pton s a s') (hc : s.crashed = none) :
    (reload b pton n).step s a = some s' := by
  show Reload.step b pton s a = some s'
  cases h with
  | openFail hm => simp [Reload.step, hc, hm]
  | openFile hm => simp [Reload.step, hc, hm]
  | lock hm hmtx => simp [Reload.step, mainStep, hc, hm, hmtx]
  | cleared hm hchain => simp [Reload.step, mainStep, hc, hm, hchain]
  | clear hm hchain hp => simp [Reload.step, mainStep, hc, hm, hchain, hp]
  | clearFreed hm hchain hp => simp [Reload.step, mainStep, hc, hm, hchain, hp]
  | endOfFile hm hr => simp [Reload.step, mainStep, hc, hm, hr]
  | nullToken hm hr hl => simp [Reload.step, mainStep, hc, hm, hr, hl]
  | skip hm hr hl => simp [Reload.step, mainStep, hc, hm, hr, hl]
  | insert hm hr hl hf => simp [Reload.step, mainStep, hc, hm, hr, hl, hf]
  | unlock hm => simp [Reload.step, mainStep, hc, hm]
  | lookup hw => simp [Reload.step, hc, hw]
  | take hw hmtx => simp [Reload.step, workerStep, hc, hw, hmtx]
  | walkEnd hw => simp [Reload.step, workerStep, hc, hw]
  | walkFreed hw hp => simp [Reload.step, workerStep, hc, hw, hp]
  | walkHit hw hp ha => simp [Reload.step, workerStep, hc, hw, hp, ha]
  | walkNext hw hp ha => simp [Reload.step, workerStep, hc, hw, hp, ha]
  | answer hw => simp [Reload.step, workerStep, hc, hw]

/-! ### The invariant -/

/-- What the parser makes of the last of some files; nothing if there is none. -/
def complete (b : Build) (pton : InetPton) (files : List (List Byte)) : List HostEntry :=
  match files.getLast? with
  | none => []
  | some file =>
      match parseContents b pton file with
      | .ok chain => chain
      | .error _ => []

theorem complete_append (b : Build) (pton : InetPton) (files : List (List Byte))
    {file : List Byte} {chain : List HostEntry} (h : parseContents b pton file = .ok chain) :
    complete b pton (files ++ [file]) = chain := by
  simp only [complete, List.getLast?_append, List.getLast?_singleton, Option.some_or, h]

/-- Between `pthread_mutex_lock` and `pthread_mutex_unlock`. -/
def MainPc.holds : MainPc → Bool
  | .clearing _ => true
  | .inserting _ _ => true
  | .unlocking _ => true
  | _ => false

def WorkerPc.holds : WorkerPc → Bool
  | .walking _ _ _ => true
  | .unlocking _ _ _ => true
  | _ => false

/-- Which chain is installed: outside the critical section that of the last finished
reload, inside it what is left of the old one, or the part of the new one that the rest
of the file will complete. -/
def Installed (b : Build) (pton : InetPton) (s : State n) : MainPc → Prop
  | .clearing _ => ∃ xs, Holds s.heap s.entryChain xs
  | .inserting file rest => ∃ xs, Holds s.heap s.entryChain xs ∧
      parseLines b pton rest.length rest xs = parseContents b pton file
  | .unlocking file => ∃ xs, Holds s.heap s.entryChain xs ∧ parseContents b pton file = .ok xs
  | _ => Holds s.heap s.entryChain (complete b pton s.finished)

structure ReloadInv (b : Build) (pton : InetPton) (s : State n) : Prop where
  mainLock : s.main.holds = true → s.mtx = some .main
  workerLock : ∀ w, (s.workers w).holds = true → s.mtx = some (.worker w)
  installed : Installed b pton s s.main
  /-- A walk stands at a part of the chain that decides as the complete chain does. -/
  walking : ∀ w addr seen cursor, s.workers w = .walking addr seen cursor →
    ∃ xs, Holds s.heap cursor xs ∧ walk addr xs = walk addr (complete b pton seen)
  answering : ∀ w addr seen status, s.workers w = .unlocking addr seen status →
    status = walk addr (complete b pton seen)
  answers : ∀ r ∈ s.answers, r.status = walk r.addr (complete b pton r.seen)
  alive : s.crashed ≠ some .freedNode

namespace ReloadInv

variable {b : Build} {pton : InetPton} {s s' : State n}

theorem init (b : Build) (pton : InetPton) (n : ℕ) : ReloadInv b pton (State.init n) where
  mainLock h := by cases h
  workerLock _ h := by cases h
  installed := Holds.nil _
  walking _ _ _ _ h := by cases h
  answering _ _ _ _ h := by cases h
  answers r h := by cases h
  alive := by simp [State.init]

/-- The mutex keeps main thread and workers apart. -/
theorem not_holds (h : ReloadInv b pton s) (hm : s.main.holds = true) (w : Fin n) :
    (s.workers w).holds = false := by
  rcases hw : (s.workers w).holds with - | -
  · rfl
  · have howner := h.workerLock w hw
    rw [h.mainLock hm] at howner
    cases howner

/-- Outside the critical section of `parse_file` the complete chain is installed. -/
theorem complete_installed (h : ReloadInv b pton s) (hm : s.main.holds = false) :
    Holds s.heap s.entryChain (complete b pton s.finished) := by
  have hinst := h.installed
  cases hmain : s.main with
  | idle => rwa [hmain] at hinst
  | locking file => rwa [hmain] at hinst
  | _ => rw [hmain] at hm; cases hm

/-- Steps of the main thread: the heap changes only under the mutex. -/
theorem of_main (h : ReloadInv b pton s) (hw : s'.workers = s.workers)
    (ha : s'.answers = s.answers) (hc : s'.crashed = s.crashed)
    (hmtx : s'.mtx = s.mtx ∨ ∀ w, s.mtx ≠ some (.worker w))
    (hheap : s.main.holds = true ∨ s'.heap = s.heap)
    (hlock : s'.main.holds = true → s'.mtx = some .main)
    (hinst : Installed b pton s' s'.main) : ReloadInv b pton s' where
  mainLock := hlock
  workerLock w hpc := by
    rw [hw] at hpc
    have howner := h.workerLock w hpc
    exact hmtx.elim (fun heq => heq.trans howner) fun hne => absurd howner (hne w)
  installed := hinst
  walking w addr seen cursor hpc := by
    rw [hw] at hpc
    rcases hheap with hm | heq
    -- under the mutex no worker walks
    · have hfalse := h.not_holds hm w
      rw [hpc] at hfalse
      cases hfalse
    · rw [heq]
      exact h.walking w addr seen cursor hpc
  answering := hw ▸ h.answering
  answers := ha ▸ h.answers
  alive := hc ▸ h.alive

/-- Steps of a worker, which leave heap and chain alone. -/
theorem of_worker (h : ReloadInv b pton s) {w : Fin n} {pc : WorkerPc} (hm : s'.main = s.main)
    (hheap : s'.heap = s.heap) (hchain : s'.entryChain = s.entryChain)
    (hfin : s'.finished = s.finished) (hc : s'.crashed = s.crashed)
    (hw : s'.workers = Function.update s.workers w pc)
    (hmtx : s'.mtx = s.mtx ∨ s.mtx = none ∨ s.mtx = some (.worker w))
    (hlock : pc.holds = true → s'.mtx = some (.worker w))
    (hwalking : ∀ addr seen cursor, pc = .walking addr seen cursor →
      ∃ xs, Holds s.heap cursor xs ∧ walk addr xs = walk addr (complete b pton seen))
    (hanswering : ∀ addr seen status, pc = .unlocking addr seen status →
      status = walk addr (complete b pton seen))
    (hans : ∀ r ∈ s'.answers, r.status = walk r.addr (complete b pton r.seen)) :
    ReloadInv b pton s' where
  mainLock hpc := by
    rw [hm] at hpc
    -- the main thread has the mutex, so `w` neither takes nor leaves it
    have howner := h.mainLock hpc
    rcases hmtx with heq | hnone | hown
    · exact heq.trans howner
    · rw [hnone] at howner
      cases howner
    · rw [hown] at howner
      cases howner
  workerLock w' hpc := by
    rcases eq_or_ne w' w with rfl | hne
    · rw [hw, Function.update_self] at hpc
      exact hlock hpc
    · rw [hw, Function.update_of_ne hne] at hpc
      have howner := h.workerLock w' hpc
      rcases hmtx with heq | hnone | hown
      · exact heq.trans howner
      · rw [hnone] at howner
        cases howner
      · rw [hown] at howner
        cases howner
        exact absurd rfl hne
  installed := by
    have hinst := h.installed
    rw [hm]
    unfold Installed at hinst ⊢
    rw [hheap, hchain, hfin]
    exact hinst
  walking w' addr seen cursor hpc := by
    rw [hheap]
    rcases eq_or_ne w' w with rfl | hne
    · rw [hw, Function.update_self] at hpc
      exact hwalking addr seen cursor hpc
    · rw [hw, Function.update_of_ne hne] at hpc
      exact h.walking w' addr seen cursor hpc
  answering w' addr seen status hpc := by
    rcases eq_or_ne w' w with rfl | hne
    · rw [hw, Function.update_self] at hpc
      exact hanswering addr seen status hpc
    · rw [hw, Function.update_of_ne hne] at hpc
      exact h.answering w' addr seen status hpc
  answers := hans
  alive := hc ▸ h.alive

/-- One step. -/
theorem step (h : ReloadInv b pton s) {a : Action n} (hs : Step b pton s a s') :
    ReloadInv b pton s' := by
  have hinst := h.installed
  cases hs with
  | openFail hm => exact h.of_main rfl rfl rfl (.inl rfl) (.inr rfl) h.mainLock hinst
  | openFile hm =>
      rw [hm] at hinst
      exact h.of_main rfl rfl rfl (.inl rfl) (.inr rfl) (by simp [MainPc.holds]) hinst
  | lock hm hmtx =>
      rw [hm] at hinst
      exact h.of_main rfl rfl rfl (.inr fun w => by simp [hmtx]) (.inr rfl) (fun _ => rfl)
        ⟨_, hinst⟩
  | cleared hm hc =>
      have hlock := h.mainLock (by rw [hm]; rfl)
      rw [hm] at hinst
      obtain ⟨xs, hxs⟩ := hinst
      rw [hc] at hxs
      -- the chain is empty when its head is NULL
      obtain rfl := hxs.eq_nil
      exact h.of_main rfl rfl rfl (.inl rfl) (.inr rfl) (fun _ => hlock) ⟨[], hc ▸ hxs, rfl⟩
  | clear hm hc hp =>
      have hlock := h.mainLock (by rw [hm]; rfl)
      have hholds : s.main.holds = true := by rw [hm]; rfl
      rw [hm] at hinst
      obtain ⟨xs, hxs⟩ := hinst
      rw [hc] at hxs
      obtain ⟨node, ys, hnode, -, hys⟩ := hxs.pop
      rw [hp] at hnode
      cases hnode
      refine h.of_main rfl rfl rfl (.inl rfl) (.inl hholds) (fun _ => hlock) ?_
      simp only [hm]
      exact ⟨ys, hys⟩
  | clearFreed hm hc hp =>
      rw [hm] at hinst
      obtain ⟨xs, hxs⟩ := hinst
      rw [hc] at hxs
      -- the chain is on the heap, so no freed node is at its head
      obtain ⟨node, ys, hnode, -⟩ := hxs.load
      rw [hp] at hnode
      cases hnode
  | endOfFile hm hr =>
      have hlock := h.mainLock (by rw [hm]; rfl)
      rw [hm] at hinst
      obtain ⟨xs, hxs, hparse⟩ := hinst
      -- at the end of the file nothing is left to be pushed
      rw [parseLines_end hr] at hparse
      exact h.of_main rfl rfl rfl (.inl rfl) (.inr rfl) (fun _ => hlock) ⟨xs, hxs, hparse.symm⟩
  | nullToken =>
      exact ⟨h.mainLock, h.workerLock, hinst, h.walking, h.answering, h.answers, by simp⟩
  | skip hm hr hl =>
      have hlock := h.mainLock (by rw [hm]; rfl)
      rw [hm] at hinst
      obtain ⟨xs, hxs, hparse⟩ := hinst
      -- the line gives nothing
      rw [parseLines_step hr, hl] at hparse
      exact h.of_main rfl rfl rfl (.inl rfl) (.inr rfl) (fun _ => hlock) ⟨xs, hxs, hparse⟩
  | insert hm hr hl hf =>
      have hlock := h.mainLock (by rw [hm]; rfl)
      have hholds : s.main.holds = true := by rw [hm]; rfl
      rw [hm] at hinst
      obtain ⟨xs, hxs, hparse⟩ := hinst
      rw [parseLines_step hr, hl] at hparse
      -- the line gives an entry, and the node for it is a new one
      exact h.of_main rfl rfl rfl (.inl rfl) (.inl hholds) (fun _ => hlock)
        ⟨_, hxs.push hf _, hparse⟩
  | unlock hm =>
      have hlock := h.mainLock (by rw [hm]; rfl)
      rw [hm] at hinst
      obtain ⟨xs, hxs, hparse⟩ := hinst
      refine h.of_main rfl rfl rfl (.inr fun w => by simp [hlock]) (.inr rfl)
        (by simp [MainPc.holds]) ?_
      -- what was pushed one by one is the complete chain of this file
      show Holds s.heap s.entryChain (complete b pton (s.finished ++ [_]))
      rw [complete_append b pton s.finished hparse]
      exact hxs
  | lookup hw =>
      exact h.of_worker rfl rfl rfl rfl rfl rfl (.inl rfl) (by simp [WorkerPc.holds]) (by simp)
        (by simp) h.answers
  | take hw hmtx =>
      have hm : s.main.holds = false := Bool.eq_false_iff.mpr fun hm => by
        rw [h.mainLock hm] at hmtx
        cases hmtx
      -- the mutex was free, so the walk begins at a complete chain
      have hchain := h.complete_installed hm
      refine h.of_worker rfl rfl rfl rfl rfl rfl (.inr (.inl hmtx)) (fun _ => rfl) ?_ (by simp)
        h.answers
      rintro addr seen cursor ⟨⟩
      exact ⟨_, hchain, rfl⟩
  | @walkEnd w addr seen hw =>
      have hlock := h.workerLock w (by rw [hw]; rfl)
      obtain ⟨xs, hxs, hwalk⟩ := h.walking w addr seen none hw
      obtain rfl := hxs.eq_nil
      refine h.of_worker rfl rfl rfl rfl rfl rfl (.inl rfl) (fun _ => hlock) (by simp) ?_ h.answers
      rintro addr seen status ⟨⟩
      exact hwalk
  | @walkFreed w addr seen p hw hp =>
      -- no node of the walk was freed either
      obtain ⟨xs, hxs, -⟩ := h.walking w addr seen (some p) hw
      obtain ⟨node, ys, hnode, -⟩ := hxs.load
      rw [hp] at hnode
      cases hnode
  | @walkHit w addr seen p entry hw hp ha =>
      have hlock := h.workerLock w (by rw [hw]; rfl)
      obtain ⟨xs, hxs, hwalk⟩ := h.walking w addr seen (some p) hw
      obtain ⟨node, ys, hnode, rfl, -⟩ := hxs.load
      rw [hp] at hnode
      cases hnode
      rw [walk, if_pos ha] at hwalk
      refine h.of_worker rfl rfl rfl rfl rfl rfl (.inl rfl) (fun _ => hlock) (by simp) ?_ h.answers
      rintro addr seen status ⟨⟩
      exact hwalk
  | @walkNext w addr seen p entry hw hp ha =>
      have hlock := h.workerLock w (by rw [hw]; rfl)
      obtain ⟨xs, hxs, hwalk⟩ := h.walking w addr seen (some p) hw
      obtain ⟨node, ys, hnode, rfl, hys⟩ := hxs.load
      rw [hp] at hnode
      cases hnode
      rw [walk, if_neg ha] at hwalk
      refine h.of_worker rfl rfl rfl rfl rfl rfl (.inl rfl) (fun _ => hlock) ?_ (by simp) h.answers
      rintro addr seen cursor ⟨⟩
      exact ⟨ys, hys, hwalk⟩
  | @answer w addr seen status hw =>
      have hlock := h.workerLock w (by rw [hw]; rfl)
      refine h.of_worker rfl rfl rfl rfl rfl rfl (.inr (.inr hlock))
        (by simp [WorkerPc.holds]) (by simp) (by simp) ?_
      intro r hr
      rcases List.mem_append.mp hr with hr | hr
      · exact h.answers r hr
      · obtain rfl := List.mem_singleton.mp hr
        exact h.answering w addr seen status hw

end ReloadInv

theorem reloadInv_of_reaches {b : Build} {pton : InetPton} {s : State n}
    (h : (reload b pton n).Reaches (State.init n) s) : ReloadInv b pton s :=
  h.invariant (fun _ _ _ hs hstep => hs.step (step_step hstep).2) (.init b pton n)

/-! ### What is printed has no influence -/

/-- `t` is `s` up to what was printed. -/
def SameButPrinted (s t : State n) : Prop := ∃ printed, t = { s with printed := printed }

theorem Step.sameButPrinted {b : Build} {pton : InetPton} {s s' : State n} {a : Action n}
    (h : Step b pton s a s') (p : List (List Byte)) :
    ∃ p', Step b pton { s with printed := p } a { s' with printed := p' } := by
  cases h with
  | openFail hm => exact ⟨_, .openFail hm⟩
  | openFile hm => exact ⟨p, .openFile hm⟩
  | lock hm hmtx => exact ⟨p, .lock hm hmtx⟩
  | cleared hm hc => exact ⟨p, .cleared hm hc⟩
  | clear hm hc hp => exact ⟨p, .clear hm hc hp⟩
  | clearFreed hm hc hp => exact ⟨p, .clearFreed hm hc hp⟩
  | endOfFile hm hr => exact ⟨p, .endOfFile hm hr⟩
  | nullToken hm hr hl => exact ⟨p, .nullToken hm hr hl⟩
  | skip hm hr hl => exact ⟨p, .skip hm hr hl⟩
  | insert hm hr hl hf => exact ⟨p, .insert hm hr hl hf⟩
  | unlock hm => exact ⟨p, .unlock hm⟩
  | lookup hw => exact ⟨p, .lookup hw⟩
  | take hw hmtx => exact ⟨p, .take hw hmtx⟩
  | walkEnd hw => exact ⟨p, .walkEnd hw⟩
  | walkFreed hw hp => exact ⟨p, .walkFreed hw hp⟩
  | walkHit hw hp ha => exact ⟨p, .walkHit hw hp ha⟩
  | walkNext hw hp ha => exact ⟨p, .walkNext hw hp ha⟩
  | answer hw => exact ⟨p, .answer hw⟩

/-- What one state can do the other can do. -/
theorem SameButPrinted.step {b : Build} {pton : InetPton} {s t s' : State n} {a : Action n}
    (h : SameButPrinted s t) (hs : (reload b pton n).step s a = some s') :
    ∃ t', (reload b pton n).step t a = some t' ∧ SameButPrinted s' t' := by
  obtain ⟨p, rfl⟩ := h
  obtain ⟨hc, hstep⟩ := step_step hs
  obtain ⟨p', hstep'⟩ := hstep.sameButPrinted p
  exact ⟨_, hstep'.step_eq hc, p', rfl⟩

/-- **Reloads are atomic for lookups.**  Every answer is that of the complete chain of
the last reload finished when the lookup took the lock; no freed node is walked, and
while a worker walks, the complete chain is installed; a reload that cannot open the
file leaves the chain and all that follows as it was. -/
theorem reload_atomic {b : Build} {pton : InetPton} {s : State n}
    (h : (reload b pton n).Reaches (State.init n) s) :
    (∀ r ∈ s.answers, r.status = walk r.addr (complete b pton r.seen)) ∧
    s.crashed ≠ some .freedNode ∧
    (∀ w, (s.workers w).holds = true →
      Holds s.heap s.entryChain (complete b pton s.finished)) ∧
    (∀ s', (reload b pton n).step s (.reload none) = some s' →
      s'.entryChain = s.entryChain ∧ s'.heap = s.heap ∧
      ∀ as t', (reload b pton n).exec s' as = some t' →
        ∃ t, (reload b pton n).exec s as = some t ∧ t.answers = t'.answers) := by
  have hinv := reloadInv_of_reaches h
  refine ⟨hinv.answers, hinv.alive, fun w hw => hinv.complete_installed ?_, fun s' hs' => ?_⟩
  · apply Bool.eq_false_iff.mpr
    intro hm
    rw [hinv.not_holds hm w] at hw
    cases hw
  -- a failed `fopen` only prints
  · have hsame : SameButPrinted s' s := by
      obtain ⟨-, hstep⟩ := step_step hs'
      cases hstep
      exact ⟨s.printed, rfl⟩
    obtain ⟨p, rfl⟩ := hsame
    refine ⟨rfl, rfl, ?_⟩
    intro as t' ht'
    obtain ⟨t, ht, q, rfl⟩ := Guarded.exec_simulates (R := SameButPrinted)
      (fun _ _ _ _ hR hstep => hR.step hstep) ⟨p, rfl⟩ ht'
    exact ⟨_, ht, rfl⟩

/-- One line for 10.0.0.1. -/
def allowFile : List Byte := ascii "10.0.0.1 ALLOW\n"

/-- The file is loaded, looked up, and cannot be opened the next time. -/
def loadRun : List (Action 1) :=
  .reload (some allowFile) :: List.replicate 5 (.main 0) ++
    .lookup (Fin.last 0) sampleRequest.ipAddr.sockaddr ::
      List.replicate 3 (.worker (Fin.last 0)) ++ [.reload none]

/-- The lookup of that run is answered from the file. -/
theorem reload_atomic_allowFile :
    ∃ s, (reload ⟨false⟩ ipv4Only 1).Reaches (State.init 1) s ∧
      s.answers = [⟨0, some (.inet #v[10, 0, 0, 1]), [allowFile], .allow⟩] ∧
      walk (some (.inet #v[10, 0, 0, 1])) (complete ⟨false⟩ ipv4Only [allowFile]) = .allow := by
  have hrun : ((reload ⟨false⟩ ipv4Only 1).exec (State.init 1) loadRun).any (fun s => decide
      (s.answers = [⟨0, some (.inet #v[10, 0, 0, 1]), [allowFile], .allow⟩])) = true := by
    decide
  obtain ⟨s, hs, hp⟩ := (Option.any_eq_true _ _).mp hrun
  have hanswers := of_decide_eq_true hp
  obtain ⟨hatomic, -⟩ := reload_atomic ⟨loadRun, hs⟩
  have hstatus := hatomic _ (hanswers ▸ List.mem_singleton_self _)
  exact ⟨s, ⟨loadRun, hs⟩, hanswers, hstatus.symm⟩

end Reload

end SquidHelper
