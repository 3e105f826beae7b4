/-
SquidHelper/Queue.lean

The bounded queue of `src/thirdparty/c-pthread-queue/queue.c`, statement by statement.

`queue_enqueue`, `queue_dequeue` and `queue_size` are functions of a monitor
(`Lib/Monitor.lean`) over the circular buffer of `queue_t`; the object they implement
is `Fifo`, which is what the model of the process works with (`Helper.lean`).  Undefined
behaviour of a statement is a store or a read outside the buffer, a read of an element
that was never written, an overflow of `int`, and a division by zero.
-/
import SquidHelper.Lib.Monitor
import SquidHelper.Lib.Ring

namespace SquidHelper

namespace Queue

variable {α : Type*}

/-! ### queue.c -/

/-- `queue_t`, without the mutex and the condition variables. -/
structure Data (α : Type*) where
  buffer : List (Option α)
  capacity : ℤ
  size : ℤ
  «in» : ℤ
  out : ℤ

/-- `QUEUE_INITIALIZER(buffer)`; the elements of `buffer` are what they are. -/
def initializer (buffer : List (Option α)) : Data α := ⟨buffer, buffer.length, 0, 0, 0⟩

/-- The condition variables. -/
inductive Cond
  | full
  | empty
  deriving DecidableEq

inductive Call (α : Type*)
  | enqueue (value : α)
  | dequeue
  | size
  deriving DecidableEq

/-- What is returned. -/
inductive Result (α : Type*)
  | void
  | value (value : α)
  | size (size : ℤ)
  deriving DecidableEq

def intMax : ℤ := 2 ^ 31 - 1

/-- `++` on an `int`. -/
def increment (n : ℤ) : Option ℤ := if n < intMax then some (n + 1) else none

/-- `--` on an `int`. -/
def decrement (n : ℤ) : Option ℤ := if -intMax - 1 < n then some (n - 1) else none

/-- `%` on `int`s. -/
def remainder (n m : ℤ) : Option ℤ := if m = 0 then none else some (n.tmod m)

/-- `buffer[i] = value`. -/
def store (buffer : List (Option α)) (i : ℤ) (value : α) : Option (List (Option α)) :=
  if 0 ≤ i then Slots.store buffer i.toNat value else none

/-- `buffer[i]`. -/
def fetch (buffer : List (Option α)) (i : ℤ) : Option α :=
  if 0 ≤ i then buffer[i.toNat]?.join else none

/-- A line of a function: what it does to the queue and to the local variable. -/
abbrev Statement (α : Type*) := Data α → Result α → Option (Data α × Result α)

/-- The lines of `queue_enqueue` between the loop and the unlock. -/
def enqueueBody (value : α) : List (Statement α) :=
  [fun q r => (store q.buffer q.in value).map fun b => ({ q with buffer := b }, r),
   fun q r => (increment q.size).map fun n => ({ q with size := n }, r),
   fun q r => (increment q.in).map fun n => ({ q with «in» := n }, r),
   fun q r => (remainder q.in q.capacity).map fun n => ({ q with «in» := n }, r)]

/-- The lines of `queue_dequeue` between the loop and the unlock. -/
def dequeueBody : List (Statement α) :=
  [fun q _ => (fetch q.buffer q.out).map fun v => (q, .value v),
   fun q r => (decrement q.size).map fun n => ({ q with size := n }, r),
   fun q r => (increment q.out).map fun n => ({ q with out := n }, r),
   fun q r => (remainder q.out q.capacity).map fun n => ({ q with out := n }, r)]

def sizeBody : List (Statement α) := [fun q _ => some (q, .size q.size)]

/-- `queue_enqueue`, `queue_dequeue` and `queue_size`. -/
def functions (α : Type*) : Monitor (Data α) (Call α) (Result α) Cond where
  loop
    | .enqueue _ => some (.full, fun q => q.size == q.capacity)
    | .dequeue => some (.empty, fun q => q.size == 0)
    | .size => none
  start := .void
  body
    | .enqueue value => enqueueBody value
    | .dequeue => dequeueBody
    | .size => sizeBody
  wakes
    | .enqueue _ => some .empty
    | .dequeue => some .full
    | .size => none

/-! ### The queue they implement -/

/-- The operations on a bounded queue. -/
def perform {cap : ℕ} : Call α → Fifo cap α → Option (Result α × Fifo cap α)
  | .enqueue value, q => (q.enqueue value).map fun q' => (.void, q')
  | .dequeue, q => q.dequeue.map fun p => (.value p.1, p.2)
  | .size, q => some (.size q.items.length, q)

theorem perform_enqueue {cap : ℕ} {q q' : Fifo cap α} {value : α}
    (h : q'.items = q.items ++ [value]) : perform (.enqueue value) q = some (.void, q') := by
  rw [perform, Fifo.enqueue_eq_some.mpr h]
  rfl

theorem perform_dequeue {cap : ℕ} {q q' : Fifo cap α} {value : α} (h : q.items = value :: q'.items) :
    perform .dequeue q = some (.value value, q') := by
  rw [perform, Fifo.dequeue_eq_some.mpr h]
  rfl

/-- The circular buffer holds the elements of the queue. -/
structure Represents {cap : ℕ} (d : Data α) (q : Fifo cap α) : Prop where
  length : d.buffer.length = cap
  capacity : d.capacity = cap
  size : d.size = q.items.length
  ring : ∃ out : ℕ, d.out = out ∧ d.in = ((out + q.items.length) % cap : ℕ) ∧
    Ring.Represents d.buffer out q.items

theorem represents_initializer {cap : ℕ} {buffer : List (Option α)} (hcap : buffer.length = cap)
    (h0 : 0 < cap) : Represents (initializer buffer) (Fifo.empty : Fifo cap α) where
  length := hcap
  capacity := congrArg Nat.cast hcap
  size := rfl
  ring := ⟨0, rfl, by simp [initializer], Ring.represents_nil (hcap ▸ h0)⟩

/-! ### The lines of a function -/

theorem increment_natCast {n : ℕ} (h : (n : ℤ) < intMax) :
    increment (n : ℤ) = some ((n + 1 : ℕ) : ℤ) := by
  rw [increment, if_pos h]
  rfl

theorem decrement_natCast (n : ℕ) : decrement ((n + 1 : ℕ) : ℤ) = some (n : ℤ) := by
  have hmin : -intMax - 1 < 0 := by norm_num [intMax]
  rw [decrement, if_pos (by omega)]
  congr 1
  omega

theorem remainder_natCast {n m : ℕ} (h : 0 < m) :
    remainder (n : ℤ) (m : ℤ) = some ((n % m : ℕ) : ℤ) := by
  rw [remainder, if_neg (by omega)]
  rfl

variable {cap : ℕ} {d : Data α} {q : Fifo cap α}

/-- Full is what the loop of `queue_enqueue` waits for to end. -/
theorem Represents.size_eq_capacity (h : Represents d q) : d.size = d.capacity ↔ q.Full := by
  rw [h.size, h.capacity, Fifo.Full]
  exact Int.natCast_inj

theorem Represents.size_eq_zero (h : Represents d q) : d.size = 0 ↔ q.items = [] := by
  rw [h.size, ← List.length_eq_zero_iff]
  exact Int.natCast_eq_zero

/-- **The lines of `queue_enqueue` append.** -/
theorem runAll_enqueueBody (hcap : (cap : ℤ) ≤ intMax) {q' : Fifo cap α} {value : α}
    (h : Represents d q) (hq : q.enqueue value = some q') :
    ∃ d', Monitor.runAll (enqueueBody value) d .void = some (d', .void) ∧ Represents d' q' := by
  obtain ⟨hlength, hcapacity, hsize, out, hout, hin, hring⟩ := h
  have hitems := Fifo.enqueue_eq_some.mp hq
  have hlt : q.items.length < cap := by
    have hbound := q'.bound
    rw [hitems, List.length_append, List.length_singleton] at hbound
    exact hbound
  obtain ⟨b, hstore, hb, hring'⟩ := hring.push (hlength ▸ hlt) value
  rw [hlength] at hstore
  have hmod : (out + q.items.length) % cap < cap := Nat.mod_lt _ (by omega)
  refine ⟨{ d with buffer := b, size := (q.items.length + 1 : ℕ),
                   «in» := (((out + q.items.length) % cap + 1) % cap : ℕ) }, ?_, ?_⟩
  · have hput : store d.buffer d.in value = some b := by
      rw [hin, store, if_pos (Int.natCast_nonneg _), Int.toNat_natCast]
      exact hstore
    have hincr : increment d.size = some ((q.items.length + 1 : ℕ) : ℤ) := by
      rw [hsize, increment_natCast (by omega)]
    have hin₁ : increment d.in = some (((out + q.items.length) % cap + 1 : ℕ) : ℤ) := by
      rw [hin, increment_natCast (by omega)]
    have hin₂ : remainder (((out + q.items.length) % cap + 1 : ℕ) : ℤ) d.capacity
        = some ((((out + q.items.length) % cap + 1) % cap : ℕ) : ℤ) := by
      rw [hcapacity, remainder_natCast (by omega)]
    exact (Monitor.runAll_cons (Option.map_eq_some_iff.mpr ⟨b, hput, rfl⟩)).trans
      ((Monitor.runAll_cons (Option.map_eq_some_iff.mpr ⟨_, hincr, rfl⟩)).trans
      ((Monitor.runAll_cons (Option.map_eq_some_iff.mpr ⟨_, hin₁, rfl⟩)).trans
      (Monitor.runAll_cons (Option.map_eq_some_iff.mpr ⟨_, hin₂, rfl⟩))))
  · refine ⟨hb.trans hlength, hcapacity, ?_, out, hout, ?_, ?_⟩
    · rw [hitems, List.length_append, List.length_singleton]
    · show _ = _
      rw [hitems, List.length_append, List.length_singleton, Nat.mod_add_mod, Nat.add_assoc]
    · rw [hitems]
      exact hring'

/-- **The lines of `queue_dequeue` take the oldest element.** -/
theorem runAll_dequeueBody (hcap : (cap : ℤ) ≤ intMax) {q' : Fifo cap α} {value : α}
    (h : Represents d q) (hq : q.dequeue = some (value, q')) :
    ∃ d', Monitor.runAll dequeueBody d .void = some (d', .value value) ∧ Represents d' q' := by
  obtain ⟨hlength, hcapacity, hsize, out, hout, hin, hring⟩ := h
  have hitems := Fifo.dequeue_eq_some.mp hq
  rw [hitems] at hring hsize hin
  have hlt : out < cap := hlength ▸ hring.out_lt
  refine ⟨{ d with size := q'.items.length, out := ((out + 1) % cap : ℕ) }, ?_, ?_⟩
  · have hget : fetch d.buffer d.out = some value := by
      rw [hout, fetch, if_pos (Int.natCast_nonneg _), Int.toNat_natCast, hring.front]
      rfl
    have hdecr : decrement d.size = some (q'.items.length : ℤ) := by
      rw [hsize, List.length_cons, decrement_natCast]
    have hout₁ : increment d.out = some ((out + 1 : ℕ) : ℤ) := by
      rw [hout, increment_natCast (by omega)]
    have hout₂ : remainder ((out + 1 : ℕ) : ℤ) d.capacity
        = some (((out + 1) % cap : ℕ) : ℤ) := by
      rw [hcapacity, remainder_natCast (by omega)]
    exact (Monitor.runAll_cons (Option.map_eq_some_iff.mpr ⟨value, hget, rfl⟩)).trans
      ((Monitor.runAll_cons (Option.map_eq_some_iff.mpr ⟨_, hdecr, rfl⟩)).trans
      ((Monitor.runAll_cons (Option.map_eq_some_iff.mpr ⟨_, hout₁, rfl⟩)).trans
      (Monitor.runAll_cons (Option.map_eq_some_iff.mpr ⟨_, hout₂, rfl⟩))))
  · refine ⟨hlength, hcapacity, rfl, (out + 1) % cap, rfl, ?_, ?_⟩
    · rw [hin, List.length_cons, Nat.mod_add_mod]
      congr 2
      omega
    · have hpop := hring.pop
      rwa [hlength] at hpop

theorem dequeue_eq_none : q.dequeue = none ↔ q.items = [] := by
  obtain ⟨items, hb⟩ := q
  cases items <;> simp [Fifo.dequeue]

/-- **The functions of queue.c implement a bounded queue.** -/
theorem implements (α : Type*) {cap : ℕ} (hcap : (cap : ℤ) ≤ intMax) :
    (functions α).Implements (@perform α cap) Represents where
  waits {c d q} h := by
    cases c with
    | enqueue value =>
        simp [Monitor.mustWait, functions, perform, h.size_eq_capacity, Fifo.enqueue_eq_none]
    | dequeue =>
        rw [perform, Option.map_eq_none_iff, dequeue_eq_none]
        simp [Monitor.mustWait, functions, h.size_eq_zero]
    | size => simp [Monitor.mustWait, functions, perform]
  performs {c d q r q'} h hp := by
    cases c with
    | enqueue value =>
        obtain ⟨q₁, hq, h₁⟩ := Option.map_eq_some_iff.mp hp
        cases h₁
        exact runAll_enqueueBody hcap h hq
    | dequeue =>
        obtain ⟨⟨value, q₁⟩, hq, h₁⟩ := Option.map_eq_some_iff.mp hp
        cases h₁
        exact runAll_dequeueBody hcap h hq
    | size =>
        cases hp
        exact ⟨d, by rw [← h.size]; rfl, h⟩
  wakes {c c' q r q'} hnone hp hsome := by
    cases c' with
    | size =>
        cases hp
        exact absurd hnone hsome
    | enqueue value =>
        obtain ⟨q₁, hq, h₁⟩ := Option.map_eq_some_iff.mp hp
        cases h₁
        cases c with
        | size => cases hnone
        | dequeue => rfl
        | enqueue value' =>
            -- there is room for the one, so there was for the other
            have hfull := Fifo.enqueue_eq_none.mp (Option.map_eq_none_iff.mp hnone)
            rw [Fifo.enqueue_eq_none.mpr hfull] at hq
            cases hq
    | dequeue =>
        obtain ⟨⟨value, q₁⟩, hq, h₁⟩ := Option.map_eq_some_iff.mp hp
        cases h₁
        cases c with
        | size => cases hnone
        | enqueue value' => rfl
        | dequeue =>
            rw [Option.map_eq_none_iff.mp hnone] at hq
            cases hq

/-! ### Any number of threads -/

variable {ι : Type*} [DecidableEq ι]

/-- **`queue.c` is linearizable.**  Whatever any number of threads call, however their
statements interleave and whoever is woken without a broadcast: what they see they could
have seen of one bounded queue whose operations are indivisible.  No statement is
undefined, no two threads are between lock and unlock, and while nobody is, `queue_t`
stands for that queue. -/
theorem linearizable {buffer : List (Option α)} (h0 : 0 < buffer.length)
    (hmax : (buffer.length : ℤ) ≤ intMax) {as : List (Monitor.Action ι (Call α))}
    {s : Monitor.State ι (Data α) (Call α) (Result α)}
    (h : (functions α).system.exec (Monitor.init (initializer buffer)) as = some s) :
    ∃ bs t,
      (Atomic.system (@perform α buffer.length)).exec (Atomic.init Fifo.empty) bs = some t ∧
      (Atomic.system perform).trace Atomic.seen (Atomic.init (Fifo.empty : Fifo buffer.length α)) bs
        = (functions α).system.trace Monitor.seen (Monitor.init (initializer buffer)) as ∧
      (∀ u, s.pc u ≠ .fault) ∧
      (∀ u v, (s.pc u).owns = true → (s.pc v).owns = true → u = v) ∧
      (s.mutex = none → Represents s.data t.obj) := by
  obtain ⟨bs, t, hexec, htrace, href⟩ := Monitor.linearizes (implements α hmax)
    (Monitor.refines_init (represents_initializer rfl h0)) h
  exact ⟨bs, t, hexec, htrace, href.not_fault, fun _ _ => href.owner_unique, href.free⟩

/-- A thread waits for an element, another brings it. -/
def handOver : List (Monitor.Action Bool (Call ℕ)) :=
  [.call false .dequeue, .run false, .run false, .run false, .call true (.enqueue 7)] ++
    List.replicate 9 (.run true) ++ List.replicate 9 (.run false)

theorem linearizable_handOver :
    ∃ bs t, (Atomic.system (@perform ℕ 2)).exec (Atomic.init Fifo.empty) bs = some t ∧
      (Atomic.system perform).trace Atomic.seen
          (Atomic.init (Fifo.empty : Fifo 2 ℕ) : Atomic.State Bool _ _ _) bs
        = [.call false .dequeue, .call true (.enqueue 7), .ret true (.enqueue 7) .void,
            .ret false .dequeue (.value 7)] := by
  have hsome : ((functions ℕ).system.exec (Monitor.init (initializer [none, none]))
      handOver).isSome = true := by decide
  obtain ⟨s, hs⟩ := Option.isSome_iff_exists.mp hsome
  obtain ⟨bs, t, hexec, htrace, -⟩ := linearizable (by decide) (by norm_num [intMax]) hs
  exact ⟨bs, t, hexec, htrace.trans (by decide)⟩

variable {buffer : List (Option α)} {s s' : Monitor.State ι (Data α) (Call α) (Result α)}

/-- What holds of every state that the functions reach. -/
theorem refines_of_exec (h0 : 0 < buffer.length) (hmax : (buffer.length : ℤ) ≤ intMax)
    {as : List (Monitor.Action ι (Call α))}
    (h : (functions α).system.exec (Monitor.init (initializer buffer)) as = some s) :
    ∃ t, Monitor.Refines (functions α) (@perform α buffer.length) Represents s t := by
  obtain ⟨-, t, -, -, href⟩ := Monitor.linearizes (implements α hmax)
    (Monitor.refines_init (represents_initializer rfl h0)) h
  exact ⟨t, href⟩

/-- **No wakeup is lost.**  In every state reached, a thread that sleeps in
`queue_dequeue` while the mutex is free sleeps because the queue is empty, unless some
`queue_enqueue` has yet to broadcast; and a sleeping `queue_enqueue` finds it full, unless
some `queue_dequeue` has. -/
theorem no_lost_wakeup (h0 : 0 < buffer.length) (hmax : (buffer.length : ℤ) ≤ intMax)
    {as : List (Monitor.Action ι (Call α))}
    (h : (functions α).system.exec (Monitor.init (initializer buffer)) as = some s)
    (hfree : s.mutex = none) (u : ι) :
    (s.pc u = .asleep .dequeue →
      s.data.size = 0 ∨ ∃ v value r, s.pc v = .broadcast (.enqueue value) r) ∧
    (∀ value, s.pc u = .asleep (.enqueue value) →
      s.data.size = s.data.capacity ∨ ∃ v r, s.pc v = .broadcast .dequeue r) := by
  obtain ⟨t, href⟩ := refines_of_exec h0 hmax h
  have hrep := href.free hfree
  constructor
  · intro hu
    refine (href.sleepers u _ hu).imp ?_ ?_
    · intro hnone
      rw [hrep.size_eq_zero, ← dequeue_eq_none]
      exact Option.map_eq_none_iff.mp hnone
    · rintro ⟨v, c, r, hv, hr⟩
      cases c with
      | enqueue value => exact ⟨v, value, r, hv⟩
      | dequeue | size => cases hr
  · intro value hu
    refine (href.sleepers u _ hu).imp ?_ ?_
    · intro hnone
      rw [hrep.size_eq_capacity, ← Fifo.enqueue_eq_none]
      exact Option.map_eq_none_iff.mp hnone
    · rintro ⟨v, c, r, hv, hr⟩
      cases c with
      | dequeue => exact ⟨v, r, hv⟩
      | enqueue value' | size => cases hr

theorem no_lost_wakeup_handOver :
    ∃ s, (functions ℕ).system.exec (Monitor.init (initializer [none, none])) (handOver.take 4)
        = some s ∧ s.pc false = .asleep .dequeue ∧
      (s.data.size = 0 ∨ ∃ v value r, s.pc v = .broadcast (.enqueue value) r) := by
  have hasleep : ((functions ℕ).system.exec (Monitor.init (initializer [none, none]))
      (handOver.take 4)).map (fun s => (s.mutex, s.pc false))
        = some (none, .asleep .dequeue) := by decide
  obtain ⟨s, hs, hpc⟩ := Option.map_eq_some_iff.mp hasleep
  obtain ⟨hfree, hpc⟩ := Prod.mk.inj hpc
  exact ⟨s, hs, hpc,
    (no_lost_wakeup (by decide) (by norm_num [intMax]) hs hfree false).1 hpc⟩

theorem length_body_le (c : Call α) : ((functions α).body c).length ≤ 4 := by
  cases c <;> simp [functions, enqueueBody, dequeueBody, sizeBody]

omit [DecidableEq ι] in
theorem rank_le [Fintype ι] (s : Monitor.State ι (Data α) (Call α) (Result α)) :
    Monitor.rank 4 s ≤ Fintype.card ι * (3 * Fintype.card ι + 11) := by
  have hle : ∀ u ∈ Finset.univ,
      Monitor.weight 4 (Fintype.card ι) (s.pc u) ≤ 3 * Fintype.card ι + 11 := by
    intro u _
    cases s.pc u <;> simp only [Monitor.weight] <;> omega
  have hsum := Finset.sum_le_card_nsmul Finset.univ _ _ hle
  rwa [Finset.card_univ, smul_eq_mul] at hsum

/-- **The calls end.**  From any state reached, with no new calls and nobody woken without
a broadcast: every schedule of the calls under way comes to an end, after at most
`N * (3 * N + 11)` steps of `N` threads, and then all of them have returned but those
that wait for room in a full queue, or those that wait for an element of an empty one. -/
theorem calls_end [Fintype ι] (h0 : 0 < buffer.length) (hmax : (buffer.length : ℤ) ≤ intMax)
    {as : List (Monitor.Action ι (Call α))}
    (h : (functions α).system.exec (Monitor.init (initializer buffer)) as = some s)
    {us : List ι} (hus : (functions α).system.exec s (us.map .run) = some s') :
    us.length ≤ Fintype.card ι * (3 * Fintype.card ι + 11) ∧
    ((∀ u, (functions α).run s' u = none) →
      (∀ u, s'.pc u = .idle) ∨
      (s'.data.size = s'.data.capacity ∧
        ∀ u, s'.pc u = .idle ∨ ∃ value, s'.pc u = .asleep (.enqueue value)) ∨
      (s'.data.size = 0 ∧ ∀ u, s'.pc u = .idle ∨ s'.pc u = .asleep .dequeue)) := by
  have hexec : (functions α).system.exec (Monitor.init (initializer buffer)) (as ++ us.map .run)
      = some s' := by
    rw [Guarded.exec_append, h]
    exact hus
  obtain ⟨t, href⟩ := refines_of_exec h0 hmax hexec
  constructor
  · have hlen := Monitor.length_le_rank length_body_le hus
    have hrank := rank_le s
    omega
  · intro hstuck
    have hwait := href.stuck hstuck
    have hrep := href.free (href.free_of_stuck hstuck)
    by_cases hidle : ∀ u, s'.pc u = .idle
    · exact .inl hidle
    obtain ⟨w, hw⟩ := not_forall.mp hidle
    obtain ⟨c, -, hnone⟩ := (hwait w).resolve_left hw
    right
    cases c with
    | size => cases hnone
    | enqueue value =>
        have hfull := Fifo.enqueue_eq_none.mp (Option.map_eq_none_iff.mp hnone)
        refine .inl ⟨hrep.size_eq_capacity.mpr hfull, ?_⟩
        intro u
        refine (hwait u).imp_right ?_
        rintro ⟨c, hu, hnone'⟩
        cases c with
        | size => cases hnone'
        | enqueue value' => exact ⟨value', hu⟩
        | dequeue =>
            -- a full queue is not empty
            have hempty := dequeue_eq_none.mp (Option.map_eq_none_iff.mp hnone')
            rw [Fifo.Full, hempty, List.length_nil] at hfull
            omega
    | dequeue =>
        have hempty := dequeue_eq_none.mp (Option.map_eq_none_iff.mp hnone)
        refine .inr ⟨hrep.size_eq_zero.mpr hempty, ?_⟩
        intro u
        refine (hwait u).imp_right ?_
        rintro ⟨c, hu, hnone'⟩
        cases c with
        | size => cases hnone'
        | dequeue => exact hu
        | enqueue value =>
            have hfull := Fifo.enqueue_eq_none.mp (Option.map_eq_none_iff.mp hnone')
            rw [Fifo.Full, hempty, List.length_nil] at hfull
            omega

theorem calls_end_handOver :
    ∃ s s', (functions ℕ).system.exec (Monitor.init (initializer [none, none])) (handOver.take 5)
        = some s ∧
      (functions ℕ).system.exec s
        ((List.replicate 9 true ++ List.replicate 9 false).map .run) = some s' ∧
      ((∀ u, s'.pc u = .idle) ∨
        (s'.data.size = s'.data.capacity ∧
          ∀ u, s'.pc u = .idle ∨ ∃ value, s'.pc u = .asleep (.enqueue value)) ∨
        (s'.data.size = 0 ∧ ∀ u, s'.pc u = .idle ∨ s'.pc u = .asleep .dequeue)) := by
  have hend : (((functions ℕ).system.exec (Monitor.init (initializer [none, none]))
      (handOver.take 5)).bind fun s => (functions ℕ).system.exec s
        ((List.replicate 9 true ++ List.replicate 9 false).map .run)).map
          (fun s' => (((functions ℕ).run s' false).isNone, ((functions ℕ).run s' true).isNone))
      = some (true, true) := by decide
  obtain ⟨s', hs', hstuck⟩ := Option.map_eq_some_iff.mp hend
  obtain ⟨hfalse, htrue⟩ := Prod.mk.inj hstuck
  obtain ⟨s, hs, hs'⟩ := Option.bind_eq_some_iff.mp hs'
  refine ⟨s, s', hs, hs', (calls_end (by decide) (by norm_num [intMax]) hs hs').2 ?_⟩
  intro u
  cases u with
  | false => exact Option.isNone_iff_eq_none.mp hfalse
  | true => exact Option.isNone_iff_eq_none.mp htrue

/-! ### What goes in and what comes out -/

open Atomic (callsOf returnsOf operationsOf Replay)

/-- The values of the `queue_enqueue`s among some operations. -/
def valuesIn (ops : List (Call α × Result α)) : List α :=
  ops.filterMap fun
    | (.enqueue value, _) => some value
    | _ => none

/-- The values that the `queue_dequeue`s among some operations return. -/
def valuesOut (ops : List (Call α × Result α)) : List α :=
  ops.filterMap fun
    | (.dequeue, .value value) => some value
    | _ => none

omit [DecidableEq ι] in
/-- **First in, first out.**  What was taken out, and then what is still there, is what was
there and what was put in. -/
theorem valuesOut_append_items {cap : ℕ} {q q' : Fifo cap α} {ops : List (ι × Call α × Result α)}
    (h : Replay perform q ops q') :
    valuesOut (ops.map Prod.snd) ++ q'.items = q.items ++ valuesIn (ops.map Prod.snd) := by
  induction ops generalizing q with
  | nil =>
      obtain rfl : q = q' := h
      exact (List.append_nil _).symm
  | cons op ops ih =>
      obtain ⟨t, c, r⟩ := op
      obtain ⟨q₁, hp, h⟩ := h
      have ih := ih h
      cases c with
      | enqueue value =>
          obtain ⟨q₂, hq, h₂⟩ := Option.map_eq_some_iff.mp hp
          cases h₂
          rw [Fifo.enqueue_eq_some.mp hq, List.append_assoc] at ih
          exact ih
      | dequeue =>
          obtain ⟨⟨value, q₂⟩, hq, h₂⟩ := Option.map_eq_some_iff.mp hp
          cases h₂
          rw [Fifo.dequeue_eq_some.mp hq, List.cons_append]
          exact congrArg (List.cons value) ih
      | size =>
          cases hp
          exact ih

/-- **Every value comes out once, in the order it went in.**  The calls of any number of
threads take place one after the other, `ops`: each thread's calls in its own order with
the results it saw, all but one that may be pending, and one that may not have returned.
In this order, what was taken out, followed by what `queue_t` still holds, is what was put
in. -/
theorem delivered (h0 : 0 < buffer.length) (hmax : (buffer.length : ℤ) ≤ intMax)
    {as : List (Monitor.Action ι (Call α))}
    (h : (functions α).system.exec (Monitor.init (initializer buffer)) as = some s) :
    ∃ (ops : List (ι × Call α × Result α)) (q : Fifo buffer.length α),
      (∀ u, callsOf u ((functions α).system.trace Monitor.seen (Monitor.init (initializer buffer)) as)
        = (operationsOf u ops).map Prod.fst ++ (s.pc u).stage.pending) ∧
      (∀ u, returnsOf u
          ((functions α).system.trace Monitor.seen (Monitor.init (initializer buffer)) as)
        ++ (s.pc u).stage.finished = operationsOf u ops) ∧
      valuesOut (ops.map Prod.snd) ++ q.items = valuesIn (ops.map Prod.snd) ∧
      (s.mutex = none → Represents s.data q) := by
  obtain ⟨bs, t, hexec, htrace, href⟩ := Monitor.linearizes (implements α hmax)
    (Monitor.refines_init (represents_initializer rfl h0)) h
  have hops := Atomic.operationsOf_of_exec hexec
  rw [htrace] at hops
  refine ⟨_, t.obj, ?_, ?_, valuesOut_append_items (Atomic.replay_of_exec hexec), href.free⟩
  · intro u
    rw [(hops u).1, href.stage]
  · intro u
    rw [← href.stage]
    exact (hops u).2

theorem delivered_handOver :
    ∃ s, (functions ℕ).system.exec (Monitor.init (initializer [none, none])) handOver = some s ∧
      ∃ (ops : List (Bool × Call ℕ × Result ℕ)) (q : Fifo 2 ℕ),
        returnsOf false ((functions ℕ).system.trace Monitor.seen
          (Monitor.init (initializer [none, none])) handOver) ++ (s.pc false).stage.finished
            = operationsOf false ops ∧
        valuesOut (ops.map Prod.snd) ++ q.items = valuesIn (ops.map Prod.snd) := by
  have hsome : ((functions ℕ).system.exec (Monitor.init (initializer [none, none]))
      handOver).isSome = true := by decide
  obtain ⟨s, hs⟩ := Option.isSome_iff_exists.mp hsome
  obtain ⟨ops, q, -, hreturns, hvalues, -⟩ := delivered (by decide) (by norm_num [intMax]) hs
  exact ⟨s, hs, ops, q, hreturns false, hvalues⟩

end Queue

end SquidHelper
