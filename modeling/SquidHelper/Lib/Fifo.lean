/-
SquidHelper/Lib/Fifo.lean

Bounded first-in first-out queues.  The bound is carried by the type, so that an
overfull queue cannot be built; `enqueue` on a full queue and `dequeue` on an
empty one have no result, which is how a blocking operation appears in a guarded
transition system.

The second half is the bookkeeping for sums over finitely many threads when one
thread changes its state, and for counting threads.
-/
import Mathlib

/-- A queue of at most `cap` elements, oldest first. -/
@[ext] structure Fifo (cap : ℕ) (α : Type*) where
  items : List α
  bound : items.length ≤ cap
  deriving DecidableEq

namespace Fifo

variable {cap : ℕ} {α : Type*}

/-- The queue with no elements. -/
def empty : Fifo cap α := ⟨[], Nat.zero_le _⟩

@[simp] theorem items_empty : (empty : Fifo cap α).items = [] := rfl

/-- Append at the back; no result when the queue is full. -/
def enqueue (q : Fifo cap α) (x : α) : Option (Fifo cap α) :=
  if h : q.items.length < cap then some ⟨q.items ++ [x], by simpa using Nat.succ_le_of_lt h⟩ else none

/-- Take the oldest element; no result when the queue is empty. -/
def dequeue (q : Fifo cap α) : Option (α × Fifo cap α) :=
  match q with
  | ⟨[], _⟩ => none
  | ⟨x :: xs, h⟩ => some (x, ⟨xs, Nat.le_of_succ_le h⟩)

/-- The queue has no room left. -/
def Full (q : Fifo cap α) : Prop := q.items.length = cap

instance (q : Fifo cap α) : Decidable q.Full := by unfold Full; infer_instance

theorem enqueue_eq_some {q q' : Fifo cap α} {x : α} :
    q.enqueue x = some q' ↔ q'.items = q.items ++ [x] := by
  unfold enqueue
  split
  case isTrue h =>
    rw [Option.some.injEq, Fifo.ext_iff, eq_comm]
  case isFalse h =>
    refine ⟨fun h' => absurd h' (by simp), fun h' => absurd ?_ h⟩
    have := q'.bound
    rw [h', List.length_append, List.length_singleton] at this
    omega

theorem enqueue_eq_none {q : Fifo cap α} {x : α} : q.enqueue x = none ↔ q.Full := by
  have hb := q.bound
  unfold enqueue Full
  split
  case isTrue h => exact ⟨fun h' => absurd h' (by simp), fun h' => absurd h' (Nat.ne_of_lt h)⟩
  case isFalse h => exact ⟨fun _ => by omega, fun _ => rfl⟩

theorem exists_enqueue {q : Fifo cap α} (x : α) (h : q.items.length < cap) :
    ∃ q', q.enqueue x = some q' ∧ q'.items = q.items ++ [x] := by
  rcases e : q.enqueue x with - | q'
  · rw [enqueue_eq_none] at e
    exact absurd e (Nat.ne_of_lt h)
  · exact ⟨q', rfl, enqueue_eq_some.mp e⟩

theorem dequeue_eq_some {q q' : Fifo cap α} {x : α} :
    q.dequeue = some (x, q') ↔ q.items = x :: q'.items := by
  obtain ⟨items, hb⟩ := q
  cases items with
  | nil => simp [dequeue]
  | cons y ys => simp [dequeue, Fifo.ext_iff]

theorem exists_dequeue {q : Fifo cap α} {x : α} {xs : List α} (h : q.items = x :: xs) :
    ∃ q', q.dequeue = some (x, q') ∧ q'.items = xs := by
  obtain ⟨items, hb⟩ := q
  cases h
  exact ⟨⟨xs, Nat.le_of_succ_le hb⟩, rfl, rfl⟩

end Fifo

/-! ### Sums over threads -/

section Threads

variable {ι α : Type*} [Fintype ι] [DecidableEq ι]

/-- When one thread moves from `g i` to `x`, a sum over all threads changes by
exactly that thread's contribution. -/
theorem sum_update_add {M : Type*} [AddCommMonoid M] (f : ι → α → M) (g : ι → α) (i : ι) (x : α) :
    (∑ j, f j (Function.update g i x j)) + f i (g i) = (∑ j, f j (g j)) + f i x := by
  have hcomp : (fun j => f j (Function.update g i x j))
      = Function.update (fun j => f j (g j)) i (f i x) := by
    funext j
    rcases eq_or_ne j i with rfl | hj
    · simp
    · simp [hj]
  have hold := Finset.sum_eq_add_sum_sdiff_singleton_of_mem (Finset.mem_univ i) fun j => f j (g j)
  rw [hcomp, Finset.sum_update_of_mem (Finset.mem_univ i), hold]
  ac_rfl

/-- A move that leaves the thread's contribution as it is leaves the sum as it is. -/
theorem sum_update_eq {f : ι → α → ℕ} {g : ι → α} {i : ι} {x : α} (h : f i x = f i (g i)) :
    ∑ j, f j (Function.update g i x j) = ∑ j, f j (g j) := by
  have hsum := sum_update_add f g i x
  omega

/-- Not more threads are counted than there are. -/
theorem sum_toNat_le {n : ℕ} (f : Fin n → Bool) : ∑ i, (f i).toNat ≤ n := by
  simpa using Finset.sum_le_card_nsmul Finset.univ (fun i => (f i).toNat) 1
    fun i _ => Bool.toNat_le (f i)

theorem sum_toNat_eq {n : ℕ} {f : Fin n → Bool} (h : ∀ i, f i = true) :
    ∑ i, (f i).toNat = n := by
  simp [h]

theorem sum_toNat_lt {n : ℕ} {f : Fin n → Bool} {i : Fin n} (h : f i = false) :
    ∑ j, (f j).toNat < n := by
  have hlt : ∑ j, (f j).toNat < ∑ _j : Fin n, 1 :=
    Finset.sum_lt_sum (fun j _ => Bool.toNat_le (f j)) ⟨i, Finset.mem_univ i, by simp [h]⟩
  simpa using hlt

end Threads
