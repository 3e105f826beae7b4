/-
SquidHelper/Lib/Slots.lean

Arrays that are filled from the front: a block of slots and a count of those in use.

A slot is `none` until it is written, and a store behind the last slot has no result.
`filled n entries` is the array of `n` slots after the `entries` have been stored one by
one; the rules say what a store and a reallocation make of it.
-/
import Mathlib

namespace Slots

universe u v

variable {α : Type*}

/-- `slots[i] = a`. -/
def store (slots : List (Option α)) (i : ℕ) (a : α) : Option (List (Option α)) :=
  if i < slots.length then some (slots.set i (some a)) else none

/-- `n` fresh slots. -/
def fresh (n : ℕ) : List (Option α) := List.replicate n none

/-- `realloc` to `n` slots. -/
def resize (slots : List (Option α)) (n : ℕ) : List (Option α) :=
  slots.take n ++ fresh (n - slots.length)

/-- `n` slots, the first of them in use. -/
def filled (n : ℕ) (entries : List α) : List (Option α) :=
  entries.map some ++ fresh (n - entries.length)

theorem filled_nil (n : ℕ) : filled n ([] : List α) = fresh n := rfl

theorem length_filled {n : ℕ} {entries : List α} (h : entries.length ≤ n) :
    (filled n entries).length = n := by
  rw [filled, fresh, List.length_append, List.length_map, List.length_replicate]
  omega

theorem take_filled (n : ℕ) (entries : List α) :
    (filled n entries).take entries.length = entries.map some := by
  have hlen : entries.length = (entries.map some).length := (List.length_map ..).symm
  rw [filled, hlen, List.take_left]

theorem getElem?_filled {n i : ℕ} {entries : List α} (h : i < entries.length) :
    (filled n entries)[i]? = some (some entries[i]) := by
  have hi : i < (entries.map some).length := by rwa [List.length_map]
  rw [filled, List.getElem?_append_left hi, List.getElem?_map, List.getElem?_eq_getElem h]
  rfl

/-- A loop over the entries by their index. -/
theorem foldlM_range {β : Type u} {m : Type u → Type v} [Monad m] [LawfulMonad m]
    {entries : List α} {f : β → ℕ → m β} {g : β → α → m β}
    (h : ∀ b i, (hi : i < entries.length) → f b i = g b entries[i]) (b : β) :
    (List.range entries.length).foldlM f b = entries.foldlM g b := by
  have hrounds : ∀ k ≤ entries.length,
      (List.range k).foldlM f b = (entries.take k).foldlM g b := by
    intro k hk
    induction k with
    | zero => rfl
    | succ k ih =>
        have hone : ∀ b, f b k = g b entries[k] := fun b => h b k hk
        rw [List.range_succ, List.foldlM_append, ih (Nat.le_of_succ_le hk), List.take_add_one,
          List.getElem?_eq_getElem hk, List.foldlM_append]
        simp only [Option.toList_some, List.foldlM_cons, List.foldlM_nil, hone]
  rw [hrounds _ le_rfl, List.take_length]

/-- A store into the first free slot. -/
theorem store_filled {n : ℕ} {entries : List α} (h : entries.length < n) (a : α) :
    store (filled n entries) entries.length a = some (filled n (entries ++ [a])) := by
  obtain ⟨k, hk⟩ : ∃ k, n - entries.length = k + 1 := ⟨n - entries.length - 1, by omega⟩
  have hrest : n - (entries ++ [a]).length = k := by
    rw [List.length_append, List.length_singleton]
    omega
  have hset : (filled n entries).set entries.length (some a) = filled n (entries ++ [a]) := by
    rw [filled, filled, hrest, hk, List.set_append_right _ _ (by rw [List.length_map]),
      List.length_map, Nat.sub_self, fresh, List.replicate_succ, List.set_cons_zero,
      List.map_append, List.append_assoc]
    rfl
  rw [store, length_filled (Nat.le_of_lt h), if_pos h, hset]

/-- There is no slot behind the last one. -/
theorem store_filled_full {n : ℕ} {entries : List α} (h : entries.length = n) (a : α) :
    store (filled n entries) entries.length a = none := by
  rw [store, length_filled (Nat.le_of_eq h), if_neg (by omega)]

theorem resize_filled {m n : ℕ} {entries : List α} (h : entries.length ≤ m) (hmn : m ≤ n) :
    resize (filled m entries) n = filled n entries := by
  have hsum : m - entries.length + (n - m) = n - entries.length := by omega
  rw [resize, length_filled h, List.take_of_length_le (by rw [length_filled h]; exact hmn),
    filled, filled, List.append_assoc, fresh, fresh, List.replicate_append_replicate, hsum]
  rfl

end Slots
