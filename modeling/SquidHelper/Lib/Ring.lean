/-
SquidHelper/Lib/Ring.lean

Circular buffers.  `Represents slots out items` says that `items`, oldest first, stand in
the slots from `out` on, going around the end; the other slots may hold anything, or may
never have been written.
-/
import SquidHelper.Lib.Slots

namespace Ring

open Slots (store)

variable {α : Type*}

structure Represents (slots : List (Option α)) (out : ℕ) (items : List α) : Prop where
  out_lt : out < slots.length
  fits : items.length ≤ slots.length
  slot : ∀ i (h : i < items.length), slots[(out + i) % slots.length]? = some (some items[i])

theorem represents_nil {slots : List (Option α)} (h : 0 < slots.length) :
    Represents slots 0 [] where
  out_lt := h
  fits := Nat.zero_le _
  slot _ hi := absurd hi (Nat.not_lt_zero _)

/-- Different places of the queue are different slots. -/
theorem mod_ne_mod {n out i j : ℕ} (hij : i < j) (hj : j < n) : (out + i) % n ≠ (out + j) % n := by
  intro h
  have hdvd : n ∣ (out + j) - (out + i) :=
    Nat.dvd_of_mod_eq_zero (Nat.sub_mod_eq_zero_of_mod_eq h.symm)
  have hle := Nat.le_of_dvd (by omega) hdvd
  omega

variable {slots : List (Option α)} {out : ℕ} {items : List α} {a : α}

/-- **A store behind the newest element appends.** -/
theorem Represents.push (h : Represents slots out items) (hlt : items.length < slots.length)
    (a : α) : ∃ slots', store slots ((out + items.length) % slots.length) a = some slots' ∧
      slots'.length = slots.length ∧ Represents slots' out (items ++ [a]) := by
  have hpos : 0 < slots.length := by omega
  refine ⟨slots.set ((out + items.length) % slots.length) (some a), ?_, List.length_set, ?_⟩
  · rw [store, if_pos (Nat.mod_lt _ hpos)]
  · refine ⟨by rw [List.length_set]; exact h.out_lt,
      by rw [List.length_append, List.length_singleton, List.length_set]; exact hlt, ?_⟩
    intro i hi
    rw [List.length_append, List.length_singleton] at hi
    rw [List.length_set]
    rcases Nat.lt_succ_iff_lt_or_eq.mp hi with hlt' | rfl
    · rw [List.getElem?_set_ne (mod_ne_mod hlt' hlt).symm, h.slot i hlt',
        List.getElem_append_left hlt']
    · rw [List.getElem?_set_self (Nat.mod_lt _ hpos), List.getElem_append_right (Nat.le_refl _)]
      simp

/-- **The slot at `out` holds the oldest element.** -/
theorem Represents.front (h : Represents slots out (a :: items)) :
    slots[out]? = some (some a) := by
  have hslot := h.slot 0 (Nat.zero_lt_succ _)
  rwa [Nat.add_zero, Nat.mod_eq_of_lt h.out_lt] at hslot

/-- Moving on by one slot drops it. -/
theorem Represents.pop (h : Represents slots out (a :: items)) :
    Represents slots ((out + 1) % slots.length) items where
  out_lt := Nat.mod_lt _ (Nat.zero_lt_of_lt h.out_lt)
  fits := (Nat.le_succ _).trans h.fits
  slot i hi := by
    have hslot := h.slot (i + 1) (Nat.succ_lt_succ hi)
    rw [Nat.mod_add_mod, Nat.add_assoc, Nat.add_comm 1 i]
    exact hslot

end Ring
