/-
SquidHelper/Lib/Memory.lean

Objects as the compiler sees them: blocks of bytes with loads and stores at offsets,
little-endian numbers, and the offsets of the members of a structure.

A load or store that leaves the block is `none`.  What a block holds after some stores
is read off byte by byte (`byteAt_store`, `byteAt_storeAll`): the last store that covers
a byte decides.
-/
import SquidHelper.Lib.CString

namespace Memory

open CString

/-! ### Blocks -/

/-- An object of `n` bytes. -/
abbrev Block (n : ℕ) := Fin n → Byte

variable {n : ℕ}

def Block.store (m : Block n) (off : ℕ) (bs : List Byte) : Option (Block n) :=
  if off + bs.length ≤ n then
    some fun k => if h : off ≤ k.val ∧ k.val - off < bs.length then bs[k.val - off] else m k
  else none

def Block.load (m : Block n) (off len : ℕ) : Option (List Byte) :=
  if h : off + len ≤ n then some (List.ofFn fun i : Fin len => m ⟨off + i, by omega⟩) else none

/-- Several stores, one after the other. -/
def Block.storeAll (m : Block n) : List (ℕ × List Byte) → Option (Block n)
  | [] => some m
  | s :: ss => (m.store s.1 s.2).bind fun m' => Block.storeAll m' ss

/-- The byte at an offset. -/
def Block.byteAt (m : Block n) (k : ℕ) : Option Byte := if h : k < n then some (m ⟨k, h⟩) else none

/-- What a store leaves at `k`, where `cur` was before. -/
def overwrite (k : ℕ) (cur : Option Byte) (s : ℕ × List Byte) : Option Byte :=
  if s.1 ≤ k ∧ k < s.1 + s.2.length then s.2[k - s.1]? else cur

theorem overwrite_of_outside {k : ℕ} {cur : Option Byte} {s : ℕ × List Byte}
    (h : k < s.1 ∨ s.1 + s.2.length ≤ k) : overwrite k cur s = cur := if_neg (by omega)

theorem overwrite_of_inside {off i : ℕ} {bs : List Byte} (h : i < bs.length)
    (cur : Option Byte) : overwrite (off + i) cur (off, bs) = bs[i]? := by
  rw [overwrite, if_pos ⟨Nat.le_add_right off i, Nat.add_lt_add_left h off⟩,
    Nat.add_sub_cancel_left]

/-- Stores elsewhere leave a byte as it is. -/
theorem foldl_overwrite_of_outside {k : ℕ} {ss : List (ℕ × List Byte)}
    (h : ∀ s ∈ ss, k < s.1 ∨ s.1 + s.2.length ≤ k) (cur : Option Byte) :
    ss.foldl (overwrite k) cur = cur := by
  induction ss with
  | nil => rfl
  | cons s ss ih =>
      obtain ⟨hs, hss⟩ := List.forall_mem_cons.mp h
      rw [List.foldl_cons, overwrite_of_outside hs, ih hss]

theorem byteAt_store {m m' : Block n} {off : ℕ} {bs : List Byte} (h : m.store off bs = some m')
    (k : ℕ) : m'.byteAt k = overwrite k (m.byteAt k) (off, bs) := by
  obtain ⟨hfit, h⟩ := Option.ite_none_right_eq_some.mp h
  cases h
  unfold Block.byteAt overwrite
  by_cases hk : k < n
  · by_cases hin : off ≤ k ∧ k < off + bs.length
    · have hidx : k - off < bs.length := by omega
      rw [dif_pos hk, if_pos hin, List.getElem?_eq_getElem hidx]
      simp only [hin.1, hidx, true_and, dite_true]
    · have hout : ¬ (off ≤ k ∧ k - off < bs.length) := by omega
      rw [dif_pos hk, if_neg hin, dif_pos hk]
      simp only [hout, dite_false]
  · have hout : ¬ (off ≤ k ∧ k < off + bs.length) := by omega
    rw [dif_neg hk, if_neg hout, dif_neg hk]

theorem byteAt_storeAll {m m' : Block n} {ss : List (ℕ × List Byte)} (h : m.storeAll ss = some m')
    (k : ℕ) : m'.byteAt k = ss.foldl (overwrite k) (m.byteAt k) := by
  induction ss generalizing m with
  | nil => cases h; rfl
  | cons s ss ih =>
      obtain ⟨m₁, h₁, h⟩ := Option.bind_eq_some_iff.mp h
      rw [ih h, byteAt_store h₁]
      rfl

/-- Stores inside the block succeed. -/
theorem storeAll_isSome (m : Block n) {ss : List (ℕ × List Byte)}
    (h : ∀ s ∈ ss, s.1 + s.2.length ≤ n) : ∃ m', m.storeAll ss = some m' := by
  induction ss generalizing m with
  | nil => exact ⟨m, rfl⟩
  | cons s ss ih =>
      obtain ⟨hs, hss⟩ := List.forall_mem_cons.mp h
      rw [Block.storeAll, Block.store, if_pos hs]
      exact ih _ hss

/-- A load returns the bytes that are there. -/
theorem load_eq_some_iff {m : Block n} {off len : ℕ} {bs : List Byte} :
    m.load off len = some bs ↔
      off + len ≤ n ∧ bs.length = len ∧ ∀ i < len, bs[i]? = m.byteAt (off + i) := by
  unfold Block.load
  split
  case isTrue hfit =>
    rw [Option.some_inj]
    constructor
    · rintro rfl
      refine ⟨hfit, List.length_ofFn, ?_⟩
      intro i hi
      rw [Block.byteAt, dif_pos (by omega), List.getElem?_ofFn, dif_pos hi]
    · rintro ⟨-, rfl, hall⟩
      apply List.ext_getElem?
      intro i
      rw [List.getElem?_ofFn]
      split
      case isTrue hi => rw [hall i hi, Block.byteAt, dif_pos (by omega)]
      case isFalse hi => exact (List.getElem?_eq_none (by omega)).symm
  case isFalse hfit => simp [hfit]

theorem load_length {m : Block n} {off len : ℕ} {bs : List Byte} (h : m.load off len = some bs) :
    bs.length = len := (load_eq_some_iff.mp h).2.1

theorem store_isSome_iff {m : Block n} {off : ℕ} {bs : List Byte} :
    (∃ m', m.store off bs = some m') ↔ off + bs.length ≤ n := by
  unfold Block.store
  split
  case isTrue hfit => simp [hfit]
  case isFalse hfit => simp [hfit]

/-- Two stores side by side at the beginning. -/
theorem load_store_store {m m₁ m₂ : Block n} {xs ys : List Byte} (h₁ : m.store 0 xs = some m₁)
    (h₂ : m₁.store xs.length ys = some m₂) :
    m₂.load 0 (xs.length + ys.length) = some (xs ++ ys) := by
  rw [load_eq_some_iff, Nat.zero_add]
  refine ⟨store_isSome_iff.mp ⟨_, h₂⟩, List.length_append, ?_⟩
  intro i hi
  rw [byteAt_store h₂, byteAt_store h₁, Nat.zero_add]
  rcases Nat.lt_or_ge i xs.length with hx | hx
  · rw [overwrite_of_outside (.inl hx), List.getElem?_append_left hx]
    have hbyte : overwrite (0 + i) (m.byteAt i) (0, xs) = xs[i]? := overwrite_of_inside hx _
    rw [Nat.zero_add] at hbyte
    exact hbyte.symm
  · obtain ⟨j, rfl⟩ := Nat.exists_eq_add_of_le hx
    rw [overwrite_of_inside (by omega), List.getElem?_append_right hx, Nat.add_sub_cancel_left]

/-! ### Numbers -/

/-- The number that bytes stand for, least significant byte first. -/
def ofBytes (bs : List Byte) : ℕ := Nat.ofDigits 256 (bs.map UInt8.toNat)

/-- The `w` bytes of a number, least significant byte first. -/
def toBytes : ℕ → ℕ → List Byte
  | 0, _ => []
  | w + 1, v => v.toUInt8 :: toBytes w (v / 256)

@[simp] theorem toBytes_length (w v : ℕ) : (toBytes w v).length = w := by
  induction w generalizing v with
  | zero => rfl
  | succ w ih => rw [toBytes, List.length_cons, ih]

@[simp] theorem ofBytes_cons (b : Byte) (bs : List Byte) :
    ofBytes (b :: bs) = b.toNat + 256 * ofBytes bs := Nat.ofDigits_cons ..

/-- Storing a number that fits and loading it again changes nothing. -/
theorem ofBytes_toBytes {w v : ℕ} (h : v < 256 ^ w) : ofBytes (toBytes w v) = v := by
  induction w generalizing v with
  | zero =>
      rw [pow_zero, Nat.lt_one_iff] at h
      rw [h]
      rfl
  | succ w ih =>
      have hdiv : v / 256 < 256 ^ w := Nat.div_lt_of_lt_mul (by rw [← pow_succ']; exact h)
      have hlow : v.toUInt8.toNat = v % 256 := UInt8.toNat_ofNat'
      rw [toBytes, ofBytes_cons, ih hdiv, hlow, Nat.mod_add_div]

/-! ### Structures -/

/-- What the compiler knows of a member's type. -/
structure Member where
  size : ℕ
  align : ℕ

/-- The first multiple of `a` from `off` on. -/
def alignUp (off a : ℕ) : ℕ := (off + (a - 1)) / a * a

/-- The offsets of some members, the first of them at `off` or later. -/
def offsetsFrom : ℕ → List Member → List ℕ
  | _, [] => []
  | off, m :: ms => alignUp off m.align :: offsetsFrom (alignUp off m.align + m.size) ms

/-- The end of the last member. -/
def endFrom : ℕ → List Member → ℕ
  | off, [] => off
  | off, m :: ms => endFrom (alignUp off m.align + m.size) ms

/-- `offsetof` the `i`-th member. -/
def offsetOf (ms : List Member) (i : ℕ) : ℕ := (offsetsFrom 0 ms).getD i 0

/-- The structure as a member of another one. -/
def structOf (ms : List Member) : Member :=
  let align := (ms.map Member.align).foldl max 1
  ⟨alignUp (endFrom 0 ms) align, align⟩

end Memory
