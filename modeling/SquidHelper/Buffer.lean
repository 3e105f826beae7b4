/-
SquidHelper/Buffer.lean

`src/core/webcontrol_buffer.c`: the growing byte buffer behind every line the
helper reads.

A buffer is a pointer to `capacity` allocated bytes of which the first `len` are
in use, the last of those being the terminating NUL; `len = 0` stands for the
empty string without any terminator.  A cell of the allocation is `none` until
it is written, and a copy that would leave the allocation is a fault, so that
"the functions never write out of bounds" is part of what is proved.

The abstraction relation is `Holds b xs`: buffer `b` is well formed and its
string is `xs`.  Each function has one specification lemma in terms of it; no
proof outside this file unfolds them.  `size_t` is `ℕ`.  A null `buffer*` makes
a function return at once, so the functions take the buffer itself; a null
source pointer is `none`.
-/
import SquidHelper.Lib.CString

namespace SquidHelper

open CString

/-- What the C code would run into instead of continuing. -/
inductive Fault
  | nullPointer | outOfBounds
  deriving DecidableEq, Repr

/-- The parts of a computation that succeeds. -/
theorem of_bind_eq_ok {ε α β : Type} {x : Except ε α} {f : α → Except ε β} {r : β}
    (h : x >>= f = .ok r) : ∃ a, x = .ok a ∧ f a = .ok r := by
  cases x with
  | error e => cases h
  | ok a => exact ⟨a, rfl, h⟩

/-- A byte of allocated memory, `none` as long as it is not written. -/
abbrev Cell := Option Byte

structure Buffer where
  ptr : Option (List Cell)
  len : ℕ
  capacity : ℕ
  deriving DecidableEq, Repr

def BUFFER_PIECE_SIZE : ℕ := 64

def BUFFER_MAX_REUSE_SIZE : ℕ := 256

/-! ### Memory -/

def malloc (n : ℕ) : Option (List Cell) := some (List.replicate n none)

def realloc (ptr : Option (List Cell)) (n : ℕ) : Option (List Cell) :=
  let old := ptr.getD []
  some (old.take n ++ List.replicate (n - old.length) none)

/-- The first `n` bytes behind a source pointer. -/
def load (m : List Byte) (n : ℕ) : Except Fault (List Byte) :=
  if n ≤ m.length then .ok (m.take n) else .error .outOfBounds

/-- `memcpy(ptr + off, src, |src|)`, also used for a single store. -/
def memcpy (ptr : Option (List Cell)) (off : ℕ) (src : List Byte) :
    Except Fault (Option (List Cell)) :=
  match ptr with
  | none => .error .nullPointer
  | some cells =>
      if off + src.length ≤ cells.length then
        .ok (some (cells.take off ++ src.map some ++ cells.drop (off + src.length)))
      else .error .outOfBounds

/-- `strlen` on a source pointer. -/
def strlenAt (m : List Byte) : Except Fault ℕ :=
  match strlen m with
  | none => .error .outOfBounds
  | some n => .ok n

/-! ### The functions -/

/-- `capacity += BUFFER_PIECE_SIZE - (capacity % BUFFER_PIECE_SIZE)`. -/
def roundUp (size : ℕ) : ℕ := size + (BUFFER_PIECE_SIZE - size % BUFFER_PIECE_SIZE)

def bufferInit : Buffer := ⟨none, 0, 0⟩

def bufferPrepareCopy (b : Buffer) (size : ℕ) : Buffer :=
  if b.capacity = 0 ∨ size > b.capacity then
    ⟨malloc (roundUp size), 0, roundUp size⟩
  else { b with len := 0 }

def bufferReset (b : Buffer) : Except Fault Buffer :=
  if b.capacity > BUFFER_MAX_REUSE_SIZE then .ok ⟨none, 0, 0⟩
  else if b.capacity ≠ 0 then do
    let ptr ← memcpy b.ptr 0 [NUL]
    return { b with ptr := ptr, len := 0 }
  else .ok { b with len := 0 }

def bufferCopyStringLen (b : Buffer) (s : Option (List Byte)) (sLen : ℕ) :
    Except Fault (ℤ × Buffer) :=
  match s with
  | none => .ok (-1, b)
  | some m => do
      let b := bufferPrepareCopy b (sLen + 1)
      let src ← load m sLen
      let ptr ← memcpy b.ptr 0 src
      let ptr ← memcpy ptr sLen [NUL]
      return (0, { b with ptr := ptr, len := sLen + 1 })

def bufferCopyString (b : Buffer) (s : Option (List Byte)) : Except Fault (ℤ × Buffer) :=
  match s with
  | none => .ok (-1, b)
  | some m => do
      let sLen := (← strlenAt m) + 1
      let b := bufferPrepareCopy b sLen
      let src ← load m sLen
      let ptr ← memcpy b.ptr 0 src
      return (0, { b with ptr := ptr, len := sLen })

/-- The bytes a pointer to allocated memory gives access to. -/
def Buffer.memory (b : Buffer) : Option (List Byte) :=
  b.ptr.map fun cells => cells.map (Option.getD · NUL)

def bufferCopyStringBuffer (b : Buffer) (src : Option Buffer) : Except Fault (ℤ × Buffer) :=
  match src with
  | none => .ok (-1, b)
  | some src =>
      if src.len = 0 then do
        let b ← bufferReset b
        return (0, b)
      else bufferCopyStringLen b src.memory (src.len - 1)

def bufferInitString (s : Option (List Byte)) : Except Fault Buffer := do
  let r ← bufferCopyString bufferInit s
  return r.2

def bufferInitStringLen (s : Option (List Byte)) (len : ℕ) : Except Fault Buffer := do
  let r ← bufferCopyStringLen bufferInit s len
  return r.2

def bufferInitBuffer (src : Option Buffer) : Except Fault Buffer := do
  let r ← bufferCopyStringBuffer bufferInit src
  return r.2

def bufferPrepareAppend (b : Buffer) (size : ℕ) : Buffer :=
  if b.capacity = 0 then ⟨malloc (roundUp size), 0, roundUp size⟩
  else if b.len + size > b.capacity then
    { b with ptr := realloc b.ptr (roundUp (b.capacity + size)),
             capacity := roundUp (b.capacity + size) }
  else b

def bufferAppendString (b : Buffer) (s : Option (List Byte)) : Except Fault (ℤ × Buffer) :=
  match s with
  | none => .ok (-1, b)
  | some m => do
      let sLen ← strlenAt m
      let b := bufferPrepareAppend b (sLen + 1)
      let len := if b.len = 0 then 1 else b.len
      let src ← load m (sLen + 1)
      let ptr ← memcpy b.ptr (len - 1) src
      return (0, { b with ptr := ptr, len := len + sLen })

def bufferAppendStringLen (b : Buffer) (s : Option (List Byte)) (sLen : ℕ) :
    Except Fault (ℤ × Buffer) :=
  match s with
  | none => .ok (-1, b)
  | some m =>
      if sLen = 0 then .ok (0, b)
      else do
        let b := bufferPrepareAppend b (sLen + 1)
        let len := if b.len = 0 then 1 else b.len
        let src ← load m sLen
        let ptr ← memcpy b.ptr (len - 1) src
        let ptr ← memcpy ptr (len + sLen - 1) [NUL]
        return (0, { b with ptr := ptr, len := len + sLen })

/-- `strtoupper`: clear bit 5 of every lower-case letter. -/
def toUpper (c : Byte) : Byte := if 97 ≤ c ∧ c ≤ 122 then c &&& ~~~32 else c

def strtoupper (str : List Byte) : List Byte := str.map toUpper

/-! ### The abstraction relation -/

/-- The allocation begins with the bytes `xs`. -/
def Starts (cells : List Cell) (xs : List Byte) : Prop := xs.map some <+: cells

/-- Buffer `b` is well formed and holds the string `xs`: nothing is allocated and
`xs` is empty, or `capacity` is a positive multiple of 64 and `len` is 0 (the
empty string) or counts `xs` and the NUL behind it. -/
inductive Buffer.Holds (b : Buffer) (xs : List Byte) : Prop
  | unallocated : b.ptr = none → b.capacity = 0 → b.len = 0 → xs = [] → Holds b xs
  | allocated (cells : List Cell) : b.ptr = some cells → cells.length = b.capacity →
      0 < b.capacity → BUFFER_PIECE_SIZE ∣ b.capacity →
      (b.len = 0 ∧ xs = [] ∨ b.len = xs.length + 1 ∧ Starts cells (xs ++ [NUL])) → Holds b xs

/-- The string in a buffer: nothing when `len = 0`, else the first `len - 1` bytes. -/
def Buffer.content (b : Buffer) : List Byte := (b.memory.getD []).take (b.len - 1)

theorem Starts.nil (cells : List Cell) : Starts cells [] := List.nil_prefix

theorem Starts.length_le {cells : List Cell} {xs : List Byte} (h : Starts cells xs) :
    xs.length ≤ cells.length := by
  simpa using List.IsPrefix.length_le h

theorem Starts.left {cells : List Cell} {xs ys : List Byte} (h : Starts cells (xs ++ ys)) :
    Starts cells xs := by
  rw [Starts, List.map_append] at h
  exact (List.prefix_append _ _).trans h

theorem Starts.map_getD {cells : List Cell} {xs : List Byte} (h : Starts cells xs) :
    xs <+: cells.map (Option.getD · NUL) := by
  obtain ⟨tail, rfl⟩ := h
  refine ⟨tail.map (Option.getD · NUL), ?_⟩
  simp [List.map_map, Function.comp_def]

/-- A well-formed buffer determines its string. -/
theorem Buffer.Holds.content {b : Buffer} {xs : List Byte} (h : b.Holds xs) : b.content = xs := by
  cases h with
  | unallocated hp hc hl hx => simp [Buffer.content, Buffer.memory, hp, hx]
  | allocated cells hp hlen hpos hdvd hstr =>
      rcases hstr with ⟨hl, rfl⟩ | ⟨hl, hs⟩
      · simp [Buffer.content, hl]
      · have hpre := hs.left.map_getD
        simp only [Buffer.content, Buffer.memory, hp, Option.map_some, Option.getD_some, hl,
          Nat.add_sub_cancel]
        exact (List.prefix_iff_eq_take.mp hpre).symm

theorem Buffer.Holds.len_ne_zero {b : Buffer} {xs : List Byte} (h : b.Holds xs) (hne : xs ≠ []) :
    b.len ≠ 0 := by
  cases h with
  | unallocated hp hc hl hx => exact absurd hx hne
  | allocated cells hp hlen hpos hdvd hstr =>
      rcases hstr with ⟨hl, hx⟩ | ⟨hl, hs⟩
      · exact absurd hx hne
      · rw [hl]
        exact Nat.succ_ne_zero _

/-- What C code reads through `ptr`, there being a terminator. -/
theorem Buffer.Holds.cString_memory {b : Buffer} {xs : List Byte} (h : b.Holds xs)
    (hlen : b.len ≠ 0) (hnul : NUL ∉ xs) : ∃ m, b.memory = some m ∧ cString m = xs := by
  cases h with
  | unallocated hp hc hl hx => exact absurd hl hlen
  | allocated cells hp hcap hpos hdvd hstr =>
      rcases hstr with ⟨hl, hx⟩ | ⟨hl, hs⟩
      · exact absurd hl hlen
      · obtain ⟨tail, htail⟩ := hs.map_getD
        refine ⟨cells.map (Option.getD · NUL), by rw [Buffer.memory, hp, Option.map_some], ?_⟩
        rw [← htail, List.append_assoc, List.singleton_append]
        exact cString_append_nul hnul tail

theorem holds_bufferInit : bufferInit.Holds [] := .unallocated rfl rfl rfl rfl

/-! ### Copies stay inside the allocation -/

theorem dvd_roundUp (size : ℕ) : BUFFER_PIECE_SIZE ∣ roundUp size := by
  simp only [roundUp, BUFFER_PIECE_SIZE]
  omega

/-- Rounding up always adds at least one byte. -/
theorem lt_roundUp (size : ℕ) : size < roundUp size := by
  simp only [roundUp, BUFFER_PIECE_SIZE]
  omega

/-- A copy that begins inside the known prefix and fits replaces the prefix from
there on. -/
theorem memcpy_starts {cells : List Cell} {xs : List Byte} {off : ℕ} (src : List Byte)
    (hs : Starts cells xs) (hoff : off ≤ xs.length) (hfit : off + src.length ≤ cells.length) :
    ∃ cells', memcpy (some cells) off src = .ok (some cells') ∧
      cells'.length = cells.length ∧ Starts cells' (xs.take off ++ src) := by
  refine ⟨cells.take off ++ src.map some ++ cells.drop (off + src.length), ?_, ?_, ?_⟩
  · simp [memcpy, hfit]
  · simp only [List.length_append, List.length_take, List.length_map, List.length_drop]
    omega
  · have htake : cells.take off = (xs.take off).map some := by
      obtain ⟨tail, rfl⟩ := hs
      rw [List.take_append_of_le_length (by simpa using hoff), List.map_take]
    rw [Starts, List.map_append, htake]
    exact List.prefix_append _ _

/-- The first copy into fresh memory. -/
theorem memcpy_malloc {n : ℕ} {src : List Byte} (h : src.length ≤ n) :
    memcpy (malloc n) 0 src
      = .ok (some (src.map some ++ List.replicate (n - src.length) none)) := by
  have hfit : 0 + src.length ≤ (List.replicate n (none : Cell)).length := by
    rw [Nat.zero_add, List.length_replicate]
    exact h
  simp only [malloc, memcpy]
  rw [if_pos hfit]
  simp only [Nat.zero_add, List.take_zero, List.nil_append, List.drop_replicate]

/-- A copy that is too long for fresh memory. -/
theorem memcpy_malloc_error {n : ℕ} {src : List Byte} (h : ¬ src.length ≤ n) :
    memcpy (malloc n) 0 src = .error .outOfBounds := by
  simp only [malloc, memcpy]
  rw [if_neg (by rwa [Nat.zero_add, List.length_replicate])]

theorem load_append (xs m : List Byte) : load (xs ++ m) xs.length = .ok xs := by
  simp [load]

theorem strlenAt_append {s : List Byte} (h : NUL ∉ s) (m : List Byte) :
    strlenAt (s ++ NUL :: m) = .ok s.length := by
  simp [strlenAt, strlen_append_nul h]

/-! ### Specifications -/

/-- After `buffer_prepare_copy` there is room for more than nothing and the
string is empty. -/
theorem bufferPrepareCopy_spec {b : Buffer} {xs : List Byte} (h : b.Holds xs) (size : ℕ) :
    ∃ cells, (bufferPrepareCopy b size).ptr = some cells ∧
      cells.length = (bufferPrepareCopy b size).capacity ∧
      0 < (bufferPrepareCopy b size).capacity ∧ size ≤ (bufferPrepareCopy b size).capacity ∧
      BUFFER_PIECE_SIZE ∣ (bufferPrepareCopy b size).capacity ∧
      (bufferPrepareCopy b size).len = 0 := by
  have hlt := lt_roundUp size
  unfold bufferPrepareCopy
  split
  case isTrue hgrow =>
    exact ⟨_, rfl, by simp, by simp only; omega, by simp only; omega, dvd_roundUp size, rfl⟩
  case isFalse hkeep =>
    rw [not_or, not_lt] at hkeep
    cases h with
    | unallocated hp hc hl hx => exact absurd hc hkeep.1
    | allocated cells hp hlen hpos hdvd hstr => exact ⟨cells, hp, hlen, hpos, hkeep.2, hdvd, rfl⟩

theorem bufferPrepareCopy_bufferInit (size : ℕ) :
    bufferPrepareCopy bufferInit size = ⟨malloc (roundUp size), 0, roundUp size⟩ :=
  if_pos (.inl rfl)

theorem holds_bufferPrepareCopy {b : Buffer} {xs : List Byte} (h : b.Holds xs) (size : ℕ) :
    (bufferPrepareCopy b size).Holds [] := by
  obtain ⟨cells, hp, hlen, hpos, -, hdvd, hl⟩ := bufferPrepareCopy_spec h size
  exact .allocated cells hp hlen hpos hdvd (.inl ⟨hl, rfl⟩)

theorem bufferReset_spec {b : Buffer} {xs : List Byte} (h : b.Holds xs) :
    ∃ b', bufferReset b = .ok b' ∧ b'.Holds [] := by
  unfold bufferReset
  split
  case isTrue hbig => exact ⟨_, rfl, .unallocated rfl rfl rfl rfl⟩
  case isFalse hsmall =>
    cases h with
    | unallocated hp hc hl hx =>
        rw [if_neg (by simp [hc])]
        exact ⟨_, rfl, .unallocated hp hc rfl rfl⟩
    | allocated cells hp hlen hpos hdvd hstr =>
        obtain ⟨cells', hm, hlen', -⟩ := memcpy_starts [NUL] (Starts.nil cells)
          (Nat.le_refl 0) (by simp only [List.length_singleton]; omega)
        rw [if_pos (Nat.ne_of_gt hpos), hp, hm]
        exact ⟨_, rfl, .allocated cells' rfl (hlen'.trans hlen) hpos hdvd (.inl ⟨rfl, rfl⟩)⟩

theorem bufferCopyStringLen_spec {b : Buffer} {xs : List Byte} (h : b.Holds xs)
    (ys m : List Byte) :
    ∃ b', bufferCopyStringLen b (some (ys ++ m)) ys.length = .ok (0, b') ∧ b'.Holds ys := by
  obtain ⟨cells, hp, hlen, hpos, hroom, hdvd, hl⟩ := bufferPrepareCopy_spec h (ys.length + 1)
  obtain ⟨cells₁, hm₁, hlen₁, hs₁⟩ := memcpy_starts ys (Starts.nil cells)
    (Nat.le_refl 0) (by omega)
  rw [List.take_nil, List.nil_append] at hs₁
  obtain ⟨cells₂, hm₂, hlen₂, hs₂⟩ := memcpy_starts [NUL] hs₁ (Nat.le_refl _)
    (by simp only [List.length_singleton]; omega)
  rw [List.take_length] at hs₂
  refine ⟨{ bufferPrepareCopy b (ys.length + 1) with ptr := some cells₂, len := ys.length + 1 },
    ?_, ?_⟩
  · simp only [bufferCopyStringLen, hp, load_append, hm₁, hm₂, bind, Except.bind, pure,
      Except.pure]
  · exact .allocated cells₂ rfl (by simp only; omega) hpos hdvd (.inr ⟨rfl, hs₂⟩)

theorem bufferCopyString_spec {b : Buffer} {xs : List Byte} (h : b.Holds xs)
    {ys : List Byte} (hys : NUL ∉ ys) (m : List Byte) :
    ∃ b', bufferCopyString b (some (ys ++ NUL :: m)) = .ok (0, b') ∧ b'.Holds ys := by
  obtain ⟨cells, hp, hlen, hpos, hroom, hdvd, hl⟩ := bufferPrepareCopy_spec h (ys.length + 1)
  obtain ⟨cells₁, hm₁, hlen₁, hs₁⟩ := memcpy_starts (ys ++ [NUL]) (Starts.nil cells)
    (Nat.le_refl 0) (by simp only [List.length_append, List.length_singleton]; omega)
  rw [List.take_nil, List.nil_append] at hs₁
  have hload : load (ys ++ NUL :: m) (ys.length + 1) = .ok (ys ++ [NUL]) := by
    simpa using load_append (ys ++ [NUL]) m
  refine ⟨{ bufferPrepareCopy b (ys.length + 1) with ptr := some cells₁, len := ys.length + 1 },
    ?_, ?_⟩
  · simp only [bufferCopyString, hp, strlenAt_append hys, hload, hm₁, bind, Except.bind, pure,
      Except.pure]
  · exact .allocated cells₁ rfl (by simp only; omega) hpos hdvd (.inr ⟨rfl, hs₁⟩)

theorem bufferCopyStringBuffer_spec {b src : Buffer} {xs ys : List Byte} (h : b.Holds xs)
    (hsrc : src.Holds ys) :
    ∃ b', bufferCopyStringBuffer b (some src) = .ok (0, b') ∧ b'.Holds ys := by
  -- an empty source only resets the destination
  have hempty : src.len = 0 → ys = [] →
      ∃ b', bufferCopyStringBuffer b (some src) = .ok (0, b') ∧ b'.Holds ys := by
    rintro hl rfl
    obtain ⟨b', hr, hb'⟩ := bufferReset_spec h
    refine ⟨b', ?_, hb'⟩
    simp [bufferCopyStringBuffer, hl, hr, bind, Except.bind, pure, Except.pure]
  cases hsrc with
  | unallocated hp hc hl hx => exact hempty hl hx
  | allocated cells hp hlen hpos hdvd hstr =>
      rcases hstr with ⟨hl, hy⟩ | ⟨hl, hs⟩
      · exact hempty hl hy
      · obtain ⟨m, hm⟩ := hs.left.map_getD
        obtain ⟨b', hc, hb'⟩ := bufferCopyStringLen_spec h ys m
        refine ⟨b', ?_, hb'⟩
        rw [bufferCopyStringBuffer, if_neg (by omega)]
        simp only [Buffer.memory, hp, Option.map_some, ← hm, hl, Nat.add_sub_cancel]
        exact hc

theorem bufferInitString_spec {ys : List Byte} (hys : NUL ∉ ys) (m : List Byte) :
    ∃ b, bufferInitString (some (ys ++ NUL :: m)) = .ok b ∧ b.Holds ys := by
  obtain ⟨b, hc, hb⟩ := bufferCopyString_spec holds_bufferInit hys m
  exact ⟨b, by simp only [bufferInitString, hc, bind, Except.bind, pure, Except.pure], hb⟩

theorem bufferInitBuffer_spec {src : Buffer} {ys : List Byte} (hsrc : src.Holds ys) :
    ∃ b, bufferInitBuffer (some src) = .ok b ∧ b.Holds ys := by
  obtain ⟨b, hc, hb⟩ := bufferCopyStringBuffer_spec holds_bufferInit hsrc
  exact ⟨b, by simp only [bufferInitBuffer, hc, bind, Except.bind, pure, Except.pure], hb⟩

/-- After `buffer_prepare_append` the string is unchanged, the allocation begins
with it, and `size` more bytes fit behind the bytes in use. -/
theorem bufferPrepareAppend_spec {b : Buffer} {xs : List Byte} (h : b.Holds xs) (size : ℕ) :
    ∃ cells, (bufferPrepareAppend b size).ptr = some cells ∧
      cells.length = (bufferPrepareAppend b size).capacity ∧
      0 < (bufferPrepareAppend b size).capacity ∧
      BUFFER_PIECE_SIZE ∣ (bufferPrepareAppend b size).capacity ∧
      b.len + size ≤ (bufferPrepareAppend b size).capacity ∧
      (bufferPrepareAppend b size).len = b.len ∧
      (b.len = 0 ∧ xs = [] ∨ b.len = xs.length + 1 ∧ Starts cells (xs ++ [NUL])) := by
  unfold bufferPrepareAppend
  cases h with
  | unallocated hp hc hl hx =>
      have hlt := lt_roundUp size
      rw [if_pos hc]
      exact ⟨_, rfl, by simp, by simp only; omega, dvd_roundUp size, by simp only; omega,
        hl.symm, .inl ⟨hl, hx⟩⟩
  | allocated cells hp hlen hpos hdvd hstr =>
      have hlt := lt_roundUp (b.capacity + size)
      rw [if_neg (Nat.ne_of_gt hpos)]
      split
      case isTrue hgrow =>
        -- `realloc` to a larger size keeps all that was there
        have hkeep : cells.take (roundUp (b.capacity + size)) = cells :=
          List.take_of_length_le (by omega)
        refine ⟨cells ++ List.replicate (roundUp (b.capacity + size) - cells.length) none,
          by simp [realloc, hp, hkeep], ?_, ?_, dvd_roundUp _, ?_, rfl, ?_⟩
        · simp only [List.length_append, List.length_replicate]; omega
        · simp only; omega
        · have hle : b.len ≤ b.capacity := by
            rcases hstr with ⟨hl, -⟩ | ⟨hl, hs⟩
            · omega
            · have := hs.length_le
              simp only [List.length_append, List.length_singleton] at this
              omega
          simp only; omega
        · exact hstr.imp id fun ⟨hl, hs⟩ => ⟨hl, hs.trans (List.prefix_append _ _)⟩
      case isFalse hfits =>
        exact ⟨cells, hp, hlen, hpos, hdvd, by omega, rfl, hstr⟩

/-- Where an append begins to write, in both ways a string can be empty. -/
theorem append_offset {cells : List Cell} {xs : List Byte} {len : ℕ}
    (hstr : len = 0 ∧ xs = [] ∨ len = xs.length + 1 ∧ Starts cells (xs ++ [NUL])) :
    (if len = 0 then 1 else len) = xs.length + 1 ∧ Starts cells xs := by
  rcases hstr with ⟨rfl, rfl⟩ | ⟨rfl, hs⟩
  · exact ⟨rfl, Starts.nil cells⟩
  · exact ⟨by simp, hs.left⟩

/-- The bytes appended and their NUL fit behind the old string. -/
theorem append_room {cells : List Cell} {xs : List Byte} {len size : ℕ}
    (hstr : len = 0 ∧ xs = [] ∨ len = xs.length + 1 ∧ Starts cells (xs ++ [NUL]))
    (hroom : len + size ≤ cells.length) :
    xs.length + size ≤ cells.length := by
  rcases hstr with ⟨rfl, rfl⟩ | ⟨rfl, -⟩
  · simpa using hroom
  · omega

theorem bufferAppendString_spec {b : Buffer} {xs : List Byte} (h : b.Holds xs)
    {ys : List Byte} (hys : NUL ∉ ys) (m : List Byte) :
    ∃ b', bufferAppendString b (some (ys ++ NUL :: m)) = .ok (0, b') ∧ b'.Holds (xs ++ ys) := by
  obtain ⟨cells, hp, hlen, hpos, hdvd, hroom, hl, hstr⟩ :=
    bufferPrepareAppend_spec h (ys.length + 1)
  obtain ⟨hoff, hs⟩ := append_offset hstr
  have hload : load (ys ++ NUL :: m) (ys.length + 1) = .ok (ys ++ [NUL]) := by
    simpa using load_append (ys ++ [NUL]) m
  have hbase := append_room hstr (hlen ▸ hroom)
  obtain ⟨cells', hm, hlen', hs'⟩ := memcpy_starts (ys ++ [NUL]) hs (Nat.le_refl _)
    (by simpa using hbase)
  rw [List.take_length, ← List.append_assoc] at hs'
  refine ⟨{ bufferPrepareAppend b (ys.length + 1) with
      ptr := some cells', len := xs.length + 1 + ys.length }, ?_, ?_⟩
  · simp only [bufferAppendString, strlenAt_append hys, hload, hl, hoff, hp,
      Nat.add_sub_cancel, hm, bind, Except.bind, pure, Except.pure]
  · refine .allocated cells' rfl (hlen'.trans hlen) hpos hdvd (.inr ⟨?_, hs'⟩)
    simp only [List.length_append]
    omega

theorem bufferAppendStringLen_spec {b : Buffer} {xs : List Byte} (h : b.Holds xs)
    (ys m : List Byte) :
    ∃ b', bufferAppendStringLen b (some (ys ++ m)) ys.length = .ok (0, b') ∧
      b'.Holds (xs ++ ys) := by
  rcases ys.eq_nil_or_concat with rfl | hne
  · exact ⟨b, by simp [bufferAppendStringLen], by simpa using h⟩
  have hpos' : ys.length ≠ 0 := by
    obtain ⟨l, c, rfl⟩ := hne
    simp
  obtain ⟨cells, hp, hlen, hpos, hdvd, hroom, hl, hstr⟩ :=
    bufferPrepareAppend_spec h (ys.length + 1)
  obtain ⟨hoff, hs⟩ := append_offset hstr
  have hbase := append_room hstr (hlen ▸ hroom)
  -- first the bytes, over the old NUL, and then a new NUL
  obtain ⟨cells₁, hm₁, hlen₁, hs₁⟩ := memcpy_starts ys hs (Nat.le_refl _) (by omega)
  rw [List.take_length] at hs₁
  obtain ⟨cells₂, hm₂, hlen₂, hs₂⟩ := memcpy_starts [NUL] hs₁ (Nat.le_refl _)
    (by simp only [List.length_append, List.length_singleton]; omega)
  rw [List.take_length] at hs₂
  have hend : xs.length + 1 + ys.length - 1 = (xs ++ ys).length := by
    simp only [List.length_append]; omega
  refine ⟨{ bufferPrepareAppend b (ys.length + 1) with
      ptr := some cells₂, len := xs.length + 1 + ys.length }, ?_, ?_⟩
  · simp only [bufferAppendStringLen, if_neg hpos', hl, hoff, hp, load_append,
      Nat.add_sub_cancel, hm₁, hend, hm₂, bind, Except.bind, pure, Except.pure]
  · refine .allocated cells₂ rfl (by simp only; omega) hpos hdvd (.inr ⟨?_, hs₂⟩)
    simp only [List.length_append]
    omega

end SquidHelper
