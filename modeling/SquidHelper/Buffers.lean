/-
SquidHelper/Buffers.lean

The buffer module as a whole: any sequence of calls on any set of buffers.

A set of buffers is a function from names to buffers; a call names the buffers it is
about, `none` standing for a null pointer.  What a call is for is said by `effect`, on
plain strings.  `Represents` connects the two: every buffer is well formed and holds its
string.  One call keeps it (`BufferOp.call_refines`), so every sequence does
(`buffers_refine_strings`).

The functions compute with `size_t`; `sizes` lists the numbers a call computes, and all
of them stay below `2 ^ 64`.  Bytes that a call reads through a pointer are given with the
call, which leaves open where they are: only not in the destination.
-/
import SquidHelper.Buffer

namespace SquidHelper

open CString

variable {ι : Type} [DecidableEq ι]

/-! ### Calls -/

/-- A call of one of the functions on buffers. -/
inductive BufferOp (ι : Type)
  | init (b : ι)
  | initString (b : ι) (s : Option (List Byte))
  | initStringLen (b : ι) (s : Option (List Byte)) (len : ℕ)
  | initBuffer (b : ι) (src : Option ι)
  | prepareCopy (b : Option ι) (size : ℕ)
  | copyString (b : Option ι) (s : Option (List Byte))
  | copyStringBuffer (b src : Option ι)
  | copyStringLen (b : Option ι) (s : Option (List Byte)) (len : ℕ)
  | prepareAppend (b : Option ι) (size : ℕ)
  | appendString (b : Option ι) (s : Option (List Byte))
  | appendStringLen (b : Option ι) (s : Option (List Byte)) (len : ℕ)
  | reset (b : Option ι)

/-- `f` on the buffer behind a pointer that may be null: then -1. -/
def onBuffer (bufs : ι → Buffer) (b : Option ι) (f : Buffer → Except Fault (ℤ × Buffer)) :
    Except Fault (Option ℤ × (ι → Buffer)) :=
  match b with
  | none => .ok (some (-1), bufs)
  | some i => do
      let p ← f (bufs i)
      return (some p.1, Function.update bufs i p.2)

/-- The value returned, where it is an `int`, and the buffers afterwards. -/
def BufferOp.call (bufs : ι → Buffer) : BufferOp ι → Except Fault (Option ℤ × (ι → Buffer))
  | .init b => .ok (none, Function.update bufs b bufferInit)
  | .initString b s => do return (none, Function.update bufs b (← bufferInitString s))
  | .initStringLen b s len => do return (none, Function.update bufs b (← bufferInitStringLen s len))
  | .initBuffer b src => do return (none, Function.update bufs b (← bufferInitBuffer (src.map bufs)))
  | .prepareCopy b size => onBuffer bufs b fun b => .ok (0, bufferPrepareCopy b size)
  | .copyString b s => onBuffer bufs b fun b => bufferCopyString b s
  | .copyStringBuffer none (some j) =>
      -- an empty source is dealt with before the destination is looked at
      .ok (some (if (bufs j).len = 0 then 0 else -1), bufs)
  | .copyStringBuffer b src => onBuffer bufs b fun b => bufferCopyStringBuffer b (src.map bufs)
  | .copyStringLen b s len => onBuffer bufs b fun b => bufferCopyStringLen b s len
  | .prepareAppend b size => onBuffer bufs b fun b => .ok (0, bufferPrepareAppend b size)
  | .appendString b s => onBuffer bufs b fun b => bufferAppendString b s
  | .appendStringLen b s len => onBuffer bufs b fun b => bufferAppendStringLen b s len
  | .reset none => .ok (none, bufs)
  | .reset (some i) => do return (none, Function.update bufs i (← bufferReset (bufs i)))

/-- One call after the other. -/
def runOps (bufs : ι → Buffer) : List (BufferOp ι) → Except Fault (ι → Buffer)
  | [] => .ok bufs
  | op :: ops => do
      let r ← op.call bufs
      runOps r.2 ops

/-! ### What the calls are for -/

/-- The strings after a call.  A call with a null pointer changes none. -/
def BufferOp.effect (t : ι → List Byte) : BufferOp ι → ι → List Byte
  | .init b => Function.update t b []
  | .initString b s => Function.update t b (s.elim [] cString)
  | .initStringLen b s len => Function.update t b (s.elim [] (·.take len))
  | .initBuffer b src => Function.update t b (src.elim [] t)
  | .prepareCopy (some i) _ => Function.update t i []
  | .copyString (some i) (some m) => Function.update t i (cString m)
  | .copyStringBuffer (some i) (some j) => Function.update t i (t j)
  | .copyStringLen (some i) (some m) len => Function.update t i (m.take len)
  | .appendString (some i) (some m) => Function.update t i (t i ++ cString m)
  | .appendStringLen (some i) (some m) len => Function.update t i (t i ++ m.take len)
  | .reset (some i) => Function.update t i []
  | _ => t

/-- The strings after a sequence of calls. -/
def effects (t : ι → List Byte) (ops : List (BufferOp ι)) : ι → List Byte :=
  ops.foldl BufferOp.effect t

/-- Strings and requested sizes stay below this bound. -/
def sizeBound : ℕ := 2 ^ 62

/-- A NUL-terminated string can be read. -/
def Terminated (s : Option (List Byte)) : Prop := ∀ m ∈ s, NUL ∈ m ∧ (cString m).length < sizeBound

/-- `len` bytes can be read. -/
def Readable (s : Option (List Byte)) (len : ℕ) : Prop :=
  len < sizeBound ∧ ∀ m ∈ s, len ≤ m.length

/-- What a caller has to provide. -/
def BufferOp.Arguments : BufferOp ι → Prop
  | .init _ => True
  | .initString _ s => Terminated s
  | .initStringLen _ s len => Readable s len
  | .initBuffer _ _ => True
  | .prepareCopy _ size => size < sizeBound
  | .copyString _ s => Terminated s
  | .copyStringBuffer b src => ∀ i ∈ b, src ≠ some i
  | .copyStringLen _ s len => Readable s len
  | .prepareAppend _ size => size < sizeBound
  | .appendString _ s => Terminated s
  | .appendStringLen _ s len => Readable s len
  | .reset _ => True

/-- The arguments are in order, and no string gets too long. -/
structure BufferOp.Permitted (t : ι → List Byte) (op : BufferOp ι) : Prop where
  arguments : op.Arguments
  fits : ∀ i, (op.effect t i).length < sizeBound

def PermittedOps (t : ι → List Byte) : List (BufferOp ι) → Prop
  | [] => True
  | op :: ops => op.Permitted t ∧ PermittedOps (op.effect t) ops

/-! ### The invariant of one buffer -/

/-- Nothing is allocated, or `capacity` is a positive multiple of 64 of which `len` bytes
are in use, the last of them the NUL. -/
inductive Buffer.WellFormed (b : Buffer) : Prop
  | unallocated : b.ptr = none → b.capacity = 0 → b.len = 0 → WellFormed b
  | allocated (cells : List Cell) : b.ptr = some cells → cells.length = b.capacity →
      0 < b.capacity → 64 ∣ b.capacity → b.len ≤ b.capacity →
      (b.len = 0 ∨ cells[b.len - 1]? = some (some NUL)) → WellFormed b

theorem Buffer.Holds.wellFormed {b : Buffer} {xs : List Byte} (h : b.Holds xs) : b.WellFormed := by
  cases h with
  | unallocated hp hc hl hx => exact .unallocated hp hc hl
  | allocated cells hp hlen hpos hdvd hstr =>
      rcases hstr with ⟨hl, -⟩ | ⟨hl, hs⟩
      · exact .allocated cells hp hlen hpos hdvd (by omega) (.inl hl)
      · have hle := hs.length_le
        rw [List.length_append, List.length_singleton] at hle
        refine .allocated cells hp hlen hpos hdvd (by omega) (.inr ?_)
        obtain ⟨tail, rfl⟩ := hs
        rw [hl, Nat.add_sub_cancel, List.map_append, List.append_assoc,
          List.getElem?_append_right (by rw [List.length_map]), List.length_map, Nat.sub_self]
        rfl

/-- `len` counts the string and its NUL, or nothing. -/
theorem Buffer.Holds.len_le {b : Buffer} {xs : List Byte} (h : b.Holds xs) :
    b.len ≤ xs.length + 1 := by
  cases h with
  | unallocated hp hc hl hx =>
      rw [hl]
      exact Nat.zero_le _
  | allocated cells hp hlen hpos hdvd hstr =>
      rcases hstr with ⟨hl, -⟩ | ⟨hl, -⟩ <;> omega

/-! ### One call -/

/-- Buffer by buffer, the string it holds. -/
def Represents (bufs : ι → Buffer) (t : ι → List Byte) : Prop := ∀ i, (bufs i).Holds (t i)

variable {bufs bufs' : ι → Buffer} {t : ι → List Byte}

theorem Represents.update (h : Represents bufs t) {i : ι} {b : Buffer} {xs : List Byte}
    (hb : b.Holds xs) : Represents (Function.update bufs i b) (Function.update t i xs) := by
  intro j
  rcases eq_or_ne j i with rfl | hne
  · rw [Function.update_self, Function.update_self]
    exact hb
  · rw [Function.update_of_ne hne, Function.update_of_ne hne]
    exact h j

/-- A function that succeeds on the buffer succeeds behind the pointer. -/
theorem onBuffer_refines (h : Represents bufs t) {i : ι} {f : Buffer → Except Fault (ℤ × Buffer)}
    {xs : List Byte} (hf : ∃ b', f (bufs i) = .ok (0, b') ∧ b'.Holds xs) :
    ∃ r bufs', onBuffer bufs (some i) f = .ok (r, bufs') ∧
      Represents bufs' (Function.update t i xs) ∧ (r = some (-1) → bufs' = bufs) := by
  obtain ⟨b', hok, hb'⟩ := hf
  refine ⟨some 0, Function.update bufs i b', ?_, h.update hb', fun hr => absurd hr (by simp)⟩
  rw [onBuffer, hok]
  rfl

/-- One that refuses leaves everything as it is. -/
theorem onBuffer_refused (h : Represents bufs t) {i : ι} {f : Buffer → Except Fault (ℤ × Buffer)}
    (hf : f (bufs i) = .ok (-1, bufs i)) :
    ∃ r bufs', onBuffer bufs (some i) f = .ok (r, bufs') ∧ Represents bufs' t ∧
      (r = some (-1) → bufs' = bufs) := by
  refine ⟨some (-1), bufs, ?_, h, fun _ => rfl⟩
  rw [onBuffer, hf]
  show Except.ok (some (-1), Function.update bufs i (bufs i)) = _
  rw [Function.update_eq_self]

/-- A function that sets up a new buffer. -/
theorem init_refines (h : Represents bufs t) {i : ι} {f : Except Fault Buffer} {xs : List Byte}
    (hf : ∃ b, f = .ok b ∧ b.Holds xs) :
    ∃ (r : Option ℤ) (bufs' : ι → Buffer),
      (do return (none, Function.update bufs i (← f)) : Except Fault _) = .ok (r, bufs') ∧
      Represents bufs' (Function.update t i xs) ∧ (r = some (-1) → bufs' = bufs) := by
  obtain ⟨b, rfl, hb⟩ := hf
  exact ⟨none, Function.update bufs i b, rfl, h.update hb, fun hr => absurd hr (by simp)⟩

theorem bufferInitStringLen_spec (ys m : List Byte) :
    ∃ b, bufferInitStringLen (some (ys ++ m)) ys.length = .ok b ∧ b.Holds ys := by
  obtain ⟨b, hc, hb⟩ := bufferCopyStringLen_spec holds_bufferInit ys m
  exact ⟨b, by simp only [bufferInitStringLen, hc, bind, Except.bind, pure, Except.pure], hb⟩

/-- `buffer_prepare_append` keeps the string. -/
theorem holds_bufferPrepareAppend {b : Buffer} {xs : List Byte} (h : b.Holds xs) (size : ℕ) :
    (bufferPrepareAppend b size).Holds xs := by
  obtain ⟨cells, hp, hlen, hpos, hdvd, -, hl, hstr⟩ := bufferPrepareAppend_spec h size
  exact .allocated cells hp hlen hpos hdvd (hl ▸ hstr)

/-- **One call** does what it is for, and nothing when it returns -1. -/
theorem BufferOp.call_refines {op : BufferOp ι} (h : Represents bufs t) (hop : op.Arguments) :
    ∃ r bufs', op.call bufs = .ok (r, bufs') ∧ Represents bufs' (op.effect t) ∧
      (r = some (-1) → bufs' = bufs) := by
  -- a call with a NULL buffer does nothing
  have hnull : ∃ r bufs', (.ok (some (-1), bufs) : Except Fault (Option ℤ × (ι → Buffer)))
      = .ok (r, bufs') ∧ Represents bufs' t ∧ (r = some (-1) → bufs' = bufs) :=
    ⟨_, bufs, rfl, h, fun _ => rfl⟩
  -- what readable pointers point to
  have hstring : ∀ {s : Option (List Byte)} {m : List Byte}, Terminated s → s = some m →
      NUL ∉ cString m ∧ ∃ rest, m = cString m ++ NUL :: rest :=
    fun hs hm => exists_cString (hs _ hm).1
  have hbytes : ∀ {s : Option (List Byte)} {m : List Byte} {len : ℕ}, Readable s len → s = some m →
      m = m.take len ++ m.drop len ∧ len = (m.take len).length :=
    fun hs hm => ⟨(List.take_append_drop _ _).symm, (List.length_take_of_le (hs.2 _ hm)).symm⟩
  cases op with
  | init b => exact init_refines h ⟨_, rfl, holds_bufferInit⟩
  | initString b s =>
      cases s with
      | none => exact init_refines h ⟨_, rfl, holds_bufferInit⟩
      | some m =>
          obtain ⟨hnul, rest, hm⟩ := hstring hop rfl
          have hspec := bufferInitString_spec hnul rest
          rw [← hm] at hspec
          exact init_refines h hspec
  | initStringLen b s len =>
      cases s with
      | none => exact init_refines h ⟨_, rfl, holds_bufferInit⟩
      | some m =>
          obtain ⟨hm, hlen⟩ := hbytes hop rfl
          have hspec := bufferInitStringLen_spec (m.take len) (m.drop len)
          rw [← hm, ← hlen] at hspec
          exact init_refines h hspec
  | initBuffer b src =>
      cases src with
      | none => exact init_refines h ⟨_, rfl, holds_bufferInit⟩
      | some j => exact init_refines h (bufferInitBuffer_spec (h j))
  | prepareCopy b size =>
      cases b with
      | none => exact hnull
      | some i =>
          simp only [call, effect]
          apply onBuffer_refines h
          exact ⟨_, rfl, holds_bufferPrepareCopy (h i) size⟩
  | copyString b s =>
      cases b with
      | none => exact hnull
      | some i =>
          cases s with
          | none =>
              simp only [call, effect]
              apply onBuffer_refused h
              rfl
          | some m =>
              obtain ⟨hnul, rest, hm⟩ := hstring hop rfl
              have hspec := bufferCopyString_spec (h i) hnul rest
              rw [← hm] at hspec
              simp only [call, effect]
              apply onBuffer_refines h
              exact hspec
  | copyStringBuffer b src =>
      cases b with
      | none =>
          cases src with
          | none => exact hnull
          | some j => exact ⟨_, bufs, rfl, h, fun _ => rfl⟩
      | some i =>
          cases src with
          | none =>
              simp only [call, effect]
              apply onBuffer_refused h
              rfl
          | some j =>
              simp only [call, effect]
              apply onBuffer_refines h
              exact bufferCopyStringBuffer_spec (h i) (h j)
  | copyStringLen b s len =>
      cases b with
      | none => exact hnull
      | some i =>
          cases s with
          | none =>
              simp only [call, effect]
              apply onBuffer_refused h
              rfl
          | some m =>
              obtain ⟨hm, hlen⟩ := hbytes hop rfl
              have hspec := bufferCopyStringLen_spec (h i) (m.take len) (m.drop len)
              rw [← hm, ← hlen] at hspec
              simp only [call, effect]
              apply onBuffer_refines h
              exact hspec
  | prepareAppend b size =>
      cases b with
      | none => exact hnull
      | some i =>
          -- the string is written back as it is
          simp only [call, effect]
          rw [← Function.update_eq_self i t]
          apply onBuffer_refines h
          exact ⟨_, rfl, holds_bufferPrepareAppend (h i) size⟩
  | appendString b s =>
      cases b with
      | none => exact hnull
      | some i =>
          cases s with
          | none =>
              simp only [call, effect]
              apply onBuffer_refused h
              rfl
          | some m =>
              obtain ⟨hnul, rest, hm⟩ := hstring hop rfl
              have hspec := bufferAppendString_spec (h i) hnul rest
              rw [← hm] at hspec
              simp only [call, effect]
              apply onBuffer_refines h
              exact hspec
  | appendStringLen b s len =>
      cases b with
      | none => exact hnull
      | some i =>
          cases s with
          | none =>
              simp only [call, effect]
              apply onBuffer_refused h
              rfl
          | some m =>
              obtain ⟨hm, hlen⟩ := hbytes hop rfl
              have hspec := bufferAppendStringLen_spec (h i) (m.take len) (m.drop len)
              rw [← hm, ← hlen] at hspec
              simp only [call, effect]
              apply onBuffer_refines h
              exact hspec
  | reset b =>
      cases b with
      | none => exact ⟨none, bufs, rfl, h, fun _ => rfl⟩
      | some i => exact init_refines h (bufferReset_spec (h i))

/-! ### Sizes -/

/-- The numbers `buffer_prepare_copy` computes. -/
def prepareCopySizes (b : Buffer) (size : ℕ) : List ℕ :=
  if b.capacity = 0 ∨ size > b.capacity then [roundUp size] else []

def copyStringSizes (b : Buffer) (s : Option (List Byte)) : List ℕ :=
  s.elim [] fun m => ((cString m).length + 1) :: prepareCopySizes b ((cString m).length + 1)

def copyStringLenSizes (b : Buffer) (s : Option (List Byte)) (len : ℕ) : List ℕ :=
  s.elim [] fun _ => (len + 1) :: prepareCopySizes b (len + 1)

/-- An empty source is not copied but makes the destination empty. -/
def copyStringBufferSizes (b : Buffer) (src : Option Buffer) : List ℕ :=
  src.elim [] fun src =>
    if src.len = 0 then [] else copyStringLenSizes b src.memory (src.len - 1)

/-- The numbers `buffer_prepare_append` computes. -/
def prepareAppendSizes (b : Buffer) (size : ℕ) : List ℕ :=
  if b.capacity = 0 then [roundUp size]
  else if b.len + size > b.capacity then
    [b.len + size, b.capacity + size, roundUp (b.capacity + size)]
  else [b.len + size]

/-- `len` bytes behind those in use, where an empty buffer counts its NUL first. -/
def appendSizes (b : Buffer) (len : ℕ) : List ℕ :=
  (len + 1) :: prepareAppendSizes b (len + 1) ++ [(if b.len = 0 then 1 else b.len) + len]

/-- The numbers a call computes. -/
def BufferOp.sizes (bufs : ι → Buffer) : BufferOp ι → List ℕ
  | .init _ => []
  | .initString _ s => copyStringSizes bufferInit s
  | .initStringLen _ s len => copyStringLenSizes bufferInit s len
  | .initBuffer _ src => copyStringBufferSizes bufferInit (src.map bufs)
  | .prepareCopy (some i) size => prepareCopySizes (bufs i) size
  | .copyString (some i) s => copyStringSizes (bufs i) s
  | .copyStringBuffer (some i) src => copyStringBufferSizes (bufs i) (src.map bufs)
  | .copyStringLen (some i) s len => copyStringLenSizes (bufs i) s len
  | .prepareAppend (some i) size => prepareAppendSizes (bufs i) size
  | .appendString (some i) s => s.elim [] fun m => appendSizes (bufs i) (cString m).length
  | .appendStringLen (some i) s len =>
      s.elim [] fun _ => if len = 0 then [] else appendSizes (bufs i) len
  | _ => []

/-- What every one of these numbers, and every capacity, stays below. -/
def capacityBound : ℕ := 3 * sizeBound + BUFFER_PIECE_SIZE

theorem capacityBound_lt : capacityBound < 2 ^ 64 := by decide

theorem roundUp_le (size : ℕ) : roundUp size ≤ size + BUFFER_PIECE_SIZE := by
  simp only [roundUp]
  omega

/-- Where the capacity of `b'` comes from, `b` being the buffer before. -/
def CapacityFrom (b b' : Buffer) (sizes : List ℕ) : Prop :=
  b'.capacity = b.capacity ∨ b'.capacity = 0 ∨ b'.capacity ∈ sizes

theorem CapacityFrom.mono {b b' : Buffer} {sizes sizes' : List ℕ} (h : CapacityFrom b b' sizes)
    (hsub : sizes ⊆ sizes') : CapacityFrom b b' sizes' :=
  h.imp_right fun h => h.imp_right fun hmem => hsub hmem

omit [DecidableEq ι] in
theorem CapacityFrom.le {b b' : Buffer} {sizes : List ℕ} {k : ℕ} (h : CapacityFrom b b' sizes)
    (hb : b.capacity ≤ k) (hsizes : ∀ v ∈ sizes, v ≤ k) : b'.capacity ≤ k := by
  rcases h with h | h | h
  · rw [h]
    exact hb
  · rw [h]
    exact Nat.zero_le k
  · exact hsizes _ h

theorem capacityFrom_prepareCopy (b : Buffer) (size : ℕ) :
    CapacityFrom b (bufferPrepareCopy b size) (prepareCopySizes b size) := by
  unfold bufferPrepareCopy prepareCopySizes
  split
  · exact .inr (.inr List.mem_cons_self)
  · exact .inl rfl

theorem capacityFrom_prepareAppend (b : Buffer) (size : ℕ) :
    CapacityFrom b (bufferPrepareAppend b size) (prepareAppendSizes b size) := by
  unfold bufferPrepareAppend prepareAppendSizes
  split
  · exact .inr (.inr List.mem_cons_self)
  · split
    · exact .inr (.inr (by simp))
    · exact .inl rfl

theorem capacityFrom_reset {b b' : Buffer} (h : bufferReset b = .ok b') : CapacityFrom b b' [] := by
  unfold bufferReset at h
  split at h
  · cases h
    exact .inr (.inl rfl)
  · split at h
    · obtain ⟨ptr, -, h⟩ := of_bind_eq_ok h
      cases h
      exact .inl rfl
    · cases h
      exact .inl rfl

theorem capacityFrom_copyStringLen {b b' : Buffer} {s : Option (List Byte)} {len : ℕ} {r : ℤ}
    (h : bufferCopyStringLen b s len = .ok (r, b')) :
    CapacityFrom b b' (copyStringLenSizes b s len) := by
  cases s with
  | none =>
      cases h
      exact .inl rfl
  | some m =>
      obtain ⟨src, -, h⟩ := of_bind_eq_ok h
      obtain ⟨ptr, -, h⟩ := of_bind_eq_ok h
      obtain ⟨ptr', -, h⟩ := of_bind_eq_ok h
      cases h
      exact (capacityFrom_prepareCopy b (len + 1)).mono (List.subset_cons_self _ _)

theorem strlenAt_eq {m : List Byte} {len : ℕ} (h : strlenAt m = .ok len) :
    len = (cString m).length := by
  unfold strlenAt at h
  split at h
  · cases h
  · cases h
    exact strlen_eq_some ‹_›

theorem capacityFrom_copyString {b b' : Buffer} {s : Option (List Byte)} {r : ℤ}
    (h : bufferCopyString b s = .ok (r, b')) : CapacityFrom b b' (copyStringSizes b s) := by
  cases s with
  | none =>
      cases h
      exact .inl rfl
  | some m =>
      obtain ⟨len, hlen, h⟩ := of_bind_eq_ok h
      obtain ⟨src, -, h⟩ := of_bind_eq_ok h
      obtain ⟨ptr, -, h⟩ := of_bind_eq_ok h
      cases h
      rw [strlenAt_eq hlen]
      exact (capacityFrom_prepareCopy b _).mono (List.subset_cons_self _ _)

theorem capacityFrom_copyStringBuffer {b b' : Buffer} {src : Option Buffer} {r : ℤ}
    (h : bufferCopyStringBuffer b src = .ok (r, b')) :
    CapacityFrom b b' (copyStringBufferSizes b src) := by
  cases src with
  | none =>
      cases h
      exact .inl rfl
  | some src =>
      simp only [bufferCopyStringBuffer] at h
      simp only [copyStringBufferSizes, Option.elim_some]
      split at h
      case isTrue hlen =>
        obtain ⟨b₁, hreset, h⟩ := of_bind_eq_ok h
        cases h
        exact (capacityFrom_reset hreset).mono (List.nil_subset _)
      case isFalse hlen =>
        rw [if_neg hlen]
        exact capacityFrom_copyStringLen h

theorem prepareAppendSizes_subset (b : Buffer) (len : ℕ) :
    prepareAppendSizes b (len + 1) ⊆ appendSizes b len :=
  fun _ hv => List.mem_append_left _ (List.mem_cons_of_mem _ hv)

theorem capacityFrom_appendString {b b' : Buffer} {m : List Byte} {r : ℤ}
    (h : bufferAppendString b (some m) = .ok (r, b')) :
    CapacityFrom b b' (appendSizes b (cString m).length) := by
  obtain ⟨len, hlen, h⟩ := of_bind_eq_ok h
  obtain ⟨src, -, h⟩ := of_bind_eq_ok h
  obtain ⟨ptr, -, h⟩ := of_bind_eq_ok h
  cases h
  rw [strlenAt_eq hlen]
  exact (capacityFrom_prepareAppend b _).mono (prepareAppendSizes_subset b _)

theorem capacityFrom_appendStringLen {b b' : Buffer} {m : List Byte} {len : ℕ} {r : ℤ}
    (h : bufferAppendStringLen b (some m) len = .ok (r, b')) :
    CapacityFrom b b' (if len = 0 then [] else appendSizes b len) := by
  simp only [bufferAppendStringLen] at h
  split at h
  · cases h
    exact .inl rfl
  case isFalse hlen =>
    obtain ⟨src, -, h⟩ := of_bind_eq_ok h
    obtain ⟨ptr, -, h⟩ := of_bind_eq_ok h
    obtain ⟨ptr', -, h⟩ := of_bind_eq_ok h
    cases h
    rw [if_neg hlen]
    exact (capacityFrom_prepareAppend b _).mono (prepareAppendSizes_subset b _)

theorem capacityFrom_onBuffer {i : ι} {f : Buffer → Except Fault (ℤ × Buffer)} {r : Option ℤ}
    {sizes : List ℕ} (h : onBuffer bufs (some i) f = .ok (r, bufs'))
    (hf : ∀ {c b'}, f (bufs i) = .ok (c, b') → CapacityFrom (bufs i) b' sizes) (j : ι) :
    CapacityFrom (bufs j) (bufs' j) sizes := by
  obtain ⟨⟨c, b'⟩, hok, h⟩ := of_bind_eq_ok h
  cases h
  rcases eq_or_ne j i with rfl | hne
  · rw [Function.update_self]
    exact hf hok
  · rw [Function.update_of_ne hne]
    exact .inl rfl

/-- A new buffer comes from `buffer_init`, whatever had its name before. -/
theorem capacityFrom_init {i : ι} {f : Except Fault Buffer} {r : Option ℤ} {sizes : List ℕ}
    (hf : ∀ {b'}, f = .ok b' → CapacityFrom bufferInit b' sizes)
    (h : (do return (none, Function.update bufs i (← f)) : Except Fault _) = .ok (r, bufs'))
    (j : ι) : CapacityFrom (bufs j) (bufs' j) sizes := by
  obtain ⟨b', hok, h⟩ := of_bind_eq_ok h
  cases h
  rcases eq_or_ne j i with rfl | hne
  · rw [Function.update_self]
    rcases hf hok with h | h
    · exact .inr (.inl h)
    · exact .inr h
  · rw [Function.update_of_ne hne]
    exact .inl rfl

/-- Every capacity after a call was there before, is zero, or was computed. -/
theorem BufferOp.capacityFrom {op : BufferOp ι} {r : Option ℤ} (h : op.call bufs = .ok (r, bufs'))
    (j : ι) : CapacityFrom (bufs j) (bufs' j) (op.sizes bufs) := by
  cases op with
  | init b =>
      refine capacityFrom_init (f := .ok bufferInit) (fun h => ?_) h j
      cases h
      exact .inl rfl
  | initString b s =>
      refine capacityFrom_init (fun h => ?_) h j
      obtain ⟨p, hp, h⟩ := of_bind_eq_ok h
      cases h
      exact capacityFrom_copyString hp
  | initStringLen b s len =>
      refine capacityFrom_init (fun h => ?_) h j
      obtain ⟨p, hp, h⟩ := of_bind_eq_ok h
      cases h
      exact capacityFrom_copyStringLen hp
  | initBuffer b src =>
      refine capacityFrom_init (fun h => ?_) h j
      obtain ⟨p, hp, h⟩ := of_bind_eq_ok h
      cases h
      exact capacityFrom_copyStringBuffer hp
  | prepareCopy b size =>
      cases b with
      | none => cases h; exact .inl rfl
      | some i =>
          simp only [call] at h
          refine capacityFrom_onBuffer h (fun h => ?_) j
          cases h
          exact capacityFrom_prepareCopy _ _
  | copyString b s =>
      cases b with
      | none => cases h; exact .inl rfl
      | some i =>
          simp only [call] at h
          exact capacityFrom_onBuffer h capacityFrom_copyString j
  | copyStringBuffer b src =>
      cases b with
      | none => cases src <;> cases h <;> exact .inl rfl
      | some i =>
          simp only [call] at h
          exact capacityFrom_onBuffer h capacityFrom_copyStringBuffer j
  | copyStringLen b s len =>
      cases b with
      | none => cases h; exact .inl rfl
      | some i =>
          simp only [call] at h
          exact capacityFrom_onBuffer h capacityFrom_copyStringLen j
  | prepareAppend b size =>
      cases b with
      | none => cases h; exact .inl rfl
      | some i =>
          simp only [call] at h
          refine capacityFrom_onBuffer h (fun h => ?_) j
          cases h
          exact capacityFrom_prepareAppend _ _
  | appendString b s =>
      cases b with
      | none => cases h; exact .inl rfl
      | some i =>
          cases s with
          | none =>
              simp only [call] at h
              refine capacityFrom_onBuffer h (fun h => ?_) j
              cases h
              exact .inl rfl
          | some m =>
              simp only [call] at h
              exact capacityFrom_onBuffer h capacityFrom_appendString j
  | appendStringLen b s len =>
      cases b with
      | none => cases h; exact .inl rfl
      | some i =>
          cases s with
          | none =>
              simp only [call] at h
              refine capacityFrom_onBuffer h (fun h => ?_) j
              cases h
              exact .inl rfl
          | some m =>
              simp only [call] at h
              exact capacityFrom_onBuffer h capacityFrom_appendStringLen j
  | reset b =>
      cases b with
      | none => cases h; exact .inl rfl
      | some i =>
          -- `reset` does not go through `onBuffer`: it returns nothing
          obtain ⟨b', hok, h⟩ := of_bind_eq_ok h
          cases h
          rcases eq_or_ne j i with rfl | hne
          · rw [Function.update_self]
            exact capacityFrom_reset hok
          · rw [Function.update_of_ne hne]
            exact .inl rfl

/-! ### Nothing wraps -/

theorem prepareCopySizes_le {b : Buffer} {size : ℕ} (hsize : size ≤ sizeBound) :
    ∀ v ∈ prepareCopySizes b size, v ≤ capacityBound := by
  intro v hv
  unfold prepareCopySizes at hv
  split at hv
  · obtain rfl := List.mem_singleton.mp hv
    have hround := roundUp_le size
    simp only [capacityBound]
    omega
  · cases hv

theorem copyStringLenSizes_le {b : Buffer} {s : Option (List Byte)} {len : ℕ}
    (hlen : len < sizeBound) : ∀ v ∈ copyStringLenSizes b s len, v ≤ capacityBound := by
  intro v hv
  cases s with
  | none => cases hv
  | some m =>
      rcases List.mem_cons.mp hv with rfl | hv
      · simp only [capacityBound]
        omega
      · exact prepareCopySizes_le hlen v hv

theorem copyStringSizes_le {b : Buffer} {s : Option (List Byte)} (hs : Terminated s) :
    ∀ v ∈ copyStringSizes b s, v ≤ capacityBound := by
  intro v hv
  cases s with
  | none => cases hv
  | some m =>
      have hlen := (hs m rfl).2
      rcases List.mem_cons.mp hv with rfl | hv
      · simp only [capacityBound]
        omega
      · exact prepareCopySizes_le hlen v hv

/-- The buffer grows only when it is too small, so not by much. -/
theorem prepareAppendSizes_le {b : Buffer} {size : ℕ} (hlen : b.len ≤ sizeBound)
    (hsize : size ≤ sizeBound) : ∀ v ∈ prepareAppendSizes b size, v ≤ capacityBound := by
  intro v hv
  have hround := roundUp_le size
  have hround' := roundUp_le (b.capacity + size)
  unfold prepareAppendSizes at hv
  simp only [capacityBound]
  split at hv
  · obtain rfl := List.mem_singleton.mp hv
    omega
  · split at hv
    · simp only [List.mem_cons, List.not_mem_nil, or_false] at hv
      omega
    · obtain rfl := List.mem_singleton.mp hv
      omega

theorem appendSizes_le {b : Buffer} {len : ℕ} (hb : b.len ≤ sizeBound) (hlen : len < sizeBound) :
    ∀ v ∈ appendSizes b len, v ≤ capacityBound := by
  intro v hv
  rcases List.mem_append.mp hv with hv | hv
  · rcases List.mem_cons.mp hv with rfl | hv
    · simp only [capacityBound]
      omega
    · exact prepareAppendSizes_le hb hlen v hv
  · obtain rfl := List.mem_singleton.mp hv
    have hpos : 1 ≤ sizeBound := by decide
    simp only [capacityBound]
    split <;> omega

omit [DecidableEq ι] in
/-- **No `size_t` wraps** in a permitted call. -/
theorem BufferOp.sizes_le {op : BufferOp ι} (h : Represents bufs t)
    (ht : ∀ i, (t i).length < sizeBound) (hop : op.Arguments) :
    ∀ v ∈ op.sizes bufs, v ≤ capacityBound := by
  have hlen : ∀ i, (bufs i).len ≤ sizeBound := fun i => (h i).len_le.trans (ht i)
  -- the source of a copy holds one of the strings too
  have hcopy : ∀ (b : Buffer) (src : Option ι),
      ∀ v ∈ copyStringBufferSizes b (src.map bufs), v ≤ capacityBound := by
    intro b src v hv
    cases src with
    | none => cases hv
    | some j =>
        simp only [copyStringBufferSizes, Option.map_some, Option.elim_some] at hv
        split at hv
        · cases hv
        · have hj := hlen j
          exact copyStringLenSizes_le (by omega) v hv
  intro v hv
  cases op with
  | init b => cases hv
  | initString b s => exact copyStringSizes_le hop v hv
  | initStringLen b s len => exact copyStringLenSizes_le hop.1 v hv
  | initBuffer b src => exact hcopy _ _ v hv
  | prepareCopy b size =>
      cases b with
      | none => cases hv
      | some i => exact prepareCopySizes_le (Nat.le_of_lt hop) v hv
  | copyString b s =>
      cases b with
      | none => cases hv
      | some i => exact copyStringSizes_le hop v hv
  | copyStringBuffer b src =>
      cases b with
      | none => cases hv
      | some i => exact hcopy _ _ v hv
  | copyStringLen b s len =>
      cases b with
      | none => cases hv
      | some i => exact copyStringLenSizes_le hop.1 v hv
  | prepareAppend b size =>
      cases b with
      | none => cases hv
      | some i => exact prepareAppendSizes_le (hlen i) (Nat.le_of_lt hop) v hv
  | appendString b s =>
      cases b with
      | none => cases hv
      | some i =>
          cases s with
          | none => cases hv
          | some m => exact appendSizes_le (hlen i) (hop m rfl).2 v hv
  | appendStringLen b s len =>
      cases b with
      | none => cases hv
      | some i =>
          cases s with
          | none => cases hv
          | some m =>
              simp only [sizes, Option.elim_some] at hv
              split at hv
              · cases hv
              · exact appendSizes_le (hlen i) hop.1 v hv
  | reset b => cases b <;> cases hv

/-! ### Sequences of calls -/

/-- After some calls: the buffers hold the strings `t`, and neither these nor the
allocations are too big. -/
structure BuffersInv (bufs : ι → Buffer) (t : ι → List Byte) : Prop where
  represents : Represents bufs t
  fits : ∀ i, (t i).length < sizeBound
  capacity : ∀ i, (bufs i).capacity ≤ capacityBound

omit [DecidableEq ι] in
theorem BuffersInv.init : BuffersInv (fun _ : ι => bufferInit) fun _ => [] :=
  ⟨fun _ => holds_bufferInit, fun _ => by decide, fun _ => Nat.zero_le _⟩

/-- One permitted call. -/
theorem BuffersInv.call (h : BuffersInv bufs t) {op : BufferOp ι} (hop : op.Permitted t) :
    ∃ r bufs', op.call bufs = .ok (r, bufs') ∧ BuffersInv bufs' (op.effect t) ∧
      (r = some (-1) → bufs' = bufs) := by
  obtain ⟨r, bufs', hcall, hrep, hrefused⟩ := BufferOp.call_refines h.represents hop.arguments
  refine ⟨r, bufs', hcall, ⟨hrep, hop.fits, fun i => ?_⟩, hrefused⟩
  exact (BufferOp.capacityFrom hcall i).le (h.capacity i)
    (BufferOp.sizes_le h.represents h.fits hop.arguments)

/-- Any number of them. -/
theorem BuffersInv.runOps (h : BuffersInv bufs t) {ops : List (BufferOp ι)}
    (hops : PermittedOps t ops) :
    ∃ bufs', SquidHelper.runOps bufs ops = .ok bufs' ∧ BuffersInv bufs' (effects t ops) := by
  induction ops generalizing bufs t with
  | nil => exact ⟨bufs, rfl, h⟩
  | cons op ops ih =>
      obtain ⟨hop, hops⟩ := hops
      obtain ⟨r, bufs₁, hcall, h₁, -⟩ := h.call hop
      obtain ⟨bufs', hrun, h'⟩ := ih h₁ hops
      refine ⟨bufs', ?_, h'⟩
      rw [SquidHelper.runOps, hcall]
      exact hrun

theorem PermittedOps.append {ops ops' : List (BufferOp ι)} (h : PermittedOps t (ops ++ ops')) :
    PermittedOps t ops ∧ PermittedOps (effects t ops) ops' := by
  induction ops generalizing t with
  | nil => exact ⟨trivial, h⟩
  | cons op ops ih =>
      obtain ⟨hop, h⟩ := h
      obtain ⟨h₁, h₂⟩ := ih h
      exact ⟨⟨hop, h₁⟩, h₂⟩

/-- **Buffers are strings.**  A sequence of permitted calls writes nowhere outside the
allocations and wraps no size; it leaves every buffer well formed and holding the string
that the calls are for; and a call that returns -1 changes nothing. -/
theorem buffers_refine_strings {ops : List (BufferOp ι)} (hops : PermittedOps (fun _ => []) ops) :
    (∃ bufs, runOps (fun _ => bufferInit) ops = .ok bufs ∧
      ∀ i, (bufs i).WellFormed ∧ (bufs i).content = effects (fun _ => []) ops i) ∧
    ∀ pre op post, ops = pre ++ op :: post →
      ∃ bufs r bufs', runOps (fun _ => bufferInit) pre = .ok bufs ∧
        op.call bufs = .ok (r, bufs') ∧
        (∀ i, (bufs' i).content = op.effect (fun j => (bufs j).content) i) ∧
        (r = some (-1) → ∀ i, (bufs' i).content = (bufs i).content) ∧
        ∀ v ∈ op.sizes bufs, v < 2 ^ 64 := by
  refine ⟨?_, ?_⟩
  · obtain ⟨bufs, hrun, h⟩ := BuffersInv.init.runOps hops
    exact ⟨bufs, hrun, fun i => ⟨(h.represents i).wellFormed, (h.represents i).content⟩⟩
  -- the call `op`, after the calls before it
  · rintro pre op post rfl
    obtain ⟨hpre, hop, -⟩ := hops.append
    obtain ⟨bufs, hrun, h⟩ := BuffersInv.init.runOps hpre
    obtain ⟨r, bufs', hcall, h', hrefused⟩ := h.call hop
    have hcontent : (fun j => (bufs j).content) = effects (fun _ => []) pre := by
      funext j
      exact (h.represents j).content
    refine ⟨bufs, r, bufs', hrun, hcall, ?_, ?_, ?_⟩
    · intro i
      rw [hcontent]
      exact (h'.represents i).content
    · intro hr i
      rw [hrefused hr]
    · intro v hv
      exact (BufferOp.sizes_le h.represents h.fits hop.arguments v hv).trans_lt capacityBound_lt

/-- A line is put together in two parts and copied, and the first buffer is reset. -/
def twoBuffers : List (BufferOp Bool) :=
  [.initString true (some (ascii "1 10.0" ++ [NUL])),
    .appendStringLen (some true) (some (ascii ".0.1 x")) 4, .initBuffer false (some true),
    .reset (some true), .copyString (some true) none]

theorem twoBuffers_permitted : PermittedOps (fun _ => []) twoBuffers := by
  refine ⟨⟨?_, by decide⟩, ⟨?_, by decide⟩, ⟨trivial, by decide⟩, ⟨trivial, by decide⟩,
    ⟨?_, by decide⟩, trivial⟩
  · rintro m ⟨⟩
    exact ⟨by decide, by decide⟩
  · refine ⟨by decide, ?_⟩
    rintro m ⟨⟩
    decide
  · rintro m ⟨⟩

/-- The copy keeps the line. -/
theorem buffers_refine_strings_twoBuffers :
    ∃ bufs, runOps (fun _ => bufferInit) twoBuffers = .ok bufs ∧
      (bufs false).content = ascii "1 10.0.0.1" ∧ (bufs true).content = [] := by
  obtain ⟨⟨bufs, hrun, h⟩, -⟩ := buffers_refine_strings twoBuffers_permitted
  have hfalse : effects (fun _ => []) twoBuffers false = ascii "1 10.0.0.1" := by decide
  have htrue : effects (fun _ => []) twoBuffers true = [] := by decide
  exact ⟨bufs, hrun, (h false).2.trans hfalse, (h true).2.trans htrue⟩

end SquidHelper
