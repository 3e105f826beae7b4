/-
SquidHelper/Truncate.lean

`truncate_string` of `src/core/webcontrol_buffer.c`: a string that is too long keeps its
two ends, with a separator between them.

The loop works in place with two indices, the one it writes at and the one (`x`) it
reads from.  Every access to `str` is recorded, so that "reads nothing it has written"
is part of what is proved: `TruncateInv` says how far the result is built and which
accesses there have been.

The first index to read is corrected by the parity of `max_len`, while the number of
bytes to read depends on the parity of `max_len - |sep|`.  For a separator of odd length
the two disagree: the tail is taken one byte too early or, when it is the longer half, it
includes the terminator (`truncateString_iff`).
-/
import SquidHelper.Lib.CString
import SquidHelper.Lib.History

namespace SquidHelper

open CString History

/-! ### The function -/

/-- What ends `truncate_string` before it returns. -/
inductive TruncateFault
  | outOfBounds
  /-- `assert(max_len >= sep_len)`. -/
  | assertion
  deriving DecidableEq, Repr

/-- The accesses of the loop to `str`. -/
inductive Access
  | read (i : ℕ)
  | write (i : ℕ)
  deriving DecidableEq, Repr

structure TruncateState where
  str : List Byte
  x : ℕ
  accesses : List Access
  deriving DecidableEq, Repr

/-- `str[i] = c`. -/
def TruncateState.store (s : TruncateState) (i : ℕ) (c : Byte) :
    Except TruncateFault TruncateState :=
  if i < s.str.length then
    .ok { s with str := s.str.set i c, accesses := s.accesses ++ [.write i] }
  else .error .outOfBounds

def truncateBody (sep : List Byte) (sepLen start i : ℕ) (s : TruncateState) :
    Except TruncateFault TruncateState :=
  if i - start < sepLen then
    match sep[i - start]? with
    | none => .error .outOfBounds
    | some c => s.store i c
  else
    match s.str[s.x]? with
    | none => .error .outOfBounds
    | some c =>
        TruncateState.store { s with x := s.x + 1, accesses := s.accesses ++ [.read s.x] } i c

/-- `for(i = start; i < max_len; ++i)`; the fourth argument counts the iterations left. -/
def truncateLoop (sep : List Byte) (sepLen start : ℕ) :
    ℕ → ℕ → TruncateState → Except TruncateFault TruncateState
  | 0, _, s => .ok s
  | k + 1, i, s => do truncateLoop sep sepLen start k (i + 1) (← truncateBody sep sepLen start i s)

/-- `truncate_string`; `str` and `sep` are the memory behind the pointers.  The accesses
to `str` after the first `strlen` are returned, too. -/
def truncateString (str : List Byte) (maxLen : ℕ) (sep : List Byte) :
    Except TruncateFault (List Byte × List Access) :=
  match strlen str with
  | none => .error .outOfBounds
  | some len =>
      if len ≤ maxLen then .ok (str, [])
      else
        match strlen sep with
        | none => .error .outOfBounds
        | some sepLen =>
            if maxLen < sepLen then .error .assertion
            else do
              let start := (maxLen - sepLen) / 2
              let x := len - start
              let x := if maxLen % 2 ≠ 0 then x - 1 else x
              let s ← truncateLoop sep sepLen start (maxLen - start) start ⟨str, x, []⟩
              let s ← s.store maxLen NUL
              return (s.str, s.accesses)

/-! ### The loop -/

/-- Whether an access reads something that was written before. -/
def Fresh (before : List Access) : Access → Prop
  | .read k => .write k ∉ before
  | .write _ => True

/-- At index `i`, with `j` bytes of the tail copied: `done` is written, from `i` on the
memory is still the one at the beginning. -/
structure TruncateInv (orig : List Byte) (x₀ i j : ℕ) (done : List Byte) (s : TruncateState) :
    Prop where
  length : done.length = i
  str : s.str = done ++ orig.drop i
  x : s.x = x₀ + j
  reads : ∀ k, .read k ∈ s.accesses ↔ x₀ ≤ k ∧ k < x₀ + j
  writes : ∀ k, .write k ∈ s.accesses → k < i
  fresh : Justified Fresh s.accesses

namespace TruncateInv

variable {orig done : List Byte} {x₀ i j : ℕ} {s : TruncateState}

/-- A byte is written behind what is done. -/
theorem store (h : TruncateInv orig x₀ i j done s) (hi : i < orig.length) (c : Byte) :
    ∃ s', s.store i c = .ok s' ∧ TruncateInv orig x₀ (i + 1) j (done ++ [c]) s' := by
  -- the byte at `i` is the first that is not done
  have hstr : s.str.set i c = done ++ [c] ++ orig.drop (i + 1) := by
    rw [h.str, List.drop_eq_getElem_cons hi, List.set_append_right _ _ (Nat.le_of_eq h.length),
      h.length, Nat.sub_self, List.set_cons_zero, List.append_cons]
  have hlt : i < s.str.length := by
    rw [h.str, List.length_append, List.length_drop, h.length]
    omega
  refine ⟨_, if_pos hlt, ?_, hstr, h.x, ?_, ?_, h.fresh.concat trivial⟩
  · rw [List.length_append, h.length]
    rfl
  · intro k
    rw [← h.reads k]
    simp
  · intro k hk
    rcases List.mem_append.mp hk with hk | hk
    · exact Nat.lt_succ_of_lt (h.writes k hk)
    · cases List.mem_singleton.mp hk
      exact Nat.lt_succ_self i

/-- A byte is read ahead of what is written. -/
theorem read (h : TruncateInv orig x₀ i j done s) (hi : i ≤ x₀ + j) :
    TruncateInv orig x₀ i (j + 1) done
      { s with x := s.x + 1, accesses := s.accesses ++ [.read s.x] } where
  length := h.length
  str := h.str
  x := by
    show s.x + 1 = _
    rw [h.x]
    rfl
  reads k := by
    rw [List.mem_append, h.reads k, List.mem_singleton, Access.read.injEq, h.x]
    omega
  writes k hk := by
    rcases List.mem_append.mp hk with hk | hk
    · exact h.writes k hk
    · cases List.mem_singleton.mp hk
  fresh := by
    apply h.fresh.concat
    intro hw
    -- only bytes before `i` have been written
    have hlt := h.writes _ hw
    rw [h.x] at hlt
    omega

/-- The first rounds copy what is left of the separator. -/
theorem sepLoop {sep sep₁ sep₂ m : List Byte} {start : ℕ} (hsep : sep = sep₁ ++ sep₂)
    (h : TruncateInv orig x₀ (start + sep₁.length) j done s)
    (hroom : start + sep.length ≤ orig.length) (k : ℕ) :
    ∃ s', truncateLoop (sep ++ m) sep.length start (sep₂.length + k) (start + sep₁.length) s
        = truncateLoop (sep ++ m) sep.length start k (start + sep.length) s' ∧
      TruncateInv orig x₀ (start + sep.length) j (done ++ sep₂) s' := by
  induction sep₂ generalizing sep₁ done s with
  | nil =>
      rw [List.append_nil] at hsep
      subst hsep
      refine ⟨s, ?_, ?_⟩
      · rw [List.length_nil, Nat.zero_add]
      · rw [List.append_nil]
        exact h
  | cons c sep₂ ih =>
      have hlen : sep.length = sep₁.length + (sep₂.length + 1) := by
        rw [hsep, List.length_append, List.length_cons]
      obtain ⟨s₁, hstore, h₁⟩ := h.store (by omega) c
      -- `i - start` is the index of `c` in the separator
      have hbody : truncateBody (sep ++ m) sep.length start (start + sep₁.length) s = .ok s₁ := by
        have hget : (sep ++ m)[sep₁.length]? = some c := by
          rw [hsep, List.append_assoc, List.getElem?_append_right (Nat.le_refl _), Nat.sub_self]
          rfl
        rw [truncateBody, Nat.add_sub_cancel_left, if_pos (by omega), hget]
        exact hstore
      have hsep' : sep = (sep₁ ++ [c]) ++ sep₂ := by rw [hsep, List.append_cons]
      have hlen' : start + (sep₁ ++ [c]).length = start + sep₁.length + 1 := by
        rw [List.length_append]
        rfl
      obtain ⟨s', hloop, h'⟩ := ih hsep' (hlen' ▸ h₁)
      rw [hlen'] at hloop
      rw [List.append_assoc] at h'
      refine ⟨s', ?_, h'⟩
      rw [List.length_cons, Nat.add_right_comm, truncateLoop, hbody]
      exact hloop

/-- The other rounds copy the tail. -/
theorem tailLoop (sep : List Byte) {sepLen start : ℕ} (k : ℕ)
    (h : TruncateInv orig x₀ i j done s) (hstart : start + sepLen ≤ i) (hi : i ≤ x₀ + j)
    (hroom : x₀ + j + k ≤ orig.length) :
    ∃ s', truncateLoop sep sepLen start k i s = .ok s' ∧
      TruncateInv orig x₀ (i + k) (j + k) (done ++ (orig.drop (x₀ + j)).take k) s' := by
  induction k generalizing i j done s with
  | zero => exact ⟨s, rfl, by rwa [List.take_zero, List.append_nil]⟩
  | succ k ih =>
      have hlt : x₀ + j < orig.length := by omega
      -- what lies ahead of `i` is as it was in the beginning
      have hget : s.str[s.x]? = some orig[x₀ + j] := by
        rw [h.str, h.x, List.getElem?_append_right (by rw [h.length]; exact hi),
          List.getElem?_drop, h.length, Nat.add_sub_cancel' hi, List.getElem?_eq_getElem hlt]
      obtain ⟨s₁, hstore, h₁⟩ := (h.read hi).store (by omega) orig[x₀ + j]
      have hbody : truncateBody sep sepLen start i s = .ok s₁ := by
        rw [truncateBody, if_neg (by omega), hget]
        exact hstore
      obtain ⟨s', hloop, h'⟩ := ih h₁ (by omega) (by omega) (by omega)
      refine ⟨s', ?_, ?_⟩
      · rw [truncateLoop, hbody]
        exact hloop
      · rw [List.drop_eq_getElem_cons hlt, List.take_succ_cons, List.append_cons]
        have hi' : i + (k + 1) = i + 1 + k := by omega
        have hj' : j + (k + 1) = j + 1 + k := by omega
        rw [hi', hj']
        exact h'

end TruncateInv

/-! ### What it computes -/

/-- Where the tail begins. -/
def tailStart (len maxLen sepLen : ℕ) : ℕ :=
  if maxLen % 2 ≠ 0 then len - (maxLen - sepLen) / 2 - 1 else len - (maxLen - sepLen) / 2

/-- How much of the tail is copied. -/
def tailLen (maxLen sepLen : ℕ) : ℕ := maxLen - sepLen - (maxLen - sepLen) / 2

/-- The memory behind `str` afterwards, whatever it is worth. -/
theorem truncateString_eq {str sep : List Byte} (hstr : NUL ∉ str) (hsep : NUL ∉ sep)
    {maxLen : ℕ} (hle : sep.length ≤ maxLen) (hlt : maxLen < str.length) (m m' : List Byte) :
    ∃ rest log, truncateString (str ++ NUL :: m) maxLen (sep ++ NUL :: m')
        = .ok (str.take ((maxLen - sep.length) / 2) ++ sep ++
            ((str ++ NUL :: m).drop (tailStart str.length maxLen sep.length)).take
              (tailLen maxLen sep.length) ++ NUL :: rest, log) ∧
      Justified Fresh log ∧
      ∀ k, .read k ∈ log ↔ tailStart str.length maxLen sep.length ≤ k ∧
        k < tailStart str.length maxLen sep.length + tailLen maxLen sep.length := by
  generalize hstart : (maxLen - sep.length) / 2 = start
  generalize hx : tailStart str.length maxLen sep.length = x
  generalize hk : tailLen maxLen sep.length = k
  have hx' : x = if maxLen % 2 ≠ 0 then str.length - start - 1 else str.length - start := by
    rw [← hx, tailStart, hstart]
  have hk' : start + sep.length + k = maxLen := by
    rw [tailLen, hstart] at hk
    omega
  -- the tail begins behind the separator and ends at the terminator at the latest
  have hahead : start + sep.length ≤ x ∧ x + k ≤ str.length + 1 := by
    rw [hx']
    split <;> omega
  obtain ⟨hahead, hend⟩ := hahead
  have hlen : (str ++ NUL :: m).length = str.length + 1 + m.length := by
    rw [List.length_append, List.length_cons]
    omega
  have h₀ : TruncateInv (str ++ NUL :: m) x (start + ([] : List Byte).length) 0 (str.take start)
      ⟨str ++ NUL :: m, x, []⟩ := by
    have htake : str.take start = (str ++ NUL :: m).take start :=
      (List.take_append_of_le_length (by omega)).symm
    refine ⟨?_, ?_, rfl, by simp, by simp, .nil⟩
    · rw [List.length_take, List.length_nil]
      omega
    · rw [htake]
      exact (List.take_append_drop _ _).symm
  -- the two parts of the loop, and the NUL behind it
  obtain ⟨s₁, hloop₁, h₁⟩ := h₀.sepLoop (m := NUL :: m') (List.nil_append sep).symm (by omega) k
  obtain ⟨s₂, hloop₂, h₂⟩ := h₁.tailLoop (sep ++ NUL :: m') k (Nat.le_refl _) (by omega)
    (by omega)
  rw [hk'] at h₂
  obtain ⟨s₃, hstore, h₃⟩ := h₂.store (by omega) NUL
  have hbody := h₃.str
  rw [List.append_assoc] at hbody
  refine ⟨(str ++ NUL :: m).drop (maxLen + 1), s₃.accesses, ?_, h₃.fresh, ?_⟩
  · rw [truncateString, strlen_append_nul hstr, strlen_append_nul hsep]
    have hcount : maxLen - start = sep.length + k := by omega
    simp only [if_neg (Nat.not_le.mpr hlt), if_neg (Nat.not_lt.mpr hle), hstart, ← hx', hcount]
    rw [List.length_nil, Nat.add_zero] at hloop₁
    rw [hloop₁, hloop₂]
    show (s₂.store maxLen NUL).bind _ = _
    rw [hstore]
    show Except.ok (s₃.str, s₃.accesses) = _
    rw [hbody]
    rfl
  · intro i
    rw [h₃.reads i, Nat.zero_add]

/-! ### What it is for -/

/-- The first `d / 2` bytes of `str`, the separator, and the last `d - d / 2` bytes, `d`
being the number of bytes of `str` that are kept. -/
def cutMiddle (str : List Byte) (maxLen : ℕ) (sep : List Byte) : List Byte :=
  str.take ((maxLen - sep.length) / 2) ++ sep ++
    str.drop (str.length - (maxLen - sep.length - (maxLen - sep.length) / 2))

/-- The middle is cut out, and the loop reads neither the terminator or anything behind it
nor what it has written. -/
def CutsMiddle (str : List Byte) (maxLen : ℕ) (sep : List Byte)
    (r : Except TruncateFault (List Byte × List Access)) : Prop :=
  ∃ mem log, r = .ok (mem, log) ∧ cString mem = cutMiddle str maxLen sep ∧
    (cString mem).length = maxLen ∧ Justified Fresh log ∧ ∀ k, .read k ∈ log → k < str.length

/-- The last `k + 1` bytes of `str` are one byte repeated. -/
def UniformTail (str : List Byte) (k : ℕ) : Prop :=
  ∃ c, str.drop (str.length - (k + 1)) = List.replicate (k + 1) c

theorem length_cutMiddle {str sep : List Byte} {maxLen : ℕ} (hle : sep.length ≤ maxLen)
    (hlt : maxLen < str.length) : (cutMiddle str maxLen sep).length = maxLen := by
  rw [cutMiddle, List.length_append, List.length_append, List.length_take, List.length_drop]
  omega

/-- Bytes equal to the ones one place further on are all the same. -/
theorem take_eq_tail_iff (a : Byte) (l : List Byte) :
    (a :: l).take l.length = l ↔ l = List.replicate l.length a := by
  induction l generalizing a with
  | nil => simp
  | cons b l ih =>
      rw [List.length_cons, List.take_succ_cons, List.replicate_succ, List.cons.injEq,
        List.cons.injEq, ih b]
      constructor
      · rintro ⟨rfl, h⟩
        exact ⟨rfl, h⟩
      · rintro ⟨rfl, h⟩
        exact ⟨rfl, h⟩

/-- A tail taken one byte too early is the right one if and only if it is uniform. -/
theorem early_tail_iff {str : List Byte} {k : ℕ} (hk : k < str.length) :
    (str.drop (str.length - k - 1)).take k = str.drop (str.length - k) ↔ UniformTail str k := by
  have hlt : str.length - k - 1 < str.length := by omega
  have hnext : str.length - k - 1 + 1 = str.length - k := by omega
  have hcons := List.drop_eq_getElem_cons hlt
  rw [hnext] at hcons
  have hlen : (str.drop (str.length - k)).length = k := by
    rw [List.length_drop]
    omega
  -- the byte before the tail, and the tail
  generalize str[str.length - k - 1] = a at hcons
  generalize str.drop (str.length - k) = l at hcons hlen
  have hiff := take_eq_tail_iff a l
  rw [hlen] at hiff
  rw [UniformTail, ← Nat.sub_sub, hcons, hiff]
  constructor
  · intro h
    exact ⟨a, by rw [List.replicate_succ, ← h]⟩
  · rintro ⟨c, h⟩
    rw [List.replicate_succ, List.cons.injEq] at h
    rw [h.1]
    exact h.2

section Condition

variable {str sep : List Byte} {maxLen : ℕ}

/-- The parity of the separator decides where the tail begins. -/
theorem tailStart_eq (hle : sep.length ≤ maxLen) (hlt : maxLen < str.length) :
    (Even sep.length → tailStart str.length maxLen sep.length
      = str.length - tailLen maxLen sep.length) ∧
    (¬ Even sep.length → Even (maxLen - sep.length) → tailStart str.length maxLen sep.length
      = str.length - tailLen maxLen sep.length - 1) ∧
    (¬ Even sep.length → ¬ Even (maxLen - sep.length) → tailStart str.length maxLen sep.length
      = str.length - tailLen maxLen sep.length + 1) := by
  simp only [Nat.even_iff, tailStart, tailLen]
  refine ⟨?_, ?_, ?_⟩
  · intro hsep
    split <;> omega
  · intro hsep hd
    split <;> omega
  · intro hsep hd
    split <;> omega

/-- As long as no terminator is copied, what counts is the tail. -/
theorem cutsMiddle_iff_tail (hstr : NUL ∉ str) (hsep : NUL ∉ sep) (hle : sep.length ≤ maxLen)
    (hlt : maxLen < str.length) (m m' : List Byte)
    (hend : tailStart str.length maxLen sep.length + tailLen maxLen sep.length ≤ str.length) :
    CutsMiddle str maxLen sep (truncateString (str ++ NUL :: m) maxLen (sep ++ NUL :: m')) ↔
      (str.drop (tailStart str.length maxLen sep.length)).take (tailLen maxLen sep.length)
        = str.drop (str.length - tailLen maxLen sep.length) := by
  obtain ⟨rest, log, hrun, hfresh, hreads⟩ := truncateString_eq hstr hsep hle hlt m m'
  -- nothing of the tail lies behind the string
  have htail : ((str ++ NUL :: m).drop (tailStart str.length maxLen sep.length)).take
      (tailLen maxLen sep.length)
      = (str.drop (tailStart str.length maxLen sep.length)).take (tailLen maxLen sep.length) := by
    rw [List.drop_append_of_le_length (by omega), List.take_append_of_le_length]
    rw [List.length_drop]
    omega
  rw [htail] at hrun
  have hnul : NUL ∉ str.take ((maxLen - sep.length) / 2) ++ sep ++
      (str.drop (tailStart str.length maxLen sep.length)).take (tailLen maxLen sep.length) := by
    simp only [List.mem_append, not_or]
    exact ⟨⟨fun h => hstr (List.mem_of_mem_take h), hsep⟩,
      fun h => hstr (List.mem_of_mem_drop (List.mem_of_mem_take h))⟩
  constructor
  · rintro ⟨mem, log', hrun', hmem, -, -, -⟩
    rw [hrun] at hrun'
    obtain ⟨rfl, -⟩ := Prod.mk.inj (Except.ok.inj hrun')
    rw [cString_append_nul hnul] at hmem
    exact List.append_cancel_left hmem
  · intro heq
    have hmem : cString (str.take ((maxLen - sep.length) / 2) ++ sep ++
        (str.drop (tailStart str.length maxLen sep.length)).take (tailLen maxLen sep.length)
          ++ NUL :: rest) = cutMiddle str maxLen sep := by
      rw [cString_append_nul hnul, heq]
      rfl
    refine ⟨_, log, hrun, hmem, ?_, hfresh, ?_⟩
    · rw [hmem, length_cutMiddle hle hlt]
    · intro k hk
      have hk' := (hreads k).mp hk
      omega

/-- **The middle is cut out as it should be if and only if** the separator has even length,
or nothing is kept but the separator, or an even number of bytes is kept and the end of the
string is uniform. -/
theorem cutsMiddle_iff (hstr : NUL ∉ str) (hsep : NUL ∉ sep) (hle : sep.length ≤ maxLen)
    (hlt : maxLen < str.length) (m m' : List Byte) :
    CutsMiddle str maxLen sep (truncateString (str ++ NUL :: m) maxLen (sep ++ NUL :: m')) ↔
      Even sep.length ∨ maxLen = sep.length ∨
        Even (maxLen - sep.length) ∧ UniformTail str ((maxLen - sep.length) / 2) := by
  obtain ⟨heven, hearly, hlate⟩ := tailStart_eq hle hlt
  have hlen : tailLen maxLen sep.length ≤ str.length := by
    rw [tailLen]
    omega
  by_cases hs : Even sep.length
  · -- the tail is where it should be
    have hx := heven hs
    rw [cutsMiddle_iff_tail hstr hsep hle hlt m m' (by omega), hx]
    refine ⟨fun _ => .inl hs, fun _ => List.take_of_length_le ?_⟩
    rw [List.length_drop]
    omega
  · by_cases hd : Even (maxLen - sep.length)
    · -- one byte too early
      have hx := hearly hs hd
      have htail : tailLen maxLen sep.length = (maxLen - sep.length) / 2 := by
        rw [tailLen]
        obtain ⟨r, hr⟩ := hd
        omega
      rw [cutsMiddle_iff_tail hstr hsep hle hlt m m' (by omega), hx, htail,
        early_tail_iff (by omega)]
      constructor
      · intro h
        exact .inr (.inr ⟨hd, h⟩)
      · rintro (h | h | ⟨-, h⟩)
        · exact absurd h hs
        · -- the last byte of a string is uniform by itself
          rw [h, Nat.sub_self]
          have hlast : str.length - (0 + 1) < str.length := by omega
          refine ⟨str[str.length - (0 + 1)], ?_⟩
          have hnil : str.drop (str.length - (0 + 1) + 1) = [] :=
            List.drop_eq_nil_of_le (by omega)
          rw [List.drop_eq_getElem_cons hlast, hnil]
          rfl
        · exact h
    · -- one byte too late: the terminator is read
      have hx := hlate hs hd
      obtain ⟨rest, log, hrun, -, hreads⟩ := truncateString_eq hstr hsep hle hlt m m'
      have hpos : tailLen maxLen sep.length ≠ 0 := by
        rw [tailLen]
        rw [Nat.not_even_iff] at hd
        omega
      constructor
      · rintro ⟨mem, log', hrun', -, -, -, hinside⟩
        rw [hrun] at hrun'
        obtain ⟨-, rfl⟩ := Prod.mk.inj (Except.ok.inj hrun')
        have hread := (hreads str.length).mpr (by omega)
        exact absurd (hinside _ hread) (Nat.lt_irrefl _)
      · rintro (h | h | ⟨h, -⟩)
        · exact absurd h hs
        · rw [h, Nat.sub_self] at hd
          exact absurd Even.zero hd
        · exact absurd h hd

end Condition

/-! ### Every input -/

/-- What `truncate_string` is for: a string that is too long has its middle cut out, a
short one is left alone, and there is nothing left to do for a second call. -/
structure Truncates (str : List Byte) (maxLen : ℕ) (sep m m' : List Byte) : Prop where
  long : maxLen < str.length →
    CutsMiddle str maxLen sep (truncateString (str ++ NUL :: m) maxLen (sep ++ NUL :: m'))
  short : str.length ≤ maxLen →
    truncateString (str ++ NUL :: m) maxLen (sep ++ NUL :: m') = .ok (str ++ NUL :: m, [])
  idempotent : ∀ mem log, truncateString (str ++ NUL :: m) maxLen (sep ++ NUL :: m') = .ok (mem, log) →
    truncateString mem maxLen (sep ++ NUL :: m') = .ok (mem, [])

theorem truncateString_of_strlen_le {mem : List Byte} {len maxLen : ℕ}
    (h : strlen mem = some len) (hle : len ≤ maxLen) (sep : List Byte) :
    truncateString mem maxLen sep = .ok (mem, []) := by
  rw [truncateString, h]
  exact if_pos hle

/-- A NUL in reach bounds the length of a string. -/
theorem strlen_le (s m : List Byte) : ∃ len, strlen (s ++ NUL :: m) = some len ∧ len ≤ s.length := by
  induction s with
  | nil => exact ⟨0, rfl, Nat.le_refl 0⟩
  | cons c s ih =>
      obtain ⟨len, hlen, hle⟩ := ih
      rw [List.cons_append, strlen]
      split
      · exact ⟨0, rfl, Nat.zero_le _⟩
      · exact ⟨len + 1, by rw [hlen]; rfl, Nat.succ_le_succ hle⟩

/-- The length of the result never exceeds `max_len`. -/
theorem truncateString_idempotent {str sep : List Byte} (hstr : NUL ∉ str) (hsep : NUL ∉ sep)
    {maxLen : ℕ} (hle : maxLen < str.length → sep.length ≤ maxLen) (m m' : List Byte)
    {mem : List Byte} {log : List Access}
    (h : truncateString (str ++ NUL :: m) maxLen (sep ++ NUL :: m') = .ok (mem, log)) :
    truncateString mem maxLen (sep ++ NUL :: m') = .ok (mem, []) := by
  by_cases hlt : maxLen < str.length
  -- the NUL written at `max_len` bounds the length, whatever was copied before it
  · obtain ⟨rest, log', hrun, -, -⟩ := truncateString_eq hstr hsep (hle hlt) hlt m m'
    rw [hrun] at h
    obtain ⟨rfl, -⟩ := Prod.mk.inj (Except.ok.inj h)
    obtain ⟨len, hlen, hle'⟩ := strlen_le (str.take ((maxLen - sep.length) / 2) ++ sep ++
      ((str ++ NUL :: m).drop (tailStart str.length maxLen sep.length)).take
        (tailLen maxLen sep.length)) rest
    apply truncateString_of_strlen_le hlen
    simp only [List.length_append, List.length_take, tailLen] at hle'
    have hle := hle hlt
    omega
  · have hlen := strlen_append_nul hstr m
    rw [truncateString_of_strlen_le hlen (Nat.le_of_not_lt hlt)] at h
    obtain ⟨rfl, -⟩ := Prod.mk.inj (Except.ok.inj h)
    exact truncateString_of_strlen_le hlen (Nat.le_of_not_lt hlt) _

/-- **`truncate_string` does what it is for if and only if** the string is short, or the
separator has even length, or nothing is kept beside the separator, or an even number of
bytes is kept and the end of the string is uniform. -/
theorem truncates_iff {str sep : List Byte} (hstr : NUL ∉ str) (hsep : NUL ∉ sep) {maxLen : ℕ}
    (hle : maxLen < str.length → sep.length ≤ maxLen) (m m' : List Byte) :
    Truncates str maxLen sep m m' ↔
      str.length ≤ maxLen ∨ Even sep.length ∨ maxLen = sep.length ∨
        Even (maxLen - sep.length) ∧ UniformTail str ((maxLen - sep.length) / 2) := by
  constructor
  · intro h
    rcases Nat.lt_or_ge maxLen str.length with hlt | hge
    · exact .inr ((cutsMiddle_iff hstr hsep (hle hlt) hlt m m').mp (h.long hlt))
    · exact .inl hge
  · intro h
    refine ⟨?_, ?_, fun mem log => truncateString_idempotent hstr hsep hle m m'⟩
    · intro hlt
      have hcond := h.resolve_left (Nat.not_le.mpr hlt)
      exact (cutsMiddle_iff hstr hsep (hle hlt) hlt m m').mpr hcond
    · intro hge
      exact truncateString_of_strlen_le (strlen_append_nul hstr m) hge _

/-- The two dots of the `LOG` macro. -/
theorem truncates_twoDots :
    Truncates (ascii "src/core/webcontrol_buffer.c") 24 (ascii "..") [] [] :=
  (truncates_iff (by decide) (by decide) (by decide) [] []).mpr (.inr (.inl (by decide)))

/-- One dash: of the last two characters of `abcdef` only one is there. -/
theorem truncateString_dash :
    ¬ ∀ (str sep m m' : List Byte) (maxLen : ℕ), NUL ∉ str → NUL ∉ sep → sep.length ≤ maxLen →
      maxLen < str.length →
      CutsMiddle str maxLen sep (truncateString (str ++ NUL :: m) maxLen (sep ++ NUL :: m')) := by
  intro hall
  obtain ⟨mem, log, hrun, hmem, -⟩ :=
    hall (ascii "abcdef") (ascii "-") [] [] 4 (by decide) (by decide) (by decide) (by decide)
  have hdash : truncateString (ascii "abcdef" ++ [NUL]) 4 (ascii "-" ++ [NUL])
      = .ok (ascii "a-f" ++ [NUL, NUL] ++ ascii "f" ++ [NUL],
        [.write 1, .read 5, .write 2, .read 6, .write 3, .write 4]) := by decide
  rw [hdash] at hrun
  obtain ⟨rfl, -⟩ := Prod.mk.inj (Except.ok.inj hrun)
  exact absurd hmem (by decide)

end SquidHelper
