/-
SquidHelper/Stdin.lean

`stdin_read_cb` of `src/core/main.c`: cutting standard input into lines.

The callback reads chunk after chunk into a 4096-byte array, replaces newlines by
NULs in place and enqueues what lies between them; what follows the last newline
is kept in `tmp_line_buf` for the next chunk.  The loop steps its index over the
byte behind a newline without looking at it.

`frame` says on plain lists what the index loop computes, that blind spot
included: the byte behind a newline joins the next line unseen.  `scanLoop_spec`
connects the two.  From there on only `frame` is reasoned about:

* it never loses, duplicates or moves a byte (`frame_flatten`);
* on text without two newlines in a row it finds every newline (`frame_newlineFree`).
-/
import SquidHelper.Buffer

namespace SquidHelper

open CString

def STDIN_BUF_CHUNKSIZE : ℕ := 4096

/-- What one `read(STDIN_FILENO, ..)` can return. -/
inductive ReadResult
  | data (chunk : List Byte)
  | eof
  | error
  deriving DecidableEq, Repr

/-! ### One chunk -/

/-- The variables of the `for` loop over one chunk. -/
structure ScanState where
  readbuf : List Byte
  i : ℕ
  lineStart : ℕ
  tmpLineBuf : Buffer
  jobs : List Buffer

/-- The line that ends at the newline just replaced, and the remainder buffer
afterwards. -/
def takeJob (tmp : Buffer) (text : List Byte) : Except Fault (Buffer × Buffer) :=
  if tmp.len > 0 then do
    let line ← bufferInitBuffer (some tmp)
    let r ← bufferAppendString line (some text)
    let tmp ← bufferReset tmp
    return (r.2, tmp)
  else do
    let line ← bufferInitString (some text)
    return (line, tmp)

/-- The body of the loop and its `++i`. -/
def scanBody (s : ScanState) : Except Fault ScanState :=
  match s.readbuf[s.i]? with
  | none => .error .outOfBounds
  | some c =>
      if c = LF then do
        let readbuf := s.readbuf.set s.i NUL
        let r ← takeJob s.tmpLineBuf (readbuf.drop s.lineStart)
        -- line_start = ++i inside the body, and ++i once more by the loop
        return { readbuf := readbuf, i := s.i + 2, lineStart := s.i + 1, tmpLineBuf := r.2,
                 jobs := s.jobs ++ [r.1] }
      else return { s with i := s.i + 1 }

/-- The loop `for(i = 0; i < bytes; ++i)`; the first argument bounds the number of
iterations, and `bytes` of them are enough. -/
def scanLoop (bytes : ℕ) : ℕ → ScanState → Except Fault ScanState
  | 0, s => .ok s
  | n + 1, s => if s.i < bytes then do scanLoop bytes n (← scanBody s) else .ok s

/-- What `stdin_read_cb` does with one chunk: the remainder buffer afterwards, the
lines enqueued, and whether it goes on reading. -/
def readChunk (tmp : Buffer) (chunk : List Byte) : Except Fault (Buffer × List Buffer × Bool) := do
  let s ← scanLoop chunk.length chunk.length ⟨chunk ++ [NUL], 0, 0, tmp, []⟩
  match s.readbuf[s.lineStart]? with
  | none => .error .outOfBounds
  | some c =>
      if c ≠ NUL then do
        let r ← bufferAppendStringLen s.tmpLineBuf (some (s.readbuf.drop s.lineStart))
          (chunk.length - s.lineStart)
        return (r.2, s.jobs, true)
      else do
        let tmp ← bufferReset s.tmpLineBuf
        return (tmp, s.jobs, false)

/-! ### Callbacks -/

structure StdinState where
  tmpLineBuf : Buffer
  /-- Every line handed to `queue_enqueue`, oldest first. -/
  jobs : List Buffer
  /-- Whether the `ev_io` watcher is still started. -/
  watching : Bool
  /-- Lines printed on standard output. -/
  stdout : List (List Byte)

def StdinState.init : StdinState := ⟨bufferInit, [], true, []⟩

/-- One round of the `while(true)` loop; the flag says whether there is another. -/
def stdinRead (s : StdinState) : ReadResult → Except Fault (StdinState × Bool)
  | .data chunk => do
      let r ← readChunk s.tmpLineBuf chunk
      return ({ s with tmpLineBuf := r.1, jobs := s.jobs ++ r.2.1 }, r.2.2)
  | .eof => .ok ({ s with watching := false,
                          stdout := s.stdout ++ [ascii "GOT 0 BYTES. TERMINATE?"] }, false)
  | .error => .ok (s, false)

/-- One invocation of `stdin_read_cb`, with what its reads return; the reads it
leaves are for the next invocation. -/
def stdinReadCb (s : StdinState) : List ReadResult → Except Fault (StdinState × List ReadResult)
  | [] => .ok (s, [])
  | r :: rs => do
      let p ← stdinRead s r
      if p.2 then stdinReadCb p.1 rs else return (p.1, rs)

/-- The event loop invokes `stdin_read_cb` as long as the watcher is started and
there is something to read. -/
def stdinCallbacks : ℕ → StdinState → List ReadResult → Except Fault StdinState
  | 0, s, _ => .ok s
  | n + 1, s, rs =>
      if s.watching ∧ rs ≠ [] then do
        let p ← stdinReadCb s rs
        stdinCallbacks n p.1 p.2
      else .ok s

/-- Everything `reads` delivers, in as many callbacks as it takes. -/
def runStdin (reads : List ReadResult) : Except Fault StdinState :=
  stdinCallbacks reads.length .init reads

/-- The bytes a sequence of reads delivers. -/
def bytesRead (reads : List ReadResult) : List Byte :=
  reads.flatMap fun r => match r with
    | .data chunk => chunk
    | .eof => []
    | .error => []

/-! ### The loop on plain lists -/

/-- Cut the rest of a chunk into lines, `cur` being the line under way: the lines
ended by a newline, and what is left.  The byte behind a newline is not examined. -/
def frame (cur : List Byte) : List Byte → List (List Byte) × List Byte
  | [] => ([], cur)
  | [c] => if c = LF then ([cur], []) else ([], cur ++ [c])
  | c :: d :: cs =>
      if c = LF then (cur :: (frame [d] cs).1, (frame [d] cs).2) else frame (cur ++ [c]) (d :: cs)

theorem frame_cons_of_ne {c : Byte} (h : c ≠ LF) (cur cs : List Byte) :
    frame cur (c :: cs) = frame (cur ++ [c]) cs := by
  cases cs with
  | nil => simp [frame, h]
  | cons d ds => simp [frame, h]

/-- A newline ends the line under way; the next line begins with the byte behind it. -/
theorem frame_cons_newline (cur cs : List Byte) :
    frame cur (LF :: cs) = (cur :: (frame (cs.take 1) (cs.drop 1)).1,
      (frame (cs.take 1) (cs.drop 1)).2) := by
  cases cs with
  | nil => simp [frame]
  | cons d ds => simp [frame]

/-- Framing keeps every byte in its place. -/
theorem frame_flatten (cur cs : List Byte) :
    (frame cur cs).1.flatMap (· ++ [LF]) ++ (frame cur cs).2 = cur ++ cs := by
  fun_induction frame cur cs with
  | case1 cur => simp
  | case2 cur => simp
  | case3 cur c h => simp
  | case4 cur d cs ih => simp [ih]
  | case5 cur c d cs h ih => simp [ih]

/-- No two newlines in a row. -/
def NoDoubleNewline (cs : List Byte) : Prop := cs.IsChain fun c d => ¬ (c = LF ∧ d = LF)

instance (cs : List Byte) : Decidable (NoDoubleNewline cs) := by
  unfold NoDoubleNewline; infer_instance

/-- Where no newline hides behind another one, all of them are found. -/
theorem frame_newlineFree (cur cs : List Byte) (hcur : LF ∉ cur) (hcs : NoDoubleNewline cs) :
    (∀ l ∈ (frame cur cs).1, LF ∉ l) ∧ LF ∉ (frame cur cs).2 := by
  fun_induction frame cur cs with
  | case1 cur => simpa using hcur
  | case2 cur => simpa using hcur
  | case3 cur c h => simpa using ⟨hcur, Ne.symm h⟩
  | case4 cur d cs ih =>
      have hd : d ≠ LF := fun hd => (List.isChain_cons_cons.mp hcs).1 ⟨rfl, hd⟩
      have htail : NoDoubleNewline (d :: cs) := (List.isChain_cons_cons.mp hcs).2
      obtain ⟨h₁, h₂⟩ := ih (by simpa using Ne.symm hd) htail.tail
      exact ⟨by simpa using ⟨hcur, h₁⟩, h₂⟩
  | case5 cur c d cs h ih =>
      exact ih (by simpa using ⟨hcur, Ne.symm h⟩) (List.isChain_cons_cons.mp hcs).2

/-! ### The index loop computes `frame` -/

/-- Between two iterations: the array is untouched from `line_start` on, and the
remainder buffer holds `xs`, which is empty once a newline was seen. -/
structure ScanInv (chunk : List Byte) (s : ScanState) (xs : List Byte) : Prop where
  start_le_i : s.lineStart ≤ s.i
  start_le : s.lineStart ≤ chunk.length
  tail : s.readbuf.drop s.lineStart = chunk.drop s.lineStart ++ [NUL]
  tmp : s.tmpLineBuf.Holds xs
  fresh : s.lineStart ≠ 0 → xs = []

/-- The line under way: the remainder and what was scanned since `line_start`. -/
def ScanState.cur (s : ScanState) (chunk xs : List Byte) : List Byte :=
  xs ++ (chunk.take s.i).drop s.lineStart

theorem takeJob_spec {tmp : Buffer} {xs ys : List Byte} (h : tmp.Holds xs) (hys : NUL ∉ ys)
    (m : List Byte) :
    ∃ line tmp', takeJob tmp (ys ++ NUL :: m) = .ok (line, tmp') ∧ line.Holds (xs ++ ys) ∧
      tmp'.Holds [] := by
  unfold takeJob
  split
  case isTrue hlen =>
    obtain ⟨line, h₁, hline⟩ := bufferInitBuffer_spec h
    obtain ⟨line', h₂, hline'⟩ := bufferAppendString_spec hline hys m
    obtain ⟨tmp', h₃, htmp'⟩ := bufferReset_spec h
    refine ⟨line', tmp', ?_, hline', htmp'⟩
    simp only [h₁, h₂, h₃, bind, Except.bind, pure, Except.pure]
  case isFalse hlen =>
    -- `len = 0` is the empty remainder
    have hxs : xs = [] := by
      rw [← h.content, Buffer.content]
      simp [Nat.eq_zero_of_not_pos hlen]
    subst hxs
    obtain ⟨line, h₁, hline⟩ := bufferInitString_spec hys m
    refine ⟨line, tmp, ?_, hline, h⟩
    simp only [h₁, bind, Except.bind, pure, Except.pure]

theorem ScanInv.getElem? {chunk : List Byte} {s : ScanState} {xs : List Byte}
    (h : ScanInv chunk s xs) (hi : s.i < chunk.length) : s.readbuf[s.i]? = some chunk[s.i] := by
  have hle := h.start_le_i
  have hidx := congrArg (·[s.i - s.lineStart]?) h.tail
  simp only [List.getElem?_drop, Nat.add_sub_cancel' hle] at hidx
  rw [hidx, List.getElem?_append_left (by rw [List.length_drop]; omega), List.getElem?_drop,
    Nat.add_sub_cancel' hle, List.getElem?_eq_getElem hi]

/-- The array from `line_start` on after the newline at `i` became a NUL. -/
theorem ScanInv.drop_set {chunk : List Byte} {s : ScanState} {xs : List Byte}
    (h : ScanInv chunk s xs) (hi : s.i < chunk.length) :
    (s.readbuf.set s.i NUL).drop s.lineStart
      = (chunk.take s.i).drop s.lineStart ++ NUL :: (chunk.drop (s.i + 1) ++ [NUL]) := by
  have hle := h.start_le_i
  -- the chunk, cut at the newline
  have hsplit : chunk.drop s.lineStart
      = (chunk.take s.i).drop s.lineStart ++ chunk[s.i] :: chunk.drop (s.i + 1) := by
    conv_lhs => rw [← List.take_append_drop s.i chunk]
    rw [List.drop_append_of_le_length (by rw [List.length_take]; omega),
      List.drop_eq_getElem_cons hi]
  have hlen : ((chunk.take s.i).drop s.lineStart).length = s.i - s.lineStart := by
    rw [List.length_drop, List.length_take]; omega
  rw [List.drop_set, if_neg (by omega), h.tail, hsplit, List.append_assoc,
    List.set_append_right _ _ (by omega), hlen, Nat.sub_self]
  rfl

/-- One iteration at a newline. -/
theorem scanBody_newline {chunk : List Byte} {s : ScanState} {xs : List Byte}
    (hnul : NUL ∉ chunk) (h : ScanInv chunk s xs) (hi : s.i < chunk.length)
    (hc : chunk[s.i] = LF) :
    ∃ s' line, scanBody s = .ok s' ∧ ScanInv chunk s' [] ∧ s'.i = s.i + 2 ∧
      s'.lineStart = s.i + 1 ∧ s'.jobs = s.jobs ++ [line] ∧ line.Holds (s.cur chunk xs) := by
  have hys : NUL ∉ (chunk.take s.i).drop s.lineStart :=
    fun hm => hnul (List.mem_of_mem_take (List.mem_of_mem_drop hm))
  obtain ⟨line, tmp', hjob, hline, htmp'⟩ :=
    takeJob_spec h.tmp hys (chunk.drop (s.i + 1) ++ [NUL])
  rw [← h.drop_set hi] at hjob
  refine ⟨⟨s.readbuf.set s.i NUL, s.i + 2, s.i + 1, tmp', s.jobs ++ [line]⟩, line, ?_, ?_,
    rfl, rfl, rfl, hline⟩
  · simp only [scanBody, h.getElem? hi, hc, if_true, hjob, bind, Except.bind, pure, Except.pure]
  · refine ⟨Nat.le_succ _, hi, ?_, htmp', fun _ => rfl⟩
    have hle := h.start_le_i
    have hdrop := congrArg (List.drop (s.i + 1 - s.lineStart)) h.tail
    rw [List.drop_drop, Nat.add_sub_cancel' (by omega),
      List.drop_append_of_le_length (by rw [List.length_drop]; omega), List.drop_drop,
      Nat.add_sub_cancel' (by omega)] at hdrop
    simp only
    rw [List.drop_set, if_pos (by omega)]
    exact hdrop

/-- One iteration at any other byte. -/
theorem scanBody_other {chunk : List Byte} {s : ScanState} {xs : List Byte}
    (h : ScanInv chunk s xs) (hi : s.i < chunk.length) (hc : chunk[s.i] ≠ LF) :
    scanBody s = .ok { s with i := s.i + 1 } ∧ ScanInv chunk { s with i := s.i + 1 } xs := by
  refine ⟨?_, Nat.le_succ_of_le h.start_le_i, h.start_le, h.tail, h.tmp, h.fresh⟩
  simp only [scanBody, h.getElem? hi, hc, if_false, pure, Except.pure]

theorem scanLoop_spec {chunk : List Byte} (hnul : NUL ∉ chunk) (n : ℕ) :
    ∀ {s : ScanState} {xs : List Byte}, ScanInv chunk s xs → chunk.length ≤ s.i + n →
    ∃ s' ys js, scanLoop chunk.length n s = .ok s' ∧ ScanInv chunk s' ys ∧
      s'.jobs = s.jobs ++ js ∧
      List.Forall₂ Buffer.Holds js (frame (s.cur chunk xs) (chunk.drop s.i)).1 ∧
      ys ++ chunk.drop s'.lineStart = (frame (s.cur chunk xs) (chunk.drop s.i)).2 := by
  -- behind the last byte the line under way is the remainder
  have hdone : ∀ {s : ScanState} {xs : List Byte}, ScanInv chunk s xs → chunk.length ≤ s.i →
      ∃ s' ys js, (.ok s : Except Fault ScanState) = .ok s' ∧ ScanInv chunk s' ys ∧
        s'.jobs = s.jobs ++ js ∧
        List.Forall₂ Buffer.Holds js (frame (s.cur chunk xs) (chunk.drop s.i)).1 ∧
        ys ++ chunk.drop s'.lineStart = (frame (s.cur chunk xs) (chunk.drop s.i)).2 := by
    intro s xs h hi
    refine ⟨s, xs, [], rfl, h, by simp, ?_, ?_⟩
    · rw [List.drop_eq_nil_of_le hi]
      exact .nil
    · rw [List.drop_eq_nil_of_le hi, frame, ScanState.cur, List.take_of_length_le hi]
  induction n with
  | zero => intro s xs h hn; exact hdone h hn
  | succ n ih =>
      intro s xs h hn
      by_cases hi : s.i < chunk.length
      · rw [scanLoop, if_pos hi, List.drop_eq_getElem_cons hi]
        by_cases hc : chunk[s.i] = LF
        · obtain ⟨s₁, line, hbody, h₁, hi₁, hstart₁, hjobs₁, hline⟩ :=
            scanBody_newline hnul h hi hc
          obtain ⟨s', ys, js, hloop, h', hjobs', hall, hrest⟩ := ih h₁ (by omega)
          -- the byte behind the newline is already part of the next line
          have hcur : s₁.cur chunk [] = (chunk.drop (s.i + 1)).take 1 := by
            rw [ScanState.cur, hi₁, hstart₁, List.nil_append, List.drop_take]
            congr 1
            omega
          have hdrop : chunk.drop s₁.i = (chunk.drop (s.i + 1)).drop 1 := by
            rw [hi₁, List.drop_drop]
          rw [hcur, hdrop] at hall hrest
          refine ⟨s', ys, line :: js, ?_, h', ?_, ?_, ?_⟩
          · simp only [hbody, bind, Except.bind, hloop]
          · rw [hjobs', hjobs₁, List.append_assoc, List.singleton_append]
          · rw [hc, frame_cons_newline]
            exact .cons hline hall
          · rw [hc, frame_cons_newline]
            exact hrest
        -- the byte goes to the line under way
        · obtain ⟨hbody, h₁⟩ := scanBody_other h hi hc
          obtain ⟨s', ys, js, hloop, h', hjobs', hall, hrest⟩ := ih h₁ (by simp only; omega)
          have hcur : ScanState.cur { s with i := s.i + 1 } chunk xs
              = s.cur chunk xs ++ [chunk[s.i]] := by
            have hle := h.start_le_i
            simp only [ScanState.cur]
            rw [List.take_succ_eq_append_getElem hi,
              List.drop_append_of_le_length (by rw [List.length_take]; omega),
              List.append_assoc]
          rw [hcur] at hall hrest
          rw [frame_cons_of_ne hc]
          refine ⟨s', ys, js, ?_, h', hjobs', hall, hrest⟩
          simp only [hbody, bind, Except.bind, hloop]
      · rw [scanLoop, if_neg hi]
        exact hdone h (Nat.le_of_not_lt hi)

/-- One chunk: the lines enqueued and the remainder kept are those of `frame`, and
reading goes on exactly when there is a remainder. -/
theorem readChunk_spec {tmp : Buffer} {xs chunk : List Byte} (h : tmp.Holds xs)
    (hnul : NUL ∉ chunk) (hne : chunk ≠ []) :
    ∃ tmp' js, readChunk tmp chunk = .ok (tmp', js, decide ((frame xs chunk).2 ≠ [])) ∧
      List.Forall₂ Buffer.Holds js (frame xs chunk).1 ∧ tmp'.Holds (frame xs chunk).2 := by
  have h₀ : ScanInv chunk ⟨chunk ++ [NUL], 0, 0, tmp, []⟩ xs :=
    ⟨Nat.le_refl 0, Nat.zero_le _, by simp, h, fun h => absurd rfl h⟩
  obtain ⟨s, ys, js, hloop, hs, hjobs, hall, hrest⟩ :=
    scanLoop_spec hnul chunk.length h₀ (by simp)
  simp only [ScanState.cur, List.take_zero, List.drop_nil, List.append_nil, List.drop_zero]
    at hall hrest
  rw [List.nil_append] at hjobs
  rcases hd : chunk.drop s.lineStart with - | ⟨c, cs⟩
  · -- nothing behind the last newline: the remainder was reset with that line
    have hpos : s.lineStart ≠ 0 := by
      intro h0
      rw [h0, List.drop_zero] at hd
      exact hne hd
    have hys := hs.fresh hpos
    have hbyte : s.readbuf[s.lineStart]? = some NUL := by
      have := congrArg (·[0]?) hs.tail
      simpa [hd] using this
    obtain ⟨tmp', hreset, htmp'⟩ := bufferReset_spec hs.tmp
    rw [hd, hys, List.append_nil] at hrest
    refine ⟨tmp', js, ?_, hall, hrest ▸ htmp'⟩
    simp only [readChunk, hloop, hbyte, hreset, hjobs, ← hrest, bind, Except.bind, pure,
      Except.pure]
    rfl
  · have hbyte : s.readbuf[s.lineStart]? = some c := by
      have := congrArg (·[0]?) hs.tail
      simpa [hd] using this
    -- there is a remainder, and it is appended to what was kept
    have hc : c ≠ NUL := by
      rintro rfl
      exact hnul (List.mem_of_mem_drop (hd ▸ List.mem_cons_self))
    have hlen : chunk.length - s.lineStart = (c :: cs).length := by
      rw [← hd, List.length_drop]
    obtain ⟨tmp', happ, htmp'⟩ := bufferAppendStringLen_spec hs.tmp (c :: cs) [NUL]
    rw [hd] at hrest
    refine ⟨tmp', js, ?_, hall, hrest ▸ htmp'⟩
    have hmore : (frame xs chunk).2 ≠ [] := by
      rw [← hrest]
      simp
    have htail := hs.tail
    rw [hd] at htail
    simp only [readChunk, hloop, hbyte, htail, hlen, happ, hjobs, hc, hmore, ne_eq,
      not_false_eq_true, if_true, decide_true, bind, Except.bind, pure, Except.pure]

/-! ### Callbacks and reads -/

/-- The reads one after the other, however they are spread over callbacks. -/
def stdinFold (s : StdinState) (rs : List ReadResult) : Except Fault StdinState :=
  rs.foldlM (fun s r => do return (← stdinRead s r).1) s

/-- A read that delivers 1 to 4095 bytes without NUL, or nothing for the moment. -/
def ReadResult.Valid : ReadResult → Prop
  | .data chunk => chunk ≠ [] ∧ chunk.length ≤ STDIN_BUF_CHUNKSIZE - 1 ∧ NUL ∉ chunk
  | .eof => False
  | .error => True

theorem stdinFold_cons (s : StdinState) (r : ReadResult) (rs : List ReadResult) :
    stdinFold s (r :: rs) = (stdinRead s r).bind fun p => stdinFold p.1 rs := by
  simp only [stdinFold, List.foldlM_cons]
  rcases stdinRead s r with e | p <;> rfl

/-- A callback takes a first part of the reads and leaves the rest to the next one. -/
theorem stdinReadCb_bind_stdinFold (s : StdinState) (rs : List ReadResult) :
    ((stdinReadCb s rs).bind fun p => stdinFold p.1 p.2) = stdinFold s rs := by
  induction rs generalizing s with
  | nil => rfl
  | cons r rs ih =>
      rw [stdinFold_cons]
      rcases h : stdinRead s r with e | p
      · simp only [stdinReadCb, h]
        rfl
      · rcases hm : p.2 with - | -
        · simp only [stdinReadCb, h, bind, Except.bind, hm]
          rfl
        · simp only [stdinReadCb, h, bind, Except.bind, hm, if_true]
          exact ih p.1

theorem stdinRead_watching {s : StdinState} {r : ReadResult} {p : StdinState × Bool}
    (hr : r ≠ .eof) (h : stdinRead s r = .ok p) : p.1.watching = s.watching := by
  cases r with
  | data chunk =>
      rcases hc : readChunk s.tmpLineBuf chunk with e | q
      · simp [stdinRead, hc, bind, Except.bind] at h
      · simp only [stdinRead, hc, bind, Except.bind, pure, Except.pure, Except.ok.injEq] at h
        rw [← h]
  | eof => exact absurd rfl hr
  | error =>
      simp only [stdinRead, Except.ok.injEq] at h
      rw [← h]

/-- A callback that has something to read uses at least one read, and does not stop
the watcher unless the input has ended. -/
theorem stdinReadCb_rest {s : StdinState} {r : ReadResult} {rs : List ReadResult}
    {p : StdinState × List ReadResult} (hrs : ∀ r' ∈ r :: rs, r' ≠ .eof)
    (h : stdinReadCb s (r :: rs) = .ok p) :
    p.2 <:+ rs ∧ p.1.watching = s.watching := by
  induction rs generalizing s r with
  | nil =>
      rcases hr : stdinRead s r with e | q
      · simp [stdinReadCb, hr, bind, Except.bind] at h
      · have hw := stdinRead_watching (hrs r List.mem_cons_self) hr
        rcases hm : q.2 with - | - <;>
          simp only [stdinReadCb, hr, bind, Except.bind, hm, pure, Except.pure, if_true,
            Bool.false_eq_true, if_false, Except.ok.injEq] at h <;>
          rw [← h] <;> exact ⟨List.suffix_refl _, hw⟩
  | cons r' rs ih =>
      rcases hr : stdinRead s r with e | q
      · simp [stdinReadCb, hr, bind, Except.bind] at h
      · have hw := stdinRead_watching (hrs r List.mem_cons_self) hr
        rw [stdinReadCb, hr] at h
        -- the callback returns, or it reads on
        rcases hm : q.2 with - | -
        · simp only [bind, Except.bind, hm, pure, Except.pure, Bool.false_eq_true, if_false,
            Except.ok.injEq] at h
          rw [← h]
          exact ⟨List.suffix_refl _, hw⟩
        · simp only [bind, Except.bind, hm, if_true] at h
          obtain ⟨hsuf, hw'⟩ := ih (fun x hx => hrs x (List.mem_cons_of_mem _ hx)) h
          exact ⟨hsuf.trans (List.suffix_cons _ _), hw'.trans hw⟩

/-- **The spreading over callbacks makes no difference.** -/
theorem stdinCallbacks_eq_stdinFold (n : ℕ) (s : StdinState) (rs : List ReadResult)
    (hrs : ∀ r ∈ rs, r ≠ .eof) (hw : s.watching = true) (hn : rs.length ≤ n) :
    stdinCallbacks n s rs = stdinFold s rs := by
  induction n generalizing s rs with
  | zero =>
      obtain rfl := List.eq_nil_of_length_eq_zero (Nat.le_zero.mp hn)
      rfl
  | succ n ih =>
      cases rs with
      | nil => simp [stdinCallbacks, stdinFold, pure, Except.pure]
      | cons r rs =>
          rw [stdinCallbacks, if_pos ⟨hw, by simp⟩, ← stdinReadCb_bind_stdinFold]
          rcases h : stdinReadCb s (r :: rs) with e | p
          · rfl
          · obtain ⟨hsuf, hw'⟩ := stdinReadCb_rest hrs h
            -- the callback used up a read, so one callback less will do
            have hlen := hsuf.length_le
            rw [List.length_cons] at hn
            exact ih p.1 p.2 (fun x hx => hrs x (List.mem_cons_of_mem _ (hsuf.subset hx)))
              (hw'.trans hw) (by omega)

/-! ### The framing of a whole stream -/

/-- After the reads `rs`: the lines enqueued and the remainder, and how they make
up the bytes read. -/
structure Framed (s : StdinState) (rs : List ReadResult) (lines : List (List Byte))
    (rest : List Byte) : Prop where
  jobs : List.Forall₂ Buffer.Holds s.jobs lines
  tmp : s.tmpLineBuf.Holds rest
  bytes : lines.flatMap (· ++ [LF]) ++ rest = bytesRead rs
  newlineFree : NoDoubleNewline (bytesRead rs) → (∀ l ∈ lines, LF ∉ l) ∧ LF ∉ rest

theorem bytesRead_append (rs rs' : List ReadResult) :
    bytesRead (rs ++ rs') = bytesRead rs ++ bytesRead rs' := List.flatMap_append

theorem framed_init : Framed .init [] [] [] :=
  ⟨.nil, holds_bufferInit, rfl, fun _ => ⟨by simp, by simp⟩⟩

/-- One read. -/
theorem Framed.stdinRead {s : StdinState} {rs : List ReadResult} {lines : List (List Byte)}
    {rest : List Byte} (h : Framed s rs lines rest) {r : ReadResult} (hr : r.Valid) :
    ∃ p lines' rest', SquidHelper.stdinRead s r = .ok p ∧
      Framed p.1 (rs ++ [r]) lines' rest' := by
  cases r with
  | eof => exact absurd hr id
  | error =>
      have hb : bytesRead (rs ++ [.error]) = bytesRead rs := by simp [bytesRead]
      exact ⟨(s, false), lines, rest, rfl, h.jobs, h.tmp, hb ▸ h.bytes, hb ▸ h.newlineFree⟩
  | data chunk =>
      obtain ⟨hne, -, hnul⟩ := hr
      obtain ⟨tmp', js, hread, hjs, htmp'⟩ := readChunk_spec h.tmp hnul hne
      have hb : bytesRead (rs ++ [.data chunk]) = bytesRead rs ++ chunk := by simp [bytesRead]
      refine ⟨({ s with tmpLineBuf := tmp', jobs := s.jobs ++ js },
          decide ((frame rest chunk).2 ≠ [])),
        lines ++ (frame rest chunk).1, (frame rest chunk).2,
        by simp only [SquidHelper.stdinRead, hread, bind, Except.bind, pure, Except.pure], ?_⟩
      refine ⟨List.rel_append h.jobs hjs, htmp', ?_, ?_⟩
      · rw [hb, List.flatMap_append, List.append_assoc, frame_flatten, ← List.append_assoc,
          h.bytes]
      · intro hnd
        rw [hb] at hnd
        obtain ⟨hl, hrest⟩ := h.newlineFree hnd.left_of_append
        obtain ⟨hl', hrest'⟩ :=
          frame_newlineFree rest chunk hrest hnd.right_of_append
        refine ⟨fun l hm => ?_, hrest'⟩
        exact (List.mem_append.mp hm).elim (hl l) (hl' l)

/-- Any number of reads. -/
theorem Framed.stdinFold {s : StdinState} {rs rs' : List ReadResult} {lines : List (List Byte)}
    {rest : List Byte} (h : Framed s rs lines rest) (hrs' : ∀ r ∈ rs', r.Valid) :
    ∃ s' lines' rest', SquidHelper.stdinFold s rs' = .ok s' ∧
      Framed s' (rs ++ rs') lines' rest' := by
  induction rs' generalizing s rs lines rest with
  | nil => exact ⟨s, lines, rest, rfl, by simpa using h⟩
  | cons r rs' ih =>
      obtain ⟨p, lines₁, rest₁, hp, h₁⟩ := h.stdinRead (hrs' r List.mem_cons_self)
      obtain ⟨s', lines', rest', hs', h'⟩ := ih h₁ fun x hx => hrs' x (List.mem_cons_of_mem _ hx)
      refine ⟨s', lines', rest', ?_, by simpa using h'⟩
      rw [stdinFold_cons, hp]
      exact hs'

/-- The newline-terminated lines of a stream. -/
def completeLines (stream : List Byte) : List (List Byte) := (stream.splitOn LF).dropLast

/-- What follows its last newline. -/
def unterminatedRest (stream : List Byte) : List Byte := (stream.splitOn LF).getLastD []

theorem splitOn_lines {lines : List (List Byte)} {rest : List Byte} (hl : ∀ l ∈ lines, LF ∉ l)
    (hrest : LF ∉ rest) :
    (lines.flatMap (· ++ [LF]) ++ rest).splitOn LF = lines ++ [rest] := by
  induction lines with
  | nil => simpa using List.splitOn_eq_singleton hrest
  | cons l lines ih =>
      have hl₀ := List.splitOn_eq_singleton (hl l List.mem_cons_self)
      have hl' := ih fun x hx => hl x (List.mem_cons_of_mem _ hx)
      rw [List.flatMap_cons, List.append_assoc, List.append_assoc, List.singleton_append,
        List.splitOn_append_cons_self, hl₀, hl', List.singleton_append, List.cons_append]

theorem map_content_of_forall₂ {bs : List Buffer} {lines : List (List Byte)}
    (h : List.Forall₂ Buffer.Holds bs lines) : bs.map Buffer.content = lines := by
  induction h with
  | nil => rfl
  | cons hb _ ih => rw [List.map_cons, hb.content, ih]

/-- **Input framing loses, duplicates and reorders nothing.**  `reads` is any way of
cutting the stream and of stopping after any of its reads. -/
theorem stdin_framing (reads : List ReadResult) (hreads : ∀ r ∈ reads, r.Valid) :
    ∃ s, runStdin reads = .ok s ∧
      s.jobs.flatMap (fun line => line.content ++ [LF]) ++ s.tmpLineBuf.content
        = bytesRead reads ∧
      ((bytesRead reads).head? ≠ some LF → NoDoubleNewline (bytesRead reads) →
        s.jobs.map Buffer.content = completeLines (bytesRead reads) ∧
        (∀ line ∈ s.jobs, LF ∉ line.content) ∧
        s.tmpLineBuf.content = unterminatedRest (bytesRead reads)) := by
  have hne : ∀ r ∈ reads, r ≠ .eof := by
    rintro r hr rfl
    exact hreads _ hr
  obtain ⟨s, lines, rest, hfold, h⟩ := framed_init.stdinFold hreads
  rw [List.nil_append] at h
  have hjobs := map_content_of_forall₂ h.jobs
  have hbytes := h.bytes
  refine ⟨s, ?_, ?_, ?_⟩
  · rw [runStdin, stdinCallbacks_eq_stdinFold _ _ _ hne rfl (Nat.le_refl _), hfold]
  · rw [h.tmp.content, ← hbytes, ← hjobs, List.flatMap_map]
  · intro _ hnd
    obtain ⟨hl, hrest⟩ := h.newlineFree hnd
    -- without empty lines there is only one way to split the bytes
    have hsplit := splitOn_lines hl hrest
    rw [hbytes] at hsplit
    refine ⟨?_, fun line hm => hl _ ?_, ?_⟩
    · rw [hjobs, completeLines, hsplit, List.dropLast_concat]
    · rw [← hjobs]
      exact List.mem_map_of_mem hm
    · rw [h.tmp.content, unterminatedRest, hsplit]
      simp

/-- A stream of three lines, the last one not yet complete, that a read boundary cuts
inside the second line. -/
def twoChunks : List ReadResult :=
  [.data (ascii "1 10.0.0.1\n2 10."), .error, .data (ascii "0.0.2\n3")]

theorem twoChunks_valid : ∀ r ∈ twoChunks, r.Valid := by
  intro r hr
  simp only [twoChunks, List.mem_cons, List.not_mem_nil, or_false] at hr
  rcases hr with rfl | rfl | rfl
  · exact ⟨by decide, by decide, by decide⟩
  · exact trivial
  · exact ⟨by decide, by decide, by decide⟩

/-- The framing of that stream. -/
theorem stdin_framing_twoChunks :
    ∃ s, runStdin twoChunks = .ok s ∧
      s.jobs.map Buffer.content = [ascii "1 10.0.0.1", ascii "2 10.0.0.2"] ∧
      s.tmpLineBuf.content = ascii "3" := by
  have hnd : NoDoubleNewline (bytesRead twoChunks) := by decide
  have hlines : completeLines (bytesRead twoChunks)
      = [ascii "1 10.0.0.1", ascii "2 10.0.0.2"] := by decide
  have hlast : unterminatedRest (bytesRead twoChunks) = ascii "3" := by decide
  obtain ⟨s, hs, -, hsplit⟩ := stdin_framing twoChunks twoChunks_valid
  obtain ⟨hjobs, -, hrest⟩ := hsplit (by decide) hnd
  exact ⟨s, hs, hjobs.trans hlines, hrest.trans hlast⟩

end SquidHelper
