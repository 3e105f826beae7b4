/-
SquidHelper/Framing.lean

Does the framing of standard input depend on how the kernel cuts it into reads?

`frameReads` is `frame` over a whole sequence of reads, the remainder handed from one to
the next; `runStdin_frameReads` says that it is what the callbacks compute.  A read of one
byte examines every byte there is, so a stream read byte by byte loses no newline.  A read
that holds two newlines in a row does: the second one joins the next line unseen.

So the cutting matters exactly for the streams with two newlines in a row
(`framing_cut_independent_iff`).
-/
import SquidHelper.Stdin

namespace SquidHelper

open CString

/-! ### Ways of cutting a stream -/

/-- `reads` delivers `stream`, 1 to 4095 bytes at a time. -/
structure Cuts (stream : List Byte) (reads : List ReadResult) : Prop where
  valid : ∀ r ∈ reads, r.Valid
  bytes : bytesRead reads = stream

/-- The lines enqueued in the course of `reads` and the final content of `tmp_line_buf`. -/
def framing (reads : List ReadResult) : Except Fault (List (List Byte) × List Byte) := do
  let s ← runStdin reads
  return (s.jobs.map Buffer.content, s.tmpLineBuf.content)

/-- Two ways of cutting `stream` come to the same. -/
def CutIndependent (stream : List Byte) : Prop :=
  ∀ reads₁ reads₂, Cuts stream reads₁ → Cuts stream reads₂ →
    ∃ out, framing reads₁ = .ok out ∧ framing reads₂ = .ok out

/-- However `stream` is cut, each newline ends a line and none is part of one. -/
def NewlinesFound (stream : List Byte) : Prop :=
  ∀ reads, Cuts stream reads → ∃ lines rest, framing reads = .ok (lines, rest) ∧
    (∀ l ∈ lines, LF ∉ l) ∧ lines.length = stream.count LF

/-- The reads one after the other, `cur` being the remainder before them. -/
def frameReads (cur : List Byte) : List ReadResult → List (List Byte) × List Byte
  | [] => ([], cur)
  | .data chunk :: rs =>
      ((frame cur chunk).1 ++ (frameReads (frame cur chunk).2 rs).1,
        (frameReads (frame cur chunk).2 rs).2)
  | .eof :: rs => frameReads cur rs
  | .error :: rs => frameReads cur rs

theorem stdinFold_frameReads {rs : List ReadResult} {s : StdinState} {cur : List Byte}
    (h : s.tmpLineBuf.Holds cur) (hrs : ∀ r ∈ rs, r.Valid) :
    ∃ s', stdinFold s rs = .ok s' ∧
      s'.jobs.map Buffer.content = s.jobs.map Buffer.content ++ (frameReads cur rs).1 ∧
      s'.tmpLineBuf.content = (frameReads cur rs).2 := by
  induction rs generalizing s cur with
  | nil => exact ⟨s, rfl, by simp [frameReads], h.content⟩
  | cons r rs ih =>
      have hrs' : ∀ r' ∈ rs, r'.Valid := fun r' hr' => hrs r' (List.mem_cons_of_mem _ hr')
      rw [stdinFold_cons]
      cases r with
      | eof => exact absurd (hrs _ List.mem_cons_self) id
      | error => exact ih h hrs'
      | data chunk =>
          obtain ⟨hne, -, hnul⟩ := hrs _ List.mem_cons_self
          -- the remainder of this read is where the next one begins
          obtain ⟨tmp', js, hread, hjs, htmp'⟩ := readChunk_spec h hnul hne
          obtain ⟨s', hs', hjobs, htmp⟩ := ih
            (s := { s with tmpLineBuf := tmp', jobs := s.jobs ++ js }) htmp' hrs'
          refine ⟨s', ?_, ?_, htmp⟩
          · rw [stdinRead, hread]
            exact hs'
          · rw [hjobs, List.map_append, map_content_of_forall₂ hjs, List.append_assoc]
            rfl

/-- **The callbacks compute `frameReads`.** -/
theorem runStdin_frameReads {reads : List ReadResult} (hreads : ∀ r ∈ reads, r.Valid) :
    framing reads = .ok (frameReads [] reads) := by
  have hne : ∀ r ∈ reads, r ≠ .eof := by
    rintro r hr rfl
    exact hreads _ hr
  obtain ⟨s, hs, hjobs, htmp⟩ := stdinFold_frameReads (s := .init) holds_bufferInit hreads
  rw [framing, runStdin, stdinCallbacks_eq_stdinFold _ _ _ hne rfl (Nat.le_refl _), hs]
  show Except.ok (s.jobs.map Buffer.content, s.tmpLineBuf.content) = _
  rw [hjobs, htmp]
  rfl

/-! ### What every cutting keeps -/

theorem frameReads_append (cur : List Byte) (rs rs' : List ReadResult) :
    frameReads cur (rs ++ rs') = ((frameReads cur rs).1 ++ (frameReads (frameReads cur rs).2 rs').1,
      (frameReads (frameReads cur rs).2 rs').2) := by
  induction rs generalizing cur with
  | nil => rfl
  | cons r rs ih =>
      cases r with
      | data chunk =>
          rw [List.cons_append, frameReads, ih, frameReads, List.append_assoc]
      | eof => exact ih cur
      | error => exact ih cur

/-- Every byte stays in its place. -/
theorem frameReads_flatten (cur : List Byte) (rs : List ReadResult) :
    (frameReads cur rs).1.flatMap (· ++ [LF]) ++ (frameReads cur rs).2 = cur ++ bytesRead rs := by
  induction rs generalizing cur with
  | nil => simp [frameReads, bytesRead]
  | cons r rs ih =>
      cases r with
      | data chunk =>
          have hb : bytesRead (.data chunk :: rs) = chunk ++ bytesRead rs := by simp [bytesRead]
          rw [frameReads, List.flatMap_append, List.append_assoc, ih, hb, ← List.append_assoc,
            frame_flatten, List.append_assoc]
      | eof => exact ih cur
      | error => exact ih cur

/-- Where no newline hides behind another one, all of them are found. -/
theorem frameReads_newlineFree {cur : List Byte} {rs : List ReadResult} (hcur : LF ∉ cur)
    (hrs : NoDoubleNewline (bytesRead rs)) :
    (∀ l ∈ (frameReads cur rs).1, LF ∉ l) ∧ LF ∉ (frameReads cur rs).2 := by
  induction rs generalizing cur with
  | nil => exact ⟨by simp [frameReads], hcur⟩
  | cons r rs ih =>
      cases r with
      | data chunk =>
          have hb : bytesRead (.data chunk :: rs) = chunk ++ bytesRead rs := by simp [bytesRead]
          rw [hb] at hrs
          obtain ⟨hl, hcur'⟩ := frame_newlineFree cur chunk hcur hrs.left_of_append
          obtain ⟨hl', hrest⟩ := ih hcur' hrs.right_of_append
          exact ⟨List.forall_mem_append.mpr ⟨hl, hl'⟩, hrest⟩
      | eof => exact ih hcur hrs
      | error => exact ih hcur hrs

/-- Lines and a remainder without newlines are the parts of the stream between its newlines. -/
theorem splitOn_frameReads {reads : List ReadResult} (hl : ∀ l ∈ (frameReads [] reads).1, LF ∉ l)
    (hrest : LF ∉ (frameReads [] reads).2) :
    frameReads [] reads
      = (completeLines (bytesRead reads), unterminatedRest (bytesRead reads)) := by
  have hsplit := splitOn_lines hl hrest
  rw [frameReads_flatten, List.nil_append] at hsplit
  rw [completeLines, unterminatedRest, hsplit, List.dropLast_concat]
  simp

/-- There are as many of them as newlines. -/
theorem length_frameReads {reads : List ReadResult} (hl : ∀ l ∈ (frameReads [] reads).1, LF ∉ l)
    (hrest : LF ∉ (frameReads [] reads).2) :
    (frameReads [] reads).1.length = (bytesRead reads).count LF := by
  have hcount : ∀ lines : List (List Byte), (∀ l ∈ lines, LF ∉ l) →
      (lines.flatMap (· ++ [LF])).count LF = lines.length := by
    intro lines hlines
    induction lines with
    | nil => rfl
    | cons l lines ih =>
        obtain ⟨hl₀, hls⟩ := List.forall_mem_cons.mp hlines
        rw [List.flatMap_cons, List.count_append, List.count_append, ih hls,
          List.count_eq_zero_of_not_mem hl₀, List.length_cons]
        show 0 + 1 + lines.length = lines.length + 1
        omega
  have hflat := congrArg (List.count LF) (frameReads_flatten [] reads)
  rw [List.count_append, hcount _ hl, List.count_eq_zero_of_not_mem hrest] at hflat
  exact hflat

/-! ### Two cuttings of a stream with two newlines in a row -/

/-- One read for each byte. -/
def singles (bs : List Byte) : List ReadResult := bs.map fun c => .data [c]

theorem bytesRead_singles (bs : List Byte) : bytesRead (singles bs) = bs := by
  induction bs with
  | nil => rfl
  | cons c bs ih =>
      show [c] ++ bytesRead (singles bs) = _
      rw [ih]
      rfl

theorem singles_valid {bs : List Byte} (hnul : NUL ∉ bs) : ∀ r ∈ singles bs, r.Valid := by
  intro r hr
  obtain ⟨c, hc, rfl⟩ := List.mem_map.mp hr
  refine ⟨by simp, by show 1 ≤ 4095; omega, ?_⟩
  rintro hmem
  obtain rfl := List.mem_singleton.mp hmem
  exact hnul hc

/-- Byte by byte, each newline ends a line. -/
theorem length_frameReads_singles (cur bs : List Byte) :
    (frameReads cur (singles bs)).1.length = bs.count LF := by
  induction bs generalizing cur with
  | nil => rfl
  | cons c bs ih =>
      show ((frame cur [c]).1 ++ (frameReads (frame cur [c]).2 (singles bs)).1).length = _
      rw [List.length_append, ih, List.count_cons]
      by_cases hc : c = LF
      · simp [frame, hc]
        omega
      · simp [frame, hc]

/-- A stream with two newlines in a row. -/
theorem exists_double_of_not {bs : List Byte} (h : ¬ NoDoubleNewline bs) :
    ∃ pre post, bs = pre ++ LF :: LF :: post := by
  induction bs with
  | nil => exact absurd List.IsChain.nil h
  | cons c bs ih =>
      by_cases htail : NoDoubleNewline bs
      · cases bs with
        | nil => exact absurd (List.IsChain.singleton c) h
        | cons d bs =>
            have hcd : c = LF ∧ d = LF := by
              by_contra hne
              exact h (List.isChain_cons_cons.mpr ⟨hne, htail⟩)
            exact ⟨[], bs, by rw [hcd.1, hcd.2, List.nil_append]⟩
      · obtain ⟨pre, post, rfl⟩ := ih htail
        exact ⟨c :: pre, post, rfl⟩

/-- The two newlines in one read, everything else byte by byte. -/
def pairRead (pre post : List Byte) : List ReadResult :=
  singles pre ++ .data [LF, LF] :: singles post

theorem cuts_singles {bs : List Byte} (hnul : NUL ∉ bs) : Cuts bs (singles bs) :=
  ⟨singles_valid hnul, bytesRead_singles bs⟩

theorem cuts_pairRead {pre post : List Byte} (hnul : NUL ∉ pre ++ LF :: LF :: post) :
    Cuts (pre ++ LF :: LF :: post) (pairRead pre post) where
  valid := by
    simp only [List.mem_append, List.mem_cons, not_or] at hnul
    obtain ⟨hpre, -, -, hpost⟩ := hnul
    refine List.forall_mem_append.mpr ⟨singles_valid hpre, List.forall_mem_cons.mpr ⟨?_, ?_⟩⟩
    · exact ⟨by simp, by show 2 ≤ 4095; omega, by decide⟩
    · exact singles_valid hpost
  bytes := by
    rw [pairRead, bytesRead_append, bytesRead_singles]
    show pre ++ ([LF, LF] ++ bytesRead (singles post)) = _
    rw [bytesRead_singles]
    rfl

/-- The second newline of the pair is not seen. -/
theorem length_frameReads_pairRead (pre post : List Byte) :
    (frameReads [] (pairRead pre post)).1.length + 1 = (pre ++ LF :: LF :: post).count LF := by
  rw [pairRead, frameReads_append, frameReads]
  simp only [List.length_append, length_frameReads_singles, List.count_append, List.count_cons]
  simp [frame]
  omega

/-! ### The condition -/

/-- **How the input is cut makes no difference if and only if no two newlines follow each
other**, and only then is every newline found in every cutting. -/
theorem framing_cut_independent_iff {stream : List Byte} (hnul : NUL ∉ stream) :
    (CutIndependent stream ↔ NoDoubleNewline stream) ∧
      (NewlinesFound stream ↔ NoDoubleNewline stream) := by
  have hgood : NoDoubleNewline stream → ∀ reads, Cuts stream reads →
      framing reads = .ok (completeLines stream, unterminatedRest stream) ∧
        (∀ l ∈ (frameReads [] reads).1, LF ∉ l) ∧
        (frameReads [] reads).1.length = stream.count LF := by
    intro hnd reads hcuts
    rw [← hcuts.bytes] at hnd
    obtain ⟨hl, hrest⟩ := frameReads_newlineFree List.not_mem_nil hnd
    refine ⟨?_, hl, ?_⟩
    · rw [runStdin_frameReads hcuts.valid, splitOn_frameReads hl hrest, hcuts.bytes]
    · rw [length_frameReads hl hrest, hcuts.bytes]
  refine ⟨⟨fun hind => ?_, fun hnd => ?_⟩, fun hfound => ?_, fun hnd => ?_⟩
  · by_contra hdouble
    obtain ⟨pre, post, rfl⟩ := exists_double_of_not hdouble
    -- cut after every byte, and cut so that the pair is one read
    obtain ⟨out, h₁, h₂⟩ := hind _ _ (cuts_singles hnul) (cuts_pairRead hnul)
    rw [runStdin_frameReads (cuts_singles hnul).valid] at h₁
    rw [runStdin_frameReads (cuts_pairRead hnul).valid, ← h₁] at h₂
    -- one line less when the pair is read at once
    have hlen := congrArg (fun r => r.1.length) (Except.ok.inj h₂)
    have hpair := length_frameReads_pairRead pre post
    simp only [length_frameReads_singles] at hlen
    omega
  · intro reads₁ reads₂ h₁ h₂
    exact ⟨_, (hgood hnd _ h₁).1, (hgood hnd _ h₂).1⟩
  · by_contra hdouble
    obtain ⟨pre, post, rfl⟩ := exists_double_of_not hdouble
    obtain ⟨lines, rest, hframing, -, hlen⟩ := hfound _ (cuts_pairRead hnul)
    rw [runStdin_frameReads (cuts_pairRead hnul).valid] at hframing
    have hpair := length_frameReads_pairRead pre post
    rw [Except.ok.inj hframing] at hpair
    simp only at hpair
    omega
  · intro reads hcuts
    obtain ⟨-, hl, hlen⟩ := hgood hnd reads hcuts
    exact ⟨_, _, runStdin_frameReads hcuts.valid, hl, hlen⟩

/-- Two requests in a row can be cut anywhere. -/
theorem framing_cut_independent_twoLines :
    CutIndependent (ascii "1 10.0.0.1\n2 10.0.0.2\n") ∧
      NewlinesFound (ascii "1 10.0.0.1\n2 10.0.0.2\n") := by
  have hiff := @framing_cut_independent_iff (ascii "1 10.0.0.1\n2 10.0.0.2\n") (by decide)
  have hnd : NoDoubleNewline (ascii "1 10.0.0.1\n2 10.0.0.2\n") := by decide
  exact ⟨hiff.1.mpr hnd, hiff.2.mpr hnd⟩

/-- A request and an empty line in one read. -/
def emptyLineAtOnce : List ReadResult := [.data (ascii "1 10.0.0.1\n\n")]

/-- The same in two reads. -/
def emptyLineApart : List ReadResult := [.data (ascii "1 10.0.0.1\n"), .data (ascii "\n")]

/-- The empty line is a line in one case and lost in the other. -/
theorem framing_depends_on_cut : ¬ ∀ stream, NUL ∉ stream → CutIndependent stream := by
  intro hall
  have honce : Cuts (ascii "1 10.0.0.1\n\n") emptyLineAtOnce := by
    refine ⟨List.forall_mem_singleton.mpr ⟨by decide, by decide, by decide⟩, by decide⟩
  have hapart : Cuts (ascii "1 10.0.0.1\n\n") emptyLineApart := by
    refine ⟨List.forall_mem_cons.mpr ⟨⟨by decide, by decide, by decide⟩,
      List.forall_mem_singleton.mpr ⟨by decide, by decide, by decide⟩⟩, by decide⟩
  obtain ⟨out, h₁, h₂⟩ := hall _ (by decide) _ _ honce hapart
  rw [runStdin_frameReads honce.valid, ← h₂, runStdin_frameReads hapart.valid] at h₁
  have hlen := congrArg (fun r => r.1.length) (Except.ok.inj h₁)
  exact absurd hlen (by decide)

end SquidHelper
