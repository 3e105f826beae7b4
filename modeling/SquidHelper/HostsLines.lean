/-
SquidHelper/HostsLines.lean

What `parse_file` makes of any file at all, where `TxtFile` looks at hosts files only.

`parse_line` is given what `fgets` stores, so a line of `LINE_MAX` bytes or more arrives in
pieces (`linePieces`) and each piece is parsed as if it were a line.  `parsePieces` is the
loop of `parse_file` over these pieces.  `NullToken` and `hostRule` say, in terms of the
text of a piece, when a null pointer from `strtok_r` is used and which entry is made
otherwise; the results compare the chain with the entries of the whole lines.
-/
import SquidHelper.Lib.Lines
import SquidHelper.TxtFile

namespace SquidHelper

open CString

/-! ### Pieces of lines -/

/-- A line as `fgets(line, LINE_MAX, handle)` reads it. -/
def linePieces (l : List Byte) : List (List Byte) := pieces (LINE_MAX - 1) l

/-- A file as the loop of `parse_file` reads it. -/
def filePieces (file : List Byte) : List (List Byte) := (fileLines file).flatMap linePieces

/-- The loop of `parse_file`, given the strings it reads. -/
def parsePieces (b : Build) (pton : InetPton) :
    List (List Byte) → List HostEntry → Except Fault (List HostEntry)
  | [], chain => .ok chain
  | p :: ps, chain =>
      (parseLine b pton p).bind fun entry => parsePieces b pton ps (entry.toList ++ chain)

theorem linePieces_cons {l : List Byte} (hl : l ≠ []) :
    linePieces l = l.take (LINE_MAX - 1) :: linePieces (l.drop (LINE_MAX - 1)) :=
  pieces_cons (by decide) hl

theorem linePieces_short {l : List Byte} (hl : l ≠ []) (hshort : l.length < LINE_MAX) :
    linePieces l = [l] :=
  pieces_of_length_le hl (Nat.le_sub_one_of_lt hshort)

theorem parseLines_eq_parsePieces (b : Build) (pton : InetPton) (file : List Byte)
    (chain : List HostEntry) :
    parseLines b pton file.length file chain = parsePieces b pton (filePieces file) chain := by
  induction hlen : file.length using Nat.strong_induction_on generalizing file chain with
  | _ len ih =>
    subst hlen
    cases hread : fgets LINE_MAX file with
    | none =>
        rw [parseLines_end hread, fgets_eq_none hread]
        rfl
    | some r =>
        obtain ⟨line, rest⟩ := r
        have hpieces : filePieces file = line :: filePieces rest :=
          fgets_pieces (n := LINE_MAX - 1) (by decide) hread
        have hlt := fgets_length_lt (by decide) hread
        rw [parseLines_step hread, hpieces, parsePieces]
        congr 1
        funext entry
        exact ih rest.length hlt rest _ rfl

/-- **`parse_file` parses the pieces one after the other.** -/
theorem parseContents_eq_parsePieces (b : Build) (pton : InetPton) (file : List Byte) :
    parseContents b pton file = parsePieces b pton (filePieces file) [] :=
  parseLines_eq_parsePieces b pton file []

/-! ### The text of a piece -/

/-- The delimiters of the second call of `strtok_r`. -/
def endsWord (c : Byte) : Bool := c == CR || c == LF

/-- What is behind the first token and the space that ends it. -/
def afterToken (l : List Byte) : List Byte :=
  ((l.dropWhile (· == SP)).dropWhile fun c => !(c == SP)).drop 1

/-- The word behind the address. -/
def hostWord (l : List Byte) : List Byte :=
  ((afterToken l).dropWhile endsWord).takeWhile fun c => !endsWord c

/-- One of the two tokens is missing: there are only spaces, or nothing but line ends follows
an address. -/
def NullToken (b : Build) (pton : InetPton) (l : List Byte) : Prop :=
  (∀ c ∈ l, c = SP) ∨
    (resolve b pton (firstToken l)).isSome ∧ ∀ c ∈ afterToken l, c = CR ∨ c = LF

/-- What a line says: an address, and whether the word behind it is `ALLOW` up to case. -/
def hostRule (b : Build) (pton : InetPton) (l : List Byte) : Option HostEntry :=
  (resolve b pton (firstToken l)).bind fun a =>
    if hostWord l = [] then none
    else some ⟨a, if EqIgnoreCase (hostWord l) (ascii "ALLOW") then .allow else .deny⟩

/-- The entry `parse_line` makes of a string, if any. -/
def lineEntry (b : Build) (pton : InetPton) (l : List Byte) : Option HostEntry :=
  match parseLine b pton l with
  | .ok entry => entry
  | .error _ => none

section Text

variable {b : Build} {pton : InetPton} {l : List Byte}

theorem endsWord_iff {c : Byte} : endsWord c = true ↔ c = CR ∨ c = LF := by
  simp [endsWord]

theorem hostWord_eq_nil_iff : hostWord l = [] ↔ ∀ c ∈ afterToken l, c = CR ∨ c = LF := by
  rw [hostWord]
  cases hdrop : (afterToken l).dropWhile endsWord with
  | nil =>
      refine ⟨fun _ c hc => ?_, fun _ => rfl⟩
      exact endsWord_iff.mp (List.dropWhile_eq_nil_iff.mp hdrop c hc)
  | cons d ds =>
      -- the first character that is left is part of a word
      have hd : endsWord d = false := by
        have hhead := List.head?_dropWhile_not endsWord (afterToken l)
        rw [hdrop] at hhead
        simpa using hhead
      constructor
      · intro h
        rw [List.takeWhile_cons, hd] at h
        cases h
      · intro hall
        have hnil := List.dropWhile_eq_nil_iff.mpr fun c hc => endsWord_iff.mpr (hall c hc)
        rw [hdrop] at hnil
        cases hnil

/-- The first call of `strtok_r`. -/
theorem strtokR_space (h : ¬ ∀ c ∈ l, c = SP) :
    strtokR (· == SP) l = some (firstToken l, afterToken l) := by
  refine strtokR_eq_some fun hnil => h fun c hc => ?_
  simpa using List.dropWhile_eq_nil_iff.mp hnil c hc

/-- The second one. -/
theorem strtokR_endsWord (h : hostWord l ≠ []) :
    ∃ rest, strtokR endsWord (afterToken l) = some (hostWord l, rest) := by
  refine ⟨_, strtokR_eq_some fun hnil => h ?_⟩
  rw [hostWord, hnil]
  rfl

theorem parseLine_endsWord (b : Build) (pton : InetPton) (l : List Byte) :
    parseLine b pton l =
      match strtokR (· == SP) l with
      | none => .error .nullPointer
      | some (pch, tmp) =>
          match resolve b pton pch with
          | none => .ok none
          | some address =>
              match strtokR endsWord tmp with
              | none => .error .nullPointer
              | some (pch, _) => .ok (some ⟨address, wordFlag pch⟩) := rfl

/-- **What `parse_line` does with any string**: it uses a null pointer, or it makes the entry
the string stands for. -/
theorem parseLine_cases (b : Build) (pton : InetPton) (l : List Byte) :
    (NullToken b pton l ∧ parseLine b pton l = .error .nullPointer ∧ hostRule b pton l = none) ∨
      (¬ NullToken b pton l ∧ parseLine b pton l = .ok (hostRule b pton l)) := by
  by_cases hspaces : ∀ c ∈ l, c = SP
  -- the first `strtok_r` returns NULL
  · have hdelim : ∀ c ∈ l, (c == SP) = true := fun c hc => by simp [hspaces c hc]
    have hempty : firstToken l = [] := by
      rw [firstToken, List.dropWhile_eq_nil_iff.mpr hdelim]
      rfl
    refine .inl ⟨.inl hspaces, ?_, ?_⟩
    · simp only [parseLine, strtokR_eq_none hdelim]
    · cases hres : resolve b pton (firstToken l) with
      | none => rw [hostRule, hres]; rfl
      | some a => exact absurd hempty (resolve_chars hres).1
  · have hfirst := strtokR_space hspaces
    cases hres : resolve b pton (firstToken l) with
    | none =>
        refine .inr ⟨?_, ?_⟩
        · rintro (hall | ⟨hsome, -⟩)
          · exact hspaces hall
          · rw [hres] at hsome
            cases hsome
        · simp only [parseLine, hfirst, hres, hostRule, Option.bind_none]
    | some a =>
        -- the second one returns NULL when no word is left
        by_cases hword : hostWord l = []
        · have hends := hostWord_eq_nil_iff.mp hword
          have hsecond : strtokR endsWord (afterToken l) = none :=
            strtokR_eq_none fun c hc => endsWord_iff.mpr (hends c hc)
          refine .inl ⟨.inr ⟨by rw [hres]; rfl, hends⟩, ?_, ?_⟩
          · simp only [parseLine_endsWord, hfirst, hres, hsecond]
          · rw [hostRule, hres, Option.bind_some, if_pos hword]
        · obtain ⟨rest, hsecond⟩ := strtokR_endsWord hword
          refine .inr ⟨?_, ?_⟩
          · rintro (hall | ⟨-, hends⟩)
            · exact hspaces hall
            · exact hword (hostWord_eq_nil_iff.mpr hends)
          · simp only [parseLine_endsWord, hfirst, hres, hsecond, wordFlag_eq, hostRule,
              Option.bind_some, if_neg hword]

theorem lineEntry_eq_hostRule (b : Build) (pton : InetPton) (l : List Byte) :
    lineEntry b pton l = hostRule b pton l := by
  rcases parseLine_cases b pton l with ⟨-, hparse, hnone⟩ | ⟨-, hparse⟩
  · rw [lineEntry, hparse, hnone]
  · rw [lineEntry, hparse]

/-- A string that does not begin with an address makes no entry. -/
theorem hostRule_of_resolve_none (h : resolve b pton (firstToken l) = none) :
    hostRule b pton l = none := by
  rw [hostRule, h]
  rfl

/-- With both tokens there, it is the only kind that makes none. -/
theorem resolve_none_of_hostRule (hnull : ¬ NullToken b pton l) (h : hostRule b pton l = none) :
    resolve b pton (firstToken l) = none := by
  cases hres : resolve b pton (firstToken l) with
  | none => rfl
  | some a =>
      rw [hostRule, hres, Option.bind_some] at h
      split at h
      case isTrue hword =>
        exact absurd (.inr ⟨by rw [hres]; rfl, hostWord_eq_nil_iff.mp hword⟩) hnull
      case isFalse => cases h

/-- With more text behind it, a rule is still a rule. -/
theorem hostRule_append_isSome (h : (hostRule b pton l).isSome) (rest : List Byte) :
    (hostRule b pton (l ++ rest)).isSome := by
  obtain ⟨entry, hentry⟩ := Option.isSome_iff_exists.mp h
  obtain ⟨a, hres, hword⟩ := Option.bind_eq_some_iff.mp hentry
  have hne : hostWord l ≠ [] := by
    intro hnil
    rw [if_pos hnil] at hword
    cases hword
  obtain ⟨c, hc, hcr⟩ : ∃ c ∈ afterToken l, ¬ (c = CR ∨ c = LF) := by
    by_contra hall
    refine hne (hostWord_eq_nil_iff.mpr fun c hc => ?_)
    by_contra hcr
    exact hall ⟨c, hc, hcr⟩
  -- the token ends inside `l`
  have hafter : ((l.dropWhile (· == SP)).dropWhile fun c => !(c == SP)) ≠ [] := by
    intro hnil
    rw [afterToken, hnil] at hc
    cases hc
  have hdrop : l.dropWhile (· == SP) ≠ [] := by
    intro hnil
    rw [hnil] at hafter
    exact hafter rfl
  -- so the token and its address are the same, and the word can only grow
  have hspaces : (l ++ rest).dropWhile (· == SP) = l.dropWhile (· == SP) ++ rest := by
    rw [List.dropWhile_append, if_neg (by simpa using hdrop)]
  have hbehind : afterToken (l ++ rest) = afterToken l ++ rest := by
    rw [afterToken, hspaces, List.dropWhile_append, if_neg (by simpa using hafter),
      List.drop_append_of_le_length (List.length_pos_iff.mpr hafter), afterToken]
  have hfirst : firstToken (l ++ rest) = firstToken l := by
    rw [firstToken, hspaces, List.takeWhile_append, if_neg, firstToken]
    intro hlen
    apply hafter
    rw [List.dropWhile_eq_nil_iff]
    exact List.takeWhile_eq_self_iff.mp (List.IsPrefix.eq_of_length (List.takeWhile_prefix _) hlen)
  have hne' : hostWord (l ++ rest) ≠ [] := by
    rw [ne_eq, hostWord_eq_nil_iff, hbehind]
    exact fun hall => hcr (hall c (List.mem_append_left _ hc))
  rw [hostRule, hfirst, hres, Option.bind_some, if_neg hne']
  rfl

end Text

/-! ### The chain -/

section Chain

variable {b : Build} {pton : InetPton}

/-- The loop gets to its end if and only if every string has its tokens, and then it has
pushed their entries one after the other. -/
theorem parsePieces_eq_ok_iff {ps : List (List Byte)} {chain chain' : List HostEntry} :
    parsePieces b pton ps chain = .ok chain' ↔
      (∀ p ∈ ps, ¬ NullToken b pton p) ∧
        chain' = (ps.filterMap (lineEntry b pton)).reverse ++ chain := by
  induction ps generalizing chain with
  | nil =>
      rw [parsePieces, Except.ok.injEq]
      simp [eq_comm]
  | cons p ps ih =>
      rw [List.forall_mem_cons, parsePieces]
      rcases parseLine_cases b pton p with ⟨hnull, hparse, -⟩ | ⟨htokens, hparse⟩
      · rw [hparse]
        -- the loop ends here
        constructor
        · intro h
          cases h
        · intro h
          exact absurd hnull h.1.1
      -- entries are put at the head, so they stand in the chain in reverse
      · have hpush : ((p :: ps).filterMap (lineEntry b pton)).reverse ++ chain
            = (ps.filterMap (lineEntry b pton)).reverse
              ++ ((hostRule b pton p).toList ++ chain) := by
          rw [List.filterMap_cons, lineEntry_eq_hostRule]
          cases hostRule b pton p <;> simp
        rw [hparse, hpush]
        show parsePieces b pton ps _ = _ ↔ _
        rw [ih]
        simp only [htokens, not_false_eq_true, true_and]

/-- The entries of the pieces of a file, line by line. -/
theorem filterMap_filePieces (file : List Byte) :
    (filePieces file).filterMap (lineEntry b pton)
      = (fileLines file).flatMap fun l => (linePieces l).filterMap (lineEntry b pton) := by
  rw [filePieces, List.filterMap_flatMap]

/-- When the pieces of each line make the entry of the line, so does the file. -/
theorem parseContents_of_lines {file : List Byte}
    (htokens : ∀ p ∈ filePieces file, ¬ NullToken b pton p)
    (hlines : ∀ l ∈ fileLines file,
      (linePieces l).filterMap (lineEntry b pton) = (lineEntry b pton l).toList) :
    parseContents b pton file = .ok ((fileLines file).filterMap (lineEntry b pton)).reverse := by
  have hsame : (filePieces file).filterMap (lineEntry b pton)
      = (fileLines file).filterMap (lineEntry b pton) := by
    rw [filterMap_filePieces, List.filterMap_eq_flatMap_toList]
    exact List.flatMap_congr hlines
  rw [parseContents_eq_parsePieces, parsePieces_eq_ok_iff, hsame, List.append_nil]
  exact ⟨htokens, rfl⟩

/-! ### Malformed lines -/

/-- `parse_file` can be given the file: it uses no null pointer, each line makes the entry it
stands for or none, and the malformed lines could as well be absent. -/
structure Installs (b : Build) (pton : InetPton) (file : List Byte) : Prop where
  total : ∀ p ∈ filePieces file, ∃ entry, parseLine b pton p = .ok entry
  lines : ∀ l ∈ fileLines file,
    (linePieces l).filterMap (lineEntry b pton) = (lineEntry b pton l).toList
  chain : parseContents b pton file = .ok ((fileLines file).filterMap (lineEntry b pton)).reverse
  absent : parseContents b pton
      ((fileLines file).filter fun l => (lineEntry b pton l).isSome).flatten
    = parseContents b pton file

/-- All pieces of a line but one begin with something that is no address, and that one says
what the line says. -/
def OneRule (b : Build) (pton : InetPton) (l : List Byte) : Prop :=
  ∃ before p behind, linePieces l = before ++ p :: behind ∧
    (∀ q ∈ before ++ behind, resolve b pton (firstToken q) = none) ∧
    hostRule b pton p = hostRule b pton l

theorem oneRule_short {l : List Byte} (hl : l ≠ []) (hshort : l.length < LINE_MAX) :
    OneRule b pton l :=
  ⟨[], l, [], linePieces_short hl hshort, by simp, rfl⟩

theorem filterMap_lineEntry_eq_nil {ps : List (List Byte)}
    (h : ∀ q ∈ ps, resolve b pton (firstToken q) = none) :
    ps.filterMap (lineEntry b pton) = [] := by
  rw [List.filterMap_eq_nil_iff]
  intro q hq
  rw [lineEntry_eq_hostRule]
  exact hostRule_of_resolve_none (h q hq)

theorem OneRule.filterMap_linePieces {l : List Byte} (h : OneRule b pton l) :
    (linePieces l).filterMap (lineEntry b pton) = (lineEntry b pton l).toList := by
  obtain ⟨before, p, behind, hpieces, hnone, hrule⟩ := h
  have hbefore := filterMap_lineEntry_eq_nil fun q hq => hnone q (List.mem_append_left _ hq)
  have hbehind := filterMap_lineEntry_eq_nil fun q hq => hnone q (List.mem_append_right _ hq)
  rw [hpieces, List.filterMap_append, List.filterMap_cons, hbefore, hbehind, lineEntry_eq_hostRule,
    lineEntry_eq_hostRule, hrule]
  cases hostRule b pton l <;> rfl

theorem OneRule.of_filterMap {l : List Byte} (hl : l ≠ [])
    (htokens : ∀ p ∈ linePieces l, ¬ NullToken b pton p)
    (h : (linePieces l).filterMap (lineEntry b pton) = (lineEntry b pton l).toList) :
    OneRule b pton l := by
  have hnone : ∀ q ∈ linePieces l, lineEntry b pton q = none →
      resolve b pton (firstToken q) = none := by
    intro q hq hentry
    rw [lineEntry_eq_hostRule] at hentry
    exact resolve_none_of_hostRule (htokens q hq) hentry
  cases hline : lineEntry b pton l with
  | none =>
      -- nothing comes from any piece, and the first one will do
      rw [hline, Option.toList_none, List.filterMap_eq_nil_iff] at h
      have hpieces := linePieces_cons hl
      refine ⟨[], _, _, hpieces, ?_, ?_⟩
      · intro q hq
        have hmem : q ∈ linePieces l := by
          rw [hpieces]
          exact List.mem_cons_of_mem _ hq
        exact hnone q hmem (h q hmem)
      · have hfirst := h (l.take (LINE_MAX - 1)) (by rw [hpieces]; exact List.mem_cons_self)
        rw [← lineEntry_eq_hostRule, ← lineEntry_eq_hostRule, hfirst, hline]
  | some entry =>
      rw [hline, Option.toList_some] at h
      -- the one piece that makes the entry
      obtain ⟨before, p, behind, hpieces, hbefore, hp, hbehind⟩ := List.filterMap_eq_cons_iff.mp h
      refine ⟨before, p, behind, hpieces, ?_, ?_⟩
      · intro q hq
        have hmem : q ∈ linePieces l := by
          rw [hpieces, List.mem_append, List.mem_cons]
          exact (List.mem_append.mp hq).imp_right .inr
        rcases List.mem_append.mp hq with hq | hq
        · exact hnone q hmem (hbefore q hq)
        · exact hnone q hmem (List.filterMap_eq_nil_iff.mp hbehind q hq)
      · rw [← lineEntry_eq_hostRule, ← lineEntry_eq_hostRule, hp, hline]

theorem mem_filePieces {file p : List Byte} :
    p ∈ filePieces file ↔ ∃ l ∈ fileLines file, p ∈ linePieces l :=
  List.mem_flatMap

theorem not_nullToken_iff {p : List Byte} :
    ¬ NullToken b pton p ↔ ∃ entry, parseLine b pton p = .ok entry := by
  rcases parseLine_cases b pton p with ⟨hnull, hparse, -⟩ | ⟨htokens, hparse⟩
  · rw [hparse]
    simp [hnull]
  · rw [hparse]
    simp [htokens]

/-- **A file can be installed if and only if no piece of it lacks a token, and a line that is
read in pieces has one that speaks for it.** -/
theorem installs_iff (b : Build) (pton : InetPton) (file : List Byte) :
    Installs b pton file ↔
      ∀ l ∈ fileLines file, (∀ p ∈ linePieces l, ¬ NullToken b pton p) ∧
        (l.length < LINE_MAX ∨ OneRule b pton l) := by
  have hne := (isLines_fileLines file).ne_nil
  constructor
  · intro h l hl
    have htokens : ∀ p ∈ linePieces l, ¬ NullToken b pton p := fun p hp =>
      not_nullToken_iff.mpr (h.total p (mem_filePieces.mpr ⟨l, hl, hp⟩))
    exact ⟨htokens, .inr (.of_filterMap (hne l hl) htokens (h.lines l hl))⟩
  · intro h
    have htokens : ∀ p ∈ filePieces file, ¬ NullToken b pton p := by
      intro p hp
      obtain ⟨l, hl, hp⟩ := mem_filePieces.mp hp
      exact (h l hl).1 p hp
    have hlines : ∀ l ∈ fileLines file,
        (linePieces l).filterMap (lineEntry b pton) = (lineEntry b pton l).toList := by
      intro l hl
      rcases (h l hl).2 with hshort | hone
      · exact (oneRule_short (hne l hl) hshort).filterMap_linePieces
      · exact hone.filterMap_linePieces
    have hchain := parseContents_of_lines htokens hlines
    refine ⟨fun p hp => not_nullToken_iff.mp (htokens p hp), hlines, hchain, ?_⟩
    -- the lines that are left are the lines of the shorter file
    have hleft := ((isLines_fileLines file).filter
      fun l => (lineEntry b pton l).isSome).fileLines_flatten
    rw [hchain, parseContents_of_lines, hleft, List.filterMap_filter]
    · congr 3
      funext l
      cases lineEntry b pton l <;> rfl
    · intro p hp
      obtain ⟨l, hl, hp⟩ := mem_filePieces.mp hp
      rw [hleft] at hl
      exact (h l (List.mem_of_mem_filter hl)).1 p hp
    · intro l hl
      rw [hleft] at hl
      exact hlines l (List.mem_of_mem_filter hl)

/-- An address with a blank behind it. -/
theorem not_installs_trailingBlank : ¬ Installs ⟨false⟩ ipv4Only (ascii "10.0.0.1 \n") := by
  intro h
  have hmem : ascii "10.0.0.1 \n" ∈ filePieces (ascii "10.0.0.1 \n") := by
    refine mem_filePieces.mpr ⟨ascii "10.0.0.1 \n", by decide, ?_⟩
    rw [linePieces_short (by decide) (by decide)]
    exact List.mem_singleton_self _
  obtain ⟨entry, hparse⟩ := h.total _ hmem
  have hnull : parseLine ⟨false⟩ ipv4Only (ascii "10.0.0.1 \n") = .error .nullPointer := by decide
  rw [hnull] at hparse
  cases hparse

/-! ### Text in the middle of a line -/

/-- The chain is that of the lines, and no entry of it is taken from a piece that does not
begin its line. -/
structure LineByLine (b : Build) (pton : InetPton) (file : List Byte) (chain : List HostEntry) :
    Prop where
  chain : chain = ((fileLines file).filterMap (lineEntry b pton)).reverse
  start : ∀ l ∈ fileLines file, ∀ p ∈ (linePieces l).tail, lineEntry b pton p = none

/-- No piece of a line but the first begins with an address, and the first one says what the
line says. -/
structure RuleAtStart (b : Build) (pton : InetPton) (l : List Byte) : Prop where
  others : ∀ p ∈ (linePieces l).tail, resolve b pton (firstToken p) = none
  first : hostRule b pton (l.take (LINE_MAX - 1)) = hostRule b pton l

theorem ruleAtStart_short {l : List Byte} (hl : l ≠ []) (hshort : l.length < LINE_MAX) :
    RuleAtStart b pton l where
  others := by
    rw [linePieces_short hl hshort]
    simp
  first := by rw [List.take_of_length_le (Nat.le_sub_one_of_lt hshort)]

/-- Only the first piece counts when the others make no entry. -/
theorem filterMap_linePieces_first {l : List Byte} (hl : l ≠ [])
    (h : ∀ p ∈ (linePieces l).tail, lineEntry b pton p = none) :
    (linePieces l).filterMap (lineEntry b pton)
      = (hostRule b pton (l.take (LINE_MAX - 1))).toList := by
  rw [linePieces_cons hl, List.tail_cons] at h
  rw [linePieces_cons hl, List.filterMap_cons, List.filterMap_eq_nil_iff.mpr h,
    lineEntry_eq_hostRule]
  cases hostRule b pton (l.take (LINE_MAX - 1)) <;> rfl

/-- A line whose beginning is a rule is a rule. -/
theorem hostRule_isSome_of_take {l : List Byte} {k : ℕ} (h : (hostRule b pton (l.take k)).isSome) :
    (hostRule b pton l).isSome := by
  have happend := hostRule_append_isSome h (l.drop k)
  rwa [List.take_append_drop] at happend

/-- When the entries of the beginnings are the entries of the lines, no line differs from its
beginning: none of them makes an entry for another. -/
theorem hostRule_take_eq {ls : List (List Byte)} {k : ℕ}
    (h : ls.filterMap (fun l => hostRule b pton (l.take k)) = ls.filterMap (hostRule b pton)) :
    ∀ l ∈ ls, hostRule b pton (l.take k) = hostRule b pton l := by
  have hle : ∀ ls : List (List Byte), (ls.filterMap fun l => hostRule b pton (l.take k)).length
      ≤ (ls.filterMap (hostRule b pton)).length := by
    intro ls
    rw [List.length_filterMap_eq_countP, List.length_filterMap_eq_countP]
    exact List.countP_mono_left fun l _ => hostRule_isSome_of_take
  induction ls with
  | nil => simp
  | cons l ls ih =>
      rw [List.filterMap_cons, List.filterMap_cons] at h
      rw [List.forall_mem_cons]
      cases hwhole : hostRule b pton l with
      | none =>
          -- a rule in the beginning would be one in the line
          have hbeginning : hostRule b pton (l.take k) = none := by
            rw [← Option.not_isSome_iff_eq_none]
            intro hsome
            have hline := hostRule_isSome_of_take hsome
            rw [hwhole] at hline
            cases hline
          rw [hwhole, hbeginning] at h
          exact ⟨hbeginning, ih h⟩
      | some entry =>
          cases hbeginning : hostRule b pton (l.take k) with
          | none =>
              -- an entry is missing, and the other lines cannot make up for it
              rw [hwhole, hbeginning] at h
              have hlength := congrArg List.length h
              have hfew := hle ls
              simp only [List.length_cons] at hlength
              omega
          | some entry' =>
              rw [hwhole, hbeginning, List.cons.injEq] at h
              exact ⟨by rw [h.1], ih h.2⟩

/-- **Entries are taken from the starts of lines only, if and only if every line of
`LINE_MAX` bytes or more keeps its rule in its first piece and has none in the others.** -/
theorem lineByLine_iff {file : List Byte} {chain : List HostEntry}
    (hparse : parseContents b pton file = .ok chain) :
    LineByLine b pton file chain ↔
      ∀ l ∈ fileLines file, l.length < LINE_MAX ∨ RuleAtStart b pton l := by
  have hne := (isLines_fileLines file).ne_nil
  rw [parseContents_eq_parsePieces, parsePieces_eq_ok_iff, List.append_nil] at hparse
  obtain ⟨htokens, hchain⟩ := hparse
  constructor
  · intro h l hl
    right
    -- only first pieces make entries, so the two lists of entries can be compared
    have hfirst : (filePieces file).filterMap (lineEntry b pton)
        = (fileLines file).filterMap fun l => hostRule b pton (l.take (LINE_MAX - 1)) := by
      rw [filterMap_filePieces, List.filterMap_eq_flatMap_toList]
      exact List.flatMap_congr fun l hl => filterMap_linePieces_first (hne l hl) (h.start l hl)
    have hentries := h.chain
    rw [hchain, List.reverse_inj, hfirst] at hentries
    simp only [lineEntry_eq_hostRule] at hentries
    refine ⟨fun p hp => ?_, hostRule_take_eq hentries l hl⟩
    have hnone := h.start l hl p hp
    rw [lineEntry_eq_hostRule] at hnone
    exact resolve_none_of_hostRule
      (htokens p (mem_filePieces.mpr ⟨l, hl, List.mem_of_mem_tail hp⟩)) hnone
  · intro h
    have hstart : ∀ l ∈ fileLines file, RuleAtStart b pton l := by
      intro l hl
      rcases h l hl with hshort | hrule
      · exact ruleAtStart_short (hne l hl) hshort
      · exact hrule
    have hnone : ∀ l ∈ fileLines file, ∀ p ∈ (linePieces l).tail, lineEntry b pton p = none := by
      intro l hl p hp
      rw [lineEntry_eq_hostRule]
      exact hostRule_of_resolve_none ((hstart l hl).others p hp)
    -- each line makes the entry of its first piece, which is its own
    refine ⟨?_, hnone⟩
    have hlines := parseContents_of_lines htokens fun l hl => by
      rw [filterMap_linePieces_first (hne l hl) (hnone l hl), (hstart l hl).first,
        lineEntry_eq_hostRule]
    rw [parseContents_eq_parsePieces, parsePieces_eq_ok_iff, List.append_nil] at hlines
    rw [hchain, hlines.2]

end Chain

/-- A comment and a rule. -/
theorem lineByLine_comment :
    LineByLine ⟨false⟩ ipv4Only (ascii "# clients\n10.0.0.1 allow\n")
      [⟨.inet #v[10, 0, 0, 1], .allow⟩] := by
  have hparse : parseContents ⟨false⟩ ipv4Only (ascii "# clients\n10.0.0.1 allow\n")
      = .ok [⟨.inet #v[10, 0, 0, 1], .allow⟩] := by decide
  exact (lineByLine_iff hparse).mpr fun l hl => .inl (by revert l; decide)

/-- A comment that fills the buffer, and what looks like a rule behind it. -/
def hiddenRule : List Byte := List.replicate (LINE_MAX - 1) 35 ++ ascii "10.0.0.1 ALLOW\n"

theorem mem_firstToken {c : Byte} (hc : c ≠ SP) (l : List Byte) : c ∈ firstToken (c :: l) := by
  simp [firstToken, hc]

theorem hiddenRule_pieces :
    linePieces hiddenRule = [List.replicate (LINE_MAX - 1) 35, ascii "10.0.0.1 ALLOW\n"] := by
  have hlength : (List.replicate (LINE_MAX - 1) (35 : Byte)).length = LINE_MAX - 1 :=
    List.length_replicate
  rw [linePieces_cons (by simp [hiddenRule, ascii]), hiddenRule, List.take_left' hlength,
    List.drop_left' hlength, linePieces_short (by decide) (by decide)]

theorem fileLines_hiddenRule : fileLines hiddenRule = [hiddenRule] := by
  have hsplit : hiddenRule
      = List.replicate (LINE_MAX - 1) 35 ++ ascii "10.0.0.1 ALLOW" ++ LF :: [] := by
    rw [hiddenRule, List.append_assoc]
    rfl
  have hlf : LF ∉ List.replicate (LINE_MAX - 1) 35 ++ ascii "10.0.0.1 ALLOW" := by
    rw [List.mem_append, not_or]
    exact ⟨fun hmem => absurd (List.eq_of_mem_replicate hmem) (by decide), by decide⟩
  rw [hsplit, fileLines_append_lf hlf]
  rfl

/-- The rule in the comment counts. -/
theorem not_lineByLine_hidden :
    ∃ chain, parseContents ⟨false⟩ ipv4Only hiddenRule = .ok chain ∧
      ¬ LineByLine ⟨false⟩ ipv4Only hiddenRule chain := by
  have hpieces : filePieces hiddenRule
      = [List.replicate (LINE_MAX - 1) 35, ascii "10.0.0.1 ALLOW\n"] := by
    rw [filePieces, fileLines_hiddenRule, List.flatMap_singleton, hiddenRule_pieces]
  -- the comment is no address, and the rest of the line has its two tokens
  have hcomment : ¬ NullToken ⟨false⟩ ipv4Only (List.replicate (LINE_MAX - 1) 35) := by
    rw [show LINE_MAX - 1 = 2046 + 1 from rfl, List.replicate_succ]
    rintro (hspaces | ⟨hsome, -⟩)
    · exact absurd (hspaces 35 List.mem_cons_self) (by decide)
    · obtain ⟨a, ha⟩ := Option.isSome_iff_exists.mp hsome
      have hchar := (resolve_chars ha).2 35 (mem_firstToken (by decide) _)
      exact absurd hchar (by decide)
  have hrule : lineEntry ⟨false⟩ ipv4Only (ascii "10.0.0.1 ALLOW\n")
      = some ⟨.inet #v[10, 0, 0, 1], .allow⟩ := by decide
  have htokens : ¬ NullToken ⟨false⟩ ipv4Only (ascii "10.0.0.1 ALLOW\n") :=
    not_nullToken_iff.mpr ⟨some ⟨.inet #v[10, 0, 0, 1], .allow⟩, by decide⟩
  obtain ⟨chain, hparse⟩ : ∃ chain, parseContents ⟨false⟩ ipv4Only hiddenRule = .ok chain := by
    refine ⟨((filePieces hiddenRule).filterMap (lineEntry ⟨false⟩ ipv4Only)).reverse ++ [], ?_⟩
    rw [parseContents_eq_parsePieces, parsePieces_eq_ok_iff, hpieces]
    exact ⟨List.forall_mem_cons.mpr ⟨hcomment, List.forall_mem_singleton.mpr htokens⟩, rfl⟩
  refine ⟨chain, hparse, ?_⟩
  intro h
  have hnone := h.start hiddenRule (by rw [fileLines_hiddenRule]; exact List.mem_singleton_self _)
    (ascii "10.0.0.1 ALLOW\n") (by rw [hiddenRule_pieces]; exact List.mem_singleton_self _)
  rw [hrule] at hnone
  cases hnone

end SquidHelper
