/-
SquidHelper/TxtFile.lean

`src/plugins/mod_txtfile`: the hosts file, its parser and the lookup.

`parse_file` reads line after line, and pushes the entry of each line on a chain; a
lookup walks the chain from its head.  So the line that counts is the last one for the
address, and it counts for the address it denotes, not for the text.

`HostsFile` says what a hosts file is without reference to the parser: entries
`<addr> <word>` among other lines.  `txtfile_last_match` is the correctness of parser
and lookup for all of them.
-/
import SquidHelper.Buffer
import SquidHelper.Request
import SquidHelper.Worker

namespace SquidHelper

open CString

/-! ### The parser -/

/-- From `limits.h`. -/
def LINE_MAX : ℕ := 2048

/-- `host_entry`; the `next` pointers are the list it stands in. -/
structure HostEntry where
  address : Address
  flag : HandlerStatus
  deriving DecidableEq, Repr

structure PluginData where
  filename : List Byte
  entryChain : List HostEntry
  deriving DecidableEq, Repr

/-- `strcmp(pch, "ALLOW") == 0 ? HANDLER_ALLOW : HANDLER_DENY`, after `strtoupper`. -/
def wordFlag (word : List Byte) : HandlerStatus :=
  if strtoupper word = ascii "ALLOW" then .allow else .deny

/-- `parse_line`; no entry when `inet_pton` does not accept the first token.  A null
pointer from `strtok_r` is handed on to `inet_pton` and to `strtoupper`. -/
def parseLine (b : Build) (pton : InetPton) (line : List Byte) :
    Except Fault (Option HostEntry) :=
  match strtokR (· == SP) line with
  | none => .error .nullPointer
  | some (pch, tmp) =>
      match resolve b pton pch with
      | none => .ok none
      | some address =>
          match strtokR (fun c => c == CR || c == LF) tmp with
          | none => .error .nullPointer
          | some (pch, _) => .ok (some ⟨address, wordFlag pch⟩)

/-- The loop `while (fgets(line, LINE_MAX, handle) != NULL)`; the first argument bounds
the number of iterations, and one for each byte of the file is enough. -/
def parseLines (b : Build) (pton : InetPton) :
    ℕ → List Byte → List HostEntry → Except Fault (List HostEntry)
  | 0, _, chain => .ok chain
  | n + 1, file, chain =>
      match fgets LINE_MAX file with
      | none => .ok chain
      | some (line, rest) => do
          match ← parseLine b pton line with
          | none => parseLines b pton n rest chain
          | some entry => parseLines b pton n rest (entry :: chain)

/-- The chain `parse_file` builds from a file that could be opened. -/
def parseContents (b : Build) (pton : InetPton) (file : List Byte) :
    Except Fault (List HostEntry) :=
  parseLines b pton file.length file []

/-- `clear_entries`. -/
def clearEntries (pd : PluginData) : PluginData := { pd with entryChain := [] }

/-- `parse_file`; `contents` is `none` when `fopen` fails.  The lines it prints are
returned, too. -/
def parseFile (b : Build) (pton : InetPton) (pd : PluginData) (contents : Option (List Byte)) :
    Except Fault (PluginData × List (List Byte)) :=
  match contents with
  | none => .ok (pd, [ascii "ERROR"])
  | some file => do
      let pd := clearEntries pd
      let chain ← parseLines b pton file.length file pd.entryChain
      return ({ pd with entryChain := chain }, [])

/-- At the end of the file the chain is complete. -/
theorem parseLines_end {b : Build} {pton : InetPton} {n : ℕ} {file : List Byte}
    {chain : List HostEntry} (h : fgets LINE_MAX file = none) :
    parseLines b pton n file chain = .ok chain := by
  cases n with
  | zero => rfl
  | succ n => simp only [parseLines, h]

/-- The bound on the iterations does not matter. -/
theorem parseLines_fuel {b : Build} {pton : InetPton} {n : ℕ} {file : List Byte}
    {chain : List HostEntry} (h : file.length ≤ n) :
    parseLines b pton n file chain = parseLines b pton file.length file chain := by
  induction hlen : file.length using Nat.strong_induction_on generalizing n file chain with
  | _ len ih =>
    cases hread : fgets LINE_MAX file with
    | none => rw [parseLines_end hread, parseLines_end hread]
    | some r =>
        obtain ⟨line, rest⟩ := r
        have hlt := fgets_length_lt (by decide) hread
        obtain ⟨n, rfl⟩ : ∃ k, n = k + 1 := ⟨n - 1, by omega⟩
        obtain ⟨len, rfl⟩ : ∃ k, len = k + 1 := ⟨len - 1, by omega⟩
        have hrest : ∀ chain', parseLines b pton n rest chain' = parseLines b pton len rest chain' :=
          fun chain' => (ih rest.length (by omega) (by omega) rfl).trans
            (ih rest.length (by omega) (by omega) rfl).symm
        simp only [parseLines, hread, hrest]

/-- One iteration of the loop. -/
theorem parseLines_step {b : Build} {pton : InetPton} {file line rest : List Byte}
    {chain : List HostEntry} (h : fgets LINE_MAX file = some (line, rest)) :
    parseLines b pton file.length file chain =
      (parseLine b pton line).bind fun entry =>
        parseLines b pton rest.length rest (entry.toList ++ chain) := by
  have hlt := fgets_length_lt (by decide) h
  obtain ⟨k, hk⟩ : ∃ k, file.length = k + 1 := ⟨file.length - 1, by omega⟩
  rw [hk]
  simp only [parseLines, h, bind]
  congr 1
  funext entry
  cases entry <;> exact parseLines_fuel (by omega)

/-! ### The lookup -/

/-- `compare_addresses`; a zeroed `sockaddr` has neither family. -/
def compareAddresses (a b : Option Address) : ℤ :=
  match a, b with
  | some (.inet x), some (.inet y) => if x = y then 1 else 0
  | some (.inet6 x), some (.inet6 y) => if x = y then 1 else 0
  | _, _ => -1

/-- The walk along the chain. -/
def walk (addr : Option Address) : List HostEntry → HandlerStatus
  | [] => .goOn
  | entry :: next =>
      if compareAddresses addr (some entry.address) = 1 then entry.flag else walk addr next

/-- `webcontrol_txtfile_handle_request`. -/
def txtfileHandleRequest (pd : PluginData) (req : Request) : HandlerStatus :=
  walk req.ipAddr.sockaddr pd.entryChain

theorem compareAddresses_eq_one {a b : Address} :
    compareAddresses (some a) (some b) = 1 ↔ a = b := by
  cases a <;> cases b <;> simp only [compareAddresses] <;> (try split) <;> simp_all

/-- The walk finds the first entry for the address. -/
theorem walk_eq_find (a : Address) (chain : List HostEntry) :
    walk (some a) chain = ((chain.find? (·.address == a)).map HostEntry.flag).getD .goOn := by
  induction chain with
  | nil => rfl
  | cons entry next ih =>
      rw [walk, List.find?_cons]
      by_cases h : entry.address = a
      · simp [compareAddresses_eq_one, h]
      · rw [if_neg (mt compareAddresses_eq_one.mp (Ne.symm h)), beq_eq_false_iff_ne.mpr h, ih]

/-! ### Hosts files -/

/-- How a line ends; only the last line of a file can end with the file. -/
inductive LineEnd
  | lf
  | crlf
  | eof
  deriving DecidableEq, Repr

def LineEnd.bytes : LineEnd → List Byte
  | lf => [LF]
  | crlf => [CR, LF]
  | eof => []

/-- A line of a hosts file. -/
inductive HostsLine
  /-- `<addr> <word>` behind `spaces` spaces. -/
  | entry (spaces : ℕ) (addr word : List Byte) (ending : LineEnd)
  /-- Anything else, ended by a newline. -/
  | other (text : List Byte)
  deriving DecidableEq, Repr

def HostsLine.bytes : HostsLine → List Byte
  | entry spaces addr word ending =>
      List.replicate spaces SP ++ addr ++ SP :: (word ++ ending.bytes)
  | other text => text ++ [LF]

def HostsLine.ending : HostsLine → LineEnd
  | entry _ _ _ ending => ending
  | other _ => .lf

/-- The first of the parts of a line between spaces. -/
def firstToken (line : List Byte) : List Byte :=
  (line.dropWhile (· == SP)).takeWhile fun c => !(c == SP)

/-- A line of either form, short enough to be read at once. -/
structure HostsLine.Valid (b : Build) (pton : InetPton) (l : HostsLine) : Prop where
  short : l.bytes.length ≤ LINE_MAX - 1
  form : match l with
    | .entry _ addr word _ =>
        (∃ a, resolve b pton addr = some a) ∧ word ≠ [] ∧ NUL ∉ word ∧ CR ∉ word ∧ LF ∉ word
    | .other text => NUL ∉ text ∧ LF ∉ text ∧ resolve b pton (firstToken (text ++ [LF])) = none

structure HostsFile (b : Build) (pton : InetPton) where
  lines : List HostsLine
  valid : ∀ l ∈ lines, l.Valid b pton
  terminated : ∀ l ∈ lines.dropLast, l.ending ≠ .eof

def HostsFile.bytes {b : Build} {pton : InetPton} (f : HostsFile b pton) : List Byte :=
  f.lines.flatMap HostsLine.bytes

/-- The address and the word of an entry line. -/
def HostsLine.rule (b : Build) (pton : InetPton) : HostsLine → Option (Address × List Byte)
  | entry _ addr word _ => (resolve b pton addr).map (·, word)
  | other _ => none

/-- The words of the lines that denote `a`, in the order of the file. -/
def HostsFile.wordsFor {b : Build} {pton : InetPton} (f : HostsFile b pton) (a : Address) :
    List (List Byte) :=
  ((f.lines.filterMap (HostsLine.rule b pton)).filter (·.1 == a)).map Prod.snd

/-- **What a hosts file means**: the last line for an address decides, and it allows
when its word is `ALLOW` up to case. -/
def HostsFile.decision {b : Build} {pton : InetPton} (f : HostsFile b pton) (a : Address) :
    HandlerStatus :=
  match (f.wordsFor a).getLast? with
  | none => .goOn
  | some word => if EqIgnoreCase word (ascii "ALLOW") then .allow else .deny

/-! ### One line -/

/-- No character of an address is white space. -/
theorem isAddressChar_ne {c : Byte} (h : isAddressChar c = true) : c ≠ SP ∧ c ≠ CR ∧ c ≠ LF := by
  refine ⟨?_, ?_, ?_⟩ <;> rintro rfl <;> exact absurd h (by decide)

theorem LineEnd.bytes_delim {e : LineEnd} :
    ∀ c ∈ e.bytes, (c == CR || c == LF) = true := by
  cases e <;> simp [LineEnd.bytes]

theorem parseLine_entry {b : Build} {pton : InetPton} {k : ℕ} {addr word : List Byte}
    {e : LineEnd} {a : Address} (ha : resolve b pton addr = some a) (hne : word ≠ [])
    (hcr : CR ∉ word) (hlf : LF ∉ word) :
    parseLine b pton (HostsLine.entry k addr word e).bytes = .ok (some ⟨a, wordFlag word⟩) := by
  obtain ⟨haddr, hchars⟩ := resolve_chars ha
  have hfirst : strtokR (· == SP) (HostsLine.entry k addr word e).bytes
      = some (addr, word ++ e.bytes) := by
    refine strtokR_token _ ?_ ?_ haddr (by decide)
    · intro c hc
      rw [List.eq_of_mem_replicate hc]
      rfl
    · intro c hc
      simpa using (isAddressChar_ne (hchars c hc)).1
  have hword : ∀ c ∈ word, (c == CR || c == LF) = false := by
    intro c hc
    simp only [Bool.or_eq_false_iff, beq_eq_false_iff_ne]
    exact ⟨fun h => hcr (h ▸ hc), fun h => hlf (h ▸ hc)⟩
  -- the word ends at the line ending or with the string
  have hsecond : ∃ rest, strtokR (fun c => c == CR || c == LF) (word ++ e.bytes)
      = some (word, rest) := by
    cases he : e.bytes with
    | nil => exact ⟨[], by simpa using strtokR_last [] (by simp) hword hne⟩
    | cons d ds =>
        have hd : (d == CR || d == LF) = true := e.bytes_delim d (he ▸ List.mem_cons_self)
        exact ⟨ds, strtokR_token [] (by simp) hword hne hd⟩
  obtain ⟨rest, hsecond⟩ := hsecond
  simp only [parseLine, hfirst, ha, hsecond]

/-- `strtok_r` and `firstToken` agree on a line that has a token. -/
theorem strtokR_firstToken {line : List Byte} (h : ∃ c ∈ line, c ≠ SP) :
    ∃ rest, strtokR (· == SP) line = some (firstToken line, rest) := by
  obtain ⟨c, hc, hne⟩ := h
  refine ⟨_, strtokR_eq_some fun hnil => hne ?_⟩
  simpa using List.dropWhile_eq_nil_iff.mp hnil c hc

theorem parseLine_other {b : Build} {pton : InetPton} {text : List Byte}
    (h : resolve b pton (firstToken (text ++ [LF])) = none) :
    parseLine b pton (HostsLine.other text).bytes = .ok none := by
  have hmem : LF ∈ text ++ [LF] := List.mem_append_right _ (List.mem_singleton_self LF)
  obtain ⟨rest, hfirst⟩ := strtokR_firstToken ⟨LF, hmem, by decide⟩
  simp only [parseLine, HostsLine.bytes, hfirst, h]

/-- The entry a line gives rise to. -/
def HostsLine.toEntry (b : Build) (pton : InetPton) (l : HostsLine) : Option HostEntry :=
  (l.rule b pton).map fun r => ⟨r.1, wordFlag r.2⟩

theorem HostsLine.Valid.parseLine {b : Build} {pton : InetPton} {l : HostsLine}
    (h : l.Valid b pton) : SquidHelper.parseLine b pton l.bytes = .ok (l.toEntry b pton) := by
  have hform := h.form
  cases l with
  | entry k addr word e =>
      obtain ⟨⟨a, ha⟩, hne, -, hcr, hlf⟩ := hform
      rw [parseLine_entry ha hne hcr hlf, toEntry, rule, ha]
      rfl
  | other text =>
      obtain ⟨-, -, hnone⟩ := hform
      rw [parseLine_other hnone]
      rfl

/-! ### The whole file -/

/-- A line has no newline but the one that ends it. -/
theorem HostsLine.Valid.body {b : Build} {pton : InetPton} {l : HostsLine} (h : l.Valid b pton) :
    ∃ body, LF ∉ body ∧ l.bytes = if l.ending = .eof then body else body ++ [LF] := by
  have hform := h.form
  cases l with
  | entry k addr word e =>
      obtain ⟨⟨a, ha⟩, -, -, -, hlf⟩ := hform
      have haddr : LF ∉ addr := fun hm => (isAddressChar_ne ((resolve_chars ha).2 _ hm)).2.2 rfl
      have hstart : LF ∉ List.replicate k SP ++ addr ++ SP :: word := by
        simp only [List.mem_append, List.mem_replicate, List.mem_cons, not_or]
        exact ⟨⟨fun hm => absurd hm.2 (by decide), haddr⟩, by decide, hlf⟩
      cases e with
      | lf => exact ⟨_, hstart, by simp [bytes, LineEnd.bytes, ending]⟩
      | crlf =>
          refine ⟨List.replicate k SP ++ addr ++ SP :: word ++ [CR], ?_, ?_⟩
          · rw [List.mem_append, not_or]
            exact ⟨hstart, by decide⟩
          · simp [bytes, LineEnd.bytes, ending]
      | eof => exact ⟨_, hstart, by simp [bytes, LineEnd.bytes, ending]⟩
  | other text => exact ⟨text, hform.2.1, by simp [bytes, ending]⟩

theorem HostsLine.Valid.bytes_ne_nil {b : Build} {pton : InetPton} {l : HostsLine}
    (_ : l.Valid b pton) : l.bytes ≠ [] := by
  cases l <;> simp [bytes]

/-- `fgets` reads one line. -/
theorem HostsLine.Valid.fgets {b : Build} {pton : InetPton} {l : HostsLine} (h : l.Valid b pton)
    {rest : List Byte} (hend : l.ending = .eof → rest = []) :
    CString.fgets LINE_MAX (l.bytes ++ rest) = some (l.bytes, rest) := by
  have htake : takeLine (LINE_MAX - 1) (l.bytes ++ rest) = l.bytes := by
    obtain ⟨body, hlf, hbody⟩ := h.body
    have hshort := h.short
    by_cases he : l.ending = .eof
    -- at the end of the file, or up to the newline
    · rw [if_pos he] at hbody
      rw [hend he, List.append_nil]
      exact takeLine_end (hbody ▸ hlf) hshort
    · rw [if_neg he] at hbody
      rw [hbody, List.length_append, List.length_singleton] at hshort
      rw [hbody, List.append_assoc, List.singleton_append]
      exact takeLine_line hlf hshort
  have hne : l.bytes ++ rest ≠ [] := by simp [h.bytes_ne_nil]
  rw [CString.fgets, if_neg hne, htake, List.drop_left]

/-- The loop pushes the entries of the lines one after the other. -/
theorem parseLines_lines {b : Build} {pton : InetPton} {lines : List HostsLine}
    (hvalid : ∀ l ∈ lines, l.Valid b pton) (hend : ∀ l ∈ lines.dropLast, l.ending ≠ .eof)
    {n : ℕ} (hn : (lines.flatMap HostsLine.bytes).length ≤ n) (chain : List HostEntry) :
    parseLines b pton n (lines.flatMap HostsLine.bytes) chain
      = .ok ((lines.filterMap (HostsLine.toEntry b pton)).reverse ++ chain) := by
  induction lines generalizing n chain with
  | nil => cases n <;> rfl
  | cons l lines ih =>
      have hl := hvalid l List.mem_cons_self
      have hlen : 0 < l.bytes.length := List.length_pos_iff.mpr hl.bytes_ne_nil
      rw [List.flatMap_cons] at hn ⊢
      rw [List.length_append] at hn
      obtain ⟨n, rfl⟩ : ∃ k, n = k + 1 := ⟨n - 1, by omega⟩
      -- only the last line can lack its newline
      have hrest : l.ending = .eof → lines.flatMap HostsLine.bytes = [] := by
        intro he
        cases lines with
        | nil => rfl
        | cons l' ls => exact absurd he (hend l (by simp))
      have hend' : ∀ l ∈ lines.dropLast, l.ending ≠ .eof := by
        cases lines with
        | nil => simp
        | cons l' ls => exact fun x hx => hend x (List.mem_cons_of_mem _ hx)
      have hread := hl.fgets hrest
      have htail := fun chain => ih (fun x hx => hvalid x (List.mem_cons_of_mem _ hx)) hend'
        (n := n) (by omega) chain
      simp only [parseLines, hread, hl.parseLine, bind, Except.bind, List.filterMap_cons]
      cases l.toEntry b pton with
      | none => exact htail chain
      | some entry =>
          simp only [htail, List.reverse_cons, List.append_assoc, List.singleton_append]

/-- The chain of a hosts file: the entries of its lines, the last one first. -/
def HostsFile.chain {b : Build} {pton : InetPton} (f : HostsFile b pton) : List HostEntry :=
  (f.lines.filterMap (HostsLine.toEntry b pton)).reverse

theorem HostsFile.parseContents {b : Build} {pton : InetPton} (f : HostsFile b pton) :
    SquidHelper.parseContents b pton f.bytes = .ok f.chain := by
  have hlines := parseLines_lines f.valid f.terminated (Nat.le_refl _) []
  rw [List.append_nil] at hlines
  exact hlines

/-- `parse_file` on a file that can be opened. -/
theorem parseFile_some (b : Build) (pton : InetPton) (pd : PluginData) (file : List Byte) :
    parseFile b pton pd (some file)
      = (SquidHelper.parseContents b pton file).map fun chain =>
          ({ pd with entryChain := chain }, []) := rfl

theorem HostsFile.parseFile {b : Build} {pton : InetPton} (f : HostsFile b pton)
    (pd : PluginData) :
    SquidHelper.parseFile b pton pd (some f.bytes) = .ok ({ pd with entryChain := f.chain }, []) := by
  rw [parseFile_some, f.parseContents]
  rfl

/-! ### What a lookup returns -/

/-- Clearing bit 5 of a lower-case letter makes it a capital. -/
theorem toUpper_eq (c : Byte) : toUpper c = asciiUpper c := by
  have hall : ∀ x : Fin 256, toUpper (UInt8.ofFin x) = asciiUpper (UInt8.ofFin x) := by
    decide +kernel
  exact hall c.toFin

theorem wordFlag_eq (word : List Byte) :
    wordFlag word = if EqIgnoreCase word (ascii "ALLOW") then .allow else .deny := by
  have hupper : strtoupper word = word.map asciiUpper := List.map_congr_left fun c _ => toUpper_eq c
  have hallow : (ascii "ALLOW").map asciiUpper = ascii "ALLOW" := by decide
  have hiff : strtoupper word = ascii "ALLOW" ↔ EqIgnoreCase word (ascii "ALLOW") := by
    unfold EqIgnoreCase
    rw [hupper, hallow]
  exact if_congr hiff rfl rfl

/-- The first entry on the chain is that of the last line. -/
theorem HostsFile.walk_chain {b : Build} {pton : InetPton} (f : HostsFile b pton) (a : Address) :
    walk (some a) f.chain = f.decision a := by
  have hmap : f.lines.filterMap (HostsLine.toEntry b pton)
      = (f.lines.filterMap (HostsLine.rule b pton)).map fun r => ⟨r.1, wordFlag r.2⟩ :=
    List.map_filterMap.symm
  -- the chain is the lines backwards: the first match on it is the last one in the file
  rw [walk_eq_find, HostsFile.chain, ← List.head?_filter, List.filter_reverse, List.head?_reverse,
    hmap, List.filter_map, List.getLast?_map, HostsFile.decision, HostsFile.wordsFor,
    List.getLast?_map]
  simp only [Function.comp_def]
  generalize ((f.lines.filterMap (HostsLine.rule b pton)).filter (·.1 == a)).getLast? = last
  cases last with
  | none => rfl
  | some r => exact wordFlag_eq r.2

/-- **The last matching line wins**, for every hosts file, every earlier chain and every
address. -/
theorem txtfile_last_match {b : Build} {pton : InetPton} (f : HostsFile b pton) (pd : PluginData)
    (req : Request) (a : Address) (ha : req.ipAddr.sockaddr = some a) :
    ∃ pd' out, SquidHelper.parseFile b pton pd (some f.bytes) = .ok (pd', out) ∧
      txtfileHandleRequest pd' req = f.decision a :=
  ⟨_, _, f.parseFile pd, by rw [txtfileHandleRequest, ha]; exact f.walk_chain a⟩

/-- A comment and two lines for one client; the last one has no newline. -/
def sampleHosts : HostsFile ⟨false⟩ ipv4Only where
  lines := [.other (ascii "# clients"), .entry 1 (ascii "10.0.0.1") (ascii "DENY") .crlf,
    .entry 0 (ascii "10.0.0.1") (ascii "Allow") .eof]
  valid := by
    intro l hl
    simp only [List.mem_cons, List.not_mem_nil, or_false] at hl
    rcases hl with rfl | rfl | rfl
    · exact ⟨by decide, by decide, by decide, by decide⟩
    · exact ⟨by decide, ⟨.inet #v[10, 0, 0, 1], by decide⟩, by decide, by decide, by decide,
        by decide⟩
    · exact ⟨by decide, ⟨.inet #v[10, 0, 0, 1], by decide⟩, by decide, by decide, by decide,
        by decide⟩
  terminated := by decide

/-- A request for 10.0.0.1. -/
def sampleRequest : Request :=
  { Request.init with ipAddr := ⟨some (.inet #v[10, 0, 0, 1]), ascii "10.0.0.1", 8⟩ }

/-- The second of the two lines is the one that counts, whatever was there before. -/
theorem txtfile_last_match_sample :
    ∃ pd' out, SquidHelper.parseFile ⟨false⟩ ipv4Only
        ⟨ascii "webcontrol_hosts.txt", [⟨.inet #v[10, 0, 0, 1], .deny⟩]⟩ (some sampleHosts.bytes)
        = .ok (pd', out) ∧ txtfileHandleRequest pd' sampleRequest = .allow := by
  have hdecision : sampleHosts.decision (.inet #v[10, 0, 0, 1]) = .allow := by decide
  rw [← hdecision]
  exact txtfile_last_match sampleHosts _ sampleRequest _ rfl

end SquidHelper
