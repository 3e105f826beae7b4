/-
SquidHelper/Lib/CString.lean

The part of the C library's string handling that byte-oriented C programs rest
on: NUL-terminated strings, `strtok_r`, `fgets`, the `%zu` and `%<width>s`
conversions of `scanf`, and the decimal rendering of `printf("%zu")`.

A string is the list of its bytes without the terminating NUL; a region of
memory is the list of its bytes, NUL included.  The functions follow glibc where
the C standard leaves the behaviour open (a `%zu` value out of range saturates).
-/
import Mathlib

namespace CString

/-- A byte of memory, C's `char`. -/
abbrev Byte := UInt8

/-- The bytes of a string literal. -/
def ascii (s : String) : List Byte := s.toList.map fun c => c.toNat.toUInt8

/-- `'\0'`. -/
abbrev NUL : Byte := 0

/-- `'\n'`. -/
abbrev LF : Byte := 10

/-- `'\r'`. -/
abbrev CR : Byte := 13

/-- `' '`. -/
abbrev SP : Byte := 32

/-- `isspace` in the C locale: space, `\t`, `\n`, `\v`, `\f`, `\r`. -/
def isSpace (c : Byte) : Bool := c == 32 || (9 ≤ c && c ≤ 13)

/-- `isdigit`. -/
def isDigit (c : Byte) : Bool := 48 ≤ c && c ≤ 57

/-- The upper-case form of a letter, every other byte as it is. -/
def asciiUpper (c : Byte) : Byte := if 97 ≤ c ∧ c ≤ 122 then c - 32 else c

/-- Equal up to the case of letters. -/
def EqIgnoreCase (s t : List Byte) : Prop := s.map asciiUpper = t.map asciiUpper

instance (s t : List Byte) : Decidable (EqIgnoreCase s t) := by
  unfold EqIgnoreCase; infer_instance

/-! ### NUL-terminated strings -/

/-- `strlen` on the memory from a pointer on; `none` when no NUL follows. -/
def strlen : List Byte → Option ℕ
  | [] => none
  | c :: m => if c = NUL then some 0 else (strlen m).map (· + 1)

theorem strlen_append_nul {s : List Byte} (h : NUL ∉ s) (m : List Byte) :
    strlen (s ++ NUL :: m) = some s.length := by
  induction s with
  | nil => simp [strlen]
  | cons c s ih =>
      rw [List.mem_cons, not_or] at h
      simp [strlen, Ne.symm h.1, ih h.2]

/-- The string at the beginning of some memory, without its NUL. -/
def cString (m : List Byte) : List Byte := m.takeWhile (· != NUL)

theorem cString_append_nul {s : List Byte} (h : NUL ∉ s) (m : List Byte) :
    cString (s ++ NUL :: m) = s := by
  have hall : ∀ c ∈ s, (c != NUL) = true := by
    intro c hc
    rw [bne_iff_ne]
    rintro rfl
    exact h hc
  rw [cString, List.takeWhile_append_of_pos hall]
  simp

/-- Memory with a NUL in it begins with a string. -/
theorem exists_cString {m : List Byte} (h : NUL ∈ m) :
    NUL ∉ cString m ∧ ∃ rest, m = cString m ++ NUL :: rest := by
  induction m with
  | nil => cases h
  | cons c m ih =>
      by_cases hc : c = NUL
      · subst hc
        exact ⟨by simp [cString], m, by simp [cString]⟩
      · obtain ⟨hnul, rest, hrest⟩ := ih ((List.mem_cons.mp h).resolve_left (Ne.symm hc))
        have hcons : cString (c :: m) = c :: cString m := by
          rw [cString, List.takeWhile_cons, if_pos (bne_iff_ne.mpr hc)]
          rfl
        rw [hcons]
        refine ⟨?_, rest, ?_⟩
        · rw [List.mem_cons, not_or]
          exact ⟨Ne.symm hc, hnul⟩
        · rw [List.cons_append, ← hrest]

/-- `strlen` counts its bytes. -/
theorem strlen_eq_some {m : List Byte} {len : ℕ} (h : strlen m = some len) :
    len = (cString m).length := by
  induction m generalizing len with
  | nil => cases h
  | cons c m ih =>
      by_cases hc : c = NUL
      · rw [strlen, if_pos hc] at h
        cases h
        simp [cString, hc]
      · rw [strlen, if_neg hc] at h
        obtain ⟨k, hk, rfl⟩ := Option.map_eq_some_iff.mp h
        rw [ih hk, cString, cString, List.takeWhile_cons, if_pos (bne_iff_ne.mpr hc)]
        rfl

/-! ### `strtok_r` -/

/-- One call of `strtok_r` on the string from its position on: skip delimiters,
take a token up to the next delimiter or the end.  Returns the token and the
string from the saved position on; `none` is the null pointer. -/
def strtokR (delim : Byte → Bool) (s : List Byte) : Option (List Byte × List Byte) :=
  match s.dropWhile delim with
  | [] => none
  | c :: cs => some ((c :: cs).takeWhile (fun x => !delim x),
      ((c :: cs).dropWhile (fun x => !delim x)).drop 1)

/-- Nothing but delimiters: no token. -/
theorem strtokR_eq_none {delim : Byte → Bool} {s : List Byte} (h : ∀ c ∈ s, delim c = true) :
    strtokR delim s = none := by
  simp only [strtokR, List.dropWhile_eq_nil_iff.mpr h]

theorem strtokR_eq_some {delim : Byte → Bool} {s : List Byte} (h : s.dropWhile delim ≠ []) :
    strtokR delim s = some ((s.dropWhile delim).takeWhile (fun x => !delim x),
      ((s.dropWhile delim).dropWhile (fun x => !delim x)).drop 1) := by
  obtain ⟨c, cs, hcs⟩ := List.exists_cons_of_ne_nil h
  simp only [strtokR, hcs]

/-- Delimiters, then a token, then one delimiter: the token is returned and the
position is just behind that delimiter. -/
theorem strtokR_token {delim : Byte → Bool} (lead : List Byte) {tok rest : List Byte} {d : Byte}
    (hlead : ∀ c ∈ lead, delim c = true) (htok : ∀ c ∈ tok, delim c = false)
    (hne : tok ≠ []) (hd : delim d = true) :
    strtokR delim (lead ++ tok ++ d :: rest) = some (tok, rest) := by
  obtain ⟨t, ts, rfl⟩ := List.exists_cons_of_ne_nil hne
  have hskip : (lead ++ (t :: ts) ++ d :: rest).dropWhile delim = t :: (ts ++ d :: rest) := by
    rw [List.append_assoc, List.dropWhile_append_of_pos hlead]
    simp [htok t]
  have hall : ∀ c ∈ t :: ts, (!delim c) = true := fun c hc => by simp [htok c hc]
  have htake : (t :: ts ++ d :: rest).takeWhile (fun x => !delim x) = t :: ts := by
    rw [List.takeWhile_append_of_pos hall]
    simp [hd]
  have hdrop : (t :: ts ++ d :: rest).dropWhile (fun x => !delim x) = d :: rest := by
    rw [List.dropWhile_append_of_pos hall]
    simp [hd]
  rw [List.cons_append] at htake hdrop
  simp only [strtokR, hskip, htake, hdrop, List.drop_one, List.tail_cons]

/-- The last token of a string, which no delimiter follows. -/
theorem strtokR_last {delim : Byte → Bool} (lead : List Byte) {tok : List Byte}
    (hlead : ∀ c ∈ lead, delim c = true) (htok : ∀ c ∈ tok, delim c = false)
    (hne : tok ≠ []) :
    strtokR delim (lead ++ tok) = some (tok, []) := by
  obtain ⟨t, ts, rfl⟩ := List.exists_cons_of_ne_nil hne
  have hskip : (lead ++ (t :: ts)).dropWhile delim = t :: ts := by
    rw [List.dropWhile_append_of_pos hlead]
    simp [htok t]
  have hall : ∀ c ∈ t :: ts, (!delim c) = true := fun c hc => by simp [htok c hc]
  have htake := List.takeWhile_eq_self_iff.mpr hall
  have hdrop := List.dropWhile_eq_nil_iff.mpr hall
  simp only [strtokR, hskip, htake, hdrop, List.drop_nil]

/-! ### `fgets` -/

/-- At most `n` bytes, and none behind a newline. -/
def takeLine : ℕ → List Byte → List Byte
  | 0, _ => []
  | _ + 1, [] => []
  | n + 1, c :: cs => if c = LF then [c] else c :: takeLine n cs

/-- `fgets(line, size, f)` with `file` still unread: the bytes stored and what
stays unread; `none` (the null pointer) at end of file. -/
def fgets (size : ℕ) (file : List Byte) : Option (List Byte × List Byte) :=
  if file = [] then none
  else some (takeLine (size - 1) file, file.drop (takeLine (size - 1) file).length)

/-- Without a newline only the room counts. -/
theorem takeLine_eq_take {l : List Byte} (hlf : LF ∉ l) (n : ℕ) : takeLine n l = l.take n := by
  induction l generalizing n with
  | nil => cases n <;> rfl
  | cons c l ih =>
      rw [List.mem_cons, not_or] at hlf
      cases n with
      | zero => rfl
      | succ n => rw [takeLine, if_neg (Ne.symm hlf.1), ih hlf.2, List.take_succ_cons]

/-- What is behind a newline does not count. -/
theorem takeLine_append_lf {l : List Byte} (hlf : LF ∉ l) (n : ℕ) (rest : List Byte) :
    takeLine n (l ++ LF :: rest) = (l ++ [LF]).take n := by
  induction l generalizing n with
  | nil =>
      cases n with
      | zero => rfl
      | succ n => rw [List.nil_append, takeLine, if_pos rfl, List.nil_append, List.take_succ_cons,
          List.take_nil]
  | cons c l ih =>
      rw [List.mem_cons, not_or] at hlf
      cases n with
      | zero => rfl
      | succ n => rw [List.cons_append, takeLine, if_neg (Ne.symm hlf.1), ih hlf.2, List.cons_append,
          List.take_succ_cons]

/-- A line that fits is read whole, with its newline. -/
theorem takeLine_line {n : ℕ} {l rest : List Byte} (hl : LF ∉ l) (hn : l.length < n) :
    takeLine n (l ++ LF :: rest) = l ++ [LF] := by
  rw [takeLine_append_lf hl, List.take_of_length_le]
  rw [List.length_append, List.length_singleton]
  exact hn

/-- The unterminated end of a file that fits is read whole. -/
theorem takeLine_end {n : ℕ} {l : List Byte} (hl : LF ∉ l) (hn : l.length ≤ n) :
    takeLine n l = l := by
  rw [takeLine_eq_take hl, List.take_of_length_le hn]

/-- What `fgets` leaves is shorter than what was there. -/
theorem fgets_length_lt {size : ℕ} (hsize : 2 ≤ size) {file line rest : List Byte}
    (h : fgets size file = some (line, rest)) : rest.length < file.length := by
  obtain ⟨k, rfl⟩ : ∃ k, size = k + 2 := ⟨size - 2, by omega⟩
  unfold fgets at h
  split at h
  case isTrue => cases h
  case isFalse hne =>
    cases h
    obtain ⟨c, cs, rfl⟩ := List.exists_cons_of_ne_nil hne
    have hpos : 0 < (takeLine (k + 2 - 1) (c :: cs)).length := by
      show 0 < (takeLine (k + 1) (c :: cs)).length
      unfold takeLine
      split <;> exact Nat.zero_lt_succ _
    rw [List.length_drop, List.length_cons]
    omega

/-! ### `scanf` conversions -/

/-- The value of a string of decimal digits. -/
def decimalValue (ds : List Byte) : ℕ := ds.foldl (fun n d => n * 10 + (d.toNat - 48)) 0

/-- `ULONG_MAX + 1` on an LP64 machine. -/
def sizeMod : ℕ := 2 ^ 64

/-- The sign `%zu` accepts in front of the digits: whether it is a minus, and the
rest. -/
def scanSign : List Byte → Bool × List Byte
  | [] => (false, [])
  | c :: s => if c = 45 then (true, s) else if c = 43 then (false, s) else (false, c :: s)

/-- `%zu`: skip white space, an optional sign, decimal digits.  Returns the value
and the unread rest; `none` when no digit is there. -/
def scanSize (s : List Byte) : Option (ℕ × List Byte) :=
  let r := scanSign (s.dropWhile isSpace)
  let ds := r.2.takeWhile isDigit
  if ds = [] then none
  else
    let v := decimalValue ds
    some (if sizeMod ≤ v then sizeMod - 1 else if r.1 then (sizeMod - v) % sizeMod else v,
      r.2.dropWhile isDigit)

/-- `USHRT_MAX + 1`. -/
def shortMod : ℕ := 2 ^ 16

/-- `%hu`: the value that `%zu` reads, cut to 16 bits. -/
def scanShort (s : List Byte) : Option (ℕ × List Byte) :=
  (scanSize s).map fun r => (r.1 % shortMod, r.2)

theorem scanShort_lt {s : List Byte} {v : ℕ} {rest : List Byte}
    (h : scanShort s = some (v, rest)) : v < shortMod := by
  obtain ⟨r, -, hr⟩ := Option.map_eq_some_iff.mp h
  cases hr
  exact Nat.mod_lt _ (by decide)

/-- `%<width>s`: skip white space, then at most `width` bytes up to the next white
space.  Returns the bytes stored (without the NUL) and the unread rest; `none`
when the string ends first. -/
def scanString (width : ℕ) (s : List Byte) : Option (List Byte × List Byte) :=
  let r := s.dropWhile isSpace
  let tok := (r.takeWhile fun c => !isSpace c).take width
  if tok = [] then none else some (tok, r.drop tok.length)

/-- What `%<width>s` stores fits. -/
theorem scanString_length {width : ℕ} {s tok rest : List Byte}
    (h : scanString width s = some (tok, rest)) : tok.length ≤ width := by
  obtain ⟨-, h⟩ := Option.ite_none_left_eq_some.mp h
  cases h
  exact List.length_take_le ..

/-- A string that starts with a digit has no white space and no sign to skip. -/
theorem scanSign_digit {d : Byte} {s : List Byte} (hd : isDigit d = true) :
    scanSign ((d :: s).dropWhile isSpace) = (false, d :: s) := by
  -- the signs and the white space are below the digits
  have hlo : 48 ≤ d.toNat := by
    simp only [isDigit, Bool.and_eq_true, decide_eq_true_eq] at hd
    exact UInt8.le_iff_toNat_le.mp hd.1
  have hsp : isSpace d = false := by
    simp only [isSpace, Bool.or_eq_false_iff, beq_eq_false_iff_ne, ne_eq, Bool.and_eq_false_iff,
      decide_eq_false_iff_not, UInt8.le_iff_toNat_le, ← UInt8.toNat_inj, UInt8.reduceToNat]
    omega
  have h45 : d ≠ 45 := fun h => by rw [h] at hlo; exact absurd hlo (by decide)
  have h43 : d ≠ 43 := fun h => by rw [h] at hlo; exact absurd hlo (by decide)
  rw [List.dropWhile_cons_of_neg (by simp [hsp])]
  simp [scanSign, h45, h43]

/-- A digit is no white space. -/
theorem isDigit_of_isSpace {c : Byte} (h : isSpace c = true) : isDigit c = false := by
  simp only [isSpace, isDigit, Bool.or_eq_true, beq_iff_eq, Bool.and_eq_true,
    decide_eq_true_eq, Bool.and_eq_false_iff, decide_eq_false_iff_not,
    UInt8.le_iff_toNat_le, ← UInt8.toNat_inj, UInt8.reduceToNat] at h ⊢
  omega

/-- `%zu` on digits that are not continued reads their value, or `ULONG_MAX`. -/
theorem scanSize_saturates {ds rest : List Byte} (hds : ∀ d ∈ ds, isDigit d = true)
    (hne : ds ≠ []) (hrest : ∀ c, rest.head? = some c → isDigit c = false) :
    scanSize (ds ++ rest) =
      some (if sizeMod ≤ decimalValue ds then sizeMod - 1 else decimalValue ds, rest) := by
  obtain ⟨d, ds', rfl⟩ := List.exists_cons_of_ne_nil hne
  have hstop : rest.takeWhile isDigit = [] ∧ rest.dropWhile isDigit = rest := by
    cases rest with
    | nil => exact ⟨rfl, rfl⟩
    | cons c cs => simp [hrest c rfl]
  have htake : ((d :: ds') ++ rest).takeWhile isDigit = d :: ds' := by
    rw [List.takeWhile_append_of_pos hds, hstop.1, List.append_nil]
  have hdrop : ((d :: ds') ++ rest).dropWhile isDigit = rest := by
    rw [List.dropWhile_append_of_pos hds, hstop.2]
  have hsign := scanSign_digit (s := ds' ++ rest) (hds d List.mem_cons_self)
  rw [List.cons_append] at htake hdrop ⊢
  simp only [scanSize, hsign, htake, hdrop]
  simp

theorem scanSize_digits {ds rest : List Byte} (hds : ∀ d ∈ ds, isDigit d = true) (hne : ds ≠ [])
    (hrest : ∀ c, rest.head? = some c → isDigit c = false) (hv : decimalValue ds < sizeMod) :
    scanSize (ds ++ rest) = some (decimalValue ds, rest) := by
  rw [scanSize_saturates hds hne hrest, if_neg (Nat.not_le.mpr hv)]

/-- `%<width>s` stores a token up to the width and leaves what is beyond unread. -/
theorem scanString_token {width : ℕ} (hwidth : 0 < width) {ws tok rest : List Byte}
    (hws : ∀ c ∈ ws, isSpace c = true) (htok : ∀ c ∈ tok, isSpace c = false) (hne : tok ≠ [])
    (hrest : ∀ c, rest.head? = some c → isSpace c = true) :
    scanString width (ws ++ tok ++ rest) = some (tok.take width, tok.drop width ++ rest) := by
  have hskip : (ws ++ tok ++ rest).dropWhile isSpace = tok ++ rest := by
    obtain ⟨t, ts, rfl⟩ := List.exists_cons_of_ne_nil hne
    rw [List.append_assoc, List.dropWhile_append_of_pos hws]
    simp [htok t]
  have hall : ∀ c ∈ tok, (!isSpace c) = true := fun c hc => by simp [htok c hc]
  have hstop : rest.takeWhile (fun c => !isSpace c) = [] := by
    cases rest with
    | nil => rfl
    | cons c cs => simp [hrest c rfl]
  have htake : (tok ++ rest).takeWhile (fun c => !isSpace c) = tok := by
    rw [List.takeWhile_append_of_pos hall, hstop, List.append_nil]
  -- something is stored, so the conversion succeeds
  have hstored : tok.take width ≠ [] := by
    rw [← List.length_pos_iff, List.length_take]
    exact Nat.lt_min.mpr ⟨hwidth, List.length_pos_iff.mpr hne⟩
  have hleft : (tok ++ rest).drop (tok.take width).length = tok.drop width ++ rest := by
    rw [List.length_take, List.drop_append_of_le_length (Nat.min_le_right ..)]
    rcases Nat.le_total width tok.length with hle | hle
    · rw [Nat.min_eq_left hle]
    · rw [Nat.min_eq_right hle, List.drop_length, List.drop_eq_nil_of_le hle]
  simp only [scanString, hskip, htake, if_neg hstored, hleft]

/-! ### `printf("%zu")` -/

/-- The canonical decimal digits of a number. -/
def decimal (n : ℕ) : List Byte := (Nat.toDigits 10 n).map fun c => c.toNat.toUInt8

/-- A line up to its first space. -/
def firstField (s : List Byte) : List Byte := s.takeWhile (fun c => c != SP)

theorem isDigit_of_mem_decimal {n : ℕ} {c : Byte} (h : c ∈ decimal n) : isDigit c = true := by
  obtain ⟨ch, hch, rfl⟩ := List.mem_map.mp h
  have hd := Nat.isDigit_of_mem_toDigits (by decide) (by decide) hch
  simp only [Char.isDigit, Bool.and_eq_true, decide_eq_true_eq, UInt32.le_iff_toNat_le] at hd
  obtain ⟨hlo, hhi⟩ := hd
  have hlo' : 48 ≤ ch.toNat := hlo
  have hhi' : ch.toNat ≤ 57 := hhi
  have hmod : ch.toNat % 256 = ch.toNat := Nat.mod_eq_of_lt (by omega)
  simp [isDigit, UInt8.le_iff_toNat_le, hmod, hlo', hhi']

theorem decimal_ne_nil (n : ℕ) : decimal n ≠ [] := by
  rw [decimal, ne_eq, List.map_eq_nil_iff]
  exact Nat.toDigits_ne_nil

/-- A number is the value of its digits. -/
theorem decimalValue_decimal (n : ℕ) : decimalValue (decimal n) = n := by
  have hfold : ∀ (cs : List Char) (v : ℕ), (∀ c ∈ cs, c.isDigit = true) →
      (cs.map fun c => c.toNat.toUInt8).foldl (fun n d => n * 10 + (d.toNat - 48)) v
        = Nat.ofDigitChars 10 cs v := by
    intro cs
    induction cs with
    | nil =>
        intro v _
        rfl
    | cons c cs ih =>
        intro v hcs
        have hc := hcs c List.mem_cons_self
        simp only [Char.isDigit, Bool.and_eq_true, decide_eq_true_eq,
          UInt32.le_iff_toNat_le] at hc
        have hhi : c.toNat ≤ 57 := hc.2
        have hmod : c.toNat % 256 = c.toNat := Nat.mod_eq_of_lt (by omega)
        rw [List.map_cons, List.foldl_cons, ih _ fun d hd => hcs d (List.mem_cons_of_mem c hd),
          Nat.ofDigitChars_cons, Nat.mul_comm 10 v]
        simp [hmod]
  rw [decimalValue, decimal, hfold _ _ fun c hc =>
    Nat.isDigit_of_mem_toDigits (by decide) (by decide) hc, Nat.ofDigitChars_ten_toDigits]

/-- The number in front of the first space is its own field. -/
theorem firstField_decimal (n : ℕ) (rest : List Byte) :
    firstField (decimal n ++ SP :: rest) = decimal n := by
  have hall : ∀ c ∈ decimal n, (c != SP) = true := by
    intro c hc
    have hd := isDigit_of_mem_decimal hc
    rw [bne_iff_ne]
    rintro rfl
    exact absurd hd (by decide)
  rw [firstField, List.takeWhile_append_of_pos hall]
  simp

/-- A number that is small enough is read back from its digits. -/
theorem scanShort_decimal {n : ℕ} (hn : n < shortMod) :
    scanShort (decimal n) = some (n, []) := by
  have hsize : decimalValue (decimal n) < sizeMod := by
    rw [decimalValue_decimal]
    exact hn.trans (by decide)
  have hend : ∀ c, ([] : List Byte).head? = some c → isDigit c = false := by simp
  have hscan := scanSize_digits (fun _ => isDigit_of_mem_decimal) (decimal_ne_nil n) hend hsize
  rw [List.append_nil, decimalValue_decimal] at hscan
  rw [scanShort, hscan, Option.map_some, Nat.mod_eq_of_lt hn]

end CString
