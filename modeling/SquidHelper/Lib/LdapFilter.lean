/-
SquidHelper/Lib/LdapFilter.lean

The values in the string form of an LDAP search filter.

Parentheses, the asterisk and the backslash have a meaning of their own in a filter.  A
byte of a value is written as itself or as a backslash and two hexadecimal digits; an
asterisk that is not escaped stands for any bytes.  `KeepsStructure` says of a text that was
put in the place of a template's `%s` that nothing but a value was put there.
-/
import SquidHelper.Lib.Format

namespace LdapFilter

open CString Format

abbrev LPAREN : Byte := 40

abbrev RPAREN : Byte := 41

abbrev STAR : Byte := 42

abbrev BACKSLASH : Byte := 92

/-- The bytes that do not stand for themselves. -/
def isSpecial (c : Byte) : Bool := c == LPAREN || c == RPAREN || c == STAR || c == BACKSLASH

/-- The special bytes of a text, in order. -/
def specials (s : List Byte) : List Byte := s.filter isSpecial

@[simp] theorem specials_append (s t : List Byte) : specials (s ++ t) = specials s ++ specials t :=
  List.filter_append ..

theorem specials_eq_nil {s : List Byte} : specials s = [] ↔ ∀ c ∈ s, isSpecial c = false := by
  rw [specials, List.filter_eq_nil_iff]
  simp only [Bool.not_eq_true]

/-! ### Writing a value -/

def isHexDigit (c : Byte) : Bool := isDigit c || (65 ≤ asciiUpper c && asciiUpper c ≤ 70)

abbrev HexDigit := {c : Byte // isHexDigit c = true}

def hexValue (c : Byte) : Byte := if isDigit c then c - 48 else asciiUpper c - 55

/-- A byte of a value, as it is written. -/
inductive Written
  | plain (c : Byte)
  | escaped (hi lo : HexDigit)

/-- The byte that is meant. -/
def Written.byte : Written → Byte
  | plain c => c
  | escaped hi lo => 16 * hexValue hi + hexValue lo

def Written.text : Written → List Byte
  | plain c => [c]
  | escaped hi lo => [BACKSLASH, hi, lo]

/-- The text without the escapes. -/
def Written.verbatim : Written → List Byte
  | plain c => [c]
  | escaped _ _ => []

/-- `filter` comes from the template by writing `value` for `%s`, and apart from escapes it
has the special bytes of the template. -/
def KeepsStructure (before after value filter : List Byte) : Prop :=
  ∃ ws : List Written, ws.map Written.byte = value ∧
    filter = before ++ ws.flatMap Written.text ++ after ∧
    specials (before ++ ws.flatMap Written.verbatim ++ after)
      = specials (before ++ stringConversion ++ after)

/-- A text has no fewer bytes than it stands for. -/
theorem length_le_flatMap_text (ws : List Written) :
    ws.length ≤ (ws.flatMap Written.text).length := by
  induction ws with
  | nil => exact Nat.le_refl 0
  | cons w ws ih =>
      rw [List.flatMap_cons, List.length_append, List.length_cons]
      cases w <;> simp only [Written.text, List.length_cons, List.length_nil] <;> omega

/-- As many only if there is no escape in it. -/
theorem flatMap_verbatim_of_length {ws : List Written}
    (h : (ws.flatMap Written.text).length = ws.length) :
    ws.flatMap Written.verbatim = ws.map Written.byte := by
  induction ws with
  | nil => rfl
  | cons w ws ih =>
      rw [List.flatMap_cons, List.length_append, List.length_cons] at h
      cases w with
      | plain c =>
          have htail : (ws.flatMap Written.text).length = ws.length := by
            simp only [Written.text, List.length_cons, List.length_nil] at h
            omega
          rw [List.flatMap_cons, List.map_cons, ih htail]
          rfl
      | escaped hi lo =>
          have hle := length_le_flatMap_text ws
          simp only [Written.text, List.length_cons, List.length_nil] at h
          omega

/-- Bytes that are all written as themselves. -/
theorem flatMap_plain (s : List Byte) :
    (s.map Written.plain).flatMap Written.text = s ∧
      (s.map Written.plain).flatMap Written.verbatim = s ∧
      (s.map Written.plain).map Written.byte = s := by
  induction s with
  | nil => exact ⟨rfl, rfl, rfl⟩
  | cons c s ih =>
      obtain ⟨htext, hverbatim, hbyte⟩ := ih
      refine ⟨?_, ?_, ?_⟩
      · rw [List.map_cons, List.flatMap_cons, htext]
        rfl
      · rw [List.map_cons, List.flatMap_cons, hverbatim]
        rfl
      · rw [List.map_cons, List.map_cons, hbyte]
        rfl

theorem specials_around (before middle after : List Byte) :
    specials (before ++ middle ++ after) = specials (before ++ stringConversion ++ after) ↔
      specials middle = [] := by
  have hconversion : specials stringConversion = [] := rfl
  simp only [specials_append, hconversion, List.append_nil]
  constructor
  · intro h
    have hlen := congrArg List.length h
    simp only [List.length_append] at hlen
    exact List.eq_nil_of_length_eq_zero (by omega)
  · intro h
    rw [h, List.append_nil]

/-- **A value put in as it is keeps the structure if and only if no byte of it is special.** -/
theorem keepsStructure_iff (before after value : List Byte) :
    KeepsStructure before after value (before ++ value ++ after) ↔
      ∀ c ∈ value, isSpecial c = false := by
  rw [← specials_eq_nil]
  constructor
  · rintro ⟨ws, hvalue, hfilter, hspecials⟩
    have htext : value = ws.flatMap Written.text :=
      List.append_cancel_left (List.append_cancel_right hfilter)
    -- every byte of the value is one byte of its text, which leaves no room for an escape
    have hlen : (ws.flatMap Written.text).length = ws.length := by
      rw [← htext, ← hvalue, List.length_map]
    rw [specials_around, flatMap_verbatim_of_length hlen, hvalue] at hspecials
    exact hspecials
  · intro h
    obtain ⟨htext, hverbatim, hbyte⟩ := flatMap_plain value
    refine ⟨value.map Written.plain, hbyte, by rw [htext], ?_⟩
    rw [hverbatim, specials_around]
    exact h

/-! ### What a value asks for -/

/-- A value that is asked for, `none` standing for any bytes. -/
abbrev Pattern := List (Option Byte)

inductive Pattern.Matches : Pattern → List Byte → Prop
  | nil : Matches [] []
  | byte (c : Byte) {p : Pattern} {x : List Byte} : Matches p x → Matches (some c :: p) (c :: x)
  | anyEnd {p : Pattern} {x : List Byte} : Matches p x → Matches (none :: p) x
  | anyByte (c : Byte) {p : Pattern} {x : List Byte} :
      Matches (none :: p) x → Matches (none :: p) (c :: x)

/-- An asterisk alone asks for any value. -/
theorem Pattern.matches_any (x : List Byte) : Pattern.Matches [none] x := by
  induction x with
  | nil => exact .anyEnd .nil
  | cons c x ih => exact .anyByte c ih

/-- The value between `=` and `)`; nothing when it is none. -/
def parseValue : List Byte → Option Pattern
  | [] => some []
  | c :: s =>
      if c = BACKSLASH then
        match s with
        | hi :: lo :: rest =>
            if isHexDigit hi ∧ isHexDigit lo then
              (parseValue rest).map (some (16 * hexValue hi + hexValue lo) :: ·)
            else none
        | _ => none
      else if c = STAR then (parseValue s).map (none :: ·)
      else if isSpecial c then none
      else (parseValue s).map (some c :: ·)

/-- `text` is a value that one value only matches. -/
def AsksFor (text value : List Byte) : Prop :=
  ∃ p, parseValue text = some p ∧ ∀ x, Pattern.Matches p x ↔ x = value

theorem Pattern.matches_map_some {value x : List Byte} :
    Pattern.Matches (value.map some) x ↔ x = value := by
  induction value generalizing x with
  | nil =>
      constructor
      · intro h
        cases h
        rfl
      · rintro rfl
        exact .nil
  | cons c value ih =>
      constructor
      · intro h
        cases h with
        | byte c h => rw [ih.mp h]
      · rintro rfl
        exact .byte c (ih.mpr rfl)

theorem parseValue_plain {c : Byte} (hc : isSpecial c = false) (s : List Byte) :
    parseValue (c :: s) = (parseValue s).map (some c :: ·) := by
  have hback : c ≠ BACKSLASH := by
    rintro rfl
    cases hc
  have hstar : c ≠ STAR := by
    rintro rfl
    cases hc
  conv_lhs => rw [parseValue.eq_def]
  simp only [if_neg hback, if_neg hstar, hc, Bool.false_eq_true, if_false]

theorem parseValue_escaped (hi lo : HexDigit) (s : List Byte) :
    parseValue (BACKSLASH :: hi.val :: lo.val :: s)
      = (parseValue s).map (some (16 * hexValue hi + hexValue lo) :: ·) := by
  rw [parseValue, if_pos rfl]
  exact if_pos ⟨hi.property, lo.property⟩

/-- A value in writing is read as that value. -/
theorem parseValue_text {ws : List Written}
    (h : ∀ c ∈ ws.flatMap Written.verbatim, isSpecial c = false) :
    parseValue (ws.flatMap Written.text) = some ((ws.map Written.byte).map some) := by
  induction ws with
  | nil => rfl
  | cons w ws ih =>
      rw [List.flatMap_cons, List.forall_mem_append] at h
      rw [List.flatMap_cons, List.map_cons, List.map_cons]
      cases w with
      | plain c =>
          have hc : isSpecial c = false := h.1 c (List.mem_singleton_self c)
          rw [Written.text, List.singleton_append, parseValue_plain hc, ih h.2]
          rfl
      | escaped hi lo =>
          show parseValue (BACKSLASH :: hi.val :: lo.val :: ws.flatMap Written.text) = _
          rw [parseValue_escaped, ih h.2]
          rfl

/-- **Where the structure is kept, the value and nothing else is asked for.** -/
theorem KeepsStructure.asksFor {before after value filter : List Byte}
    (h : KeepsStructure before after value filter) :
    ∃ text, filter = before ++ text ++ after ∧ AsksFor text value := by
  obtain ⟨ws, hvalue, hfilter, hspecials⟩ := h
  rw [specials_around, specials_eq_nil] at hspecials
  refine ⟨ws.flatMap Written.text, hfilter, _, parseValue_text hspecials, ?_⟩
  intro x
  rw [hvalue]
  exact Pattern.matches_map_some

end LdapFilter
