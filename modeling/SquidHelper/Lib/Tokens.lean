/-
SquidHelper/Lib/Tokens.lean

The tokens of a string.  Calling `strtok` until it returns a null pointer gives the fields
between the delimiters, without the empty ones; so a loop around `strtok` goes through
them in order (`strtokLoop_eq`).
-/
import SquidHelper.Lib.CString

namespace CString

variable {delim : Byte → Bool}

/-- The fields between delimiters that are not empty. -/
def tokens (delim : Byte → Bool) (s : List Byte) : List (List Byte) :=
  (s.splitOnP delim).filter (· ≠ [])

theorem tokens_cons {d : Byte} (hd : delim d = true) (s : List Byte) :
    tokens delim (d :: s) = tokens delim s := by
  rw [tokens, List.splitOnP_cons_eq_if_modifyHead, if_pos hd]
  rfl

/-- A field that no delimiter follows. -/
theorem tokens_field {tok : List Byte} (htok : ∀ c ∈ tok, delim c = false) (hne : tok ≠ []) :
    tokens delim tok = [tok] := by
  rw [tokens, List.splitOnP_eq_singleton htok, List.filter_singleton, decide_eq_true hne]
  rfl

theorem tokens_field_append {tok : List Byte} (htok : ∀ c ∈ tok, delim c = false)
    (hne : tok ≠ []) {d : Byte} (hd : delim d = true) (s : List Byte) :
    tokens delim (tok ++ d :: s) = tok :: tokens delim s := by
  rw [tokens, List.splitOnP_append_cons_of_forall_mem htok d hd, List.filter_cons,
    decide_eq_true hne]
  rfl

theorem tokens_dropWhile (s : List Byte) : tokens delim (s.dropWhile delim) = tokens delim s := by
  induction s with
  | nil => rfl
  | cons c s ih =>
      by_cases hc : delim c = true
      · rw [List.dropWhile_cons_of_pos hc, ih, tokens_cons hc]
      · rw [List.dropWhile_cons_of_neg hc]

theorem mem_of_mem_splitOnP {s field : List Byte} (h : field ∈ s.splitOnP delim) {c : Byte}
    (hc : c ∈ field) : c ∈ s := by
  induction s generalizing field with
  | nil =>
      rw [List.splitOnP_nil, List.mem_singleton] at h
      rw [h] at hc
      cases hc
  | cons x s ih =>
      rw [List.splitOnP_cons_eq_if_modifyHead] at h
      split at h
      case isTrue hx =>
        rcases List.mem_cons.mp h with rfl | h
        · cases hc
        · exact List.mem_cons_of_mem _ (ih h hc)
      case isFalse hx =>
        obtain ⟨f, fs, hfs⟩ := List.exists_cons_of_ne_nil (List.splitOnP_ne_nil delim s)
        rw [hfs] at h ih
        rcases List.mem_cons.mp h with rfl | h
        · rcases List.mem_cons.mp hc with rfl | hc
          · exact List.mem_cons_self
          · exact List.mem_cons_of_mem _ (ih List.mem_cons_self hc)
        · exact List.mem_cons_of_mem _ (ih (List.mem_cons_of_mem _ h) hc)

/-- A token has no bytes but those of the string. -/
theorem mem_of_mem_tokens {s tok : List Byte} (h : tok ∈ tokens delim s) {c : Byte}
    (hc : c ∈ tok) : c ∈ s :=
  mem_of_mem_splitOnP (List.mem_of_mem_filter h) hc

/-- No token is left when `strtok` returns a null pointer. -/
theorem tokens_of_strtokR_none {s : List Byte} (h : strtokR delim s = none) :
    tokens delim s = [] := by
  by_cases hs : s.dropWhile delim = []
  · rw [← tokens_dropWhile, hs]
    rfl
  · rw [strtokR_eq_some hs] at h
    cases h

/-- What `strtok` returns: the bytes behind the leading delimiters, up to the end or to one
more delimiter. -/
theorem strtokR_cases {s tok rest : List Byte} (h : strtokR delim s = some (tok, rest)) :
    tok ≠ [] ∧ (∀ c ∈ tok, delim c = false) ∧
      (s.dropWhile delim = tok ∧ rest = [] ∨
        ∃ d, delim d = true ∧ s.dropWhile delim = tok ++ d :: rest) := by
  by_cases hs : s.dropWhile delim = []
  · rw [strtokR_eq_none (List.dropWhile_eq_nil_iff.mp hs)] at h
    cases h
  · have hhead := List.head_dropWhile_not delim hs
    rw [strtokR_eq_some hs] at h
    obtain ⟨c, w, hw⟩ := List.exists_cons_of_ne_nil hs
    simp only [hw, List.head_cons] at hhead h
    have hsplit := List.takeWhile_append_dropWhile (p := fun x => !delim x) (l := c :: w)
    cases h
    refine ⟨?_, ?_, ?_⟩
    · rw [List.takeWhile_cons, hhead]
      exact List.cons_ne_nil _ _
    · intro x hx
      simpa using List.mem_takeWhile_imp hx
    · rw [hw]
      rcases hend : (c :: w).dropWhile fun x => !delim x with - | ⟨d, rest⟩
      · rw [hend, List.append_nil] at hsplit
        exact .inl ⟨hsplit.symm, rfl⟩
      · have hd := List.head_dropWhile_not (fun x => !delim x) (l := c :: w)
          (by rw [hend]; exact List.cons_ne_nil _ _)
        rw [hend] at hsplit
        simp only [hend, List.head_cons, Bool.not_eq_false'] at hd
        exact .inr ⟨d, hd, hsplit.symm⟩

/-- Otherwise it returns the first one, and the others are left. -/
theorem tokens_of_strtokR_some {s tok rest : List Byte} (h : strtokR delim s = some (tok, rest)) :
    tokens delim s = tok :: tokens delim rest ∧ rest.length < s.length := by
  obtain ⟨hne, htok, hrest⟩ := strtokR_cases h
  have hle := (List.dropWhile_suffix delim (l := s)).length_le
  have hpos := List.length_pos_of_ne_nil hne
  rw [← tokens_dropWhile s]
  rcases hrest with ⟨hs, rfl⟩ | ⟨d, hd, hs⟩
  · rw [hs, tokens_field htok hne]
    rw [hs] at hle
    exact ⟨rfl, by rw [List.length_nil]; omega⟩
  · rw [hs, List.length_append, List.length_cons] at hle
    rw [hs, tokens_field_append htok hne hd]
    exact ⟨rfl, by omega⟩

/-- `for (pch = strtok(s, ..); pch != NULL; pch = strtok(NULL, ..))`, with a body that changes
a state; the first argument bounds the number of rounds. -/
def strtokLoop {ε : Type} {τ : Type*} (delim : Byte → Bool) (body : τ → List Byte → Except ε τ) :
    ℕ → List Byte → τ → Except ε τ
  | 0, _, state => .ok state
  | n + 1, s, state =>
      match strtokR delim s with
      | none => .ok state
      | some (pch, rest) => body state pch >>= strtokLoop delim body n rest

/-- **The loop goes through the tokens in order**, with one round for each byte and one more. -/
theorem strtokLoop_eq {ε : Type} {τ : Type*} (body : τ → List Byte → Except ε τ) {n : ℕ}
    {s : List Byte} (hn : s.length < n) (state : τ) :
    strtokLoop delim body n s state = (tokens delim s).foldlM body state := by
  induction n generalizing s state with
  | zero => omega
  | succ n ih =>
      rw [strtokLoop]
      cases h : strtokR delim s with
      | none =>
          rw [tokens_of_strtokR_none h]
          rfl
      | some r =>
          obtain ⟨tok, rest⟩ := r
          obtain ⟨htokens, hlt⟩ := tokens_of_strtokR_some h
          rw [htokens, List.foldlM_cons]
          have hrest : strtokLoop delim body n rest = (tokens delim rest).foldlM body :=
            funext fun state' => ih (by omega) state'
          simp only [hrest]

end CString
