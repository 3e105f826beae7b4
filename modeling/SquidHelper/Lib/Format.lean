/-
SquidHelper/Lib/Format.lean

`sprintf` with string arguments: what a format makes of them.

Only the conversions `%s` and `%%` are rendered.  A conversion for which there is no argument,
any other one, and a `%` at the end have no result: they read something that is not a string
argument, or are undefined.
-/
import SquidHelper.Lib.CString

namespace Format

open CString

/-- `'%'`. -/
abbrev PERCENT : Byte := 37

/-- `"%s"`. -/
def stringConversion : List Byte := [PERCENT, 115]

/-- The bytes that `sprintf` puts out for a format and its string arguments, without the NUL. -/
def render : List Byte → List (List Byte) → Option (List Byte)
  | [], _ => some []
  | [c], _ => if c = PERCENT then none else some [c]
  | c :: d :: format, args =>
      if c ≠ PERCENT then (render (d :: format) args).map (c :: ·)
      else if d = PERCENT then (render format args).map (PERCENT :: ·)
      else if d = 115 then
        args.head?.bind fun arg => (render format args.tail).map (arg ++ ·)
      else none

/-- A byte that begins no conversion is put out as it is. -/
theorem render_cons {c : Byte} (hc : c ≠ PERCENT) (format : List Byte) (args : List (List Byte)) :
    render (c :: format) args = (render format args).map (c :: ·) := by
  cases format with
  | nil => simp only [render, if_neg hc, Option.map_some]
  | cons d format => rw [render, if_pos hc]

/-- So is everything in front of the first conversion. -/
theorem render_append {text : List Byte} (htext : PERCENT ∉ text) (format : List Byte)
    (args : List (List Byte)) :
    render (text ++ format) args = (render format args).map (text ++ ·) := by
  induction text with
  | nil => simp
  | cons c text ih =>
      rw [List.mem_cons, not_or] at htext
      rw [List.cons_append, render_cons (Ne.symm htext.1), ih htext.2, Option.map_map]
      rfl

theorem render_text {text : List Byte} (htext : PERCENT ∉ text) (args : List (List Byte)) :
    render text args = some text := by
  have h := render_append htext [] args
  rwa [List.append_nil, render, Option.map_some, List.append_nil] at h

/-- `%s` is replaced by the next argument, whatever is in it. -/
theorem render_string (format arg : List Byte) (args : List (List Byte)) :
    render (stringConversion ++ format) (arg :: args) = (render format args).map (arg ++ ·) := rfl

theorem render_percent (format : List Byte) (args : List (List Byte)) :
    render (PERCENT :: PERCENT :: format) args = (render format args).map (PERCENT :: ·) := rfl

/-- **One `%s` in a text without any `%` is replaced by the argument.** -/
theorem render_template {before after : List Byte} (hbefore : PERCENT ∉ before)
    (hafter : PERCENT ∉ after) (arg : List Byte) :
    render (before ++ stringConversion ++ after) [arg] = some (before ++ arg ++ after) := by
  rw [List.append_assoc, render_append hbefore, render_string, render_text hafter]
  simp

/-- What is put out is from the format or from an argument. -/
theorem mem_render {format : List Byte} {args : List (List Byte)} {out : List Byte}
    (h : render format args = some out) {c : Byte} (hc : c ∈ out) :
    c ∈ format ∨ ∃ arg ∈ args, c ∈ arg := by
  induction format, args using render.induct generalizing out with
  | case1 args =>
      cases h
      exact absurd hc List.not_mem_nil
  | case2 args => cases h
  | case3 d args hd =>
      rw [render, if_neg hd] at h
      cases h
      exact .inl hc
  | case4 d e format args hd ih =>
      rw [render_cons hd] at h
      obtain ⟨rest, hrest, rfl⟩ := Option.map_eq_some_iff.mp h
      rcases List.mem_cons.mp hc with rfl | hc
      · exact .inl List.mem_cons_self
      · exact (ih hrest hc).imp_left (List.mem_cons_of_mem d)
  | case5 d format args hd ih =>
      obtain rfl := not_ne_iff.mp hd
      obtain ⟨rest, hrest, rfl⟩ := Option.map_eq_some_iff.mp h
      rcases List.mem_cons.mp hc with rfl | hc
      · exact .inl List.mem_cons_self
      · exact (ih hrest hc).imp_left fun h => List.mem_cons_of_mem _ (List.mem_cons_of_mem _ h)
  | case6 d format args hd _ ih =>
      obtain rfl := not_ne_iff.mp hd
      cases args with
      | nil => cases h
      | cons arg args =>
          obtain ⟨rest, hrest, rfl⟩ := Option.map_eq_some_iff.mp h
          rcases List.mem_append.mp hc with hc | hc
          · exact .inr ⟨arg, List.mem_cons_self, hc⟩
          · refine (ih hrest hc).imp (fun h => List.mem_cons_of_mem _ (List.mem_cons_of_mem _ h))
              fun ⟨arg', harg', h⟩ => ⟨arg', List.mem_cons_of_mem _ harg', h⟩
  | case7 d e format args hd he hs =>
      rw [render, if_neg hd, if_neg he, if_neg hs] at h
      cases h

/-! ### Formats at large -/

/-- The numbers of `%s` and of `%%` in a format without other conversions. -/
def conversions : List Byte → Option (ℕ × ℕ)
  | [] => some (0, 0)
  | [c] => if c = PERCENT then none else some (0, 0)
  | c :: d :: format =>
      if c ≠ PERCENT then conversions (d :: format)
      else if d = PERCENT then (conversions format).map fun r => (r.1, r.2 + 1)
      else if d = 115 then (conversions format).map fun r => (r.1 + 1, r.2)
      else none

/-- A byte that begins no conversion does not count. -/
theorem conversions_cons {c : Byte} (hc : c ≠ PERCENT) (format : List Byte) :
    conversions (c :: format) = conversions format := by
  cases format with
  | nil => simp only [conversions, if_neg hc]
  | cons d format => rw [conversions, if_pos hc]

theorem conversions_string (format : List Byte) :
    conversions (stringConversion ++ format)
      = (conversions format).map fun r => (r.1 + 1, r.2) := rfl

/-- How a format without other conversions begins. -/
theorem conversions_cases {format : List Byte} {r : ℕ × ℕ} (h : conversions format = some r) :
    format = [] ∧ r = (0, 0) ∨
    (∃ c rest, c ≠ PERCENT ∧ format = c :: rest ∧ conversions rest = some r) ∨
    (∃ rest r', format = PERCENT :: PERCENT :: rest ∧ conversions rest = some r' ∧
      r = (r'.1, r'.2 + 1)) ∨
    ∃ rest r', format = stringConversion ++ rest ∧ conversions rest = some r' ∧
      r = (r'.1 + 1, r'.2) := by
  cases format with
  | nil => exact .inl ⟨rfl, (Option.some.inj h).symm⟩
  | cons c format =>
      by_cases hc : c = PERCENT
      · subst hc
        cases format with
        | nil => cases h
        | cons d rest =>
            rw [conversions, if_neg (not_not_intro rfl)] at h
            split_ifs at h with hpercent hstring
            · obtain ⟨r', hr', rfl⟩ := Option.map_eq_some_iff.mp h
              exact .inr (.inr (.inl ⟨rest, r', by rw [hpercent], hr', rfl⟩))
            · obtain ⟨r', hr', rfl⟩ := Option.map_eq_some_iff.mp h
              exact .inr (.inr (.inr ⟨rest, r', by rw [hstring]; rfl, hr', rfl⟩))
      · rw [conversions_cons hc] at h
        exact .inr (.inl ⟨c, format, hc, rfl, h⟩)

/-- A conversion has two bytes. -/
theorem two_mul_conversions_le {format : List Byte} {r : ℕ × ℕ}
    (h : conversions format = some r) : 2 * (r.1 + r.2) ≤ format.length := by
  induction hn : format.length using Nat.strong_induction_on generalizing format r with
  | _ n ih =>
      subst hn
      obtain ⟨rfl, rfl⟩ | ⟨c, rest, -, rfl, hrest⟩ | ⟨rest, r', rfl, hrest, rfl⟩ |
        ⟨rest, r', rfl, hrest, rfl⟩ := conversions_cases h
      · exact le_rfl
      · exact (ih _ (by simp) hrest rfl).trans (Nat.le_succ _)
      · have hle := ih _ (by simp) hrest rfl
        simp only [List.length_cons]
        omega
      · have hle := ih _ (by simp [stringConversion]) hrest rfl
        simp only [stringConversion, List.length_append, List.length_cons, List.length_nil]
        omega

/-- **The length of what is put out**: a `%s` makes room for its argument, and a `%%` loses
a byte. -/
theorem length_render {format : List Byte} {r : ℕ × ℕ} (h : conversions format = some r)
    {args : List (List Byte)} (hargs : r.1 ≤ args.length) :
    ∃ out, render format args = some out ∧
      out.length + 2 * r.1 + r.2 = format.length + ((args.take r.1).map List.length).sum := by
  induction hn : format.length using Nat.strong_induction_on generalizing format r args with
  | _ n ih =>
      subst hn
      obtain ⟨rfl, rfl⟩ | ⟨c, rest, hc, rfl, hrest⟩ | ⟨rest, r', rfl, hrest, rfl⟩ |
        ⟨rest, r', rfl, hrest, rfl⟩ := conversions_cases h
      · exact ⟨[], rfl, rfl⟩
      · obtain ⟨out, hout, hlen⟩ := ih _ (by simp) hrest hargs rfl
        refine ⟨c :: out, by rw [render_cons hc, hout]; rfl, ?_⟩
        rw [List.length_cons, List.length_cons]
        omega
      · obtain ⟨out, hout, hlen⟩ := ih _ (by simp) hrest hargs rfl
        refine ⟨PERCENT :: out, by rw [render_percent, hout]; rfl, ?_⟩
        simp only [List.length_cons]
        omega
      · cases args with
        | nil => simp at hargs
        | cons arg args =>
            obtain ⟨out, hout, hlen⟩ :=
              ih _ (by simp [stringConversion]) hrest (Nat.le_of_succ_le_succ hargs) rfl
            refine ⟨arg ++ out, by rw [render_string, hout]; rfl, ?_⟩
            simp only [List.take_succ_cons, List.map_cons, List.sum_cons, List.length_append,
              stringConversion, List.length_cons, List.length_nil]
            omega

/-- Without an argument for every `%s` nothing is put out. -/
theorem render_eq_none {format : List Byte} {r : ℕ × ℕ} (h : conversions format = some r)
    {args : List (List Byte)} (hargs : args.length < r.1) : render format args = none := by
  induction hn : format.length using Nat.strong_induction_on generalizing format r args with
  | _ n ih =>
      subst hn
      obtain ⟨rfl, rfl⟩ | ⟨c, rest, hc, rfl, hrest⟩ | ⟨rest, r', rfl, hrest, rfl⟩ |
        ⟨rest, r', rfl, hrest, rfl⟩ := conversions_cases h
      · exact absurd hargs (Nat.not_lt_zero _)
      · rw [render_cons hc, ih _ (by simp) hrest hargs rfl, Option.map_none]
      · rw [render_percent, ih _ (by simp) hrest hargs rfl, Option.map_none]
      · cases args with
        | nil => rfl
        | cons arg args =>
            rw [render_string, ih _ (by simp [stringConversion]) hrest
              (Nat.lt_of_succ_lt_succ hargs) rfl, Option.map_none]

/-- No `%` in front of the first conversion: what is counted is counted behind it. -/
theorem conversions_append {text : List Byte} (htext : PERCENT ∉ text) (format : List Byte) :
    conversions (text ++ format) = conversions format := by
  induction text with
  | nil => rfl
  | cons c text ih =>
      rw [List.mem_cons, not_or] at htext
      rw [List.cons_append, conversions_cons (Ne.symm htext.1), ih htext.2]

/-- A format without conversions has no `%` in it. -/
theorem conversions_eq_none_iff {format : List Byte} :
    conversions format = some (0, 0) ↔ PERCENT ∉ format := by
  constructor
  · intro h
    induction format with
    | nil => exact List.not_mem_nil
    | cons c format ih =>
        obtain ⟨hnil, -⟩ | ⟨d, rest, hd, heq, hrest⟩ | ⟨rest, r', -, -, hr⟩ |
          ⟨rest, r', -, -, hr⟩ := conversions_cases h
        · cases hnil
        · cases heq
          rw [List.mem_cons, not_or]
          exact ⟨Ne.symm hd, ih hrest⟩
        · cases (Prod.mk.inj hr).2
        · cases (Prod.mk.inj hr).1
  · intro h
    have hempty := conversions_append h []
    rwa [List.append_nil] at hempty

/-- **One `%s` and no `%%`** are in the texts with one `%s` and no other `%`, and in no other. -/
theorem conversions_eq_one_iff {format : List Byte} :
    conversions format = some (1, 0) ↔
      ∃ before after, PERCENT ∉ before ∧ PERCENT ∉ after ∧
        format = before ++ stringConversion ++ after := by
  constructor
  · intro h
    induction format with
    | nil => cases h
    | cons c format ih =>
        obtain ⟨hnil, -⟩ | ⟨d, rest, hd, heq, hrest⟩ | ⟨rest, r', -, -, hr⟩ |
          ⟨rest, r', heq, hrest, hr⟩ := conversions_cases h
        · cases hnil
        · cases heq
          obtain ⟨before, after, hbefore, hafter, rfl⟩ := ih hrest
          refine ⟨c :: before, after, ?_, hafter, rfl⟩
          rw [List.mem_cons, not_or]
          exact ⟨Ne.symm hd, hbefore⟩
        · cases (Prod.mk.inj hr).2
        · obtain ⟨strings, percents⟩ := r'
          obtain ⟨hstrings, rfl⟩ := Prod.mk.inj hr
          obtain rfl := Nat.succ.inj hstrings
          exact ⟨[], rest, List.not_mem_nil, conversions_eq_none_iff.mp hrest, heq⟩
  · rintro ⟨before, after, hbefore, hafter, rfl⟩
    rw [List.append_assoc, conversions_append hbefore, conversions_string,
      conversions_eq_none_iff.mpr hafter]
    rfl

end Format
