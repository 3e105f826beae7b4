/-
SquidHelper/Lib/Lines.lean

The lines of a file and the pieces in which `fgets` reads them.

`fgets` stops at a newline or when its buffer is full, so a program that calls it until the
end of the file sees every line cut into pieces of the size of the buffer (`fgets_pieces`),
whatever the lines before it were.
-/
import SquidHelper.Lib.CString

namespace CString

/-! ### Lines -/

/-- A character put in front of the first line. -/
def joinFirst (c : Byte) : List (List Byte) → List (List Byte)
  | [] => [[c]]
  | l :: ls => (c :: l) :: ls

/-- The lines of a file, each with its newline; the last one may lack it. -/
def fileLines : List Byte → List (List Byte)
  | [] => []
  | c :: cs => if c = LF then [LF] :: fileLines cs else joinFirst c (fileLines cs)

/-- What lines look like: a newline at the end of each and nowhere else. -/
inductive IsLines : List (List Byte) → Prop
  | nil : IsLines []
  | last {body : List Byte} (hlf : LF ∉ body) (hne : body ≠ []) : IsLines [body]
  | cons {body : List Byte} {ls : List (List Byte)} (hlf : LF ∉ body) (hls : IsLines ls) :
      IsLines ((body ++ [LF]) :: ls)

theorem fileLines_append_lf {body : List Byte} (hlf : LF ∉ body) (file : List Byte) :
    fileLines (body ++ LF :: file) = (body ++ [LF]) :: fileLines file := by
  induction body with
  | nil => rfl
  | cons c body ih =>
      rw [List.mem_cons, not_or] at hlf
      rw [List.cons_append, fileLines, if_neg (Ne.symm hlf.1), ih hlf.2]
      rfl

theorem fileLines_last {body : List Byte} (hlf : LF ∉ body) (hne : body ≠ []) :
    fileLines body = [body] := by
  induction body with
  | nil => exact absurd rfl hne
  | cons c body ih =>
      rw [List.mem_cons, not_or] at hlf
      rw [fileLines, if_neg (Ne.symm hlf.1)]
      cases body with
      | nil => rfl
      | cons d body =>
          rw [ih hlf.2 (List.cons_ne_nil _ _)]
          rfl

/-- Lines are the lines of the file they make up. -/
theorem IsLines.fileLines_flatten {ls : List (List Byte)} (h : IsLines ls) :
    fileLines ls.flatten = ls := by
  induction h with
  | nil => rfl
  | last hlf hne =>
      rw [List.flatten_cons, List.flatten_nil, List.append_nil]
      exact fileLines_last hlf hne
  | cons hlf _ ih =>
      rw [List.flatten_cons, List.append_assoc, List.singleton_append, fileLines_append_lf hlf, ih]

theorem IsLines.joinFirst {ls : List (List Byte)} (h : IsLines ls) {c : Byte} (hc : c ≠ LF) :
    IsLines (joinFirst c ls) := by
  cases h with
  | nil => exact .last (by simpa using Ne.symm hc) (List.cons_ne_nil _ _)
  | last hlf _ =>
      refine .last ?_ (List.cons_ne_nil _ _)
      rw [List.mem_cons, not_or]
      exact ⟨Ne.symm hc, hlf⟩
  | @cons body _ hlf hls =>
      refine @IsLines.cons (c :: body) _ ?_ hls
      rw [List.mem_cons, not_or]
      exact ⟨Ne.symm hc, hlf⟩

theorem isLines_fileLines (file : List Byte) : IsLines (fileLines file) := by
  induction file with
  | nil => exact .nil
  | cons c cs ih =>
      rw [fileLines]
      split
      · exact @IsLines.cons [] _ List.not_mem_nil ih
      case isFalse hc => exact ih.joinFirst hc

theorem flatten_fileLines (file : List Byte) : (fileLines file).flatten = file := by
  induction file with
  | nil => rfl
  | cons c cs ih =>
      rw [fileLines]
      split
      case isTrue hc =>
        rw [List.flatten_cons, ih, hc]
        rfl
      case isFalse =>
        -- the byte goes to the first of the lines behind it
        cases hls : fileLines cs with
        | nil =>
            rw [hls] at ih
            rw [← ih]
            rfl
        | cons l ls =>
            rw [hls, List.flatten_cons] at ih
            rw [joinFirst, List.flatten_cons, List.cons_append, ih]

theorem IsLines.ne_nil {ls : List (List Byte)} (h : IsLines ls) : ∀ l ∈ ls, l ≠ [] := by
  induction h with
  | nil => simp
  | last _ hne => exact List.forall_mem_singleton.mpr hne
  | cons _ _ ih => exact List.forall_mem_cons.mpr ⟨by simp, ih⟩

/-- Some of the lines of a file are lines. -/
theorem IsLines.filter {ls : List (List Byte)} (h : IsLines ls) (p : List Byte → Bool) :
    IsLines (ls.filter p) := by
  induction h with
  | nil => exact .nil
  | @last body hlf hne =>
      rw [List.filter_singleton]
      cases p body
      · exact .nil
      · exact .last hlf hne
  | @cons body ls hlf _ ih =>
      rw [List.filter_cons]
      split
      · exact .cons hlf ih
      · exact ih

/-! ### Pieces -/

/-- `l` in pieces of `n` bytes. -/
def pieces (n : ℕ) (l : List Byte) : List (List Byte) :=
  (List.range ((l.length + n - 1) / n)).map fun i => (l.drop (n * i)).take n

theorem pieces_nil {n : ℕ} (hn : 0 < n) : pieces n [] = [] := by
  have hzero : (([] : List Byte).length + n - 1) / n = 0 := Nat.div_eq_of_lt (by
    rw [List.length_nil]
    omega)
  rw [pieces, hzero]
  rfl

theorem pieces_cons {n : ℕ} (hn : 0 < n) {l : List Byte} (hl : l ≠ []) :
    pieces n l = l.take n :: pieces n (l.drop n) := by
  have hpos := List.length_pos_iff.mpr hl
  have hcount : (l.length + n - 1) / n = ((l.drop n).length + n - 1) / n + 1 := by
    rw [List.length_drop]
    rcases Nat.lt_or_ge l.length n with hlt | hge
    · have hfew : (l.length - n + n - 1) / n = 0 := Nat.div_eq_of_lt (by omega)
      rw [hfew, Nat.div_eq_of_lt_le] <;> omega
    · rw [← Nat.add_div_right _ hn]
      congr 1
      omega
  rw [pieces, hcount, List.range_succ_eq_map, List.map_cons, List.map_map, pieces]
  refine congrArg₂ List.cons ?_ (List.map_congr_left fun i _ => ?_)
  · rw [Nat.mul_zero, List.drop_zero]
  · rw [Function.comp_apply, List.drop_drop, Nat.mul_succ, Nat.add_comm]

/-- What fits is one piece. -/
theorem pieces_of_length_le {n : ℕ} {l : List Byte} (hl : l ≠ []) (hle : l.length ≤ n) :
    pieces n l = [l] := by
  have hn : 0 < n := (List.length_pos_iff.mpr hl).trans_le hle
  rw [pieces_cons hn hl, List.take_of_length_le hle, List.drop_eq_nil_of_le hle, pieces_nil hn]

/-! ### What `fgets` reads -/

/-- The end of a line is a line, too. -/
theorem IsLines.drop {l : List Byte} {ls : List (List Byte)} (h : IsLines (l :: ls)) {n : ℕ}
    (hn : n < l.length) : IsLines (l.drop n :: ls) := by
  cases h with
  | last hlf _ =>
      refine .last (fun hmem => hlf (List.mem_of_mem_drop hmem)) ?_
      rw [← List.length_pos_iff, List.length_drop]
      omega
  | @cons body _ hlf hls =>
      rw [List.length_append, List.length_singleton] at hn
      rw [List.drop_append_of_le_length (by omega)]
      exact .cons (fun hmem => hlf (List.mem_of_mem_drop hmem)) hls

theorem IsLines.takeLine {l : List Byte} {ls : List (List Byte)} (h : IsLines (l :: ls)) (n : ℕ) :
    CString.takeLine n (l :: ls).flatten = l.take n := by
  rw [List.flatten_cons]
  cases h with
  | last hlf _ =>
      rw [List.flatten_nil, List.append_nil]
      exact takeLine_eq_take hlf n
  | cons hlf _ =>
      rw [List.append_assoc, List.singleton_append]
      exact takeLine_append_lf hlf n _

/-- **`fgets` reads the lines of a file piece by piece.** -/
theorem fgets_pieces {n : ℕ} (hn : 0 < n) {file line rest : List Byte}
    (h : fgets (n + 1) file = some (line, rest)) :
    (fileLines file).flatMap (pieces n) = line :: (fileLines rest).flatMap (pieces n) := by
  have hlines := isLines_fileLines file
  have hfile := flatten_fileLines file
  unfold fgets at h
  split at h
  case isTrue => cases h
  case isFalse hne =>
    cases h
    cases hls : fileLines file with
    | nil =>
        rw [hls] at hfile
        exact absurd hfile.symm hne
    | cons l ls =>
        rw [hls] at hlines hfile
        have hl := hlines.ne_nil l List.mem_cons_self
        rw [← hfile, Nat.add_sub_cancel, hlines.takeLine, List.flatMap_cons, pieces_cons hn hl,
          List.cons_append]
        congr 1
        rcases Nat.lt_or_ge n l.length with hlong | hshort
        · -- the line is not finished
          have hrest : (l :: ls).flatten.drop (l.take n).length = (l.drop n :: ls).flatten := by
            rw [List.length_take, Nat.min_eq_left hlong.le, List.flatten_cons,
              List.drop_append_of_le_length hlong.le, List.flatten_cons]
          rw [hrest, (hlines.drop hlong).fileLines_flatten, List.flatMap_cons]
        -- the line fits, and the next piece begins the next line
        · have hrest : (l :: ls).flatten.drop (l.take n).length = ls.flatten := by
            rw [List.take_of_length_le hshort, List.flatten_cons, List.drop_left]
          have htail : IsLines ls := by
            cases hlines with
            | last => exact .nil
            | cons _ hls => exact hls
          rw [hrest, htail.fileLines_flatten, List.drop_eq_nil_of_le hshort, pieces_nil hn,
            List.nil_append]

theorem fgets_eq_none {size : ℕ} {file : List Byte} (h : fgets size file = none) : file = [] := by
  by_contra hne
  rw [fgets, if_neg hne] at h
  cases h

end CString
