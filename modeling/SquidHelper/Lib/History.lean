/-
SquidHelper/Lib/History.lean

Logs in which every entry is accounted for by the entries before it.  `Justified P log`
is the form in which "whenever this happens, that has happened earlier" is proved of all
runs: an entry is looked at once, when it is appended.
-/
import Mathlib

namespace History

variable {E : Type*}

/-- Every entry stands in relation `P` to the log before it. -/
def Justified (P : List E → E → Prop) (log : List E) : Prop :=
  ∀ before e after, log = before ++ e :: after → P before e

variable {P : List E → E → Prop} {log : List E}

theorem Justified.nil : Justified P [] := by
  intro before e after h
  cases before <;> cases h

theorem Justified.concat (h : Justified P log) {e : E} (he : P log e) :
    Justified P (log ++ [e]) := by
  intro before e' after heq
  rcases List.eq_nil_or_concat after with rfl | ⟨after, x, rfl⟩
  · obtain ⟨rfl, hlast⟩ := List.append_inj' heq rfl
    cases hlast
    exact he
  · rw [List.concat_eq_append, ← List.cons_append, ← List.append_assoc] at heq
    obtain ⟨rfl, -⟩ := List.append_inj' heq rfl
    exact h before e' after rfl

/-- Entries that need no account. -/
theorem Justified.append (h : Justified P log) {es : List E} (hes : ∀ e ∈ es, ∀ l, P l e) :
    Justified P (log ++ es) := by
  induction es generalizing log with
  | nil => rwa [List.append_nil]
  | cons e es ih =>
      obtain ⟨he, hes⟩ := List.forall_mem_cons.mp hes
      rw [List.append_cons]
      exact ih (h.concat (he log)) hes

end History
