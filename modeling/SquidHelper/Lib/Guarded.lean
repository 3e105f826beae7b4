/-
SquidHelper/Lib/Guarded.lean

Guarded transition systems.  A system is a partial step function: `step s a` is
`some s'` when action `a` is enabled in `s` and leads to `s'`, and `none` when
`a` has to wait.  Everything nondeterministic (scheduling, the answers of the
outside world) is in the action, so that a run is a list of actions and can be
replayed.

Rules used by the developments on top:

* `exec_induction`  -- an invariant that may mention the actions performed so far;
* `Reaches.invariant` -- the plain reachability rule;
* `exec_simulates` -- a relation kept by steps is kept by runs;
* `trace_simulates` -- where steps look the same from outside, runs do;
* `exec_of_step`    -- a system with fewer steps has fewer runs;
* `trace_concat`    -- what can be observed of a run, step by step;
* `exists_stuck_of_rank` -- a system whose actions all lower a rank runs into a
  state where none of them is enabled.
-/
import Mathlib

/-- A guarded transition system over states `S` and actions `A`. -/
structure Guarded (S : Type*) (A : Type*) where
  step : S → A → Option S

namespace Guarded

variable {S A : Type*} (M : Guarded S A)

/-- Perform a list of actions; `none` as soon as one of them is not enabled. -/
def exec (s : S) : List A → Option S
  | [] => some s
  | a :: as => (M.step s a).bind fun s' => exec s' as

/-- `a` can be performed in `s`. -/
def Enabled (s : S) (a : A) : Prop := (M.step s a).isSome

instance (s : S) (a : A) : Decidable (M.Enabled s a) := by
  unfold Enabled; infer_instance

/-- Some run leads from `s` to `s'`. -/
def Reaches (s s' : S) : Prop := ∃ as, M.exec s as = some s'

variable {M}

@[simp] theorem exec_nil (s : S) : M.exec s [] = some s := rfl

@[simp] theorem exec_cons (s : S) (a : A) (as : List A) :
    M.exec s (a :: as) = (M.step s a).bind fun s' => M.exec s' as := rfl

theorem exec_append (s : S) (as bs : List A) :
    M.exec s (as ++ bs) = (M.exec s as).bind fun s' => M.exec s' bs := by
  induction as generalizing s with
  | nil => rfl
  | cons a as ih =>
      rcases h : M.step s a with - | s'
      · simp [h]
      · simp [h, ih]

theorem exec_concat (s : S) (as : List A) (a : A) :
    M.exec s (as ++ [a]) = (M.exec s as).bind fun s' => M.step s' a := by
  rw [exec_append]
  congr 1
  funext s'
  rcases h : M.step s' a with - | s'' <;> simp [h]

/-- A property of the actions performed and the state they lead to holds of every
run if it holds of the empty one and each enabled action keeps it. -/
theorem exec_induction {s : S} {P : List A → S → Prop} (h₀ : P [] s)
    (hstep : ∀ as s₁ a s₂, M.exec s as = some s₁ → P as s₁ → M.step s₁ a = some s₂ →
      P (as ++ [a]) s₂) :
    ∀ {as s'}, M.exec s as = some s' → P as s' := by
  intro as
  induction as using List.reverseRecOn with
  | nil =>
      intro s' h
      obtain rfl := Option.some.inj h
      exact h₀
  | append_singleton as a ih =>
      intro s' h
      rw [exec_concat] at h
      obtain ⟨s₁, h₁, h₂⟩ := Option.bind_eq_some_iff.mp h
      exact hstep as s₁ a s' h₁ (ih h₁) h₂

/-- What `f` observes in the steps of a run. -/
def trace (M : Guarded S A) {E : Type*} (f : S → A → List E) (s : S) : List A → List E
  | [] => []
  | a :: as => f s a ++ ((M.step s a).elim [] fun s' => trace M f s' as)

@[simp] theorem trace_nil {E : Type*} (f : S → A → List E) (s : S) : M.trace f s [] = [] := rfl

/-- One step more. -/
theorem trace_concat {E : Type*} (f : S → A → List E) {s s' : S} {as : List A}
    (h : M.exec s as = some s') (a : A) : M.trace f s (as ++ [a]) = M.trace f s as ++ f s' a := by
  induction as generalizing s with
  | nil =>
      obtain rfl := Option.some.inj h
      simp only [trace, List.nil_append]
      cases M.step s a <;> exact List.append_nil _
  | cons b as ih =>
      obtain ⟨s₁, hstep, h⟩ := Option.bind_eq_some_iff.mp h
      rw [List.cons_append, trace, trace, hstep, Option.elim_some, Option.elim_some, ih h,
        List.append_assoc]

/-- What can be observed of two runs, one after the other. -/
theorem trace_append {E : Type*} (f : S → A → List E) {s s' : S} {as : List A}
    (h : M.exec s as = some s') (bs : List A) :
    M.trace f s (as ++ bs) = M.trace f s as ++ M.trace f s' bs := by
  induction as generalizing s with
  | nil =>
      obtain rfl := Option.some.inj h
      rfl
  | cons a as ih =>
      obtain ⟨s₁, hstep, h⟩ := Option.bind_eq_some_iff.mp h
      rw [List.cons_append, trace, trace, hstep, Option.elim_some, Option.elim_some, ih h,
        List.append_assoc]

/-- The runs of a system that has fewer steps are runs. -/
theorem exec_of_step {N : Guarded S A} (hstep : ∀ s a s', N.step s a = some s' → M.step s a = some s')
    {s s' : S} {as : List A} (h : N.exec s as = some s') : M.exec s as = some s' := by
  induction as generalizing s with
  | nil => exact h
  | cons a as ih =>
      obtain ⟨s₁, hs₁, h⟩ := Option.bind_eq_some_iff.mp h
      rw [exec_cons, hstep s a s₁ hs₁]
      exact ih h

/-- Two states that can follow each other's steps can follow each other's runs. -/
theorem exec_simulates {R : S → S → Prop}
    (hstep : ∀ s t a s', R s t → M.step s a = some s' → ∃ t', M.step t a = some t' ∧ R s' t')
    {s t : S} (h : R s t) {as : List A} {s' : S} (hs : M.exec s as = some s') :
    ∃ t', M.exec t as = some t' ∧ R s' t' := by
  induction as generalizing s t with
  | nil =>
      obtain rfl := Option.some.inj hs
      exact ⟨t, rfl, h⟩
  | cons a as ih =>
      obtain ⟨s₁, hs₁, hs'⟩ := Option.bind_eq_some_iff.mp hs
      obtain ⟨t₁, ht₁, h₁⟩ := hstep s t a s₁ h hs₁
      obtain ⟨t', ht', h'⟩ := ih h₁ hs'
      exact ⟨t', by rw [exec_cons, ht₁]; exact ht', h'⟩

/-- Where each step is matched by a run that looks the same from outside, each run is. -/
theorem trace_simulates {T B E : Type*} {N : Guarded T B} {f : S → A → List E}
    {g : T → B → List E} {R : S → T → Prop}
    (hstep : ∀ s t a s', R s t → M.step s a = some s' →
      ∃ bs t', N.exec t bs = some t' ∧ N.trace g t bs = f s a ∧ R s' t')
    {s : S} {t : T} (h : R s t) {as : List A} {s' : S} (hs : M.exec s as = some s') :
    ∃ bs t', N.exec t bs = some t' ∧ N.trace g t bs = M.trace f s as ∧ R s' t' := by
  induction as generalizing s t with
  | nil =>
      obtain rfl := Option.some.inj hs
      exact ⟨[], t, rfl, rfl, h⟩
  | cons a as ih =>
      obtain ⟨s₁, hs₁, hs'⟩ := Option.bind_eq_some_iff.mp hs
      obtain ⟨bs, t₁, ht₁, htr, h₁⟩ := hstep s t a s₁ h hs₁
      obtain ⟨cs, t', ht', htr', h'⟩ := ih h₁ hs'
      refine ⟨bs ++ cs, t', ?_, ?_, h'⟩
      · rw [exec_append, ht₁]
        exact ht'
      · rw [trace_append g ht₁, htr, htr', trace, hs₁, Option.elim_some]

namespace Reaches

theorem refl (s : S) : M.Reaches s s := ⟨[], rfl⟩

theorem trans {s₁ s₂ s₃ : S} (h₁ : M.Reaches s₁ s₂) (h₂ : M.Reaches s₂ s₃) :
    M.Reaches s₁ s₃ := by
  obtain ⟨as, has⟩ := h₁
  obtain ⟨bs, hbs⟩ := h₂
  exact ⟨as ++ bs, by rw [exec_append, has]; exact hbs⟩

theorem single {s s' : S} {a : A} (h : M.step s a = some s') : M.Reaches s s' :=
  ⟨[a], by rw [exec_cons, h]; rfl⟩

theorem head {s s₁ s' : S} {a : A} (h : M.step s a = some s₁) (h' : M.Reaches s₁ s') :
    M.Reaches s s' := (single h).trans h'

theorem tail {s s₁ s' : S} {a : A} (h : M.Reaches s s₁) (h' : M.step s₁ a = some s') :
    M.Reaches s s' := h.trans (single h')

/-- What holds of a state and is kept by every step holds of all it reaches. -/
theorem invariant {I : S → Prop} (hstep : ∀ s a s', I s → M.step s a = some s' → I s')
    {s s' : S} (h : M.Reaches s s') (h₀ : I s) : I s' := by
  obtain ⟨as, has⟩ := h
  exact exec_induction (P := fun _ s' => I s') h₀
    (fun _ s₁ a s₂ _ h₁ h₂ => hstep s₁ a s₂ h₁ h₂) has

end Reaches

/-- Runs of actions that all lower a rank are not longer than it is high. -/
theorem length_le_of_rank (C : A → Prop) (rank : S → ℕ)
    (hrank : ∀ s a s', C a → M.step s a = some s' → rank s' < rank s) {s s' : S} {as : List A}
    (hs : M.exec s as = some s') (has : ∀ a ∈ as, C a) : as.length + rank s' ≤ rank s := by
  induction as generalizing s with
  | nil =>
      obtain rfl := Option.some.inj hs
      exact Nat.le_of_eq (Nat.zero_add _)
  | cons a as ih =>
      obtain ⟨s₁, hs₁, hs'⟩ := Option.bind_eq_some_iff.mp hs
      have hlt := hrank s a s₁ (has a List.mem_cons_self) hs₁
      have hle := ih hs' fun b hb => has b (List.mem_cons_of_mem _ hb)
      rw [List.length_cons]
      omega

/-- If every action of a class lowers a rank, the class alone leads from any state
to one in which it has no enabled action. -/
theorem exists_stuck_of_rank (C : A → Prop) (I : S → Prop) (rank : S → ℕ)
    (hI : ∀ s a s', I s → C a → M.step s a = some s' → I s')
    (hrank : ∀ s a s', I s → C a → M.step s a = some s' → rank s' < rank s) :
    ∀ s, I s → ∃ s', M.Reaches s s' ∧ I s' ∧ ∀ a, C a → ¬ M.Enabled s' a := by
  intro s
  induction hn : rank s using Nat.strong_induction_on generalizing s with
  | _ n ih =>
    intro hs
    by_cases hst : ∃ a, C a ∧ M.Enabled s a
    · obtain ⟨a, ha, hen⟩ := hst
      obtain ⟨s₁, hs₁⟩ := Option.isSome_iff_exists.mp hen
      have hlt : rank s₁ < n := hn ▸ hrank s a s₁ hs ha hs₁
      obtain ⟨s', hr, hI', hstuck⟩ := ih _ hlt s₁ rfl (hI s a s₁ hs ha hs₁)
      exact ⟨s', hr.head hs₁, hI', hstuck⟩
    · refine ⟨s, Reaches.refl s, hs, ?_⟩
      intro a ha hen
      exact hst ⟨a, ha, hen⟩

end Guarded
