import Mathlib.Data.List.Induction
import Mathlib.Logic.Function.Basic

/-!
# Runs of labelled transition systems

A system is a partial step function `step : σ → α → Option σ`: `step s a` is
the state after action `a`, if `a` is enabled in `s`. `run` executes a list of
actions; `Runs ok s as s'` is the same as a relation, with a condition `ok` on
every step, so that an induction goes from the start of the run.

* `Runs.inv`, `Reachable.inv`: an invariant, from what one step keeps.
* `Runs.inv_countP_le`, `Runs.length_add_le`: a bound on the steps, from a number that they lower.
* `runs_iff_inv`: the exact condition on the steps under which an invariant
  holds all along a run.
* `run_filter`: two runs, one of them without the actions that `keep`
  excludes, stay related (the unwinding rule of a noninterference proof).
-/

namespace BlindBoard.Lib

section Run

variable {σ α : Type*} (step : σ → α → Option σ)

/-- The state after the actions `as`, if each is enabled in its turn. -/
def run : σ → List α → Option σ
  | s, [] => some s
  | s, a :: as => (step s a).bind fun s' => run s' as

/-- The actions `as` lead from `s` to the given state, each step of them
meeting `ok`. -/
inductive Runs (ok : σ → α → Prop) (s : σ) : List α → σ → Prop
  | nil : Runs ok s [] s
  | snoc {as s₁ a s₂} : Runs ok s as s₁ → ok s₁ a → step s₁ a = some s₂ → Runs ok s (as ++ [a]) s₂

/-- The states reached from a start state by steps that meet `ok`. -/
def Reachable (start : σ → Prop) (ok : σ → α → Prop) (s : σ) : Prop :=
  ∃ s₀ as, start s₀ ∧ Runs step ok s₀ as s

/-- No condition on the steps. -/
abbrev anyStep : σ → α → Prop := fun _ _ => True

variable {step}

@[simp] theorem run_nil (s : σ) : run step s [] = some s := rfl

@[simp] theorem run_cons (s : σ) (a : α) (as : List α) :
    run step s (a :: as) = (step s a).bind fun s' => run step s' as := rfl

theorem run_append (s : σ) (as bs : List α) :
    run step s (as ++ bs) = (run step s as).bind fun s' => run step s' bs := by
  induction as generalizing s with
  | nil => rfl
  | cons a as ih => cases h : step s a <;> simp [h, ih]

theorem Runs.run_eq {ok : σ → α → Prop} {s s' : σ} {as : List α} (h : Runs step ok s as s') :
    run step s as = some s' := by
  induction h with
  | nil => rfl
  | snoc _ _ hs ih => rw [run_append, ih]; simp [hs]

theorem runs_of_run {s s' : σ} {as : List α} (h : run step s as = some s') :
    Runs step anyStep s as s' := by
  induction as using List.reverseRecOn generalizing s' with
  | nil => cases h; exact .nil
  | append_singleton as a ih =>
    rw [run_append, Option.bind_eq_some_iff] at h
    obtain ⟨s₁, h₁, h₂⟩ := h
    exact .snoc (ih h₁) trivial (by simpa using h₂)

/-- A closed run, with what its last state is to meet. -/
theorem exists_run {s : σ} {as : List α} {P : σ → Prop} [DecidablePred P]
    (h : (run step s as).any (fun s' => P s') = true) : ∃ s', run step s as = some s' ∧ P s' := by
  obtain ⟨s', hs, hP⟩ := (Option.any_eq_true _ _).mp h
  exact ⟨s', hs, of_decide_eq_true hP⟩

/-- The steps that meet `ok`. -/
def guarded (step : σ → α → Option σ) (ok : σ → α → Prop) [∀ s, DecidablePred (ok s)]
    (s : σ) (a : α) : Option σ :=
  if ok s a then step s a else none

/-- A run of the guarded steps is a run that meets the guard. -/
theorem runs_of_run_guarded {ok : σ → α → Prop} [∀ s, DecidablePred (ok s)] {s s' : σ} {as : List α}
    (h : run (guarded step ok) s as = some s') : Runs step ok s as s' := by
  induction runs_of_run h with
  | nil => exact .nil
  | snoc _ _ hs ih =>
    obtain ⟨ho, hs⟩ := Option.ite_none_right_eq_some.mp hs
    exact .snoc (ih (Runs.run_eq ‹_›)) ho hs

/-- A run all of whose steps pass the check meets it. -/
theorem runs_of_guarded {ok : σ → α → Prop} [∀ s, DecidablePred (ok s)] {s s' : σ} {as : List α}
    (h : run step s as = some s') (hg : (run (guarded step ok) s as).isSome = true) :
    Runs step ok s as s' := by
  obtain ⟨s₁, hs⟩ := Option.isSome_iff_exists.mp hg
  have hr : Runs step ok s as s₁ := runs_of_run_guarded hs
  cases hr.run_eq.symm.trans h
  exact hr

/-- A closed run, with what its steps and its last state are to meet. -/
theorem exists_runs {ok : σ → α → Prop} [∀ s, DecidablePred (ok s)] {s : σ} {as : List α} {P : σ → Prop}
    [DecidablePred P] (h : (run (guarded step ok) s as).any (fun s' => P s') = true) :
    ∃ s', Runs step ok s as s' ∧ P s' := by
  obtain ⟨s', hs, hP⟩ := exists_run h
  exact ⟨s', runs_of_run_guarded hs, hP⟩

/-- The end of a run that is known to end well. -/
theorem get_of_exists_runs {ok : σ → α → Prop} {s : σ} {as : List α} {P : σ → Prop}
    (h : ∃ s', Runs step ok s as s' ∧ P s') (hr : (run step s as).isSome = true) :
    Runs step ok s as ((run step s as).get hr) ∧ P ((run step s as).get hr) := by
  obtain ⟨s', hs, hP⟩ := h
  have he : (run step s as).get hr = s' := Option.get_of_eq_some hr hs.run_eq
  rw [he]
  exact ⟨hs, hP⟩

theorem isSome_of_exists_runs {ok : σ → α → Prop} {s : σ} {as : List α} {P : σ → Prop}
    (h : ∃ s', Runs step ok s as s' ∧ P s') : (run step s as).isSome = true := by
  obtain ⟨s', hs, -⟩ := h
  rw [hs.run_eq]
  rfl

theorem Runs.mono {ok ok' : σ → α → Prop} (hok : ∀ s a, ok s a → ok' s a) {s s' : σ} {as : List α}
    (h : Runs step ok s as s') : Runs step ok' s as s' := by
  induction h with
  | nil => exact .nil
  | snoc _ ho hs ih => exact .snoc ih (hok _ _ ho) hs

theorem Runs.trans {ok : σ → α → Prop} {s s₁ s₂ : σ} {as bs : List α} (h₁ : Runs step ok s as s₁)
    (h₂ : Runs step ok s₁ bs s₂) : Runs step ok s (as ++ bs) s₂ := by
  induction h₂ with
  | nil => rwa [List.append_nil]
  | snoc _ ho hs ih => rw [← List.append_assoc]; exact .snoc ih ho hs

/-- What every step keeps, a run keeps. -/
theorem Runs.inv {ok : σ → α → Prop} {I : σ → Prop}
    (hstep : ∀ s a s', I s → ok s a → step s a = some s' → I s') {s s' : σ} {as : List α}
    (h : Runs step ok s as s') (h₀ : I s) : I s' := by
  induction h with
  | nil => exact h₀
  | snoc _ ho hs ih => exact hstep _ _ _ ih ho hs

/-- If every step keeps `I` and does not raise `μ`, and those that `p` counts lower it,
a run has no more of these than `μ` was at its start. -/
theorem Runs.inv_countP_le {ok : σ → α → Prop} {I : σ → Prop} {μ : σ → ℕ} {p : α → Bool}
    (hstep : ∀ s a s', I s → ok s a → step s a = some s' → I s' ∧ μ s' + (if p a then 1 else 0) ≤ μ s)
    {s s' : σ}
    {as : List α} (h : Runs step ok s as s') (h₀ : I s) : I s' ∧ as.countP p + μ s' ≤ μ s := by
  induction h with
  | nil => exact ⟨h₀, by simp⟩
  | snoc _ ho hs ih =>
    obtain ⟨hI, hle⟩ := hstep _ _ _ ih.1 ho hs
    refine ⟨hI, ?_⟩
    have := ih.2
    rw [List.countP_append, List.countP_singleton]
    omega

/-- If each step lowers `μ`, a run has no more steps than `μ` was at its start. -/
theorem Runs.length_add_le {ok : σ → α → Prop} {μ : σ → ℕ}
    (hstep : ∀ s a s', ok s a → step s a = some s' → μ s' < μ s) {s s' : σ} {as : List α}
    (h : Runs step ok s as s') : as.length + μ s' ≤ μ s := by
  have hc := h.inv_countP_le (I := fun _ => True) (p := fun _ => true)
    (fun s a s' _ ho hs => ⟨trivial, hstep s a s' ho hs⟩) trivial
  simpa using hc

/-- If a step from a state with `I` keeps `I` exactly when it meets `ok`, then
`I` holds all along a run exactly when all its steps meet `ok`. -/
theorem runs_iff_inv {ok : σ → α → Prop} {I : σ → Prop}
    (hiff : ∀ s a s', I s → step s a = some s' → (I s' ↔ ok s a)) {s s' : σ} {as : List α} (h₀ : I s)
    (h : run step s as = some s') :
    (∀ bs s₁, bs <+: as → run step s bs = some s₁ → I s₁) ↔ Runs step ok s as s' := by
  constructor
  · intro hI
    have hr := runs_of_run h
    clear h
    induction hr with
    | nil => exact .nil
    | snoc hr _ hs ih =>
      have h₁ := ih fun bs s₁ hb => hI bs s₁ (hb.trans (List.prefix_append _ _))
      have hr' : run step s (_ ++ [_]) = some _ := (hr.snoc trivial hs).run_eq
      exact .snoc h₁ ((hiff _ _ _ (hI _ _ (List.prefix_append _ _) hr.run_eq) hs).mp
        (hI _ _ List.prefix_rfl hr')) hs
  · intro hr
    clear h
    induction hr with
    | nil =>
      intro bs s₁ hb hs
      rw [List.prefix_nil.mp hb] at hs
      cases hs
      exact h₀
    | snoc hr ho hst ih =>
      intro bs s₁ hb hs
      rcases List.prefix_concat_iff.mp hb with rfl | hb
      · cases hs.symm.trans (hr.snoc ho hst).run_eq
        exact (hiff _ _ _ (ih _ _ List.prefix_rfl hr.run_eq) hst).mpr ho
      · exact ih bs s₁ hb hs

theorem Reachable.snoc {start : σ → Prop} {ok : σ → α → Prop} {s s' : σ} {a : α}
    (h : Reachable step start ok s) (ho : ok s a) (hs : step s a = some s') :
    Reachable step start ok s' := by
  obtain ⟨s₀, as, h₀, hr⟩ := h
  exact ⟨s₀, as ++ [a], h₀, .snoc hr ho hs⟩

theorem Reachable.runs {start : σ → Prop} {ok : σ → α → Prop} {s s' : σ} {as : List α}
    (h : Reachable step start ok s) (hr : Runs step ok s as s') : Reachable step start ok s' := by
  obtain ⟨s₀, bs, h₀, hs⟩ := h
  exact ⟨s₀, bs ++ as, h₀, hs.trans hr⟩

theorem Reachable.mono {start : σ → Prop} {ok ok' : σ → α → Prop} (hok : ∀ s a, ok s a → ok' s a)
    {s : σ} (h : Reachable step start ok s) : Reachable step start ok' s := by
  obtain ⟨s₀, as, h₀, hr⟩ := h
  exact ⟨s₀, as, h₀, hr.mono hok⟩

/-- An invariant of the start states that every step from a reachable state
keeps holds in every reachable state. -/
theorem Reachable.inv {start : σ → Prop} {ok : σ → α → Prop} {I : σ → Prop} (h₀ : ∀ s, start s → I s)
    (hstep : ∀ s a s', Reachable step start ok s → I s → ok s a → step s a = some s' → I s')
    {s : σ} (h : Reachable step start ok s) : I s := by
  obtain ⟨s₀, as, hs, hr⟩ := h
  induction hr with
  | nil => exact h₀ _ hs
  | snoc hr ho hst ih => exact hstep _ _ _ ⟨_, _, hs, hr⟩ ih ho hst

/-- Erasing actions: if a kept action keeps `R` between two states in which it
is taken on both sides, and any other action keeps `R` when only the left side
takes it, then a run is related to the run of its kept actions. -/
theorem run_filter {R : σ → σ → Prop} {keep : α → Bool}
    (hkeep : ∀ s t a s', R s t → keep a = true → step s a = some s' → ∃ t', step t a = some t' ∧ R s' t')
    (hdrop : ∀ s t a s', R s t → keep a = false → step s a = some s' → R s' t) {s t s' : σ} {as : List α}
    (hR : R s t) (h : run step s as = some s') :
    ∃ t', run step t (as.filter keep) = some t' ∧ R s' t' := by
  induction as generalizing s t with
  | nil => cases h; exact ⟨t, rfl, hR⟩
  | cons a as ih =>
    rw [run_cons, Option.bind_eq_some_iff] at h
    obtain ⟨s₁, h₁, h₂⟩ := h
    cases hk : keep a with
    | true =>
      obtain ⟨t₁, ht, hR₁⟩ := hkeep s t a s₁ hR hk h₁
      obtain ⟨t', hr, hR'⟩ := ih hR₁ h₂
      exact ⟨t', by simp [List.filter_cons_of_pos hk, ht, hr], hR'⟩
    | false =>
      obtain ⟨t', hr, hR'⟩ := ih (hdrop s t a s₁ hR hk h₁) h₂
      exact ⟨t', by rw [List.filter_cons_of_neg (by simp [hk])]; exact hr, hR'⟩

end Run

end BlindBoard.Lib
