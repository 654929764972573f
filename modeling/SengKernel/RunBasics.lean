import Mathlib

/- Finite runs of a labelled transition relation, their invariants, and runs
   computed from a partial step function. -/
namespace Transition

variable {σ τ α : Type*}

/-- `Run Step s as t`: the labels `as`, taken in order from `s`, lead to `t`. -/
inductive Run (Step : σ → α → σ → Prop) : σ → List α → σ → Prop
  | nil (s : σ) : Run Step s [] s
  | cons {s t u : σ} {a : α} {as : List α} : Step s a t → Run Step t as u → Run Step s (a :: as) u

/-- The same relation restricted to the steps that meet a condition on the
state before the step and its label. -/
def When (ok : σ → α → Prop) (Step : σ → α → σ → Prop) : σ → α → σ → Prop :=
  fun s a t => ok s a ∧ Step s a t

def Reachable (Step : σ → α → σ → Prop) (init s : σ) : Prop := ∃ as, Run Step init as s

theorem Run.append {Step : σ → α → σ → Prop} {s t u : σ} {as bs : List α}
    (h : Run Step s as t) (k : Run Step t bs u) : Run Step s (as ++ bs) u := by
  induction h with
  | nil => exact k
  | cons step _ ih => exact .cons step (ih k)

/-- What one step preserves, a whole run preserves. -/
theorem Run.invariant {Step : σ → α → σ → Prop} {I : σ → Prop}
    (hstep : ∀ s a t, I s → Step s a t → I t) {s t : σ} {as : List α}
    (h : Run Step s as t) (hs : I s) : I t := by
  induction h with
  | nil => exact hs
  | cons step _ ih => exact ih (hstep _ _ _ hs step)

theorem Run.mono {Step Step' : σ → α → σ → Prop} (hsub : ∀ s a t, Step s a t → Step' s a t)
    {s t : σ} {as : List α} (h : Run Step s as t) : Run Step' s as t := by
  induction h with
  | nil => exact .nil _
  | cons step _ ih => exact .cons (hsub _ _ _ step) ih

theorem Run.of_when {ok : σ → α → Prop} {Step : σ → α → σ → Prop} {s t : σ} {as : List α}
    (h : Run (When ok Step) s as t) : Run Step s as t :=
  h.mono (fun _ _ _ step => step.2)

/-- What an invariant says of every step can be asked of every step. -/
theorem Run.when_of_invariant {ok ok' : σ → α → Prop} {Step : σ → α → σ → Prop} {I : σ → Prop}
    (hstep : ∀ s a t, I s → ok s a → Step s a t → I t) (hok : ∀ s a, I s → ok s a → ok' s a)
    {s t : σ} {as : List α} (h : Run (When ok Step) s as t) (hI : I s) : Run (When ok' Step) s as t := by
  induction h with
  | nil => exact .nil _
  | cons step _ ih => exact .cons ⟨hok _ _ hI step.1, step.2⟩ (ih (hstep _ _ _ hI step.1 step.2))

/-- A relation that every step carries along is carried along by every run. -/
theorem Run.simulation {β : Type*} {Step : σ → α → σ → Prop} {Step' : τ → β → τ → Prop}
    {R : σ → τ → Prop} (f : α → β)
    (hsim : ∀ s a t u, R s u → Step s a t → ∃ v, Step' u (f a) v ∧ R t v)
    {s t : σ} {u : τ} {as : List α} (h : Run Step s as t) (hR : R s u) :
    ∃ v, Run Step' u (as.map f) v ∧ R t v := by
  induction h generalizing u with
  | nil => exact ⟨u, .nil u, hR⟩
  | cons step _ ih =>
      obtain ⟨w, step', hw⟩ := hsim _ _ _ _ hR step
      obtain ⟨v, run', hv⟩ := ih hw
      exact ⟨v, .cons step' run', hv⟩

/-- The same where one step may take the other machine any number of steps, with what is
seen of both. -/
theorem Run.simulation_runs {β γ : Type*} {Step : σ → α → σ → Prop} {Step' : τ → β → τ → Prop} {R : σ → τ → Prop}
    (f : α → List γ) (g : β → List γ)
    (hsim : ∀ s a t u, R s u → Step s a t → ∃ bs v, Run Step' u bs v ∧ bs.flatMap g = f a ∧ R t v)
    {s t : σ} {u : τ} {as : List α} (h : Run Step s as t) (hR : R s u) :
    ∃ bs v, Run Step' u bs v ∧ bs.flatMap g = as.flatMap f ∧ R t v := by
  induction h generalizing u with
  | nil => exact ⟨[], u, .nil u, rfl, hR⟩
  | cons step _ ih =>
      obtain ⟨bs, w, hfirst, hbs, hw⟩ := hsim _ _ _ _ hR step
      obtain ⟨cs, v, hrest, hcs, hv⟩ := ih hw
      exact ⟨bs ++ cs, v, hfirst.append hrest, by rw [List.flatMap_append, hbs, hcs, List.flatMap_cons], hv⟩

/-- The run of a total step function. -/
theorem run_foldl (f : σ → α → σ) (s : σ) (as : List α) : Run (fun s a t => f s a = t) s as (as.foldl f s) := by
  induction as generalizing s with
  | nil => exact .nil s
  | cons a as ih => exact .cons rfl (ih (f s a))

/-- The run of a partial step function; `none` when some label is not possible. -/
def execute (step : σ → α → Option σ) : σ → List α → Option σ
  | s, [] => some s
  | s, a :: as => match step s a with
      | none => none
      | some t => execute step t as

/-- The same for the steps that meet a decidable condition. -/
def guarded (ok : σ → α → Prop) [∀ s a, Decidable (ok s a)] (step : σ → α → Option σ) (s : σ) (a : α) :
    Option σ := if ok s a then step s a else none

theorem run_of_execute {step : σ → α → Option σ} {s t : σ} {as : List α}
    (h : execute step s as = some t) : Run (fun s a t => step s a = some t) s as t := by
  induction as generalizing s with
  | nil => cases h; exact .nil _
  | cons a as ih =>
      simp only [execute] at h
      split at h
      · cases h
      · rename_i u hu
        exact .cons hu (ih h)

theorem run_of_execute_guarded {ok : σ → α → Prop} [∀ s a, Decidable (ok s a)] {step : σ → α → Option σ}
    {s t : σ} {as : List α} (h : execute (guarded ok step) s as = some t) :
    Run (When ok (fun s a t => step s a = some t)) s as t := by
  refine (run_of_execute h).mono (fun s a t hstep => ?_)
  unfold guarded at hstep
  split at hstep
  · rename_i hok
    exact ⟨hok, hstep⟩
  · cases hstep

end Transition
