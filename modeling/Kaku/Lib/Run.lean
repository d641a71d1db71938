-- SUMMARY: Finite runs of a labelled transition relation, and the invariant rules over them.
import Mathlib.Data.List.Induction
import Mathlib.Logic.Basic

/-!
# Runs

A transition relation `R : σ → ε → σ → Prop` takes a state and an event to a
next state. `Run R s es t` says that the events `es`, in order, take `s` to `t`.
A restriction on the steps of a run (a condition every step has to meet) is a
restriction of `R`, so that one induction principle serves all of them.
-/

namespace Kaku

/-- The events `es`, in order, take the first state to the last one. -/
inductive Run {σ ε : Type*} (R : σ → ε → σ → Prop) : σ → List ε → σ → Prop
  | refl (s : σ) : Run R s [] s
  | snoc {s t u : σ} {es : List ε} {e : ε} :
      Run R s es t → R t e u → Run R s (es ++ [e]) u

namespace Run

variable {σ ε : Type*} {R S : σ → ε → σ → Prop} {s t u : σ} {es fs : List ε} {e : ε}

theorem single (h : R s e t) : Run R s [e] t := by
  simpa using Run.snoc (.refl s) h

theorem eq_of_nil (h : Run R s es t) (hes : es = []) : s = t := by
  cases h with
  | refl => rfl
  | snoc hrest hstep => simp at hes

/-- A run of one event is a step. -/
theorem of_single (h : Run R s [e] t) : R s e t := by
  generalize hes : [e] = events at h
  cases h with
  | refl => cases hes
  | @snoc u w before e' hrest hstep =>
    obtain ⟨hnil, hlast⟩ : before = [] ∧ e' = e := by
      simpa [eq_comm] using List.append_eq_singleton_iff.1 hes.symm
    rw [hrest.eq_of_nil hnil, ← hlast]
    exact hstep

theorem trans (hst : Run R s es t) (htu : Run R t fs u) : Run R s (es ++ fs) u := by
  induction htu with
  | refl => simpa using hst
  | snoc _ hstep ih =>
    rw [← List.append_assoc]
    exact .snoc ih hstep

theorem of_snoc (h : Run R s (es ++ [e]) u) : ∃ t, Run R s es t ∧ R t e u := by
  generalize hes : es ++ [e] = events at h
  cases h with
  | refl => simp at hes
  | @snoc t w before e' hrest hstep =>
    obtain ⟨rfl, hlast⟩ := List.append_inj' hes rfl
    cases hlast
    exact ⟨t, hrest, hstep⟩

/-- A run of two lists of events goes through a state between them. -/
theorem of_append (h : Run R s (es ++ fs) u) : ∃ t, Run R s es t ∧ Run R t fs u := by
  induction fs using List.reverseRecOn generalizing u with
  | nil => exact ⟨u, by simpa using h, .refl u⟩
  | append_singleton fs e ih =>
    rw [← List.append_assoc] at h
    obtain ⟨w, hrest, hstep⟩ := of_snoc h
    obtain ⟨t, hfirst, hsecond⟩ := ih hrest
    exact ⟨t, hfirst, hsecond.snoc hstep⟩

theorem cons (h : R s e t) (htu : Run R t fs u) : Run R s (e :: fs) u :=
  (single h).trans htu

theorem of_cons (h : Run R s (e :: fs) u) : ∃ t, R s e t ∧ Run R t fs u := by
  obtain ⟨t, hfirst, hrest⟩ : ∃ t, Run R s [e] t ∧ Run R t fs u := of_append h
  exact ⟨t, hfirst.of_single, hrest⟩

/-- What every step preserves, every run preserves. -/
theorem invariant {I : σ → Prop} (hstep : ∀ s e t, R s e t → I s → I t)
    (h : Run R s es t) (hs : I s) : I t := by
  induction h with
  | refl => exact hs
  | snoc _ hst ih => exact hstep _ _ _ hst ih

theorem mono (h : Run R s es t) (hRS : ∀ s e t, R s e t → S s e t) : Run S s es t := by
  induction h with
  | refl => exact .refl _
  | snoc _ hstep ih => exact .snoc ih (hRS _ _ _ hstep)

/-- What every step says of its event holds of all events of a run. -/
theorem forall_mem {P : ε → Prop} (hP : ∀ s e t, R s e t → P e) (h : Run R s es t) :
    ∀ e ∈ es, P e := by
  induction h with
  | refl => exact List.forall_mem_nil P
  | snoc _ hstep ih =>
    exact List.forall_mem_append.2 ⟨ih, List.forall_mem_singleton.2 (hP _ _ _ hstep)⟩

/-- The steps of a run start where the invariant holds. -/
theorem with_invariant {I : σ → Prop} (hstep : ∀ s e t, R s e t → I s → I t)
    (h : Run R s es t) (hs : I s) : Run (fun s e t => I s ∧ R s e t) s es t := by
  induction h with
  | refl => exact .refl _
  | snoc hrun hst ih => exact .snoc ih ⟨hrun.invariant hstep hs, hst⟩

/-- What every step preserves in states that satisfy an established invariant
`J`, every run preserves. -/
theorem invariant_of {I J : σ → Prop} (hJ : ∀ s e t, R s e t → J s → J t)
    (hI : ∀ s e t, R s e t → J s → I s → I t)
    (h : Run R s es t) (hJs : J s) (hIs : I s) : I t :=
  (invariant (I := fun s => J s ∧ I s)
    (fun _ _ _ hst hs => ⟨hJ _ _ _ hst hs.1, hI _ _ _ hst hs.1 hs.2⟩) h ⟨hJs, hIs⟩).2

end Run

/-! ## Runs of a step function -/

section StepFunction

variable {σ ε φ : Type*}

/-- The transitions of a step function that can fail, restricted to the steps
that meet the condition `C`. -/
def Guarded (C : σ → ε → Prop) (step : σ → ε → Except φ σ) (s : σ) (e : ε) (t : σ) : Prop :=
  C s e ∧ step s e = .ok t

/-- Execute a list of events, as long as every step meets the condition. -/
def execAll (C : σ → ε → Prop) [∀ s e, Decidable (C s e)] (step : σ → ε → Except φ σ) :
    σ → List ε → Option σ
  | s, [] => some s
  | s, e :: es =>
    if C s e then
      match step s e with
      | .ok t => execAll C step t es
      | .error _ => none
    else none

/-- An execution that succeeds is a run. -/
theorem run_of_execAll {C : σ → ε → Prop} [∀ s e, Decidable (C s e)]
    {step : σ → ε → Except φ σ} {es : List ε} {s t : σ}
    (h : execAll C step s es = some t) : Run (Guarded C step) s es t := by
  induction es generalizing s with
  | nil =>
    simp only [execAll, Option.some.injEq] at h
    subst h
    exact .refl s
  | cons e es ih =>
    simp only [execAll] at h
    split at h
    · rename_i hC
      split at h
      · rename_i u hu
        exact .cons ⟨hC, hu⟩ (ih h)
      · cases h
    · cases h

/-- A run that ends in a state with the decidable property `p`, by evaluation. -/
theorem exists_run_of_execAll {C : σ → ε → Prop} [∀ s e, Decidable (C s e)]
    {step : σ → ε → Except φ σ} {es : List ε} {s : σ} {p : σ → Bool}
    (h : (execAll C step s es).any p = true) :
    ∃ t, Run (Guarded C step) s es t ∧ p t = true := by
  cases ht : execAll C step s es with
  | none => simp [ht] at h
  | some t => exact ⟨t, run_of_execAll ht, by simpa [ht] using h⟩

end StepFunction

end Kaku
