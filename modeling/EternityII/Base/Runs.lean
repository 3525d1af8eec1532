-- SUMMARY: Runs of a system with labelled steps, and invariants along them.
import Mathlib.Data.Option.Basic
import Mathlib.Tactic.Common

/-!
# Runs

A system is a partial step function on states and labels. A run is a sequence of steps that
all satisfy a condition on the state and the label; with the trivial condition the runs from
the initial states give the reachable states.
-/

variable {σ α : Type*} {step : σ → α → Option σ} {ok ok' : σ → α → Prop} {s t u : σ}

/-- The states that steps satisfying `ok` reach from `s`. -/
inductive Run (step : σ → α → Option σ) (ok : σ → α → Prop) (s : σ) : σ → Prop
  | refl : Run step ok s s
  | tail {t u : σ} {a : α} (run : Run step ok s t) (allowed : ok t a) (next : step t a = some u) :
      Run step ok s u

namespace Run

/-- A predicate that holds at the start and is kept by every allowed step holds along the run. -/
theorem invariant {I : σ → Prop} (hrun : Run step ok s t) (hinit : I s)
    (hstep : ∀ {t a u}, I t → ok t a → step t a = some u → I u) : I t := by
  induction hrun with
  | refl => exact hinit
  | tail _ allowed next ih => exact hstep ih allowed next

theorem trans (hrun : Run step ok s t) (hrun' : Run step ok t u) : Run step ok s u := by
  induction hrun' with
  | refl => exact hrun
  | tail _ allowed next ih => exact .tail ih allowed next

/-- Take the steps of a list one after the other. -/
def exec (step : σ → α → Option σ) : σ → List α → Option σ
  | s, [] => some s
  | s, a :: as => (step s a).bind fun t => exec step t as

/-- The steps of a list are a run when every label is allowed in every state. -/
theorem of_exec {as : List α} (hok : ∀ a ∈ as, ∀ t, ok t a) (h : exec step s as = some t) :
    Run step ok s t := by
  induction as generalizing s with
  | nil =>
    cases Option.some.inj h
    exact .refl
  | cons a as ih =>
    obtain ⟨t', hnext, hrest⟩ := Option.bind_eq_some_iff.mp h
    have hfirst : Run step ok s t' := .tail .refl (hok a (List.mem_cons_self ..) s) hnext
    exact hfirst.trans (ih (fun b hb => hok b (List.mem_cons_of_mem a hb)) hrest)

/-- The steps that a test lets through. -/
def guarded (test : σ → α → Bool) (step : σ → α → Option σ) (s : σ) (a : α) : Option σ :=
  if test s a then step s a else none

/-- The steps of a list are a run when each of them passes a test for being allowed. -/
theorem of_exec_guarded {test : σ → α → Bool} {as : List α} (hok : ∀ s a, test s a = true → ok s a)
    (h : exec (guarded test step) s as = some t) : Run step ok s t := by
  induction as generalizing s with
  | nil =>
    cases Option.some.inj h
    exact .refl
  | cons a as ih =>
    obtain ⟨t', hnext, hrest⟩ := Option.bind_eq_some_iff.mp h
    obtain ⟨htest, hstep⟩ := Option.ite_none_right_eq_some.mp hnext
    have hfirst : Run step ok s t' := .tail .refl (hok s a htest) hstep
    exact hfirst.trans (ih hrest)

end Run
