/-
# Runs of an event machine

A machine is a step function `step : σ → ε → σ`; an event carries whatever the
scheduler or the environment chooses, so a run is a list of events.  This file
holds the rules every concurrent component below is proved with: an invariant is
established once for one step and then holds along every run, also when only the
steps that meet a side condition are allowed.
-/
import Mathlib.Order.Basic
import Mathlib.Data.List.Basic

namespace Machine

variable {σ ε α : Type*} (step : σ → ε → σ)

/-- The state reached from `s` by the events `es`, first event first. -/
def run (s : σ) (es : List ε) : σ := es.foldl step s

@[simp] theorem run_nil (s : σ) : run step s [] = s := rfl

@[simp] theorem run_cons (s : σ) (e : ε) (es : List ε) :
    run step s (e :: es) = run step (step s e) es := rfl

/-- Two runs in a row. -/
theorem run_append (s : σ) (es fs : List ε) :
    run step s (es ++ fs) = run step (run step s es) fs := by
  simp [run]

@[simp] theorem run_concat (s : σ) (es : List ε) (e : ε) :
    run step s (es ++ [e]) = step (run step s es) e := by
  rw [run_append, run_cons, run_nil]

/-- `Along P s es`: every step of the run of `es` from `s` meets `P`, which sees the
state the step starts in and the event. -/
def Along (P : σ → ε → Prop) : σ → List ε → Prop
  | _, [] => True
  | s, e :: es => P s e ∧ Along P (step s e) es

instance decidableAlong (P : σ → ε → Prop) [∀ s e, Decidable (P s e)] :
    ∀ (s : σ) (es : List ε), Decidable (Along step P s es)
  | _, [] => isTrue trivial
  | s, e :: es =>
    have := decidableAlong P (step s e) es
    inferInstanceAs (Decidable (P s e ∧ Along step P (step s e) es))

/-- A property along two runs. -/
theorem along_append (P : σ → ε → Prop) (s : σ) (es fs : List ε) :
    Along step P s (es ++ fs) ↔ Along step P s es ∧ Along step P (run step s es) fs := by
  induction es generalizing s with
  | nil => simp [Along]
  | cons e es ih => simp [Along, ih, and_assoc]

variable {step}

/-- **Invariant rule.**  What one step preserves, a whole run preserves. -/
theorem run_invariant {I : σ → Prop} (hstep : ∀ s e, I s → I (step s e)) {s : σ}
    (h : I s) (es : List ε) : I (run step s es) := by
  induction es generalizing s with
  | nil => exact h
  | cons e es ih => exact ih (hstep s e h)

/-- **Invariant rule under a side condition** on the steps taken. -/
theorem along_invariant {P : σ → ε → Prop} {I : σ → Prop}
    (hstep : ∀ s e, I s → P s e → I (step s e)) {s : σ} (h : I s) {es : List ε}
    (hes : Along step P s es) : I (run step s es) := by
  induction es generalizing s with
  | nil => exact h
  | cons e es ih => exact ih (hstep s e h hes.1) hes.2

/-- A quantity no step lowers is monotone along a run. -/
theorem run_monotone [Preorder α] {f : σ → α} (hstep : ∀ s e, f s ≤ f (step s e))
    (s : σ) (es : List ε) : f s ≤ f (run step s es) := by
  induction es generalizing s with
  | nil => exact le_rfl
  | cons e es ih => exact (hstep s e).trans (ih _)

end Machine
