/-
Runs of a deterministic machine over a list of inputs, and what holds at every step or in every
state of a run. An invariant is proved for one step and holds along the run; a condition on the
steps that is exactly what one step needs is exactly what the run needs.
-/
import Mathlib.Data.List.Basic

namespace Run

variable {σ ι : Type*} (step : σ → ι → σ)

/-- The state after the inputs. -/
def run (s : σ) (is : List ι) : σ := is.foldl step s

/-- `P` holds of every step of the run, at the state before it. -/
def AllSteps (P : σ → ι → Prop) : σ → List ι → Prop
  | _, [] => True
  | s, i :: is => P s i ∧ AllSteps P (step s i) is

/-- `Q` holds of every state of the run, the first and the last included. -/
def AllStates (Q : σ → Prop) : σ → List ι → Prop
  | s, [] => Q s
  | s, i :: is => Q s ∧ AllStates Q (step s i) is

variable {step}

@[simp] theorem run_nil (s : σ) : run step s [] = s := rfl
@[simp] theorem run_cons (s : σ) (i : ι) (is : List ι) : run step s (i :: is) = run step (step s i) is := rfl

theorem run_append (s : σ) (is js : List ι) : run step s (is ++ js) = run step (run step s is) js :=
  List.foldl_append ..

theorem allSteps_append {P : σ → ι → Prop} : ∀ {s : σ} {is js : List ι},
    AllSteps step P s (is ++ js) ↔ AllSteps step P s is ∧ AllSteps step P (run step s is) js
  | s, [], js => by simp [AllSteps]
  | s, i :: is, js => by
    simp only [List.cons_append, AllSteps, run_cons]
    rw [allSteps_append, and_assoc]

/-- An invariant of the allowed steps holds at the end of every allowed run. -/
theorem run_inv {P : σ → ι → Prop} {Q : σ → Prop} (hstep : ∀ s i, Q s → P s i → Q (step s i)) :
    ∀ {s : σ} {is : List ι}, Q s → AllSteps step P s is → Q (run step s is)
  | _, [], hq, _ => hq
  | s, i :: _, hq, hp => run_inv (s := step s i) hstep (hstep s i hq hp.1) hp.2

theorem allSteps_congr {P A B : σ → ι → Prop} {I : σ → Prop} (hinv : ∀ s i, I s → P s i → I (step s i))
    (hstep : ∀ s i, I s → P s i → (A s i ↔ B s i)) :
    ∀ {s : σ} {is : List ι}, I s → AllSteps step P s is → (AllSteps step A s is ↔ AllSteps step B s is)
  | _, [], _, _ => Iff.rfl
  | s, i :: _, hi, hp => by
    rw [AllSteps, AllSteps, hstep s i hi hp.1, allSteps_congr hinv hstep (hinv s i hi hp.1) hp.2]

/-- Along an allowed run, `Q` holds of every state exactly when `C` holds of every step, if it is
so for one step from a state where the invariant `I` and `Q` hold. -/
theorem allStates_iff_allSteps {P C : σ → ι → Prop} {I Q : σ → Prop}
    (hinv : ∀ s i, I s → P s i → I (step s i))
    (hstep : ∀ s i, I s → P s i → Q s → (Q (step s i) ↔ C s i)) :
    ∀ {s : σ} {is : List ι}, I s → Q s → AllSteps step P s is →
      (AllStates step Q s is ↔ AllSteps step C s is)
  | s, [], _, hq, _ => by simp [AllStates, AllSteps, hq]
  | s, i :: is, hi, hq, hp => by
    have hone := hstep s i hi hp.1 hq
    simp only [AllStates, AllSteps]
    constructor
    · rintro ⟨-, hall⟩
      have hq' : Q (step s i) := by
        cases is with
        | nil => exact hall
        | cons j js => exact hall.1
      exact ⟨hone.1 hq', (allStates_iff_allSteps hinv hstep (hinv s i hi hp.1) hq' hp.2).1 hall⟩
    · rintro ⟨hc, hall⟩
      have hq' := hone.2 hc
      exact ⟨hq, (allStates_iff_allSteps hinv hstep (hinv s i hi hp.1) hq' hp.2).2 hall⟩

end Run
