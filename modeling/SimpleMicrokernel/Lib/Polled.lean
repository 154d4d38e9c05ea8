/-
Reading from a device that is asked until it is ready: the loop that asks, and the loop that moves a block each time
it is. Both take fuel; `Ready` and `Serves` are their runs that come to an end.
-/
import Mathlib.Order.Basic

namespace Polled

section
variable {σ : Type*} (status : σ → Bool × σ) (move : σ → σ)

/-- Asks until the device is ready. -/
def poll : Nat → σ → Option σ
  | 0, _ => none
  | fuel + 1, s => if (status s).1 then some (status s).2 else poll fuel (status s).2

/-- `n` blocks, each when the device is ready. -/
def transfer (fuel : Nat) : Nat → σ → Option σ
  | 0, s => some s
  | n + 1, s => (poll status fuel s).bind fun s => transfer fuel n (move s)

/-- The device answers, at last, that it is ready. -/
inductive Ready : σ → σ → Prop where
  | now {s} : (status s).1 = true → Ready s (status s).2
  | later {s s'} : (status s).1 = false → Ready (status s).2 s' → Ready s s'

/-- The device is ready for each of the blocks. -/
inductive Serves : Nat → σ → σ → Prop where
  | done (s) : Serves 0 s s
  | block {n s s1 s'} : Ready status s s1 → Serves n (move s1) s' → Serves (n + 1) s s'

end

section
variable {σ : Type*} {status : σ → Bool × σ} {move : σ → σ} {s s' : σ} {fuel fuel' n m : Nat}

theorem poll_mono (hle : fuel ≤ fuel') (h : poll status fuel s = some s') : poll status fuel' s = some s' := by
  induction fuel generalizing fuel' s with
  | zero => cases h
  | succ fuel ih =>
    obtain ⟨fuel', rfl⟩ : ∃ m, fuel' = m + 1 := ⟨fuel' - 1, by omega⟩
    rw [poll] at h ⊢
    split at h
    case isTrue hready => rwa [if_pos hready]
    case isFalse hready =>
      rw [if_neg hready]
      exact ih (by omega) h

theorem ready_of_poll (h : poll status fuel s = some s') : Ready status s s' := by
  induction fuel generalizing s with
  | zero => cases h
  | succ fuel ih =>
    rw [poll] at h
    split at h
    case isTrue hready =>
      obtain rfl := Option.some.inj h
      exact .now hready
    case isFalse hready => exact .later (by simpa using hready) (ih h)

theorem poll_of_ready (h : Ready status s s') : ∃ fuel, poll status fuel s = some s' := by
  induction h with
  | now h => exact ⟨1, if_pos h⟩
  | later h _ ih =>
    obtain ⟨fuel, hpoll⟩ := ih
    refine ⟨fuel + 1, ?_⟩
    rw [poll, if_neg (by simp [h])]
    exact hpoll

theorem transfer_mono (hle : fuel ≤ fuel') (h : transfer status move fuel n s = some s') :
    transfer status move fuel' n s = some s' := by
  induction n generalizing s with
  | zero => exact h
  | succ n ih =>
    rw [transfer] at h ⊢
    obtain ⟨s1, h1, h⟩ := Option.bind_eq_some_iff.1 h
    rw [poll_mono hle h1]
    exact ih h

/-- With enough fuel the blocks are moved exactly when the device is ready for each of them. -/
theorem transfer_iff : (∃ fuel, transfer status move fuel n s = some s') ↔ Serves status move n s s' := by
  constructor
  · rintro ⟨fuel, h⟩
    induction n generalizing s with
    | zero =>
      obtain rfl := Option.some.inj h
      exact .done s
    | succ n ih =>
      rw [transfer] at h
      obtain ⟨s1, h1, h⟩ := Option.bind_eq_some_iff.1 h
      exact .block (ready_of_poll h1) (ih h)
  · intro h
    induction h with
    | done s => exact ⟨0, rfl⟩
    | block hready _ ih =>
      obtain ⟨f1, h1⟩ := poll_of_ready hready
      obtain ⟨f2, h2⟩ := ih
      refine ⟨max f1 f2, ?_⟩
      rw [transfer, poll_mono (Nat.le_max_left ..) h1]
      exact transfer_mono (Nat.le_max_right ..) h2

theorem Serves.append {s1 : σ} (h : Serves status move n s s1) (h' : Serves status move m s1 s') :
    Serves status move (n + m) s s' := by
  induction h with
  | done s =>
    rw [Nat.zero_add]
    exact h'
  | block hready _ ih =>
    rw [Nat.succ_add]
    exact .block hready (ih h')

theorem Serves.split (h : Serves status move (n + m) s s') : ∃ s1, Serves status move n s s1 ∧
    Serves status move m s1 s' := by
  induction n generalizing s with
  | zero =>
    rw [Nat.zero_add] at h
    exact ⟨s, .done s, h⟩
  | succ n ih =>
    rw [Nat.succ_add] at h
    cases h with
    | block hready h =>
      obtain ⟨s1, h1, h2⟩ := ih h
      exact ⟨s1, .block hready h1, h2⟩

theorem Ready.unique {s1 s2 : σ} (h1 : Ready status s s1) (h2 : Ready status s s2) : s1 = s2 := by
  induction h1 with
  | now hready =>
    cases h2 with
    | now => rfl
    | later hnot => rw [hready] at hnot; cases hnot
  | later hnot _ ih =>
    cases h2 with
    | now hready => rw [hready] at hnot; cases hnot
    | later _ h2 => exact ih h2

theorem Serves.unique {s1 s2 : σ} (h1 : Serves status move n s s1) (h2 : Serves status move n s s2) : s1 = s2 := by
  induction h1 with
  | done =>
    cases h2
    rfl
  | block hready _ ih =>
    cases h2 with
    | block hready' h2 =>
      obtain rfl := hready.unique hready'
      exact ih h2

theorem not_ready {P : σ → Prop} (hno : ∀ s, P s → (status s).1 = false ∧ P (status s).2) (hp : P s) :
    ¬ Ready status s s' := by
  intro h
  induction h with
  | now h =>
    rw [(hno _ hp).1] at h
    cases h
  | later _ _ ih => exact ih (hno _ hp).2

end

end Polled
