/-
The search for consecutive blocks. It gives the first run that ends before the last block of memory; a
run that ends at the last block is never looked at, so the answer is the first fit unless that
run is the only one.
-/
import SimpleMicrokernel.Memory.AllocRun

namespace SimpleMicrokernel.Memory.Pmm

/-- Blocks `s`, …, `s + n - 1` are clear and inside the memory. -/
def ClearRun (p : Pmm) (s n : Nat) : Prop :=
  s + n ≤ p.pmmSystemMemorySize ∧ ∀ i, s ≤ i → i < s + n → p.pmmMemoryMapTest i = 0

/-- `r` is the first start of a run of `n` clear blocks from block 1 on, 0 when there is none. -/
def IsFirstFit (p : Pmm) (n r : Nat) : Prop :=
  (r = 0 ∧ ∀ s, 1 ≤ s → ¬ p.ClearRun s n) ∨ (1 ≤ r ∧ p.ClearRun r n ∧ ∀ s, 1 ≤ s → s < r → ¬ p.ClearRun s n)

/-- The last `n` blocks, block 0 not among them, are all clear. -/
def LastClear (p : Pmm) (n : Nat) : Prop := ∃ s, 1 ≤ s ∧ s + n = p.pmmSystemMemorySize ∧ p.ClearRun s n

/-- Some run of `n` clear blocks from block 1 on ends before the last block. -/
def FitsBeforeLast (p : Pmm) (n : Nat) : Prop := ∃ s, 1 ≤ s ∧ s + n < p.pmmSystemMemorySize ∧ p.ClearRun s n

section
variable {p : Pmm} {s n : Nat}

theorem fits_iff : p.Fits s n ↔ s + n < p.pmmSystemMemorySize ∧ p.ClearRun s n := by
  unfold Fits ClearRun
  simp only [pmmMemoryMapTest_eq_zero]
  constructor
  · rintro ⟨h1, h2⟩
    exact ⟨h1, Nat.le_of_lt h1, h2⟩
  · rintro ⟨h1, -, h2⟩
    exact ⟨h1, h2⟩

theorem ClearRun.fits_or_last (h : p.ClearRun s n) : p.Fits s n ∨ s + n = p.pmmSystemMemorySize := by
  rcases Nat.lt_or_eq_of_le h.1 with hlt | heq
  · exact .inl (fits_iff.2 ⟨hlt, h⟩)
  · exact .inr heq

end

/-- The search gives the first fit exactly when some run ends before the last block of memory, or the
last blocks are no run either. -/
theorem firstFit_iff (p : Pmm) (n : Nat) : p.IsFirstFit n (p.pmmGetFirstNBlocks n) ↔ p.FitsBeforeLast n ∨
    ¬ p.LastClear n := by
  rcases p.pmmGetFirstNBlocks_spec n with ⟨hzero, hnone⟩ | ⟨hpos, hfits, hleast⟩
  · have hbefore : ¬ p.FitsBeforeLast n := by
      rintro ⟨s, hs, hlt, hrun⟩
      exact hnone s hs (fits_iff.2 ⟨hlt, hrun⟩)
    rw [hzero, or_iff_right hbefore]
    constructor
    · rintro (⟨-, hno⟩ | ⟨h0, -, -⟩) ⟨s, hs, -, hrun⟩
      · exact hno s hs hrun
      · omega
    · intro hlast
      refine .inl ⟨rfl, fun s hs hrun => ?_⟩
      rcases hrun.fits_or_last with hfit | heq
      · exact hnone s hs hfit
      · exact hlast ⟨s, hs, heq, hrun⟩
  · obtain ⟨hlt, hrun⟩ := fits_iff.1 hfits
    refine ⟨fun _ => .inl ⟨_, hpos, hlt, hrun⟩, fun _ => .inr ⟨hpos, hrun, fun s hs hsr hrun' => ?_⟩⟩
    -- an earlier run would end before the last block too
    exact hleast s hs hsr (fits_iff.2 ⟨by omega, hrun'⟩)

/-- Two clear blocks right after `pmm_init`, the last two of memory: they are not found. -/
theorem firstFit_misses_last : 1 ≤ 2 ∧ 2 < 2 ^ 31 ∧
    ¬ (AllocState.init 3 1 fun _ => 0).heap.pmm.IsFirstFit 2
    ((AllocState.init 3 1 fun _ => 0).heap.pmm.pmmGetFirstNBlocks 2) := by
  have hsize : (AllocState.init 3 1 fun _ => 0).heap.pmm.pmmSystemMemorySize = 3 := by
    rw [AllocState.init_eq]
    rfl
  have hrun : (AllocState.init 3 1 fun _ => 0).heap.pmm.ClearRun 1 2 := by
    refine ⟨by rw [hsize], fun i hi _ => ?_⟩
    rw [AllocState.init_eq, pmmMemoryMapTest_eq_zero]
    exact (marked_booted 3 1 i).trans (decide_eq_false (by omega))
  refine ⟨by decide, by decide, fun h => ?_⟩
  rcases pmmGetFirstNBlocks_spec (AllocState.init 3 1 fun _ => 0).heap.pmm 2 with ⟨hzero, -⟩ | ⟨hpos, ⟨hlt, -⟩, -⟩
  · rw [hzero] at h
    rcases h with ⟨-, hnone⟩ | ⟨h0, -⟩
    · exact hnone 1 (Nat.le_refl 1) hrun
    · omega
  · omega

end SimpleMicrokernel.Memory.Pmm
