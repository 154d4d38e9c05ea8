/-
When an allocation succeeds. `Room n` says that the end of memory is clear, with more than `n` blocks,
and that the counter of free blocks agrees: every request of at most `n` blocks is granted then, and
room for the rest is left. A first fit never looks past the clear end, so no search fails.
-/
import SimpleMicrokernel.Memory.Kheap

namespace SimpleMicrokernel.Memory

namespace Pmm

/-- More than `n` blocks at the end of memory are clear, and the counter allows taking `n`. The counter
is far from wrapping, so giving a block back does not undo it. -/
structure Room (p : Pmm) (n : Nat) : Prop where
  memoryLe : p.pmmSystemMemorySize ≤ 2 ^ 20
  first : p.marked 0 = true
  counted : n ≤ p.pmmFreeBlocks.toNat
  bounded : p.pmmFreeBlocks.toNat + n < 2 ^ 31
  tail : ∃ t, 1 ≤ t ∧ t + n < p.pmmSystemMemorySize ∧ ∀ i, t ≤ i → i < p.pmmSystemMemorySize → p.marked i = false

variable {p : Pmm} {m n : Nat}

theorem Room.mono (h : p.Room n) (hle : m ≤ n) : p.Room m := by
  obtain ⟨t, h1, h2, h3⟩ := h.tail
  have := h.counted
  have := h.bounded
  exact ⟨h.memoryLe, h.first, by omega, by omega, t, h1, by omega, h3⟩

/-- Taking blocks that start no later than the clear end leaves room for the rest. -/
theorem Room.take (h : p.Room n) (hle : m ≤ n) {s : Nat} (hs : ∀ t, 1 ≤ t → t + m < p.pmmSystemMemorySize →
    (∀ i, t ≤ i → i < p.pmmSystemMemorySize → p.marked i = false) → s ≤ t) : (p.take s m).Room (n - m) := by
  obtain ⟨t, h1, h2, h3⟩ := h.tail
  have hst := hs t h1 (by omega) h3
  have hcounted := h.counted
  have hbounded := h.bounded
  have hcount : (p.take s m).pmmFreeBlocks.toNat = p.pmmFreeBlocks.toNat - m := by
    have hm : (BitVec.ofNat 32 m).toNat = m := by
      rw [BitVec.toNat_ofNat]
      exact Nat.mod_eq_of_lt (by omega)
    show (p.pmmFreeBlocks - BitVec.ofNat 32 m).toNat = _
    rw [BitVec.toNat_sub_of_le (by rw [BitVec.le_def]; omega), hm]
  refine ⟨h.memoryLe, (marked_take p s m 0).2 (.inr h.first), by omega, by omega, max t (s + m), by omega, ?_,
    fun i hi hlt => ?_⟩
  · show max t (s + m) + (n - m) < p.pmmSystemMemorySize
    omega
  · rw [Bool.eq_false_iff]
    intro hm
    rcases (marked_take p s m i).1 hm with hin | hm
    · omega
    · rw [h3 i (by omega) hlt] at hm
      cases hm

/-- One block: the lowest clear one. -/
theorem Room.pmmAllocateBlock (h : p.Room n) (hn : 1 ≤ n) :
    ∃ addr p', p.pmmAllocateBlock = (addr, p') ∧ addr ≠ 0 ∧ p'.Room (n - 1) := by
  obtain ⟨t, h1, h2, h3⟩ := h.tail
  have hle := h.memoryLe
  rcases p.pmmAllocateBlock_cases with ⟨-, hwhy⟩ | ⟨i, -, hpos, hlt, -, hlow, e⟩
  · exfalso
    rcases hwhy with h0 | h0 | h0
    · have hc := h.counted
      rw [h0] at hc
      exact absurd hc (by simp; omega)
    · rw [h.first] at h0
      cases h0
    · have hfull := h0 t (by omega)
      rw [h3 t (Nat.le_refl t) (by omega)] at hfull
      cases hfull
  · refine ⟨_, _, e, ?_, h.take hn fun t _ hfit hclear => ?_⟩
    · rw [Nat.mod_eq_of_lt (by unfold pmmBlockSize; omega)]
      unfold pmmBlockSize
      omega
    · by_contra hti
      have hm := hlow t (by omega)
      rw [hclear t (Nat.le_refl t) (by omega)] at hm
      cases hm

/-- A run of blocks: the first that fits. -/
theorem Room.pmmAllocateFirstNBlocks (h : p.Room n) (hm : 1 ≤ m) (hle : m ≤ n) :
    ∃ addr p', p.pmmAllocateFirstNBlocks m = (addr, p') ∧ addr ≠ 0 ∧ p'.Room (n - m) := by
  obtain ⟨t, h1, h2, h3⟩ := h.tail
  have hmem := h.memoryLe
  have hfits : ∀ t, t + m < p.pmmSystemMemorySize →
      (∀ i, t ≤ i → i < p.pmmSystemMemorySize → p.marked i = false) → p.Fits t m :=
    fun t hlt hclear => ⟨hlt, fun i h1 h2 => hclear i h1 (by omega)⟩
  rcases p.pmmAllocateFirstNBlocks_cases m with ⟨hno, -⟩ | ⟨s, hs, hfit, hfirst, e⟩
  · exact absurd (hfits t (by omega) h3) (hno t h1)
  · have hlt := hfit.1
    refine ⟨_, _, e, ?_, h.take hle fun t ht hend hclear => ?_⟩
    · rw [Nat.mod_eq_of_lt (by unfold pmmBlockSize; omega)]
      unfold pmmBlockSize
      omega
    · by_contra hts
      exact hfirst t ht (by omega) (hfits t hend hclear)

/-- Giving one block back. -/
theorem Room.give (h : p.Room (n + 1)) {s : Nat} (hs : 1 ≤ s) : (p.release s 1).Room n := by
  obtain ⟨t, h1, h2, h3⟩ := h.tail
  have hcounted := h.counted
  have hbounded := h.bounded
  have hcount : (p.release s 1).pmmFreeBlocks.toNat = p.pmmFreeBlocks.toNat + 1 := by
    show (p.pmmFreeBlocks + BitVec.ofNat 32 1).toNat = _
    rw [BitVec.toNat_add, BitVec.toNat_ofNat]
    omega
  refine ⟨h.memoryLe, ?_, by omega, by omega, t, h1, ?_, fun i hi hlt => ?_⟩
  · rw [marked_release p (by omega)]
    exact h.first
  · show t + n < p.pmmSystemMemorySize
    omega
  · have hclear := h3 i hi hlt
    rw [marked, Pmm.release, Bitmap.bit_clearRange (by omega), Bool.and_eq_false_iff]
    exact .inr hclear

theorem room_booted {size reserved : Nat} (h1 : 1 ≤ reserved) (h2 : reserved < size) (h3 : size ≤ 2 ^ 20) :
    (booted size reserved).Room (size - reserved - 1) := by
  have hcount : (booted size reserved).pmmFreeBlocks.toNat = size - reserved := by
    show (BitVec.ofNat 32 size - BitVec.ofNat 32 reserved).toNat = _
    rw [BitVec.toNat_sub, BitVec.toNat_ofNat, BitVec.toNat_ofNat]
    omega
  refine ⟨h3, ?_, by omega, by omega, reserved, h1, ?_, fun i hi _ => ?_⟩
  · rw [marked_booted]
    exact decide_eq_true h1
  · show reserved + (size - reserved - 1) < size
    omega
  · rw [marked_booted]
    exact decide_eq_false (by omega)

end Pmm

namespace Heap

variable {h : Heap} {n size : Nat}

/-- `kmallac` grants what there is room for. -/
theorem kmallac_room (hr : h.pmm.Room n) (hle : blockCount size ≤ n) :
    ∃ addr h', h.kmallac size = (addr, h') ∧ addr ≠ 0 ∧ h'.pmm.Room (n - blockCount size) := by
  have hpos := blockCount_pos size
  unfold kmallac
  by_cases hbig : size > 4096
  · obtain ⟨addr, p', e, hne, hr'⟩ := hr.pmmAllocateFirstNBlocks hpos hle
    simp only [if_pos hbig, e]
    rw [if_neg (by omega)]
    refine ⟨_, _, rfl, hne, ?_⟩
    rw [pmm_insertInBigBlocks]
    exact hr'
  · have hone := blockCount_of_le (Nat.le_of_not_lt hbig)
    obtain ⟨addr, p', e, hne, hr'⟩ := hr.pmmAllocateBlock (by omega)
    simp only [if_neg hbig, e]
    rw [hone]
    exact ⟨_, _, rfl, hne, hr'⟩

end Heap

end SimpleMicrokernel.Memory
