/-
The free counter never falls below the number of clear blocks. A request that fails marks blocks and
leaves the counters, and a large allocation no entry names gives one block back: both leave the
counter too high, never too low, so `pmm_allocate_block`, which looks at the counter first, gives up
only when no block is clear.
-/
import SimpleMicrokernel.Memory.Null

namespace SimpleMicrokernel.Memory

theorem liveBlocks_erase {a : Live} {live : List Live} (h : a ∈ live) :
    blockCount a.size + liveBlocks (live.erase a) = liveBlocks live := by
  rw [← liveBlocks_cons]
  exact ((List.perm_cons_erase h).map fun a => blockCount a.size).sum_eq.symm

/-- The counters share out the memory; what is counted as used is marked, and covers what is live. Block
0 is marked. -/
structure Counted (p : Pmm) (live : List Live) : Prop where
  total : p.pmmFreeBlocks.toNat + p.pmmUsedBlocks.toNat = p.pmmSystemMemorySize
  marked : p.pmmUsedBlocks.toNat ≤ Bitmap.popcount p.pmmMemoryMap p.pmmSystemMemorySize
  live : liveBlocks live ≤ p.pmmUsedBlocks.toNat
  zero : p.marked 0 = true

namespace Counted

variable {p : Pmm} {live : List Live} {s n : Nat}

theorem take (h : Counted p live) (hsize : p.pmmSystemMemorySize ≤ 2 ^ 20) (hlt : s + n ≤ p.pmmSystemMemorySize)
    (hclear : ∀ i, s ≤ i → i < s + n → p.marked i = false) {a : Live} (ha : blockCount a.size = n) :
    Counted (p.take s n) (a :: live) := by
  have hpop : Bitmap.popcount (p.take s n).pmmMemoryMap p.pmmSystemMemorySize = _ :=
    Bitmap.popcount_setRange (w := 32) (by omega) hlt hclear
  have hle := Bitmap.popcount_le (p.take s n).pmmMemoryMap p.pmmSystemMemorySize
  have htotal := h.total
  have hmarked := h.marked
  have hlive := h.live
  have hused : (p.take s n).pmmUsedBlocks.toNat = p.pmmUsedBlocks.toNat + n := by
    simp only [Pmm.take, BitVec.toNat_add, BitVec.toNat_ofNat]
    omega
  have hfree : (p.take s n).pmmFreeBlocks.toNat = p.pmmFreeBlocks.toNat - n := by
    simp only [Pmm.take, BitVec.toNat_sub, BitVec.toNat_ofNat]
    omega
  refine ⟨?_, ?_, ?_, (Pmm.marked_take _ _ _ 0).2 (.inr h.zero)⟩
  · rw [hused, hfree, Pmm.pmmSystemMemorySize_take]
    omega
  · rw [hused, Pmm.pmmSystemMemorySize_take, hpop]
    omega
  · rw [hused, liveBlocks_cons]
    omega

/-- Blocks of a live allocation released, all of them or the first. -/
theorem release (h : Counted p live) (hsize : p.pmmSystemMemorySize ≤ 2 ^ 20) (hlt : s + n ≤ p.pmmSystemMemorySize)
    (hset : ∀ i, s ≤ i → i < s + n → p.marked i = true) (hs : 1 ≤ s) {a : Live} (ha : a ∈ live)
    (hn : n ≤ blockCount a.size) :
    Counted (p.release s n) (live.erase a) := by
  have hpop : Bitmap.popcount (p.release s n).pmmMemoryMap p.pmmSystemMemorySize + n = _ :=
    Bitmap.popcount_clearRange (w := 32) (by omega) hlt hset
  have hle := Bitmap.popcount_le p.pmmMemoryMap p.pmmSystemMemorySize
  have htotal := h.total
  have hmarked := h.marked
  have hlive := h.live
  have herase := liveBlocks_erase ha
  have hused : (p.release s n).pmmUsedBlocks.toNat = p.pmmUsedBlocks.toNat - n := by
    simp only [Pmm.release, BitVec.toNat_sub, BitVec.toNat_ofNat]
    omega
  have hfree : (p.release s n).pmmFreeBlocks.toNat = p.pmmFreeBlocks.toNat + n := by
    simp only [Pmm.release, BitVec.toNat_add, BitVec.toNat_ofNat]
    omega
  refine ⟨?_, ?_, ?_, ?_⟩
  · rw [hused, hfree, Pmm.pmmSystemMemorySize_release]
    omega
  · rw [hused, Pmm.pmmSystemMemorySize_release]
    omega
  · rw [hused]
    omega
  · rw [Pmm.marked_release _ (by omega)]
    exact h.zero

theorem spoil (h : Counted p live) (n : Nat) : Counted (p.spoil n) live := by
  refine ⟨h.total, Nat.le_trans h.marked ?_, h.live, (Pmm.marked_spoil _ _ 0).2 (.inr h.zero)⟩
  exact Bitmap.popcount_mono fun i hi => (Pmm.marked_spoil p n i).2 (.inr hi)

theorem full (h : Counted p live) (hfree : p.pmmFreeBlocks = 0) : ∀ i < p.pmmSystemMemorySize, p.marked i = true := by
  have htotal := h.total
  have hmarked := h.marked
  have hzero : p.pmmFreeBlocks.toNat = 0 := by rw [hfree]; rfl
  exact Bitmap.popcount_eq_iff.1 (Nat.le_antisymm (Bitmap.popcount_le ..) (by omega))

end Counted

namespace AllocState

variable {reserved size : Nat} {s : AllocState}

/-- One call keeps the counters so. -/
theorem step_counted {op : Op} (h : Ok (max 1 reserved) size s) (hop : s.Allows op) (hc : Counted s.heap.pmm s.live) :
    Counted (s.step op).heap.pmm (s.step op).live := by
  obtain ⟨L, hlive, hok⟩ := h
  have hmem := hok.memorySize
  have hrelease : ∀ {a : Live} {n : Nat}, a ∈ s.live → n ≤ blockCount a.size →
      Counted (s.heap.pmm.release a.extent.start n) (s.live.erase a) := by
    intro a n ha hn
    have hal : a ∈ L.live := hlive ▸ ha
    obtain ⟨-, hlo, hhi, -⟩ := hok.addr_eq hal
    refine hc.release hok.memoryLe (by omega) (fun i h1 h2 => hok.held i ⟨a, hal, Extent.mem_cells.2 ⟨h1, ?_⟩⟩)
      (by omega) ha hn
    show i < a.extent.start + blockCount a.size
    omega
  have hmalloc : ∀ n, Counted (s.heap.kmallac n).2.pmm (hold s.live ⟨(s.heap.kmallac n).1, n, .kheap⟩) := by
    intro n
    rcases s.heap.kmallac_cases n hok.memoryLe with ⟨-, e, -⟩ | ⟨-, -, e⟩ | ⟨t, ht, hlt, hclear, e⟩
    · rw [e, hold, if_pos rfl]
      exact hc
    · rw [e, hold, if_pos rfl]
      exact hc.spoil _
    · rw [e, hold, if_neg (by simp only [pmmBlockSize]; omega), Heap.pmm_grant]
      exact hc.take hok.memoryLe hlt hclear rfl
  cases op with
  | kmallac n => exact hmalloc n
  | kzalloc n => exact hmalloc n
  | kfree a =>
    rcases hok.kfree_cases (hlive ▸ hop.1) with ⟨i, -, -, e⟩ | ⟨-, e⟩
    · simp only [step, e]
      exact hrelease hop.1 (Nat.le_refl _)
    · simp only [step, e]
      exact hrelease hop.1 (blockCount_pos _)
  | pmmAllocateBlock =>
    rcases s.heap.pmm.pmmAllocateBlock_cases with ⟨e, -⟩ | ⟨i, -, hpos, hlt, hclear, -, e⟩
    · simp only [step, e]
      exact hc
    · have hhi := hok.sizeHi
      have hmod : i * pmmBlockSize % 2 ^ 32 ≠ 0 := by unfold pmmBlockSize; omega
      simp only [step, e, hold, Live.block, if_neg hmod]
      refine hc.take hok.memoryLe (by omega) (fun j h1 h2 => ?_) (blockCount_of_le (Nat.le_refl _))
      rw [show j = i by omega]
      exact hclear
  | pmmFreeBlock a =>
    simp only [step, Pmm.pmmFreeBlock_eq]
    exact hrelease hop.1 (blockCount_pos _)

theorem counted_init (h1 : 1 ≤ reserved) (h2 : reserved ≤ size) (h3 : size ≤ 2 ^ 20) (mem : Mem) :
    Counted (init size reserved mem).heap.pmm (init size reserved mem).live := by
  have hexact := Pmm.exact_iff.1 (Pmm.exact_booted h2 h3)
  have hle := Bitmap.popcount_le (Pmm.booted size reserved).pmmMemoryMap size
  have hsize : (Pmm.booted size reserved).pmmSystemMemorySize = size := rfl
  rw [init_eq]
  refine ⟨?_, Nat.le_of_eq hexact.1, Nat.zero_le _, (Pmm.marked_booted size reserved 0).trans (decide_eq_true h1)⟩
  show (Pmm.booted size reserved).pmmFreeBlocks.toNat + (Pmm.booted size reserved).pmmUsedBlocks.toNat = size
  rw [hexact.1, hexact.2, hsize]
  omega

theorem after_counted (h1 : 1 ≤ reserved) (h2 : reserved ≤ size) (h3 : size ≤ 2 ^ 20) {mem : Mem} {ops : List Op}
    (hops : Allowed (init size reserved mem) ops) :
    Ok (max 1 reserved) size ((init size reserved mem).after ops) ∧
      Counted ((init size reserved mem).after ops).heap.pmm ((init size reserved mem).after ops).live :=
  Run.run_inv (Q := fun s => Ok (max 1 reserved) size s ∧ Counted s.heap.pmm s.live)
    (fun _ _ h hop => ⟨step_ok h.1 hop, step_counted h.1 hop h.2⟩) ⟨ok_init h3 mem, counted_init h1 h2 h3 mem⟩ hops

end AllocState

theorem Counted.allocate {p : Pmm} {live : List Live} (h : Counted p live) (hsize : p.pmmSystemMemorySize ≤ 2 ^ 20) :
    (p.pmmAllocateBlock = (0, p) ∧ ∀ i < p.pmmSystemMemorySize, p.marked i = true) ∨
    ∃ i, 0 < i ∧ i < p.pmmSystemMemorySize ∧ p.marked i = false ∧ (∀ j < i, p.marked j = true) ∧
      p.pmmAllocateBlock = (pmmBlockSize * i, p.take i 1) := by
  rcases p.pmmAllocateBlock_cases with ⟨e, hfree | hzero | hall⟩ | ⟨i, -, hpos, hlt, hclear, hleast, e⟩
  · exact .inl ⟨e, h.full hfree⟩
  · rw [h.zero] at hzero
    cases hzero
  · exact .inl ⟨e, hall⟩
  · refine .inr ⟨i, hpos, hlt, hclear, hleast, ?_⟩
    rw [e, Nat.mul_comm, Nat.mod_eq_of_lt (by unfold pmmBlockSize; omega)]

namespace AllocState

variable {reserved size : Nat}

/-- Single blocks are allocated as long as there are any: after any run from `pmm_init`, requests that
failed included, `pmm_allocate_block` gives the lowest clear block and marks that block only, and gives
0 and changes nothing when no block is clear. -/
theorem allocateBlock_complete (h1 : 1 ≤ reserved) (h2 : reserved ≤ size) (h3 : size ≤ 2 ^ 20) (mem : Mem)
    (ops : List Op) (hops : Allowed (init size reserved mem) ops) :
    let p := ((init size reserved mem).after ops).heap.pmm
    (∀ i < size, p.pmmMemoryMapTest i = 0 → (∀ j < i, p.pmmMemoryMapTest j = 1) →
      p.pmmAllocateBlock.1 = 4096 * i ∧
        ∀ j, p.pmmAllocateBlock.2.pmmMemoryMapTest j = if j = i then 1 else p.pmmMemoryMapTest j) ∧
    ((∀ i < size, p.pmmMemoryMapTest i = 1) → p.pmmAllocateBlock = (0, p)) := by
  intro p
  obtain ⟨⟨L, -, hok⟩, hc⟩ := after_counted h1 h2 h3 hops
  have hmem : p.pmmSystemMemorySize = size := hok.memorySize
  have hc : Counted p _ := hc
  simp only [Pmm.pmmMemoryMapTest_eq_one, Pmm.pmmMemoryMapTest_eq_zero]
  rcases hc.allocate (hmem ▸ h3) with ⟨e, hall⟩ | ⟨k, -, hlt, hclear, hleast, e⟩
  · refine ⟨fun i hi h0 _ => ?_, fun _ => e⟩
    rw [hall i (hmem ▸ hi)] at h0
    cases h0
  · refine ⟨fun i hi h0 hlow => ?_, fun hall => ?_⟩
    · have hik : i = k := by
        rcases Nat.lt_trichotomy i k with hlt | heq | hgt
        · rw [hleast i hlt] at h0
          cases h0
        · exact heq
        · rw [hlow k hgt] at hclear
          cases hclear
      subst hik
      rw [e]
      refine ⟨rfl, fun j => ?_⟩
      have hset := Pmm.marked_take p i 1 j
      by_cases hj : j = i
      · rw [if_pos hj, Pmm.pmmMemoryMapTest_eq_one, hset]
        exact .inl (by omega)
      · rw [if_neg hj, Pmm.pmmMemoryMapTest_eq, Pmm.pmmMemoryMapTest_eq]
        refine if_congr ?_ rfl rfl
        rw [hset]
        exact or_iff_right (by omega)
    · rw [hall k (hmem ▸ hlt)] at hclear
      cases hclear

/-- A request for two blocks has failed on two that are clear; the last one still is, and is allocated next. -/
theorem allocateBlock_after_failure :
    let p := ((init 3 1 fun _ => 0).after [.kmallac 5000]).heap.pmm
    (∀ i < 3, p.pmmMemoryMapTest i = 0 → (∀ j < i, p.pmmMemoryMapTest j = 1) →
      p.pmmAllocateBlock.1 = 4096 * i ∧
        ∀ j, p.pmmAllocateBlock.2.pmmMemoryMapTest j = if j = i then 1 else p.pmmMemoryMapTest j) ∧
    ((∀ i < 3, p.pmmMemoryMapTest i = 1) → p.pmmAllocateBlock = (0, p)) :=
  allocateBlock_complete (by decide) (by decide) (by decide) (fun _ => 0) [.kmallac 5000]
    ⟨by simp only [Allows]; decide, trivial⟩

end AllocState

end SimpleMicrokernel.Memory
