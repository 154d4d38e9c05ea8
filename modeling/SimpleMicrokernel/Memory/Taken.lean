/-
Blocks taken one by one and given back in any order. `Taken p p' B` says that `p'` is `p` with the
blocks of `B` taken, all of which were clear: giving one back takes it out of `B`, and with nothing
left in `B` the map and the counters are what they were. How many blocks can be taken is the number
of the clear ones.
-/
import SimpleMicrokernel.Memory.Counters

namespace SimpleMicrokernel.Memory

/-- `p'` is `p` with the blocks of `B` taken. -/
structure Taken (p p' : Pmm) (B : Finset Nat) : Prop where
  memorySize : p'.pmmSystemMemorySize = p.pmmSystemMemorySize
  used : p'.pmmUsedBlocks = p.pmmUsedBlocks + BitVec.ofNat 32 B.card
  free : p'.pmmFreeBlocks = p.pmmFreeBlocks - BitVec.ofNat 32 B.card
  clear : ∀ i ∈ B, p.marked i = false
  marked : ∀ i, p'.marked i = true ↔ i ∈ B ∨ p.marked i = true

/-- The page numbers of blocks. -/
def pageNumbers (bs : List Nat) : List Nat := bs.map (· / pmmBlockSize)

namespace Taken

variable {p p' : Pmm} {B : Finset Nat}

theorem refl (p : Pmm) : Taken p p ∅ :=
  ⟨rfl, (add_zero _).symm, (sub_zero _).symm, by simp, by simp⟩

theorem eq (h : Taken p p' ∅) : p' = p := by
  have hmap : p'.pmmMemoryMap = p.pmmMemoryMap := by
    refine Bitmap.ext_bit (by omega) fun i => Bool.eq_iff_iff.2 ?_
    rw [h.marked i]
    simp
  have hused : p'.pmmUsedBlocks = p.pmmUsedBlocks := h.used.trans (add_zero _)
  have hfree : p'.pmmFreeBlocks = p.pmmFreeBlocks := h.free.trans (sub_zero _)
  have hsize := h.memorySize
  cases p
  cases p'
  simp_all

/-- One more block taken. -/
theorem take (h : Taken p p' B) {i : Nat} (hi : p'.marked i = false) : Taken p (p'.take i 1) (insert i B) := by
  have hnot : i ∉ B := fun hB => by
    rw [(h.marked i).2 (.inl hB)] at hi
    cases hi
  have hcard : BitVec.ofNat 32 (insert i B).card = BitVec.ofNat 32 B.card + BitVec.ofNat 32 1 := by
    rw [Finset.card_insert_of_notMem hnot, BitVec.ofNat_add]
  refine ⟨h.memorySize, ?_, ?_, fun j hj => ?_, fun j => ?_⟩
  · show p'.pmmUsedBlocks + BitVec.ofNat 32 1 = _
    rw [h.used, hcard, add_assoc]
  · show p'.pmmFreeBlocks - BitVec.ofNat 32 1 = _
    rw [h.free, hcard, sub_sub]
  · rcases Finset.mem_insert.1 hj with rfl | hj
    · rw [Bool.eq_false_iff] at hi ⊢
      exact fun hm => hi ((h.marked j).2 (.inr hm))
    · exact h.clear j hj
  · rw [Pmm.marked_take, h.marked, Finset.mem_insert, or_assoc]
    exact or_congr ⟨by omega, by omega⟩ Iff.rfl

theorem release (h : Taken p p' B) {i : Nat} (hi : i ∈ B) : Taken p (p'.release i 1) (B.erase i) := by
  have hcard : BitVec.ofNat 32 B.card = BitVec.ofNat 32 (B.erase i).card + BitVec.ofNat 32 1 := by
    rw [← BitVec.ofNat_add, Finset.card_erase_add_one hi]
  refine ⟨h.memorySize, ?_, ?_, fun j hj => h.clear j (Finset.mem_of_mem_erase hj), fun j => ?_⟩
  · show p'.pmmUsedBlocks - BitVec.ofNat 32 1 = _
    rw [h.used, hcard, ← add_assoc, add_sub_cancel_right]
  · show p'.pmmFreeBlocks + BitVec.ofNat 32 1 = _
    rw [h.free, hcard, ← sub_sub, sub_add_cancel]
  · rw [Finset.mem_erase]
    by_cases hji : j = i
    · subst hji
      rw [Pmm.marked_release_self, h.clear j hi]
      simp
    · rw [Pmm.marked_release _ (by omega), h.marked]
      simp [hji]

theorem pmmAllocateBlock (h : Taken p p' B) (hsize : p'.pmmSystemMemorySize ≤ 2 ^ 20)
    (hne : p'.pmmAllocateBlock.1 ≠ 0) :
    p'.pmmAllocateBlock.1 / pmmBlockSize ∉ B ∧
      Taken p p'.pmmAllocateBlock.2 (insert (p'.pmmAllocateBlock.1 / pmmBlockSize) B) := by
  rcases p'.pmmAllocateBlock_cases with ⟨e, -⟩ | ⟨i, -, -, hlt, hclear, -, e⟩
  · rw [e] at hne
    exact absurd rfl hne
  · have hpage : i * pmmBlockSize % 2 ^ 32 / pmmBlockSize = i := by
      unfold pmmBlockSize
      omega
    rw [e, hpage]
    refine ⟨fun hB => ?_, h.take hclear⟩
    rw [(h.marked i).2 (.inl hB)] at hclear
    cases hclear

/-- Different blocks given back one after another. -/
theorem freeAll (bs : List Nat) : ∀ {p' : Pmm} {B : Finset Nat}, Taken p p' B → (pageNumbers bs).Nodup →
    (∀ i ∈ pageNumbers bs, i ∈ B) →
    Taken p (bs.foldl Pmm.pmmFreeBlock p') (B \ (pageNumbers bs).toFinset) := by
  induction bs with
  | nil => exact fun h _ _ => by simpa [pageNumbers] using h
  | cons b bs ih =>
    intro p' B h hnodup hin
    obtain ⟨hnot, hnodup⟩ := List.nodup_cons.1 hnodup
    have hnot : b / pmmBlockSize ∉ pageNumbers bs := hnot
    have hb : b / pmmBlockSize ∈ B := hin _ (List.mem_cons_self ..)
    have hone := h.release hb
    rw [← Pmm.pmmFreeBlock_eq] at hone
    have hrest := ih hone hnodup fun i hi =>
      Finset.mem_erase.2 ⟨fun he => hnot (he ▸ hi), hin i (List.mem_cons_of_mem _ hi)⟩
    have hset : B.erase (b / pmmBlockSize) \ (pageNumbers bs).toFinset = B \ (pageNumbers (b :: bs)).toFinset := by
      rw [show pageNumbers (b :: bs) = b / pmmBlockSize :: pageNumbers bs from rfl, List.toFinset_cons,
        Finset.sdiff_insert, Finset.erase_sdiff_comm]
    rw [← hset]
    exact hrest

theorem freeAll_eq (h : Taken p p' B) {bs : List Nat} (hnodup : (pageNumbers bs).Nodup)
    (hin : ∀ i ∈ pageNumbers bs, i ∈ B) (hcard : bs.length = B.card) : bs.foldl Pmm.pmmFreeBlock p' = p := by
  have hall := h.freeAll bs hnodup hin
  have hsub : (pageNumbers bs).toFinset ⊆ B := fun i hi => hin i (List.mem_toFinset.1 hi)
  have heq : (pageNumbers bs).toFinset = B := by
    refine Finset.eq_of_subset_of_card_le hsub ?_
    rw [List.toFinset_card_of_nodup hnodup, pageNumbers, List.length_map, hcard]
  rw [heq, sdiff_self] at hall
  exact Taken.eq hall

end Taken

/-! ## How many can be taken -/

/-- The number of blocks of memory that are clear. -/
def Pmm.clearBlocks (p : Pmm) : Nat :=
    ((Finset.range p.pmmSystemMemorySize).filter fun i => p.pmmMemoryMapTest i = 0).card

theorem Pmm.clearBlocks_eq (p : Pmm) :
    p.clearBlocks = p.pmmSystemMemorySize - Bitmap.popcount p.pmmMemoryMap p.pmmSystemMemorySize := by
  unfold Pmm.clearBlocks
  simp only [Pmm.pmmMemoryMapTest_eq_zero]
  exact Bitmap.card_clear _ _

/-- A request for a block is granted exactly when some block is clear, and leaves one clear block less. -/
theorem Counted.clearBlocks_allocate {p : Pmm} {live : List Live} (h : Counted p live)
    (hsize : p.pmmSystemMemorySize ≤ 2 ^ 20) :
    (p.pmmAllocateBlock.1 = 0 ∧ p.clearBlocks = 0) ∨
    (p.pmmAllocateBlock.1 ≠ 0 ∧ p.pmmAllocateBlock.2.clearBlocks + 1 = p.clearBlocks ∧
      Counted p.pmmAllocateBlock.2 (.block p.pmmAllocateBlock.1 :: live) ∧
      p.pmmAllocateBlock.2.pmmSystemMemorySize = p.pmmSystemMemorySize) := by
  rcases h.allocate hsize with ⟨e, hall⟩ | ⟨i, hpos, hlt, hclear, -, e⟩
  · rw [p.clearBlocks_eq, e, Bitmap.popcount_eq_iff.2 hall, Nat.sub_self]
    exact .inl ⟨rfl, rfl⟩
  · have hone : ∀ j, i ≤ j → j < i + 1 → p.marked j = false := by
      intro j h1 h2
      rw [show j = i by omega]
      exact hclear
    have hpop : Bitmap.popcount (p.take i 1).pmmMemoryMap p.pmmSystemMemorySize = _ :=
      Bitmap.popcount_setRange (w := 32) (by omega) hlt hone
    have hle := Bitmap.popcount_le (p.take i 1).pmmMemoryMap p.pmmSystemMemorySize
    have hmore : (p.take i 1).clearBlocks + 1 = p.clearBlocks := by
      rw [Pmm.clearBlocks_eq, Pmm.clearBlocks_eq, Pmm.pmmSystemMemorySize_take, hpop]
      rw [hpop] at hle
      omega
    rw [e]
    refine .inr ⟨?_, hmore, h.take hsize hlt hone (blockCount_of_le (Nat.le_refl _)), rfl⟩
    simp only [pmmBlockSize]
    omega

end SimpleMicrokernel.Memory
