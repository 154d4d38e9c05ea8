/-
`heap/kheap.c`: the kernel heap. Up to one page is a single block; more is a run of blocks whose
length is kept in the 100-entry table `big_blocks`, since `kfree` is given an address only. The
table's insert gives up silently when every entry is taken.
-/
import SimpleMicrokernel.Memory.Pmm
import Mathlib.Data.Fin.Tuple.Basic

namespace SimpleMicrokernel.Memory

/-- `BIG_ADDRESS`: the number of entries of `big_blocks`. -/
abbrev bigAddress : Nat := 100

/-- `struct big_address`. -/
structure BigAddress where
  startingAddress : Nat
  blocks : Nat
deriving DecidableEq, Repr

/-- The allocator's tables: the globals of `pmm.c` and `kheap.c`. -/
structure Heap where
  pmm : Pmm
  bigBlocks : Fin bigAddress → BigAddress

/-- The number of blocks `kmallac` takes for a size. -/
def blockCount (size : Nat) : Nat :=
  if size > 4096 then
    let blocksToAllocate := size / 4096
    if size % 4096 = 0 then blocksToAllocate else blocksToAllocate + 1
  else 1

theorem blockCount_pos (size : Nat) : 0 < blockCount size := by
  unfold blockCount
  split
  · simp only; split <;> omega
  · omega

theorem blockCount_of_le {size : Nat} (h : size ≤ 4096) : blockCount size = 1 := by
  unfold blockCount; rw [if_neg (by omega)]

theorem blockCount_bounds (size : Nat) :
    size ≤ blockCount size * pmmBlockSize ∧ (0 < size → blockCount size * pmmBlockSize < size + pmmBlockSize) := by
  unfold blockCount pmmBlockSize
  split
  · simp only; split <;> omega
  · omega

namespace Heap

/-- The tables as C initialises them before the kernel runs: all zero. -/
def zero : Heap := ⟨Pmm.zero, fun _ => ⟨0, 0⟩⟩

def bigBlocksInit (h : Heap) : Heap := { h with bigBlocks := fun _ => ⟨0, 0⟩ }

/-- The first empty entry takes the allocation; the result is `-1` whether one was found or not,
and its caller drops it. -/
def insertInBigBlocks (h : Heap) (addr blocks : Nat) : Int × Heap :=
  match Fin.find? fun i => (h.bigBlocks i).startingAddress = 0 with
  | some i => (-1, { h with bigBlocks := Function.update h.bigBlocks i ⟨addr, blocks⟩ })
  | none => (-1, h)

/-- The first entry with the address, `none` for the C function's `-1`. -/
def searchAddress (h : Heap) (itemAddr : Nat) : Option (Fin bigAddress) :=
  Fin.find? fun i => (h.bigBlocks i).startingAddress = itemAddr

/-- The loop of `free_big_blocks`: one `pmm_free_block` for each block from `addr`. -/
def freeBlocks (p : Pmm) (addr : Nat) : Nat → Pmm
  | 0 => p
  | i + 1 => (freeBlocks p addr i).pmmFreeBlock ((addr + i * pmmBlockSize) % 2 ^ 32)

def freeBigBlocks (h : Heap) (addr : Nat) : Heap :=
  match h.searchAddress addr with
  | none => h
  | some index =>
    { pmm := freeBlocks h.pmm addr (h.bigBlocks index).blocks
      bigBlocks := Function.update h.bigBlocks index ⟨0, 0⟩ }

def kmallac (h : Heap) (size : Nat) : Nat × Heap :=
  if size > 4096 then
    let blocksToAllocate := blockCount size
    let (addr, pmm) := h.pmm.pmmAllocateFirstNBlocks blocksToAllocate
    if addr ≤ 0 then (0, { h with pmm := pmm })
    else (addr, (({ h with pmm := pmm }).insertInBigBlocks addr blocksToAllocate).2)
  else
    let (addr, pmm) := h.pmm.pmmAllocateBlock
    (addr, { h with pmm := pmm })

def kfree (h : Heap) (addr : Nat) : Heap :=
  if addr % 4096 ≠ 0 then h
  else if (h.searchAddress addr).isSome then h.freeBigBlocks addr
  else { h with pmm := h.pmm.pmmFreeBlock addr }

/-- The zero fill is not guarded: a failed allocation fills `size` bytes from address 0. -/
def kzalloc (h : Heap) (mem : Mem) (size : Nat) : Nat × Heap × Mem :=
  let (temp, h) := h.kmallac size
  (temp, h, memset mem temp 0 size)

/-! ## The table -/

/-- Some entry of the table is empty. -/
def HasEmptySlot (h : Heap) : Prop := ∃ i, (h.bigBlocks i).startingAddress = 0

instance (h : Heap) : Decidable h.HasEmptySlot := inferInstanceAs (Decidable (∃ _, _))

theorem insertInBigBlocks_cases (h : Heap) (addr blocks : Nat) :
    (¬ h.HasEmptySlot ∧ (h.insertInBigBlocks addr blocks).2 = h) ∨
    ∃ i, (h.bigBlocks i).startingAddress = 0 ∧
      (h.insertInBigBlocks addr blocks).2 = { h with bigBlocks := Function.update h.bigBlocks i ⟨addr, blocks⟩ } := by
  unfold insertInBigBlocks
  cases hf : Fin.find? fun i => decide ((h.bigBlocks i).startingAddress = 0) with
  | none =>
    simp only [Fin.find?_eq_none_iff, decide_eq_false_iff_not] at hf
    exact .inl ⟨fun ⟨i, hi⟩ => hf i hi, rfl⟩
  | some i =>
    exact .inr ⟨i, by simpa using (Fin.find?_eq_some_iff.1 hf).1, rfl⟩

theorem pmm_insertInBigBlocks (h : Heap) (addr blocks : Nat) : (h.insertInBigBlocks addr blocks).2.pmm = h.pmm := by
  rcases h.insertInBigBlocks_cases addr blocks with ⟨-, e⟩ | ⟨i, -, e⟩ <;> rw [e]

theorem searchAddress_some {h : Heap} {addr : Nat} {i : Fin bigAddress} (hs : h.searchAddress addr = some i) :
    (h.bigBlocks i).startingAddress = addr := by
  simpa using (Fin.find?_eq_some_iff.1 hs).1

theorem searchAddress_none {h : Heap} {addr : Nat} (hs : h.searchAddress addr = none) (i : Fin bigAddress) :
    (h.bigBlocks i).startingAddress ≠ addr := by
  simpa using Fin.find?_eq_none_iff.1 hs i

theorem searchAddress_zero {h : Heap} : (h.searchAddress 0).isSome = true ↔ h.HasEmptySlot := by
  constructor
  · intro hs
    obtain ⟨i, hi⟩ := Option.isSome_iff_exists.1 hs
    exact ⟨i, searchAddress_some hi⟩
  · rintro ⟨i, hi⟩
    by_contra hs
    rw [Option.not_isSome_iff_eq_none] at hs
    exact searchAddress_none hs i hi

/-- With every entry taken, a null address gives back block 0. -/
theorem kfree_null_full {h : Heap} (hslot : ¬ h.HasEmptySlot) : h.kfree 0 = { h with pmm := h.pmm.release 0 1 } := by
  unfold kfree
  rw [if_neg (by decide), if_neg (fun hs => hslot (searchAddress_zero.1 hs)), Pmm.pmmFreeBlock_eq]
  rfl

theorem freeBlocks_eq (p : Pmm) {s n : Nat} (hs : s + n ≤ 2 ^ 20) :
    freeBlocks p (s * pmmBlockSize) n = p.release s n := by
  induction n with
  | zero => simp [freeBlocks, Pmm.release, Bitmap.clearRange]
  | succ n ih =>
    have hd : (s * pmmBlockSize + n * pmmBlockSize) % 2 ^ 32 / pmmBlockSize = s + n := by
      unfold pmmBlockSize; omega
    rw [freeBlocks, ih (by omega), Pmm.pmmFreeBlock_eq, hd]
    simp only [Pmm.release, Bitmap.clearRange, Nat.add_zero, BitVec.ofNat_add, Pmm.mk.injEq, true_and, and_true]
    exact ⟨sub_sub _ _ _, add_assoc _ _ _⟩

/-! ## What `kmallac` can do -/

/-- Blocks `s`, … taken for `size` bytes; a large allocation is entered in the table too. -/
def grant (h : Heap) (s size : Nat) : Heap :=
  let h' := { h with pmm := h.pmm.take s (blockCount size) }
  if 4096 < size then (h'.insertInBigBlocks (s * pmmBlockSize) (blockCount size)).2 else h'

theorem pmm_grant (h : Heap) (s size : Nat) : (h.grant s size).pmm = h.pmm.take s (blockCount size) := by
  simp only [grant]
  split
  · rw [pmm_insertInBigBlocks]
  · rfl

theorem kmallac_of_le (h : Heap) {size : Nat} (hle : size ≤ 4096) :
    h.kmallac size = (h.pmm.pmmAllocateBlock.1, { h with pmm := h.pmm.pmmAllocateBlock.2 }) := by
  unfold kmallac
  rw [if_neg (Nat.not_lt_of_le hle)]

/-- Everything `kmallac` can do on a memory of at most `2^20` blocks: fail on the one-block path
with nothing changed, fail on the large path with the first blocks marked, or grant. -/
theorem kmallac_cases (h : Heap) (size : Nat) (hmem : h.pmm.pmmSystemMemorySize ≤ 2 ^ 20) :
    (size ≤ 4096 ∧ h.kmallac size = (0, h) ∧
      (h.pmm.pmmFreeBlocks = 0 ∨ h.pmm.marked 0 = false ∨
        ∀ i < h.pmm.pmmSystemMemorySize, h.pmm.marked i = true)) ∨
    (4096 < size ∧ (∀ t, 1 ≤ t → ¬ h.pmm.Fits t (blockCount size)) ∧
      h.kmallac size = (0, { h with pmm := h.pmm.spoil (blockCount size) })) ∨
    (∃ s, 1 ≤ s ∧ s + blockCount size ≤ h.pmm.pmmSystemMemorySize ∧
      (∀ i, s ≤ i → i < s + blockCount size → h.pmm.marked i = false) ∧
      h.kmallac size = (s * pmmBlockSize, h.grant s size)) := by
  unfold kmallac grant
  by_cases hbig : size > 4096
  · simp only [if_pos hbig]
    rcases h.pmm.pmmAllocateFirstNBlocks_cases (blockCount size) with ⟨hno, e⟩ | ⟨s, hs, hfit, -, e⟩
    · rw [e]
      exact .inr (.inl ⟨hbig, hno, rfl⟩)
    · have hlt := hfit.1
      have hmod : s * pmmBlockSize % 2 ^ 32 = s * pmmBlockSize := by unfold pmmBlockSize; omega
      rw [e, hmod]
      simp only
      rw [if_neg (by unfold pmmBlockSize; omega)]
      exact .inr (.inr ⟨s, hs, by omega, hfit.2, rfl⟩)
  · simp only [if_neg hbig]
    have hone := blockCount_of_le (Nat.le_of_not_lt hbig)
    rcases h.pmm.pmmAllocateBlock_cases with ⟨e, hwhy⟩ | ⟨i, -, hpos, hlt, hclear, -, e⟩
    · rw [e]
      exact .inl ⟨by omega, rfl, hwhy⟩
    · have hmod : i * pmmBlockSize % 2 ^ 32 = i * pmmBlockSize := by unfold pmmBlockSize; omega
      rw [e, hmod, hone]
      refine .inr (.inr ⟨i, hpos, by omega, fun j h1 h2 => ?_, rfl⟩)
      rw [show j = i by omega]
      exact hclear

end Heap

end SimpleMicrokernel.Memory
