/-
`memory/paging/paging.c`: page directories in memory, as `paging_new_4gb` lays them out and the
other functions read and change them.
-/
import SimpleMicrokernel.Fs.Alloc

namespace SimpleMicrokernel.Paging

open Memory Fs

/-- `PTE_PRESENT`, `PTE_WRITEABLE`, `PTE_ACCESS_FROM_ALL`. -/
def ptePresent : BitVec 32 := 0b00000001
def pteWriteable : BitVec 32 := 0b00000010
def pteAccessFromAll : BitVec 32 := 0b00000100

/-- `PAGING_TOTAL_ENTRIES_PER_TABLE`, `PAGING_PAGE_SIZE`. -/
abbrev pagingTotalEntriesPerTable : Nat := 1024
abbrev pagingPageSize : Nat := 4096

/-- `entry & 0xfffff000`, as an address. -/
def frameOf (entry : BitVec 32) : Nat := (entry &&& 0xfffff000#32).toNat

/-! ## Making a directory -/

/-- `entry[b] = (offset + (b * PAGING_PAGE_SIZE)) | flags` for the first `n` entries of a table. -/
def fillTable (mem : Mem) (entry : Nat) (offset flags : BitVec 32) : Nat → Mem
  | 0 => mem
  | b + 1 => setUint32 (fillTable mem entry offset flags b) (entry + 4 * b)
      ((offset + BitVec.ofNat 32 (b * pagingPageSize)) ||| flags)

/-- The loop of `paging_new_4gb`, `n` tables left to make from index `i` on: whether all were made. -/
def tablesLoop (flags : BitVec 32) (directory : Nat) : Nat → Nat → BitVec 32 → FsM Bool
  | 0, _, _ => return true
  | n + 1, i, offset => do
    let entry ← pmmAllocateBlock
    if entry = 0 then
      return false
    setMem fun mem => fillTable mem entry offset flags pagingTotalEntriesPerTable
    setMem fun mem => setUint32 mem (directory + 4 * i) (BitVec.ofNat 32 entry ||| flags ||| pteWriteable)
    tablesLoop flags directory n (i + 1)
      (offset + BitVec.ofNat 32 (pagingTotalEntriesPerTable * pagingPageSize))

/-- The chunk is not tested: with no block for it, `directory_entry` is stored through null. Tables
made before one could not be allocated stay allocated. -/
def pagingNew4gb (flags : BitVec 8) : FsM Nat := do
  let directory ← pmmAllocateBlock
  if directory = 0 then
    return 0
  if ← tablesLoop (flags.setWidth 32) directory pagingTotalEntriesPerTable 0 0 then
    let chunk4gb ← pmmAllocateBlock
    setMem fun mem => setUint32 mem chunk4gb (BitVec.ofNat 32 directory)
    return chunk4gb
  else
    return 0

/-- `chunk->directory_entry`. -/
def directoryEntry (mem : Mem) (chunk : Nat) : Nat := (uint32At mem chunk).toNat

/-- The address of the table that entry `i` of a directory names. -/
def tableAddr (mem : Mem) (directory i : Nat) : Nat := frameOf (uint32At mem (directory + 4 * i))

/-- The loop of `paging_free_4gb`, `n` tables left to give back from index `i` on. -/
def freeTables (chunk : Nat) : Nat → Nat → FsM Unit
  | 0, _ => return
  | n + 1, i => do
    let mem := (← get).mem
    pmmFreeBlock (tableAddr mem (directoryEntry mem chunk) i)
    freeTables chunk n (i + 1)

/-- This gives back all tables, the directory and the chunk. -/
def pagingFree4gb (chunk : Nat) : FsM Unit := do
  freeTables chunk pagingTotalEntriesPerTable 0
  pmmFreeBlock (directoryEntry (← get).mem chunk)
  pmmFreeBlock chunk

/-! ## Reading and changing one -/

/-- `none` for an address that is not page-aligned; the indexes are left as they were then. -/
def pagingGetIndexes (virtualAddress : Nat) : Option (Nat × Nat) :=
  if virtualAddress % pagingPageSize = 0 then
    some (virtualAddress / (pagingTotalEntriesPerTable * pagingPageSize),
      virtualAddress % (pagingTotalEntriesPerTable * pagingPageSize) / pagingPageSize)
  else none

def pagingGet (mem : Mem) (directory virt : Nat) : BitVec 32 :=
  let (directoryIndex, tableIndex) := (pagingGetIndexes virt).getD (0, 0)
  uint32At mem (tableAddr mem directory directoryIndex + 4 * tableIndex)

def pagingSet (mem : Mem) (directory virt : Nat) (val : BitVec 32) : Int × Mem :=
  match pagingGetIndexes virt with
  | none => (-1, mem)
  | some (directoryIndex, tableIndex) =>
    (1, setUint32 mem (tableAddr mem directory directoryIndex + 4 * tableIndex) val)

def pagingAlignAddress (ptr : Nat) : Nat :=
  if ptr % pagingPageSize ≠ 0 then (ptr + pagingPageSize - ptr % pagingPageSize) % 2 ^ 32 else ptr

def pagingMap (mem : Mem) (directory virtualAddr phyAddr : Nat) (flags : BitVec 32) : Int × Mem :=
  if virtualAddr % pagingPageSize ≠ 0 ∨ phyAddr % pagingPageSize ≠ 0 then (-1, mem)
  else pagingSet mem directory virtualAddr (BitVec.ofNat 32 phyAddr ||| flags)

/-- The loop over the pages left, the addresses wrapping at `2^32`. -/
def pagingMapRange (directory : Nat) (flags : BitVec 32) : Nat → Mem → Nat → Nat → Int × Mem
  | 0, mem, _, _ => (1, mem)
  | n + 1, mem, virtualAddr, phyAddr =>
    let (res, mem) := pagingMap mem directory virtualAddr phyAddr flags
    if res < 0 then (-1, mem)
    else pagingMapRange directory flags n mem ((virtualAddr + pagingPageSize) % 2 ^ 32)
      ((phyAddr + pagingPageSize) % 2 ^ 32)

def pagingMapTo (mem : Mem) (directory virtualAddr phyAddr phyAddrEnd : Nat) (flags : BitVec 32) : Int × Mem :=
  if virtualAddr % pagingPageSize ≠ 0 then (-1, mem)
  else if phyAddr % pagingPageSize ≠ 0 then (-1, mem)
  else if phyAddrEnd % pagingPageSize ≠ 0 then (-1, mem)
  else if phyAddrEnd < phyAddr then (-1, mem)
  else
    let totalBytes := phyAddrEnd - phyAddr
    let totalPages := totalBytes / pagingPageSize
    pagingMapRange directory flags totalPages mem virtualAddr phyAddr

/-! ## Entries -/

theorem frameOf_eq (entry : BitVec 32) : frameOf entry = entry.toNat / 4096 * 4096 := by
  have hmask : ∀ i : Fin 32, (0xfffff000#32).getLsbD i = !decide ((i : Nat) < 12) := by decide
  have he : entry &&& 0xfffff000#32 = entry >>> 12 <<< 12 := by
    refine BitVec.eq_of_getLsbD_eq fun i hi => ?_
    have := hmask ⟨i, hi⟩
    simp only at this
    rw [BitVec.getLsbD_and, this, BitVec.getLsbD_shiftLeft, BitVec.getLsbD_ushiftRight]
    by_cases h : i < 12
    · simp [h]
    · simp [h, hi, show 12 + (i - 12) = i by omega]
  have hlt := entry.isLt
  unfold frameOf
  rw [he, BitVec.toNat_shiftLeft, BitVec.toNat_ushiftRight, Nat.shiftRight_eq_div_pow, Nat.shiftLeft_eq]
  omega

theorem toNat_entry {p : Nat} (hp : p < 2 ^ 20) {flags : BitVec 32} (hf : flags.toNat < 4096) :
    (BitVec.ofNat 32 (p * 4096) ||| flags).toNat = p * 4096 + flags.toNat := by
  rw [BitVec.toNat_or, BitVec.toNat_ofNat, Nat.mod_eq_of_lt (by omega), Nat.mul_comm p]
  exact (Nat.two_pow_add_eq_or_of_lt (i := 12) hf p).symm

theorem frameOf_entry {p : Nat} (hp : p < 2 ^ 20) {flags : BitVec 32} (hf : flags.toNat < 4096) :
    frameOf (BitVec.ofNat 32 (p * 4096) ||| flags) = p * 4096 := by
  rw [frameOf_eq, toNat_entry hp hf]
  omega

theorem and_entry (p : Nat) {flags k : BitVec 32} (hk : k.toNat < 4096) :
    (BitVec.ofNat 32 (p * 4096) ||| flags) &&& k = flags &&& k := by
  have h0 : BitVec.ofNat 32 (p * 4096) &&& k = 0#32 := by
    refine BitVec.eq_of_getLsbD_eq fun i hi => ?_
    rw [BitVec.getLsbD_and, BitVec.getLsbD_ofNat]
    by_cases h : i < 12
    · have : (p * 4096).testBit i = false := by
        rw [show (4096 : Nat) = 2 ^ 12 by rfl, Nat.testBit_mul_two_pow]
        simp [Nat.not_le_of_lt h]
      simp [this]
    · have : k.getLsbD i = false := by
        refine Nat.testBit_lt_two_pow (Nat.lt_of_lt_of_le hk ?_)
        exact Nat.pow_le_pow_right (n := 2) (by decide) (Nat.le_of_not_lt h)
      simp [this]
  rw [BitVec.and_comm, BitVec.and_or_distrib_left, BitVec.and_comm k, h0, BitVec.zero_or, BitVec.and_comm k]

end SimpleMicrokernel.Paging
