/-
What the kernel clears before it uses it: `pmm_init`, `heap_init` and `fs_init` on whatever memory held
before. `pmm_init` clears as many bits as the map has words, `heap_init` declares the function that
clears the table of big blocks and does not call it, and `fs_load` clears as many bytes as there are
pointers. The tables are right after them when the rest was zero already.
-/
import SimpleMicrokernel.Env
import SimpleMicrokernel.Memory.Kheap
import Mathlib.Data.Fin.Tuple.Basic

namespace SimpleMicrokernel.Fs

open Memory

/-- `MAX_FILESYSTEMS`, and `sizeof(file_descriptors)`: 512 pointers. -/
abbrev maxFilesystems : Nat := 12
def sizeofFileDescriptors : Nat := 2048

/-- The globals that are set up at the start. The two tables of pointers are their bytes. -/
structure Globals where
  heap : Heap
  filesystems : Mem
  fileDescriptors : Mem

/-- Pointer `i` of a table. -/
def pointerAt (table : Mem) (i : Nat) : BitVec 32 := uint32At table (4 * i)

/-- The first null slot from 1 on, `none` for the C function's `-1`. -/
def fsGetFreeSlot (filesystems : Mem) : Option (Fin maxFilesystems) :=
  Fin.find? fun i => 1 ≤ i.val ∧ pointerAt filesystems i = 0

def fsInsertFilesystem (g : Globals) (fs : BitVec 32) : Except Halt Globals :=
  match fsGetFreeSlot g.filesystems with
  | none => .error .panic
  | some slot => .ok { g with filesystems := setUint32 g.filesystems (4 * slot.val) fs }

/-- `fat16_init()` gives the address of the one file system there is. -/
def fsStaticLoad (g : Globals) (fat16Fs : BitVec 32) : Except Halt Globals := fsInsertFilesystem g fat16Fs

/-- The number of pointers stands where the number of bytes should. -/
def fsLoad (g : Globals) (fat16Fs : BitVec 32) : Except Halt Globals :=
  fsStaticLoad { g with filesystems := memset g.filesystems 0 0 maxFilesystems } fat16Fs

def fsInit (g : Globals) (fat16Fs : BitVec 32) : Except Halt Globals :=
  fsLoad { g with fileDescriptors := memset g.fileDescriptors 0 0 sizeofFileDescriptors } fat16Fs

/-- `void big_blocks_init();` in its body declares the function. -/
def heapInit (g : Globals) : Globals := g

/-- The three calls, in the order of the kernel's start. -/
def initTables (g : Globals) (systemMemorySize memoryReservedForKernel : Nat) (fat16Fs : BitVec 32) :
    Except Halt Globals :=
  fsInit (heapInit { g with heap := { g.heap with pmm := g.heap.pmm.pmmInit systemMemorySize memoryReservedForKernel
    } }) fat16Fs

/-- The tables as they should be: the reserved blocks marked and no others, no big block, no descriptor,
and the one file system in one slot. -/
structure TablesSet (size reserved : Nat) (fat16Fs : BitVec 32) (g : Globals) : Prop where
  blocks : ∀ i < size, g.heap.pmm.marked i = decide (i < reserved)
  bigBlocks : ∀ i, g.heap.bigBlocks i = ⟨0, 0⟩
  fileDescriptors : ∀ i < 512, pointerAt g.fileDescriptors i = 0
  filesystems : ∃ slot < maxFilesystems, pointerAt g.filesystems slot = fat16Fs ∧
    ∀ i < maxFilesystems, i ≠ slot → pointerAt g.filesystems i = 0

section
variable {g g' : Globals} {size reserved : Nat} {fat16Fs : BitVec 32}

theorem pointerAt_memset (table : Mem) {m n : Nat} (hm : m = 4 * n) (i : Nat) :
    pointerAt (memset table 0 0 m) i = if i < n then 0 else pointerAt table i := by
  unfold pointerAt
  split
  · rename_i h
    have hzero : ∀ x, 4 * i ≤ x → x < 4 * i + 4 → memset table 0 0 m x = (fun _ => 0 : Mem) x := by
      intro x h1 h2
      rw [memset_apply, if_pos (by omega)]
    rw [uint32At_congr hzero]
    exact (by decide : (0 : Byte) ++ (0 : Byte) ++ (0 : Byte) ++ (0 : Byte) = (0 : BitVec 32))
  · rename_i h
    refine uint32At_congr fun x h1 h2 => ?_
    rw [memset_apply, if_neg (by omega)]

theorem marked_pmmInit (p : Pmm) (size reserved i : Nat) :
    (p.pmmInit size reserved).marked i = (decide (i < reserved) || (decide (pmmMaxBlocks ≤ i) && p.marked i)) := by
  unfold Pmm.pmmInit Pmm.marked
  simp only [Pmm.setBlocks_eq, Pmm.unsetBlocks_eq]
  rw [Bitmap.bit_setRange (by omega), Bitmap.bit_clearRange (by omega)]
  simp only [Nat.zero_le, true_and, Nat.zero_add]
  rw [← decide_not, decide_eq_decide.2 (Nat.not_lt (a := i) (b := pmmMaxBlocks))]

/-- After the three calls the file system is in slot 1, and the slots from 3 on are as they were. -/
theorem initTables_eq (g : Globals) (size reserved : Nat) (fat16Fs : BitVec 32) : ∃ g',
    initTables g size reserved fat16Fs = .ok g' ∧ g'.heap = { g.heap with pmm := g.heap.pmm.pmmInit size reserved } ∧
      (∀ i < 512, pointerAt g'.fileDescriptors i = 0) ∧
      ∀ i, pointerAt g'.filesystems i = if i = 1 then fat16Fs else if i < 3 then 0 else pointerAt g.filesystems i := by
  have hclear : ∀ i, pointerAt (memset g.filesystems 0 0 maxFilesystems) i = if i < 3 then 0 else
    pointerAt g.filesystems i :=
    pointerAt_memset g.filesystems (by decide)
  have hslot : fsGetFreeSlot (memset g.filesystems 0 0 maxFilesystems) = some 1 := by
    unfold fsGetFreeSlot
    rw [Fin.find?_eq_some_iff]
    refine ⟨?_, fun j hj => ?_⟩
    · exact decide_eq_true ⟨Nat.le_refl 1, (hclear 1).trans (if_pos (by decide))⟩
    · have hj0 : j.val = 0 := by
        have h1 : j.val < 1 := hj
        omega
      simp [hj0]
  refine ⟨⟨{ g.heap with pmm := g.heap.pmm.pmmInit size reserved },
    setUint32 (memset g.filesystems 0 0 maxFilesystems) 4 fat16Fs, memset g.fileDescriptors 0 0 sizeofFileDescriptors⟩,
    ?_, rfl, fun i hi => ?_, fun i => ?_⟩
  · unfold initTables fsInit fsLoad fsStaticLoad fsInsertFilesystem heapInit
    simp only [hslot]
    rfl
  · exact (pointerAt_memset (n := 512) g.fileDescriptors (by decide) i).trans (if_pos hi)
  · by_cases h1 : i = 1
    · subst h1
      exact uint32At_setUint32 _ 4 fat16Fs
    · rw [if_neg h1, ← hclear]
      exact uint32At_setUint32_of_ne _ fat16Fs (by omega)

/-- The tables come out right exactly when the bits past the cleared ones were clear up to the size of
memory, the table of big blocks was empty, and the pointers past the cleared bytes were null. -/
theorem tablesSet_iff (g : Globals) (size reserved : Nat) (fat16Fs : BitVec 32) :
    (∃ g', initTables g size reserved fat16Fs = .ok g' ∧ TablesSet size reserved fat16Fs g') ↔
      (∀ i, pmmMaxBlocks ≤ i → reserved ≤ i → i < size → g.heap.pmm.marked i = false) ∧
      (∀ i, g.heap.bigBlocks i = ⟨0, 0⟩) ∧
      ∀ i, 3 ≤ i → i < maxFilesystems → pointerAt g.filesystems i = 0 := by
  obtain ⟨g', e, hheap, hfds, hfs⟩ := initTables_eq g size reserved fat16Fs
  constructor
  · rintro ⟨g'', e', h⟩
    rw [e] at e'
    cases e'
    refine ⟨fun i hmax hres hi => ?_, fun i => ?_, fun i h3 hi => ?_⟩
    · have hb := h.blocks i hi
      rw [hheap, marked_pmmInit, decide_eq_true hmax, decide_eq_false (by omega)] at hb
      simpa using hb
    · have hb := h.bigBlocks i
      rwa [hheap] at hb
    · obtain ⟨slot, -, hslot, hothers⟩ := h.filesystems
      have hi' : pointerAt g.filesystems i = pointerAt g'.filesystems i := by
        rw [hfs i, if_neg (by omega), if_neg (by omega)]
      by_cases hsame : i = slot
      · -- the slot that counts is not slot 1, so slot 1 and with it the file system is null
        have hone := hothers 1 (by decide) (by omega)
        rw [hfs 1, if_pos rfl] at hone
        rw [hi', hsame, hslot, hone]
      · rw [hi']
        exact hothers i hi hsame
  · rintro ⟨hbits, hbig, hnull⟩
    refine ⟨g', e, fun i hi => ?_, fun i => ?_, hfds, 1, by decide, ?_, fun i hi hne => ?_⟩
    · rw [hheap, marked_pmmInit]
      by_cases hres : i < reserved
      · simp [hres]
      · by_cases hmax : pmmMaxBlocks ≤ i
        · simp [hres, hbits i hmax (by omega) hi]
        · simp [hres, hmax]
    · rw [hheap]
      exact hbig i
    · rw [hfs 1, if_pos rfl]
    · rw [hfs i, if_neg hne]
      split
      · rfl
      · exact hnull i (by omega) hi

end

/-- Memory that held one entry of the table of big blocks before the start. -/
def leftover : Globals := ⟨{ Heap.zero with bigBlocks := fun i => if i.val = 0 then ⟨0x100000, 2⟩ else ⟨0, 0⟩ },
      fun _ => 0, fun _ => 0⟩

/-- The entry is still there after the start. -/
theorem bigBlock_left : 1 ≤ 25000 ∧ 25000 ≤ 250000 ∧ 250000 ≤ 2 ^ 20 ∧
    ¬ ∃ g', initTables leftover 250000 25000 0x8000 = .ok g' ∧ TablesSet 250000 25000 0x8000 g' := by
  refine ⟨by decide, by decide, by decide, ?_⟩
  rintro ⟨g', e, h⟩
  obtain ⟨g'', e', hheap, -⟩ := initTables_eq leftover 250000 25000 0x8000
  rw [e] at e'
  cases e'
  have hentry := h.bigBlocks 0
  rw [hheap] at hentry
  cases hentry

end SimpleMicrokernel.Fs
