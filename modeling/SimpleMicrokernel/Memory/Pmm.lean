/-
`pmm/pmm.c`: the physical block allocator. One bit for each 4096-byte block, in 32768 words, and
two counters kept beside it. The definitions are the C functions; each has one lemma that says
all it can do, over `Bitmap`.
-/
import SimpleMicrokernel.Lib.Bitmap
import SimpleMicrokernel.Memory.Basic

namespace SimpleMicrokernel.Memory

/-- `PMM_BLOCK_SIZE`. -/
def pmmBlockSize : Nat := 4096

/-- `PMM_MAX_BLOCKS`: the number of words of the map. -/
def pmmMaxBlocks : Nat := 32768

/-- The globals of `pmm.c`. -/
structure Pmm where
  pmmMemoryMap : Bitmap.Words 32
  pmmUsedBlocks : BitVec 32
  pmmFreeBlocks : BitVec 32
  pmmSystemMemorySize : Nat

namespace Pmm

/-- The globals as C initialises them before the kernel runs: all zero. -/
def zero : Pmm := ⟨fun _ => 0, 0, 0, 0⟩

def pmmMemoryMapSet (p : Pmm) (bit : Nat) : Pmm :=
  if bit = 0 then
    { p with pmmMemoryMap := Function.update p.pmmMemoryMap 0 (p.pmmMemoryMap 0 ||| 1#32 <<< 0) }
  else
    { p with pmmMemoryMap :=
        Function.update p.pmmMemoryMap (bit / 32) (p.pmmMemoryMap (bit / 32) ||| 1#32 <<< (bit % 32)) }

def pmmMemoryMapUnset (p : Pmm) (bit : Nat) : Pmm :=
  if bit = 0 then
    { p with pmmMemoryMap := Function.update p.pmmMemoryMap 0 (p.pmmMemoryMap 0 &&& ~~~(1#32 <<< 0)) }
  else
    { p with pmmMemoryMap :=
        Function.update p.pmmMemoryMap (bit / 32) (p.pmmMemoryMap (bit / 32) &&& ~~~(1#32 <<< (bit % 32))) }

def pmmMemoryMapTest (p : Pmm) (bit : Nat) : Nat :=
  if bit = 0 then
    if p.pmmMemoryMap 0 &&& 1#32 <<< 0 ≠ 0 then 1 else 0
  else
    if p.pmmMemoryMap (bit / 32) &&& 1#32 <<< (bit % 32) ≠ 0 then 1 else 0

/-- The lowest clear bit below the memory size, `-1` when there is none. -/
def pmmGetFirstFreeBlock (p : Pmm) : Int :=
  match (List.range p.pmmSystemMemorySize).find? fun i => p.pmmMemoryMapTest i = 0 with
  | some i => i
  | none => -1

def pmmAllocateBlock (p : Pmm) : Nat × Pmm :=
  if p.pmmFreeBlocks = 0 then (0, p)
  else
    let frame := p.pmmGetFirstFreeBlock
    if frame ≤ 0 then (0, p)
    else
      let p := p.pmmMemoryMapSet frame.toNat
      (frame.toNat * pmmBlockSize % 2 ^ 32,
        { p with pmmFreeBlocks := p.pmmFreeBlocks - 1, pmmUsedBlocks := p.pmmUsedBlocks + 1 })

def pmmFreeBlock (p : Pmm) (ptr : Nat) : Pmm :=
  { p with pmmFreeBlocks := p.pmmFreeBlocks + 1, pmmUsedBlocks := p.pmmUsedBlocks - 1 }.pmmMemoryMapUnset
    (ptr / pmmBlockSize)

/-- The loop `for (i = start; i < start + n; i++) pmm_memory_map_set(i)`. -/
def setBlocks (p : Pmm) (start : Nat) : Nat → Pmm
  | 0 => p
  | n + 1 => (setBlocks p start n).pmmMemoryMapSet (start + n)

/-- The clearing loop of `pmm_init`. Its bound is the number of words, its index a bit. -/
def unsetBlocks (p : Pmm) : Nat → Pmm
  | 0 => p
  | n + 1 => (unsetBlocks p n).pmmMemoryMapUnset n

def pmmInit (p : Pmm) (systemMemorySize memoryReservedForKernel : Nat) : Pmm :=
  let p := p.unsetBlocks pmmMaxBlocks
  let p := { p with
    pmmSystemMemorySize := systemMemorySize
    pmmUsedBlocks := BitVec.ofNat 32 memoryReservedForKernel
    pmmFreeBlocks := BitVec.ofNat 32 systemMemorySize - BitVec.ofNat 32 memoryReservedForKernel }
  p.setBlocks 0 memoryReservedForKernel

def pmmCheckRange (p : Pmm) (start «end» : Nat) : Nat :=
  if (List.range' start («end» - start)).any fun i => p.pmmMemoryMapTest i = 1 then 1 else 0

/-- The loop of `pmm_get_first_n_blocks`, from a start and an exclusive end. -/
def firstNBlocksLoop (p : Pmm) (startBlock endBlock : Nat) : Nat :=
  if endBlock < p.pmmSystemMemorySize then
    if p.pmmCheckRange startBlock endBlock = 0 then startBlock
    else firstNBlocksLoop p (startBlock + 1) (endBlock + 1)
  else 0
termination_by p.pmmSystemMemorySize - endBlock

def pmmGetFirstNBlocks (p : Pmm) (n : Nat) : Nat := p.firstNBlocksLoop 1 (1 + n)

/-- The blocks are marked before the start is tested, so a search that failed marks from block 0. -/
def pmmAllocateFirstNBlocks (p : Pmm) (n : Nat) : Nat × Pmm :=
  let startBlock := p.pmmGetFirstNBlocks n
  let p := p.setBlocks startBlock n
  if startBlock ≤ 0 then (0, p)
  else
    (startBlock * pmmBlockSize % 2 ^ 32,
      { p with
        pmmUsedBlocks := p.pmmUsedBlocks + BitVec.ofNat 32 n
        pmmFreeBlocks := p.pmmFreeBlocks - BitVec.ofNat 32 n })

/-! ## The map as a bitmap -/

/-- Block `i` is marked used. -/
abbrev marked (p : Pmm) (i : Nat) : Bool := Bitmap.bit p.pmmMemoryMap i

theorem pmmMemoryMapSet_eq (p : Pmm) (i : Nat) :
    p.pmmMemoryMapSet i = { p with pmmMemoryMap := Bitmap.setBit p.pmmMemoryMap i } := by
  unfold pmmMemoryMapSet Bitmap.setBit
  split
  · rename_i h; subst h; rfl
  · rfl

theorem pmmMemoryMapUnset_eq (p : Pmm) (i : Nat) :
    p.pmmMemoryMapUnset i = { p with pmmMemoryMap := Bitmap.clearBit p.pmmMemoryMap i } := by
  unfold pmmMemoryMapUnset Bitmap.clearBit
  split
  · rename_i h; subst h; rfl
  · rfl

theorem and_one_shiftLeft_ne_zero (x : BitVec 32) {k : Nat} (hk : k < 32) :
    x &&& 1#32 <<< k ≠ 0 ↔ x.getLsbD k = true := by
  constructor
  · intro h
    by_contra hx
    refine h (BitVec.eq_of_getLsbD_eq fun j hj => ?_)
    rw [BitVec.getLsbD_and, Bitmap.getLsbD_one_shiftLeft]
    by_cases he : j = k
    · subst he; simp [hx]
    · simp [he]
  · intro hx h
    have := congrArg (fun y : BitVec 32 => y.getLsbD k) h
    simp only [BitVec.getLsbD_and, Bitmap.getLsbD_one_shiftLeft, hx] at this
    simp [hk] at this

theorem pmmMemoryMapTest_eq (p : Pmm) (i : Nat) : p.pmmMemoryMapTest i = if p.marked i then 1 else 0 := by
  unfold pmmMemoryMapTest marked Bitmap.bit
  split
  · rename_i h; subst h
    simp only [and_one_shiftLeft_ne_zero _ (show 0 < 32 by omega), Nat.zero_div, Nat.zero_mod]
  · simp only [and_one_shiftLeft_ne_zero _ (Nat.mod_lt i (show 0 < 32 by omega))]

theorem pmmMemoryMapTest_eq_zero {p : Pmm} {i : Nat} : p.pmmMemoryMapTest i = 0 ↔ p.marked i = false := by
  rw [pmmMemoryMapTest_eq]
  cases p.marked i <;> simp

theorem pmmMemoryMapTest_eq_one {p : Pmm} {i : Nat} : p.pmmMemoryMapTest i = 1 ↔ p.marked i = true := by
  rw [pmmMemoryMapTest_eq]
  cases p.marked i <;> simp

theorem setBlocks_eq (p : Pmm) (start n : Nat) :
    p.setBlocks start n = { p with pmmMemoryMap := Bitmap.setRange p.pmmMemoryMap start n } := by
  induction n with
  | zero => rfl
  | succ n ih => rw [setBlocks, ih, pmmMemoryMapSet_eq]; rfl

theorem unsetBlocks_eq (p : Pmm) (n : Nat) :
    p.unsetBlocks n = { p with pmmMemoryMap := Bitmap.clearRange p.pmmMemoryMap 0 n } := by
  induction n with
  | zero => rfl
  | succ n ih => rw [unsetBlocks, ih, pmmMemoryMapUnset_eq, Bitmap.clearRange, Nat.zero_add]

/-- Blocks `s`, …, `s + n - 1` marked, and the counters moved by `n`. -/
def take (p : Pmm) (s n : Nat) : Pmm :=
  { p with
    pmmMemoryMap := Bitmap.setRange p.pmmMemoryMap s n
    pmmUsedBlocks := p.pmmUsedBlocks + BitVec.ofNat 32 n
    pmmFreeBlocks := p.pmmFreeBlocks - BitVec.ofNat 32 n }

/-- Blocks `s`, …, `s + n - 1` unmarked, and the counters moved back by `n`. -/
def release (p : Pmm) (s n : Nat) : Pmm :=
  { p with
    pmmMemoryMap := Bitmap.clearRange p.pmmMemoryMap s n
    pmmUsedBlocks := p.pmmUsedBlocks - BitVec.ofNat 32 n
    pmmFreeBlocks := p.pmmFreeBlocks + BitVec.ofNat 32 n }

/-- Blocks `0`, …, `n - 1` marked and no counter moved: what a search for `n` blocks that fails
leaves behind. -/
def spoil (p : Pmm) (n : Nat) : Pmm := { p with pmmMemoryMap := Bitmap.setRange p.pmmMemoryMap 0 n }

@[simp] theorem pmmSystemMemorySize_take (p : Pmm) (s n : Nat) :
    (p.take s n).pmmSystemMemorySize = p.pmmSystemMemorySize := rfl
@[simp] theorem pmmSystemMemorySize_release (p : Pmm) (s n : Nat) :
    (p.release s n).pmmSystemMemorySize = p.pmmSystemMemorySize := rfl
@[simp] theorem pmmSystemMemorySize_spoil (p : Pmm) (n : Nat) :
    (p.spoil n).pmmSystemMemorySize = p.pmmSystemMemorySize := rfl

theorem marked_take (p : Pmm) (s n i : Nat) :
    (p.take s n).marked i = true ↔ (s ≤ i ∧ i < s + n) ∨ p.marked i = true := by
  rw [marked, take, Bitmap.bit_setRange (by omega), Bool.or_eq_true, decide_eq_true_eq]

theorem marked_spoil (p : Pmm) (n i : Nat) : (p.spoil n).marked i = true ↔ i < n ∨ p.marked i = true := by
  rw [marked, spoil, Bitmap.bit_setRange (by omega), Bool.or_eq_true, decide_eq_true_eq]
  simp

theorem marked_release (p : Pmm) {s n i : Nat} (hi : ¬ (s ≤ i ∧ i < s + n)) :
    (p.release s n).marked i = p.marked i := by
  rw [marked, release, Bitmap.bit_clearRange (by omega), decide_eq_false hi]
  rfl

theorem release_take {p : Pmm} {s n : Nat} (h : ∀ i, s ≤ i → i < s + n → p.marked i = false) :
    (p.take s n).release s n = p := by
  unfold release take
  simp only [Bitmap.clearRange_setRange (w := 32) (by omega) h, add_sub_cancel_right, sub_add_cancel]

/-! ## What each operation can do -/

theorem pmmGetFirstFreeBlock_eq_some {p : Pmm} {i : Nat} :
    p.pmmGetFirstFreeBlock = i ↔ i < p.pmmSystemMemorySize ∧ p.marked i = false ∧ ∀ j < i, p.marked j = true := by
  have hp : (fun i => decide (p.pmmMemoryMapTest i = 0)) = fun i => !p.marked i := by
    funext i; rw [pmmMemoryMapTest_eq]; cases p.marked i <;> rfl
  unfold pmmGetFirstFreeBlock
  rw [hp]
  cases hf : (List.range p.pmmSystemMemorySize).find? fun i => !p.marked i with
  | none =>
    simp only [List.find?_eq_none, List.mem_range] at hf
    constructor
    · intro h; simp only at h; omega
    · rintro ⟨h1, h2, -⟩
      have := hf i h1
      rw [h2] at this
      simp at this
  | some k =>
    obtain ⟨h1, h2, h3⟩ := List.find?_range_eq_some.1 hf
    simp only [List.mem_range, Bool.not_eq_true', Bool.not_not, Nat.cast_inj] at h1 h2 h3 ⊢
    constructor
    · rintro rfl; exact ⟨h2, h1, h3⟩
    · rintro ⟨g1, g2, g3⟩
      rcases Nat.lt_trichotomy k i with hlt | heq | hgt
      · have := g3 k hlt; rw [h1] at this; cases this
      · exact heq
      · have := h3 i hgt; rw [g2] at this; cases this

theorem pmmGetFirstFreeBlock_neg {p : Pmm} (h : p.pmmGetFirstFreeBlock < 0) :
    ∀ i < p.pmmSystemMemorySize, p.marked i = true := by
  unfold pmmGetFirstFreeBlock at h
  split at h
  · omega
  · rename_i hf
    intro i hi
    rw [List.find?_eq_none] at hf
    have := hf i (List.mem_range.2 hi)
    rw [decide_eq_true_eq, pmmMemoryMapTest_eq_zero, Bool.not_eq_false] at this
    exact this

/-- Everything `pmm_allocate_block` can do: give up with nothing changed, or hand out the lowest
clear block. -/
theorem pmmAllocateBlock_cases (p : Pmm) :
    (p.pmmAllocateBlock = (0, p) ∧
      (p.pmmFreeBlocks = 0 ∨ p.marked 0 = false ∨ ∀ i < p.pmmSystemMemorySize, p.marked i = true)) ∨
    ∃ i, p.pmmFreeBlocks ≠ 0 ∧ 0 < i ∧ i < p.pmmSystemMemorySize ∧ p.marked i = false ∧
      (∀ j < i, p.marked j = true) ∧
      p.pmmAllocateBlock = (i * pmmBlockSize % 2 ^ 32, p.take i 1) := by
  unfold pmmAllocateBlock
  split
  · rename_i h; exact .inl ⟨rfl, .inl h⟩
  · rename_i hfree
    simp only
    split
    · rename_i hle
      refine .inl ⟨rfl, .inr ?_⟩
      rcases Int.lt_or_eq_of_le hle with hlt | heq
      · exact .inr (pmmGetFirstFreeBlock_neg hlt)
      · exact .inl (pmmGetFirstFreeBlock_eq_some (i := 0) |>.1 heq).2.1
    · rename_i hpos
      obtain ⟨i, hi⟩ := Int.eq_ofNat_of_zero_le (a := p.pmmGetFirstFreeBlock) (by omega)
      obtain ⟨h1, h2, h3⟩ := pmmGetFirstFreeBlock_eq_some.1 hi
      refine .inr ⟨i, hfree, by omega, h1, h2, h3, ?_⟩
      rw [hi, pmmMemoryMapSet_eq]
      rfl

/-- No block can be handed out: none is counted free, block 0 is clear and is taken for a failed search, or none is
clear. -/
def Spent (p : Pmm) : Prop :=
  p.pmmFreeBlocks = 0 ∨ p.marked 0 = false ∨ ∀ i < p.pmmSystemMemorySize, p.marked i = true

theorem pmmAllocateBlock_eq_zero_iff {p : Pmm} (hsize : p.pmmSystemMemorySize ≤ 2 ^ 20) : p.pmmAllocateBlock.1 = 0 ↔
    p.Spent := by
  rcases p.pmmAllocateBlock_cases with ⟨e, hspent⟩ | ⟨i, hfree, hpos, hlt, hclear, hbelow, e⟩
  · rw [e]
    exact iff_of_true rfl hspent
  · rw [e]
    refine iff_of_false (by unfold pmmBlockSize; omega) ?_
    rintro (h | h | h)
    · exact hfree h
    · rw [hbelow 0 hpos] at h
      cases h
    · rw [h i hlt] at hclear
      cases hclear

theorem pmmAllocateBlock_null {p : Pmm} (hsize : p.pmmSystemMemorySize ≤ 2 ^ 20) (h : p.pmmAllocateBlock.1 = 0) :
    p.pmmAllocateBlock.2 = p := by
  rcases p.pmmAllocateBlock_cases with ⟨e, -⟩ | ⟨i, -, hpos, hlt, -, -, e⟩
  · rw [e]
  · rw [e] at h
    unfold pmmBlockSize at h
    omega

theorem pmmFreeBlock_eq (p : Pmm) (ptr : Nat) : p.pmmFreeBlock ptr = p.release (ptr / pmmBlockSize) 1 := by
  rw [pmmFreeBlock, pmmMemoryMapUnset_eq]
  rfl

theorem pmmCheckRange_eq_zero {p : Pmm} {start «end» : Nat} :
    p.pmmCheckRange start «end» = 0 ↔ ∀ i, start ≤ i → i < «end» → p.marked i = false := by
  unfold pmmCheckRange
  rw [ite_eq_right_iff]
  simp only [List.any_eq_true, List.mem_range'_1, decide_eq_true_eq, pmmMemoryMapTest_eq_one]
  constructor
  · intro h i h1 h2
    by_contra hi
    have := h ⟨i, ⟨h1, by omega⟩, Bool.eq_true_of_not_eq_false hi⟩
    omega
  · rintro h ⟨i, ⟨h1, h2⟩, h3⟩
    rw [h i h1 (by omega)] at h3
    cases h3

/-- Blocks `s`, …, `s + n - 1` are clear and below the last block of memory. -/
def Fits (p : Pmm) (s n : Nat) : Prop :=
  s + n < p.pmmSystemMemorySize ∧ ∀ i, s ≤ i → i < s + n → p.marked i = false

theorem firstNBlocksLoop_spec (p : Pmm) (n s : Nat) (hs : 1 ≤ s) :
    (p.firstNBlocksLoop s (s + n) = 0 ∧ ∀ t, s ≤ t → ¬ p.Fits t n) ∨
    (s ≤ p.firstNBlocksLoop s (s + n) ∧ p.Fits (p.firstNBlocksLoop s (s + n)) n ∧
      ∀ t, s ≤ t → t < p.firstNBlocksLoop s (s + n) → ¬ p.Fits t n) := by
  generalize hk : p.pmmSystemMemorySize - (s + n) = k
  induction k generalizing s with
  | zero =>
    rw [firstNBlocksLoop, if_neg (by omega)]
    refine .inl ⟨rfl, fun t ht hf => ?_⟩
    have := hf.1
    omega
  | succ k ih =>
    rw [firstNBlocksLoop, if_pos (by omega)]
    by_cases hc : p.pmmCheckRange s (s + n) = 0
    · rw [if_pos hc]
      exact .inr ⟨le_refl _, ⟨by omega, pmmCheckRange_eq_zero.1 hc⟩, fun t h1 h2 => by omega⟩
    · rw [if_neg hc, show s + n + 1 = s + 1 + n by omega]
      have hns : ¬ p.Fits s n := fun hf => hc (pmmCheckRange_eq_zero.2 hf.2)
      rcases ih (s + 1) (by omega) (by omega) with ⟨h1, h2⟩ | ⟨h1, h2, h3⟩
      · refine .inl ⟨h1, fun t ht => ?_⟩
        rcases Nat.lt_or_eq_of_le ht with hlt | rfl
        · exact h2 t hlt
        · exact hns
      · refine .inr ⟨by omega, h2, fun t ht hlt => ?_⟩
        rcases Nat.lt_or_eq_of_le ht with hlt' | rfl
        · exact h3 t hlt' hlt
        · exact hns

/-- The search gives the first start that fits, and 0 exactly when none does. -/
theorem pmmGetFirstNBlocks_spec (p : Pmm) (n : Nat) :
    (p.pmmGetFirstNBlocks n = 0 ∧ ∀ t, 1 ≤ t → ¬ p.Fits t n) ∨
    (1 ≤ p.pmmGetFirstNBlocks n ∧ p.Fits (p.pmmGetFirstNBlocks n) n ∧
      ∀ t, 1 ≤ t → t < p.pmmGetFirstNBlocks n → ¬ p.Fits t n) := by
  unfold pmmGetFirstNBlocks
  exact firstNBlocksLoop_spec p n 1 (le_refl 1)

/-- Everything `pmm_allocate_first_n_blocks` can do: a failed search marks the first `n` blocks
and touches no counter; a successful one takes the first run that fits. -/
theorem pmmAllocateFirstNBlocks_cases (p : Pmm) (n : Nat) :
    ((∀ t, 1 ≤ t → ¬ p.Fits t n) ∧
      p.pmmAllocateFirstNBlocks n = (0, p.spoil n)) ∨
    ∃ s, 1 ≤ s ∧ p.Fits s n ∧ (∀ t, 1 ≤ t → t < s → ¬ p.Fits t n) ∧
      p.pmmAllocateFirstNBlocks n = (s * pmmBlockSize % 2 ^ 32, p.take s n) := by
  unfold pmmAllocateFirstNBlocks
  simp only [setBlocks_eq]
  rcases pmmGetFirstNBlocks_spec p n with ⟨h1, h2⟩ | ⟨h1, h2, h3⟩
  · rw [h1, if_pos (le_refl 0)]
    exact .inl ⟨h2, rfl⟩
  · rw [if_neg (by omega)]
    exact .inr ⟨_, h1, h2, h3, rfl⟩

theorem bit_zero (i : Nat) : Bitmap.bit (w := 32) (fun _ => 0) i = false := by
  simp [Bitmap.bit]

/-- The zero globals after `pmm_init`: exactly the reserved blocks marked and counted. -/
def booted (size reserved : Nat) : Pmm :=
  ⟨Bitmap.setRange (fun _ => 0) 0 reserved, BitVec.ofNat 32 reserved,
    BitVec.ofNat 32 size - BitVec.ofNat 32 reserved, size⟩

theorem pmmInit_zero (size reserved : Nat) : Pmm.zero.pmmInit size reserved = booted size reserved := by
  have hmap : Bitmap.clearRange (w := 32) (fun _ => 0) 0 pmmMaxBlocks = fun _ => 0 := by
    refine Bitmap.ext_bit (by omega) fun i => ?_
    rw [Bitmap.bit_clearRange (by omega), bit_zero, Bool.and_false]
  simp only [pmmInit, setBlocks_eq, unsetBlocks_eq, zero, hmap, booted]

theorem marked_booted (size reserved i : Nat) : (booted size reserved).marked i = decide (i < reserved) := by
  rw [marked, booted, Bitmap.bit_setRange (by omega), bit_zero]
  simp

end Pmm

end SimpleMicrokernel.Memory
