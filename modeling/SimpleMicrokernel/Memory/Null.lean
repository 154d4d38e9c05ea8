/-
`kfree` of the null address. It has no check of its own: the search in `big_blocks` takes 0 for an
address and finds the first empty entry, whose 0 blocks are freed. When every entry is taken it
falls through to `pmm_free_block(0)`, which clears block 0.
-/
import SimpleMicrokernel.Memory.AllocLaws
import SimpleMicrokernel.Memory.Frame
import SimpleMicrokernel.Memory.Search

namespace SimpleMicrokernel.Memory

/-! ## One call -/

section
variable {reserved size : Nat} {h : Heap} {L : Ledger Live.extent reserved size}

theorem Pmm.marked_release_self (p : Pmm) (i : Nat) : (p.release i 1).marked i = false := by
  rw [Pmm.marked, Pmm.release, Bitmap.bit_clearRange (by omega)]
  simp

theorem HeapOk.kfree_null_eq_iff (hok : HeapOk h L) : h.kfree 0 = h ↔ h.HasEmptySlot := by
  refine ⟨fun he => ?_, hok.kfree_null_eq⟩
  by_contra hslot
  rw [Heap.kfree_null_full hslot] at he
  have hfree : h.pmm.pmmFreeBlocks + BitVec.ofNat 32 1 = h.pmm.pmmFreeBlocks :=
    congrArg (fun h => h.pmm.pmmFreeBlocks) he
  exact absurd (left_eq_add.1 hfree.symm) (by decide)

end

/-! ## Runs -/

/-- A call of the allocator, or a `kfree` of the null address. -/
inductive FreeOp where
  | call (op : Op)
  | kfreeNull
deriving DecidableEq, Repr

namespace AllocState

def freeStep (s : AllocState) : FreeOp → AllocState
  | .call op => s.step op
  | .kfreeNull => { s with heap := s.heap.kfree 0 }

theorem freeStep_null (s : AllocState) : s.freeStep .kfreeNull = { s with heap := s.heap.kfree 0 } := rfl

def FreeAllows (s : AllocState) : FreeOp → Prop
  | .call op => s.Allows op
  | .kfreeNull => True

/-- Every reserved block is marked, block 0 included. -/
def KeepsReserved (reserved : Nat) (s : AllocState) : Prop := ∀ i < reserved, s.heap.pmm.pmmMemoryMapTest i = 1

/-- A null address given back changes neither the map, the counters nor `big_blocks`. -/
def NullChangesNothing (s : AllocState) (op : FreeOp) : Prop := op = .kfreeNull → (s.freeStep op).heap = s.heap

/-- A null address is given back while some entry of `big_blocks` is empty. -/
def NullFindsSlot (s : AllocState) (op : FreeOp) : Prop := op = .kfreeNull → s.heap.HasEmptySlot

variable {reserved size : Nat} {s : AllocState}

theorem freeStep_ok {op : FreeOp} (h : Ok reserved size s) (hop : s.FreeAllows op) :
    Ok reserved size (s.freeStep op) := by
  cases op with
  | call op => exact step_ok h hop
  | kfreeNull =>
    obtain ⟨L, hlive, hok⟩ := h
    have hnull := hok.kfree_null
    rw [freeStep_null]
    generalize s.heap.kfree 0 = h at hnull ⊢
    exact ⟨L, hlive, hnull⟩

/-- No call of the allocator gives block 0 back: nothing live holds it. -/
theorem step_marked_zero {op : Op} (h : Ok (max 1 reserved) size s) (hop : s.Allows op)
    (h0 : s.heap.pmm.marked 0 = true) :
    (s.step op).heap.pmm.marked 0 = true := by
  obtain ⟨L, hlive, hok⟩ := h
  have hout : ∀ {a : Live} {n : Nat}, a ∈ s.live → n ≤ blockCount a.size →
    (s.heap.pmm.release a.extent.start n).marked 0 = true := by
    intro a n ha hn
    rw [HeapOk.marked_release_start hn]
    · exact h0
    · intro hcell
      have := (hok.addr_eq (hlive ▸ ha)).2.1
      rw [Extent.mem_cells] at hcell
      omega
  have hmalloc : ∀ n, (s.heap.kmallac n).2.pmm.marked 0 = true := by
    intro n
    rcases s.heap.kmallac_cases n hok.memoryLe with ⟨-, e, -⟩ | ⟨-, -, e⟩ | ⟨t, -, -, -, e⟩
    · rw [e]
      exact h0
    · rw [e]
      exact (Pmm.marked_spoil _ _ 0).2 (.inr h0)
    · rw [e, Heap.pmm_grant]
      exact (Pmm.marked_take _ _ _ 0).2 (.inr h0)
  cases op with
  | kmallac n => exact hmalloc n
  | kzalloc n => exact hmalloc n
  | kfree a =>
    rcases hok.kfree_cases (hlive ▸ hop.1) with ⟨i, -, -, e⟩ | ⟨-, e⟩
    · simp only [step, e]
      exact hout hop.1 (Nat.le_refl _)
    · simp only [step, e]
      exact hout hop.1 (blockCount_pos _)
  | pmmAllocateBlock =>
    rcases s.heap.pmm.pmmAllocateBlock_cases with ⟨e, -⟩ | ⟨i, -, -, -, -, -, e⟩
    · simp only [step, e]
      exact h0
    · simp only [step, e]
      exact (Pmm.marked_take _ _ _ 0).2 (.inr h0)
  | pmmFreeBlock a =>
    simp only [step, Pmm.pmmFreeBlock_eq]
    exact hout hop.1 (blockCount_pos _)

theorem keepsReserved_iff (h : Ok (max 1 reserved) size s) (h1 : 1 ≤ reserved) :
    s.KeepsReserved reserved ↔ s.heap.pmm.marked 0 = true := by
  obtain ⟨L, -, hok⟩ := h
  constructor
  · exact fun hkeeps => Pmm.pmmMemoryMapTest_eq_one.1 (hkeeps 0 h1)
  · intro h0 i hi
    rw [Pmm.pmmMemoryMapTest_eq_one]
    rcases Nat.eq_zero_or_pos i with rfl | hpos
    · exact h0
    · exact hok.reserved i hpos (by omega)

/-- Along any run of the allocator and of null addresses given back, every state keeps the reserved
blocks and no null address given back changes anything exactly when each is given back while some
entry of `big_blocks` is empty. -/
theorem reserved_kept_iff (h1 : 1 ≤ reserved) (_ : reserved ≤ size) (h3 : size ≤ 2 ^ 20) (mem : Mem) (ops : List FreeOp)
    (hops : Run.AllSteps freeStep FreeAllows (init size reserved mem) ops) :
    (Run.AllStates freeStep (KeepsReserved reserved) (init size reserved mem) ops ∧
      Run.AllSteps freeStep NullChangesNothing (init size reserved mem) ops) ↔
    Run.AllSteps freeStep NullFindsSlot (init size reserved mem) ops := by
  have hinit : Ok (max 1 reserved) size (init size reserved mem) := ok_init h3 mem
  have hinv : ∀ (s : AllocState) op, Ok (max 1 reserved) size s → s.FreeAllows op →
    Ok (max 1 reserved) size (s.freeStep op) :=
    fun s op h hop => freeStep_ok h hop
  have hstart : KeepsReserved reserved (init size reserved mem) := by
    intro i hi
    rw [init_eq, Pmm.pmmMemoryMapTest_eq_one]
    exact (Pmm.marked_booted size reserved i).trans (decide_eq_true hi)
  have hkept : Run.AllStates freeStep (KeepsReserved reserved) (init size reserved mem) ops ↔
      Run.AllSteps freeStep NullFindsSlot (init size reserved mem) ops := by
    refine Run.allStates_iff_allSteps hinv (fun s op h hop hkeeps => ?_) hinit hstart hops
    rw [keepsReserved_iff (hinv s op h hop) h1]
    rw [keepsReserved_iff h h1] at hkeeps
    cases op with
    | call op => exact ⟨fun _ => nofun, fun _ => step_marked_zero h hop hkeeps⟩
    | kfreeNull =>
      obtain ⟨L, -, hok⟩ := h
      constructor
      · intro hmarked _
        by_contra hslot
        rw [freeStep_null, Heap.kfree_null_full hslot, Pmm.marked_release_self] at hmarked
        cases hmarked
      · intro hslot
        rw [freeStep_null, hok.kfree_null_eq (hslot rfl)]
        exact hkeeps
  have hnothing : Run.AllSteps freeStep NullChangesNothing (init size reserved mem) ops ↔
      Run.AllSteps freeStep NullFindsSlot (init size reserved mem) ops := by
    refine Run.allSteps_congr hinv (fun s op h _ => ?_) hinit hops
    obtain ⟨L, -, hok⟩ := h
    cases op with
    | call op => exact ⟨fun _ => nofun, fun _ => nofun⟩
    | kfreeNull =>
      have hiff := hok.kfree_null_eq_iff
      unfold NullChangesNothing
      rw [freeStep_null]
      generalize s.heap.kfree 0 = h at hiff ⊢
      exact ⟨fun he _ => hiff.1 (he rfl), fun hslot _ => hiff.2 (hslot rfl)⟩
  rw [hkept, hnothing, and_self]

theorem reserved_kept_small :
    (Run.AllStates freeStep (KeepsReserved 1) (init 16 1 fun _ => 0) [.call (.kmallac 9000), .kfreeNull] ∧
      Run.AllSteps freeStep NullChangesNothing (init 16 1 fun _ => 0) [.call (.kmallac 9000), .kfreeNull]) ↔
    Run.AllSteps freeStep NullFindsSlot (init 16 1 fun _ => 0) [.call (.kmallac 9000), .kfreeNull] :=
  reserved_kept_iff (by decide) (by decide) (by decide) (fun _ => 0) [.call (.kmallac 9000), .kfreeNull]
    ⟨by simp only [FreeAllows, Allows]; decide, trivial, trivial⟩

/-- With a hundred two-block allocations live a null address given back clears block 0. -/
theorem kfree_null_clears_zero :
    let ops := List.replicate 100 (FreeOp.call (.kmallac 8192)) ++ [.kfreeNull]
    Run.AllSteps freeStep FreeAllows (init 300 1 fun _ => 0) ops ∧
      ¬ KeepsReserved 1 (Run.run freeStep (init 300 1 fun _ => 0) ops) := by
  have hcalls : ∀ (ops : List Op) (s : AllocState), Run.run freeStep s (ops.map .call) = s.after ops ∧
      (Allowed s ops → Run.AllSteps freeStep FreeAllows s (ops.map .call)) := by
    intro ops
    induction ops with
    | nil => exact fun s => ⟨rfl, fun _ => trivial⟩
    | cons op ops ih => exact fun s => ⟨(ih _).1, fun h => ⟨h.1, (ih _).2 h.2⟩⟩
  have hheap : ((init 300 1 fun _ => 0).after (List.replicate 100 (.kmallac 8192))).heap = packed 300 100 :=
    after_replicate (by decide) (fun _ => 0) (Nat.le_refl 100) (by decide)
  have hmap : List.replicate 100 (FreeOp.call (.kmallac 8192)) = (List.replicate 100 (Op.kmallac 8192)).map .call := by
    rw [List.map_replicate]
  obtain ⟨hrun, hallowed⟩ := hcalls (List.replicate 100 (.kmallac 8192)) (init 300 1 fun _ => 0)
  simp only
  rw [hmap, Run.allSteps_append, Run.run_append, hrun]
  refine ⟨⟨hallowed (allowed_replicate 8192 (by decide) 100 _), trivial, trivial⟩, fun hkeeps => ?_⟩
  have hzero := hkeeps 0 (by decide)
  have hfull : ¬ (packed 300 100).HasEmptySlot := not_hasEmptySlot_packed rfl
  rw [Pmm.pmmMemoryMapTest_eq_one, Run.run_cons, Run.run_nil, freeStep_null, hheap, Heap.kfree_null_full hfull,
    Pmm.marked_release_self] at hzero
  cases hzero

end AllocState

end SimpleMicrokernel.Memory
