/-
`paging_free_4gb` gives back exactly what `paging_new_4gb` took. The blocks are read back out of the
directory with the flags masked off, while they are being given back; no call on the directory changes
its own entries, so the blocks found are the blocks taken.
-/
import SimpleMicrokernel.Memory.Taken
import SimpleMicrokernel.Paging.MapTo

namespace SimpleMicrokernel.Paging

open Memory Fs

/-! ## What is taken -/

/-- Since `s0` as many blocks as `n` were taken, and what is held more lies in them. -/
def Grown (s0 s : Sys) (n : Nat) : Prop :=
  ∃ B : Finset Nat, B.card = n ∧ Taken s0.heap.pmm s.heap.pmm B ∧ ∀ a ∈ s.live, a ∈ s0.live ∨ a.addr / pmmBlockSize ∈ B

section
variable {s0 s s' : Sys} {n p : Nat}

theorem grown_start (s : Sys) : Grown s s 0 := ⟨∅, rfl, Taken.refl _, fun _ ha => .inl ha⟩

theorem Grown.withMem (h : Grown s0 s n) (mem : Mem) : Grown s0 { s with mem := mem } n := h

theorem Grown.memoryLe (h : Grown s0 s n) (hsize : s0.heap.pmm.pmmSystemMemorySize ≤ 2 ^ 20) :
    s.heap.pmm.pmmSystemMemorySize ≤ 2 ^ 20 := by
  obtain ⟨B, -, htaken, -⟩ := h
  rw [htaken.memorySize]
  exact hsize

theorem Grown.pmmAllocateBlock (h : Grown s0 s n) (hsize : s0.heap.pmm.pmmSystemMemorySize ≤ 2 ^ 20)
    (he : Fs.pmmAllocateBlock s = .ok (p, s')) (hp : p ≠ 0) : Grown s0 s' (n + 1) := by
  have hle := h.memoryLe hsize
  obtain ⟨B, hcard, htaken, hlive⟩ := h
  rw [pmmAllocateBlock_apply, Except.ok.injEq, Prod.mk.injEq] at he
  obtain ⟨rfl, rfl⟩ := he
  obtain ⟨hnot, htaken'⟩ := htaken.pmmAllocateBlock hle hp
  refine ⟨_, by rw [Finset.card_insert_of_notMem hnot, hcard], htaken', fun a ha => ?_⟩
  have ha : a ∈ AllocState.hold s.live (.block s.heap.pmm.pmmAllocateBlock.1) := ha
  rw [AllocState.hold, Live.block, if_neg hp] at ha
  rcases List.mem_cons.1 ha with rfl | ha
  · exact .inr (Finset.mem_insert_self ..)
  · exact (hlive a ha).imp_right (Finset.mem_insert_of_mem ·)

theorem tablesLoop_grown (hsize : s0.heap.pmm.pmmSystemMemorySize ≤ 2 ^ 20) {flags : BitVec 32}
    {directory : Nat} (m : Nat) :
    ∀ {i n : Nat} {offset : BitVec 32} {s s' : Sys}, tablesLoop flags directory m i offset s = .ok (true, s') →
    Grown s0 s n →
      Grown s0 s' (n + m) := by
  induction m with
  | zero =>
    intro i n offset s s' h hgrown
    obtain ⟨-, rfl⟩ := Exec.of_pure_ok h
    exact hgrown
  | succ m ih =>
    intro i n offset s s' h hgrown
    rw [tablesLoop] at h
    obtain ⟨e, s1, h1, h⟩ := Exec.of_bind_ok h
    split at h
    · obtain ⟨hb, -⟩ := Exec.of_pure_ok h
      cases hb
    · rename_i he
      rw [Exec.bind_of_ok (setMem_apply ..), Exec.bind_of_ok (setMem_apply ..)] at h
      have := ih h ((hgrown.pmmAllocateBlock hsize h1 he).withMem _)
      rwa [Nat.add_right_comm, Nat.add_assoc] at this

theorem pagingNew4gb_grown {flags : BitVec 8} {c : Nat} (hsize : s.heap.pmm.pmmSystemMemorySize ≤ 2 ^ 20)
    (h : pagingNew4gb flags s = .ok (c, s')) (hc : c ≠ 0) : Grown s s' 1026 := by
  unfold pagingNew4gb at h
  obtain ⟨d, s1, h1, h⟩ := Exec.of_bind_ok h
  split at h
  · obtain ⟨rfl, -⟩ := Exec.of_pure_ok h
    exact absurd rfl hc
  · rename_i hd
    have g1 := (grown_start s).pmmAllocateBlock hsize h1 hd
    obtain ⟨b, s2, h2, h⟩ := Exec.of_bind_ok h
    cases b with
    | false =>
      obtain ⟨rfl, -⟩ := Exec.of_pure_ok h
      exact absurd rfl hc
    | true =>
      have g2 := tablesLoop_grown hsize _ h2 g1
      obtain ⟨chunk, s3, h3, h⟩ := Exec.of_bind_ok h
      rw [Exec.bind_of_ok (setMem_apply ..)] at h
      obtain ⟨rfl, rfl⟩ := Exec.of_pure_ok h
      exact (g2.pmmAllocateBlock hsize h3 hc).withMem _

end

/-! ## What is given back -/

/-- Calls on one directory, one after another. -/
def DirectoryOp.calls (mem : Mem) (directory : Nat) (ops : List DirectoryOp) : Mem :=
  ops.foldl (fun mem op => (op.call mem directory).2) mem

section
variable {mem : Mem} {live : List Live} {chunk : Nat} {s : Sys}

theorem remaps_calls (ops : List DirectoryOp) : ∀ {mem : Mem}, IsSpace mem live chunk →
    ∃ entry, Remaps mem (DirectoryOp.calls mem (directoryEntry mem chunk) ops) chunk entry := by
  induction ops with
  | nil => exact fun {mem} _ => ⟨_, remaps_refl mem chunk⟩
  | cons op ops ih =>
    intro mem h
    have hone := remaps_call h op
    obtain ⟨entry, hrest⟩ := ih (hone.isSpace h)
    rw [hone.directory] at hrest
    exact ⟨entry, hone.trans hrest⟩

theorem pmmFreeBlock_apply (ptr : Nat) (s : Sys) : ∃ s', pmmFreeBlock ptr s = .ok ((), s') ∧ s'.mem = s.mem ∧
    s'.heap.pmm = s.heap.pmm.pmmFreeBlock ptr := ⟨_, rfl, rfl, rfl⟩

theorem freeTables_apply (chunk : Nat) (n : Nat) : ∀ (i : Nat) (s : Sys), ∃ s', freeTables chunk n i s = .ok ((), s') ∧
    s'.mem = s.mem ∧ s'.heap.pmm = ((List.range' i n).map (table s.mem chunk)).foldl Pmm.pmmFreeBlock s.heap.pmm := by
  induction n with
  | zero => exact fun _ s => ⟨s, rfl, rfl, rfl⟩
  | succ n ih =>
    intro i s
    obtain ⟨s1, h1, hmem, hpmm⟩ := pmmFreeBlock_apply (table s.mem chunk i) s
    obtain ⟨s2, h2, hmem2, hpmm2⟩ := ih (i + 1) s1
    refine ⟨s2, ?_, hmem2.trans hmem, ?_⟩
    · rw [freeTables, Exec.bind_of_ok (Exec.get_apply s)]
      exact (Exec.bind_of_ok h1).trans h2
    · rw [hpmm2, hmem, hpmm, List.range'_succ, List.map_cons, List.foldl_cons]

theorem pagingFree4gb_apply (chunk : Nat) (s : Sys) : ∃ s', pagingFree4gb chunk s = .ok ((), s') ∧
    s'.heap.pmm = (tables s.mem chunk 1024 ++ [directoryEntry s.mem chunk, chunk]).foldl Pmm.pmmFreeBlock
    s.heap.pmm := by
  obtain ⟨s1, h1, hmem, hpmm⟩ := freeTables_apply chunk 1024 0 s
  obtain ⟨s2, h2, hmem2, hpmm2⟩ := pmmFreeBlock_apply (directoryEntry s.mem chunk) s1
  obtain ⟨s3, h3, -, hpmm3⟩ := pmmFreeBlock_apply chunk s2
  refine ⟨s3, ?_, ?_⟩
  · unfold pagingFree4gb
    rw [Exec.bind_of_ok h1, Exec.bind_of_ok (Exec.get_apply s1), hmem, Exec.bind_of_ok h2]
    exact h3
  · rw [List.foldl_append, tables, List.range_eq_range', ← hpmm, List.foldl_cons, ← hpmm2, List.foldl_cons, ← hpmm3,
      List.foldl_nil]

theorem freed_perm (mem : Mem) (chunk : Nat) :
    (tables mem chunk 1024 ++ [directoryEntry mem chunk, chunk]).Perm (spaceBlocks mem chunk) := by
  unfold spaceBlocks pagingTotalEntriesPerTable
  generalize tables mem chunk 1024 = ts
  exact List.perm_append_comm.trans (.swap ..)

theorem pageNumbers_nodup {bs : List Nat} (halign : ∀ b ∈ bs, b % 4096 = 0) (hnodup : bs.Nodup) :
    (pageNumbers bs).Nodup := by
  refine List.Nodup.map_on (fun a ha b hb he => ?_) hnodup
  have := halign a ha
  have := halign b hb
  unfold pmmBlockSize at he
  omega

end

variable {reserved size : Nat} {s s' : Sys} {maps : Nat → Option PageMap}

/-- Whatever calls are made on a directory, giving its address space back brings the map of blocks and
both counters back to what they were before it was made. -/
theorem pagingFree4gb_restores (hsize : size ≤ 2 ^ 20) (h : PagingRun reserved size s maps) {flags : BitVec 8} {c : Nat}
    (hnew : pagingNew4gb flags s = .ok (c, s')) (hc : c ≠ 0) (ops : List DirectoryOp) :
    ∃ s'', pagingFree4gb c { s' with mem := DirectoryOp.calls s'.mem (directoryEntry s'.mem c) ops } = .ok ((), s'') ∧
      s''.heap.pmm.pmmMemoryMap = s.heap.pmm.pmmMemoryMap ∧ s''.heap.pmm.pmmUsedBlocks = s.heap.pmm.pmmUsedBlocks ∧
      s''.heap.pmm.pmmFreeBlocks = s.heap.pmm.pmmFreeBlocks := by
  obtain ⟨hok, -⟩ := h.denotes hsize
  have hmemory : s.heap.pmm.pmmSystemMemorySize ≤ 2 ^ 20 := by
    obtain ⟨L, -, hheap⟩ := hok
    exact hheap.memoryLe
  have hspec : FramesSys (max 1 reserved) size True s.live s s' ∧ _ := pagingNew4gb_spec hnew hok (List.Subset.refl _)
  obtain ⟨hspace, hfresh, -, -⟩ := hspec.2 hc
  obtain ⟨B, hcard, htaken, hlive⟩ := pagingNew4gb_grown hmemory hnew hc
  obtain ⟨entry, hr⟩ := remaps_calls ops hspace
  -- the blocks found are those of the space made
  generalize DirectoryOp.calls s'.mem (directoryEntry s'.mem c) ops = mem at hr ⊢
  obtain ⟨s'', e, hpmm⟩ := pagingFree4gb_apply c { s' with mem := mem }
  have hblocks : spaceBlocks mem c = spaceBlocks s'.mem c := hr.blocks
  have hperm := freed_perm mem c
  have hin : ∀ i ∈ pageNumbers (tables mem c 1024 ++ [directoryEntry mem c, c]), i ∈ B := by
    intro i hi
    obtain ⟨b, hb, rfl⟩ := List.mem_map.1 hi
    have hb : b ∈ spaceBlocks s'.mem c := hblocks ▸ hperm.subset hb
    rcases hlive _ (hspace.live b hb) with hold | hnew
    · exact absurd rfl (hfresh b hb _ hold)
    · exact hnew
  have hnodup : (pageNumbers (tables mem c 1024 ++ [directoryEntry mem c, c])).Nodup := by
    refine pageNumbers_nodup (fun b hb => hspace.aligned b (hblocks ▸ hperm.subset hb)) (hperm.nodup_iff.2 ?_)
    rw [hblocks]
    exact hspace.nodup
  have hlength : (tables mem c 1024 ++ [directoryEntry mem c, c]).length = B.card := by
    rw [hcard, List.length_append, tables, List.length_map, List.length_range, List.length_cons, List.length_singleton]
  have hall := htaken.freeAll_eq hnodup hin hlength
  refine ⟨s'', e, ?_⟩
  rw [hpmm, show ({ s' with mem := mem } : Sys).heap.pmm = s'.heap.pmm from rfl, hall]
  exact ⟨rfl, rfl, rfl⟩

/-- A directory made, one page of it mapped elsewhere, and given back. -/
theorem pagingFree4gb_restores_one : ∃ s s' c s'', PagingRun 1 4096 s (fun _ => none) ∧
    pagingNew4gb 5 s = .ok (c, s') ∧ c ≠ 0 ∧
    pagingFree4gb c { s' with mem := DirectoryOp.calls s'.mem (directoryEntry s'.mem c) [.set 0x1000 0x2007] } =
    .ok ((), s'') ∧
    s''.heap.pmm.pmmMemoryMap = s.heap.pmm.pmmMemoryMap ∧ s''.heap.pmm.pmmUsedBlocks = s.heap.pmm.pmmUsedBlocks ∧
      s''.heap.pmm.pmmFreeBlocks = s.heap.pmm.pmmFreeBlocks := by
  have hstart : PagingRun 1 4096 (bare 4096 1) fun _ => none := .start (fun _ => 0) [] trivial rfl
  have hroom : (bare 4096 1).Room 4094 := room_bare (by decide) (by decide) (by decide)
  obtain ⟨c, s1, h1, hc, -⟩ := pagingNew4gb_room 5 (n := 0) (hroom.mono (by decide))
  obtain ⟨s2, h2, hrestored⟩ := pagingFree4gb_restores (by decide) hstart h1 hc [.set 0x1000 0x2007]
  exact ⟨_, s1, c, s2, hstart, h1, hc, h2, hrestored⟩

end SimpleMicrokernel.Paging
