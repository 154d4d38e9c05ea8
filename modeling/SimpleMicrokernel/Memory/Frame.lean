/-
What an allocation leaves alone. `Frames keep held` relates two states of the allocator: whoever
holds the allocations `held` before holds them after, and, where memory is kept, finds their bytes
as they were. The calls of the allocator and the stores to memory that came from it are framed by
everything that was held before; frames compose, so a computation is framed by what its steps are.
-/
import SimpleMicrokernel.Memory.AllocRun

namespace SimpleMicrokernel.Memory

namespace Live

/-- The byte at `x` lies in a block of the allocation. -/
def Covers (a : Live) (x : Nat) : Prop := x / pmmBlockSize ∈ a.extent.cells

/-- The two allocations have no block in common. -/
def Apart (a b : Live) : Prop := Disjoint a.extent.cells b.extent.cells

theorem Apart.symm {a b : Live} (h : a.Apart b) : b.Apart a := Disjoint.symm h

theorem Apart.not_covers {a b : Live} (h : a.Apart b) {x : Nat} (ha : a.Covers x) : ¬ b.Covers x :=
  Finset.disjoint_left.1 h ha

theorem covers_def {a : Live} {x : Nat} : a.Covers x ↔ a.addr / pmmBlockSize ≤ x / pmmBlockSize ∧
    x / pmmBlockSize < a.addr / pmmBlockSize + blockCount a.size := Extent.mem_cells

theorem covers_iff {a : Live} (halign : a.addr % pmmBlockSize = 0) {x : Nat} :
    a.Covers x ↔ a.addr ≤ x ∧ x < a.addr + blockCount a.size * pmmBlockSize := by
  rw [covers_def]
  unfold pmmBlockSize at *
  omega

theorem Apart.addr_ne {a b : Live} (h : a.Apart b) : a.addr ≠ b.addr := by
  intro he
  have ha := blockCount_pos a.size
  have hb := blockCount_pos b.size
  refine h.not_covers (covers_def (x := a.addr).2 ⟨le_refl _, by omega⟩) (covers_def.2 ⟨?_, ?_⟩)
  · rw [he]
  · rw [he]; omega

end Live

/-- The number of blocks of the live allocations. -/
def liveBlocks (live : List Live) : Nat := (live.map fun a => blockCount a.size).sum

theorem liveBlocks_cons (a : Live) (live : List Live) : liveBlocks (a :: live) = blockCount a.size + liveBlocks live :=
  List.sum_cons

theorem liveBlocks_mono {live live' : List Live} (hnodup : live.Nodup) (h : live ⊆ live') :
    liveBlocks live ≤ liveBlocks live' := by
  obtain ⟨l, hperm, hsub⟩ := hnodup.subperm h
  have hsum : (l.map fun a => blockCount a.size).sum = liveBlocks live := (hperm.map _).sum_eq
  rw [← hsum]
  exact (hsub.map _).sum_le_sum fun _ _ => Nat.zero_le _

namespace AllocState

variable {reserved size : Nat} {s s' s'' : AllocState}

/-! ## What is held -/

namespace Ok

theorem memoryLe (h : Ok reserved size s) : s.heap.pmm.pmmSystemMemorySize ≤ 2 ^ 20 := by
  obtain ⟨L, -, hok⟩ := h
  exact hok.memoryLe

theorem bounds (h : Ok reserved size s) {a : Live} (ha : a ∈ s.live) :
    a.addr % pmmBlockSize = 0 ∧ a.addr ≠ 0 ∧ reserved * pmmBlockSize ≤ a.addr ∧
      a.addr + blockCount a.size * pmmBlockSize ≤ size * pmmBlockSize ∧ size ≤ 2 ^ 20 := by
  obtain ⟨L, hlive, hok⟩ := h
  rw [← hlive] at ha
  obtain ⟨h1, h2, h3, h4⟩ := hok.addr_eq ha
  refine ⟨hok.aligned a ha, h4, ?_, ?_, hok.sizeHi⟩
  · rw [h1]; exact Nat.mul_le_mul_right _ h2
  · rw [h1, ← Nat.add_mul]; exact Nat.mul_le_mul_right _ h3

theorem in32 (h : Ok reserved size s) {a : Live} (ha : a ∈ s.live) :
    a.addr % 4096 = 0 ∧ 0 < a.addr ∧ a.addr + blockCount a.size * 4096 ≤ 2 ^ 32 := by
  obtain ⟨h1, h2, -, h3, h4⟩ := h.bounds ha
  unfold pmmBlockSize at *
  omega

theorem block (h : Ok reserved size s) {b : Nat} (hb : Live.block b ∈ s.live) : b % 4096 = 0 ∧ 0 < b ∧ b < 2 ^ 32 := by
  have hb : b % 4096 = 0 ∧ 0 < b ∧ b + blockCount 4096 * 4096 ≤ 2 ^ 32 := h.in32 hb
  have := blockCount_pos 4096
  omega

theorem eq_of_addr (h : Ok reserved size s) {a b : Live} (ha : a ∈ s.live) (hb : b ∈ s.live) (he : a.addr = b.addr) :
    a = b := by
  obtain ⟨L, hlive, -⟩ := h
  rw [← hlive] at ha hb
  exact Live.addr_inj ha hb he

theorem apart (h : Ok reserved size s) {a b : Live} (ha : a ∈ s.live) (hb : b ∈ s.live) (hne : a ≠ b) : a.Apart b := by
  obtain ⟨L, hlive, -⟩ := h
  rw [← hlive] at ha hb
  have hs : Std.Symm fun a b : Live => Disjoint a.extent.cells b.extent.cells := ⟨fun _ _ h => h.symm⟩
  exact L.disjoint.forall ha hb hne

theorem fresh (h : Ok reserved size s) {a : Live} {l : List Live} (hl : s.live = a :: l) : ∀ b ∈ l, a.Apart b := by
  obtain ⟨L, hlive, -⟩ := h
  have hd := L.disjoint
  rw [hlive, hl] at hd
  exact (List.pairwise_cons.1 hd).1

theorem nodup (h : Ok reserved size s) : s.live.Nodup := by
  obtain ⟨L, hlive, -⟩ := h
  exact hlive ▸ L.nodup

theorem liveBlocks_le (h : Ok reserved size s) : liveBlocks s.live ≤ size - reserved := by
  obtain ⟨L, hlive, -⟩ := h
  exact hlive ▸ L.sum_len_le

theorem withMem (h : Ok reserved size s) (mem : Mem) : Ok reserved size { s with mem := mem } := h

end Ok

/-! ## Frames -/

/-- From right tables and with `held` held, the tables stay right, `held` stays held and, if `keep`,
no byte of it changes. -/
def Frames (reserved size : Nat) (keep : Prop) (held : List Live) (s s' : AllocState) : Prop :=
  Ok reserved size s → held ⊆ s.live → Ok reserved size s' ∧ held ⊆ s'.live ∧
    (keep → ∀ a ∈ held, ∀ x, a.Covers x → s'.mem x = s.mem x)

variable {keep : Prop} {held : List Live}

namespace Frames

theorem rfl' (s : AllocState) : Frames reserved size keep held s s :=
  fun h hheld => ⟨h, hheld, fun _ _ _ _ _ => rfl⟩

theorem trans' (h1 : Frames reserved size keep held s s') (h2 : Frames reserved size keep held s' s'') :
    Frames reserved size keep held s s'' := by
  intro hok hheld
  obtain ⟨hok', hheld', hmem⟩ := h1 hok hheld
  obtain ⟨hok'', hheld'', hmem'⟩ := h2 hok' hheld'
  exact ⟨hok'', hheld'', fun hk a ha x hx => (hmem' hk a ha x hx).trans (hmem hk a ha x hx)⟩

theorem mono (h : Frames reserved size keep held s s') {held' : List Live}
    (hsub : held' ⊆ held) (hin : held' ⊆ s.live → held ⊆ s.live) : Frames reserved size keep held' s s' := by
  intro hok hheld
  obtain ⟨hok', hheld', hmem⟩ := h hok (hin hheld)
  exact ⟨hok', List.Subset.trans hsub hheld', fun hk a ha => hmem hk a (hsub ha)⟩

theorem imp (h : Frames reserved size keep held s s') {keep' : Prop} (hk : keep' → keep) :
    Frames reserved size keep' held s s' := by
  intro hok hheld
  obtain ⟨hok', hheld', hmem⟩ := h hok hheld
  exact ⟨hok', hheld', fun h' => hmem (hk h')⟩

end Frames

/-! ## The calls of the allocator -/

/-- A new allocation, with memory changed in its own blocks at most. -/
theorem frames_hold {heap : Heap} {mem : Mem} {a : Live}
    (hok : Ok reserved size s → Ok reserved size ⟨heap, mem, hold s.live a⟩)
    (hmem : keep → ∀ x, reserved * pmmBlockSize ≤ x → mem x = s.mem x ∨ (a.addr ≠ 0 ∧ a.Covers x)) :
    Frames reserved size keep held s ⟨heap, mem, hold s.live a⟩ := by
  intro h hheld
  refine ⟨hok h, ?_, fun hk b hb x hx => ?_⟩
  · unfold hold
    split
    · exact hheld
    · exact List.subset_cons_of_subset a hheld
  · obtain ⟨halign, -, hlow, -⟩ := h.bounds (hheld hb)
    rcases hmem hk x (Nat.le_trans hlow ((Live.covers_iff halign).1 hx).1) with e | ⟨h0, hc⟩
    · exact e
    · have hl : hold s.live a = a :: s.live := if_neg h0
      have hok' := hok h
      rw [hl] at hok'
      exact absurd hx ((hok'.fresh rfl b (hheld hb)).not_covers hc)

theorem ok_kmallac (h : Ok reserved size s) (n : Nat) : Ok reserved size (s.step (.kmallac n)) := by
  obtain ⟨L, hlive, hok⟩ := h
  have hstep : ∃ L', Ledger.Step L L' ∧ L'.live = hold L.live ⟨(s.heap.kmallac n).1, n, .kheap⟩ ∧
      HeapOk (s.heap.kmallac n).2 L' := hold_refines (hok.kmallac n)
  obtain ⟨L', -, hlive', hok'⟩ := hstep
  rw [hlive] at hlive'
  exact ⟨L', hlive', hok'⟩

theorem ok_pmmAllocateBlock (h : Ok reserved size s) : Ok reserved size (s.step .pmmAllocateBlock) :=
  step_ok h trivial

theorem frames_give {a : Live} {heap : Heap} (ha : a ∈ s.live) (hout : ∀ b ∈ held, b.addr ≠ a.addr)
    (hgive : ∀ L : Ledger Live.extent reserved size, HeapOk s.heap L → a ∈ L.live → HeapOk heap (L.remove a)) :
    Frames reserved size keep held s ⟨heap, s.mem, s.live.filter fun b => b.addr ≠ a.addr⟩ := by
  intro h hheld
  refine ⟨?_, fun b hb => List.mem_filter.2 ⟨hheld hb, by simpa using hout b hb⟩, fun _ _ _ _ _ => rfl⟩
  obtain ⟨L, hlive, hok⟩ := h
  have ha' : a ∈ L.live := hlive ▸ ha
  refine ⟨L.remove a, ?_, hgive L hok ha'⟩
  show L.live.erase a = _
  rw [L.nodup.erase_eq_filter, ← hlive]
  refine List.filter_congr fun b hb => ?_
  by_cases he : b.addr = a.addr
  · simp [Live.addr_inj hb ha' he]
  · have : b ≠ a := fun h => he (congrArg Live.addr h)
    simp [he, this]

theorem frames_kfree {a : Live} (ha : a ∈ s.live) (hout : ∀ b ∈ held, b.addr ≠ a.addr) :
    Frames reserved size keep held s ⟨s.heap.kfree a.addr, s.mem, s.live.filter fun b => b.addr ≠ a.addr⟩ :=
  frames_give ha hout fun _ hok ha => hok.kfree ha

theorem frames_pmmFreeBlock {b : Nat} (hb : Live.block b ∈ s.live) (hout : ∀ a ∈ held, a.addr ≠ b) :
    Frames reserved size keep held s
      ⟨{ s.heap with pmm := s.heap.pmm.pmmFreeBlock b }, s.mem, s.live.filter fun a => a.addr ≠ b⟩ :=
  frames_give hb hout fun _ hok hb => hok.pmmFreeBlock hb rfl

theorem frames_kfree_null {addr : Nat} (h0 : addr = 0) :
    Frames reserved size keep held s ⟨s.heap.kfree addr, s.mem, s.live.filter fun b => b.addr ≠ addr⟩ := by
  intro h hheld
  have hall : (s.live.filter fun b => b.addr ≠ addr) = s.live := by
    refine List.filter_eq_self.2 fun b hb => ?_
    have := (h.bounds hb).2.1
    rw [h0]
    simpa using this
  rw [hall]
  obtain ⟨L, hlive, hok⟩ := h
  have hok' : HeapOk (s.heap.kfree addr) L := by
    rw [h0]
    exact hok.kfree_null
  exact ⟨⟨L, hlive, hok'⟩, hheld, fun _ _ _ _ _ => rfl⟩

end AllocState

end SimpleMicrokernel.Memory
