/-
The allocator refines a ledger of disjoint extents. `HeapOk h L` couples the tables of the
allocator with the ledger `L` of what is live: every block of a live allocation is marked, every
reserved block is marked, and each used entry of `big_blocks` is a live large allocation with its
length. `kmallac` inserts into the ledger or leaves it, `kfree` removes from it.
-/
import SimpleMicrokernel.Lib.Ledger
import SimpleMicrokernel.Memory.Kheap

namespace SimpleMicrokernel.Memory

/-- Which allocator an address came from, and so which routine gives it back. -/
inductive Owner where
  | kheap
  | pmm
deriving DecidableEq, Repr

/-- A live allocation: its address, the size asked for and where it came from. -/
structure Live where
  addr : Nat
  size : Nat
  owner : Owner
deriving DecidableEq, Repr

/-- The blocks of an allocation. -/
def Live.extent (a : Live) : Extent := ⟨a.addr / pmmBlockSize, blockCount a.size⟩

/-- A block handed out by `pmm_allocate_block` itself. -/
def Live.block (addr : Nat) : Live := ⟨addr, pmmBlockSize, .pmm⟩

theorem Live.addr_inj {reserved size : Nat} {L : Ledger Live.extent reserved size} {a b : Live} (ha : a ∈ L.live)
    (hb : b ∈ L.live) (he : a.addr = b.addr) : a = b := by
  have hs : a.extent.start = b.extent.start := by simp only [Live.extent, he]
  exact Ledger.eq_of_mem_cells ha hb (Ledger.start_mem ha) (hs ▸ Ledger.start_mem hb)

/-- The tables `h` hold exactly what the ledger `L` says is live. -/
structure HeapOk {reserved size : Nat} (h : Heap) (L : Ledger Live.extent reserved size) : Prop where
  reservedLo : 1 ≤ reserved
  sizeHi : size ≤ 2 ^ 20
  memorySize : h.pmm.pmmSystemMemorySize = size
  aligned : ∀ a ∈ L.live, a.addr % pmmBlockSize = 0
  reserved : ∀ i, 1 ≤ i → i < reserved → h.pmm.marked i = true
  held : ∀ i, L.Held i → h.pmm.marked i = true
  tracked : ∀ i, (h.bigBlocks i).startingAddress ≠ 0 →
    ∃ a ∈ L.live, a.owner = .kheap ∧ 4096 < a.size ∧ (h.bigBlocks i).startingAddress = a.addr ∧
      (h.bigBlocks i).blocks = blockCount a.size
  oneEntry : ∀ i j, (h.bigBlocks i).startingAddress ≠ 0 →
    (h.bigBlocks i).startingAddress = (h.bigBlocks j).startingAddress → i = j
  empty : ∀ i, (h.bigBlocks i).startingAddress = 0 → (h.bigBlocks i).blocks = 0

namespace HeapOk

variable {reserved size : Nat} {h : Heap} {L : Ledger Live.extent reserved size}

theorem memoryLe (hok : HeapOk h L) : h.pmm.pmmSystemMemorySize ≤ 2 ^ 20 := by
  rw [hok.memorySize]; exact hok.sizeHi

theorem addr_eq (hok : HeapOk h L) {a : Live} (ha : a ∈ L.live) :
    a.addr = a.extent.start * pmmBlockSize ∧ reserved ≤ a.extent.start ∧
      a.extent.start + blockCount a.size ≤ size ∧ a.addr ≠ 0 := by
  have h1 := hok.aligned a ha
  obtain ⟨-, h2, h3⟩ := L.inside a ha
  have h4 := hok.reservedLo
  unfold Live.extent pmmBlockSize at *
  simp only at *
  refine ⟨by omega, h2, h3, by omega⟩

theorem free_of_clear (hok : HeapOk h L) {i : Nat} (hpos : 1 ≤ i) (hi : h.pmm.marked i = false) :
    reserved ≤ i ∧ ¬ L.Held i := by
  constructor
  · by_contra hlt
    rw [hok.reserved i hpos (by omega)] at hi
    cases hi
  · intro hh
    rw [hok.held i hh] at hi
    cases hi

theorem mark (hok : HeapOk h L) {p : Pmm} (hsize : p.pmmSystemMemorySize = h.pmm.pmmSystemMemorySize)
    (hmono : ∀ i, h.pmm.marked i = true → p.marked i = true) : HeapOk { h with pmm := p } L :=
  ⟨hok.reservedLo, hok.sizeHi, hsize.trans hok.memorySize, hok.aligned, fun i hp hi => hmono i (hok.reserved i hp hi),
    fun i hi => hmono i (hok.held i hi), hok.tracked, hok.oneEntry, hok.empty⟩

/-- A new allocation on clear blocks, marked now, not in the table yet. -/
theorem insert (hok : HeapOk h L) {p : Pmm} {a : Live} (hsize : p.pmmSystemMemorySize = h.pmm.pmmSystemMemorySize)
    (haligned : a.addr % pmmBlockSize = 0) {hfree hin}
    (hmarked : ∀ i, h.pmm.marked i = true ∨ i ∈ a.extent.cells → p.marked i = true) :
    HeapOk { h with pmm := p } (L.insert a hfree hin) := by
  refine ⟨hok.reservedLo, hok.sizeHi, hsize.trans hok.memorySize, ?_,
    fun i hp hi => hmarked i (.inl (hok.reserved i hp hi)), ?_, ?_, hok.oneEntry, hok.empty⟩
  · intro b hb
    rcases List.mem_cons.1 hb with rfl | hb
    · exact haligned
    · exact hok.aligned b hb
  · intro i hi
    rcases Ledger.held_insert.1 hi with hi | hi
    · exact hmarked i (.inr hi)
    · exact hmarked i (.inl (hok.held i hi))
  · intro i hi
    obtain ⟨b, hb, hrest⟩ := hok.tracked i hi
    exact ⟨b, List.mem_cons_of_mem _ hb, hrest⟩

/-- A live large allocation that no entry names takes an empty entry, when there is one. -/
theorem track (hok : HeapOk h L) {addr n : Nat} (ha : ⟨addr, n, .kheap⟩ ∈ L.live) (hbig : 4096 < n)
    (hnew : ∀ i, (h.bigBlocks i).startingAddress ≠ addr) :
    HeapOk (h.insertInBigBlocks addr (blockCount n)).2 L := by
  rcases h.insertInBigBlocks_cases addr (blockCount n) with ⟨-, e⟩ | ⟨i, hi, e⟩
  · rw [e]; exact hok
  · rw [e]
    refine ⟨hok.reservedLo, hok.sizeHi, hok.memorySize, hok.aligned, hok.reserved, hok.held, ?_, ?_, ?_⟩
    · intro j hj
      simp only [Function.update_apply] at hj ⊢
      split at hj
      · rename_i hji; subst hji
        exact ⟨_, ha, rfl, hbig, by simp, by simp⟩
      · rename_i hji
        simp only [hji, if_false]
        exact hok.tracked j hj
    · intro j k hj hjk
      simp only [Function.update_apply] at hj hjk
      by_cases h1 : j = i <;> by_cases h2 : k = i
      · rw [h1, h2]
      · rw [if_pos h1, if_neg h2] at hjk; exact absurd hjk.symm (hnew k)
      · rw [if_neg h1, if_pos h2] at hjk; exact absurd hjk (hnew j)
      · rw [if_neg h1] at hj hjk; rw [if_neg h2] at hjk; exact hok.oneEntry j k hj hjk
    · intro j hj
      simp only [Function.update_apply] at hj ⊢
      split at hj
      · exact absurd hj (hok.addr_eq ha).2.2.2
      · rename_i hji
        simp only [hji, if_false]
        exact hok.empty j hj

theorem not_tracked_of_clear (hok : HeapOk h L) {s : Nat} (hs : 1 ≤ s) (hc : h.pmm.marked s = false)
    (i : Fin bigAddress) : (h.bigBlocks i).startingAddress ≠ s * pmmBlockSize := by
  intro he
  have hpos : s * pmmBlockSize ≠ 0 := by unfold pmmBlockSize; omega
  obtain ⟨a, ha, -, -, haddr, -⟩ := hok.tracked i (by rw [he]; exact hpos)
  refine (hok.free_of_clear hs hc).2 ⟨a, ha, ?_⟩
  have : a.extent.start = s := by
    unfold Live.extent
    rw [← haddr, he]
    exact Nat.mul_div_cancel _ (by decide)
  rw [← this]
  exact Ledger.start_mem ha

theorem extent_mk (s n : Nat) (o : Owner) : (Live.mk (s * pmmBlockSize) n o).extent = ⟨s, blockCount n⟩ := by
  simp only [Live.extent, Extent.mk.injEq, and_true]
  exact Nat.mul_div_cancel _ (by decide)

/-- Clear blocks taken for a new allocation. -/
theorem take (hok : HeapOk h L) {s n : Nat} (o : Owner) (hs : 1 ≤ s) (hlt : s + blockCount n ≤ size)
    (hclear : ∀ i, s ≤ i → i < s + blockCount n → h.pmm.marked i = false) :
    ∃ hfree hin, HeapOk { h with pmm := h.pmm.take s (blockCount n) }
    (L.insert ⟨s * pmmBlockSize, n, o⟩ hfree hin) := by
  have hcount := blockCount_pos n
  have hcell : ∀ j, j ∈ (Live.mk (s * pmmBlockSize) n o).extent.cells ↔ s ≤ j ∧ j < s + blockCount n := by
    intro j; rw [extent_mk, Extent.mem_cells]
  refine ⟨fun j hj => (hok.free_of_clear (Nat.le_trans hs ((hcell j).1 hj).1)
    (hclear j ((hcell j).1 hj).1 ((hcell j).1 hj).2)).2, ?_,
    hok.insert (Pmm.pmmSystemMemorySize_take ..) (a := ⟨s * pmmBlockSize, n, o⟩) (Nat.mul_mod_left _ _)
      fun j hj => ?_⟩
  · rw [extent_mk]
    exact ⟨hcount, (hok.free_of_clear hs (hclear s (le_refl s) (by omega))).1, hlt⟩
  · rw [Pmm.marked_take]
    rcases hj with hj | hj
    · exact .inr hj
    · exact .inl ((hcell j).1 hj)

/-- `pmm_allocate_block` gives up and changes nothing, or takes one block nobody held. -/
theorem pmmAllocateBlock (hok : HeapOk h L) :
    h.pmm.pmmAllocateBlock = (0, h.pmm) ∨
    ∃ hfree hin, h.pmm.pmmAllocateBlock.1 ≠ 0 ∧
      HeapOk { h with pmm := h.pmm.pmmAllocateBlock.2 } (L.insert (.block h.pmm.pmmAllocateBlock.1) hfree hin) := by
  rcases h.pmm.pmmAllocateBlock_cases with ⟨e, -⟩ | ⟨i, -, hpos, hlt, hclear, -, e⟩
  · exact .inl e
  · have hsz := hok.memorySize
    have hhi := hok.sizeHi
    have hmod : i * pmmBlockSize % 2 ^ 32 = i * pmmBlockSize := by unfold pmmBlockSize; omega
    have hone : blockCount pmmBlockSize = 1 := blockCount_of_le (le_refl _)
    obtain ⟨hfree, hin, htake⟩ := hok.take (s := i) (n := pmmBlockSize) .pmm hpos (by omega) fun j h1 h2 => by
      rw [show j = i by omega]; exact hclear
    rw [hone] at htake
    rw [e, hmod]
    exact .inr ⟨hfree, hin, by unfold pmmBlockSize; omega, htake⟩

theorem grant (hok : HeapOk h L) {s n : Nat} (hs : 1 ≤ s) (hlt : s + blockCount n ≤ size)
    (hclear : ∀ i, s ≤ i → i < s + blockCount n → h.pmm.marked i = false) :
    ∃ hfree hin, HeapOk (h.grant s n) (L.insert ⟨s * pmmBlockSize, n, .kheap⟩ hfree hin) := by
  obtain ⟨hfree, hin, htake⟩ := hok.take .kheap hs hlt hclear
  refine ⟨hfree, hin, ?_⟩
  unfold Heap.grant
  simp only
  split
  · rename_i hbig
    have hcount := blockCount_pos n
    exact htake.track (List.mem_cons_self ..) hbig
      (hok.not_tracked_of_clear hs (hclear s (le_refl s) (by omega)))
  · exact htake

/-- `kmallac` fails and the ledger stays, or it takes `blockCount` blocks nobody held. -/
theorem kmallac (hok : HeapOk h L) (n : Nat) :
    ((h.kmallac n).1 = 0 ∧ HeapOk (h.kmallac n).2 L) ∨
    ∃ hfree hin, (h.kmallac n).1 ≠ 0 ∧
      HeapOk (h.kmallac n).2 (L.insert ⟨(h.kmallac n).1, n, .kheap⟩ hfree hin) := by
  rcases h.kmallac_cases n hok.memoryLe with ⟨-, e, -⟩ | ⟨-, -, e⟩ | ⟨s, hs, hlt, hclear, e⟩
  · rw [e]; exact .inl ⟨rfl, hok⟩
  · rw [e]
    exact .inl ⟨rfl, hok.mark rfl fun i hi => (Pmm.marked_spoil _ _ i).2 (.inr hi)⟩
  · obtain ⟨hfree, hin, hgrant⟩ := hok.grant hs (hok.memorySize ▸ hlt) hclear
    rw [e]
    exact .inr ⟨hfree, hin, by simp only [pmmBlockSize]; omega, hgrant⟩

/-- A live allocation given back, when only blocks of it are cleared and no entry names it any more. -/
theorem remove (hok : HeapOk h L) {a : Live} (ha : a ∈ L.live) {h' : Heap}
    (hsize : h'.pmm.pmmSystemMemorySize = h.pmm.pmmSystemMemorySize)
    (hcleared : ∀ i, i ∉ a.extent.cells → h'.pmm.marked i = h.pmm.marked i)
    (htable : ∀ i, h'.bigBlocks i = h.bigBlocks i ∨ h'.bigBlocks i = ⟨0, 0⟩)
    (hgone : ∀ i, (h'.bigBlocks i).startingAddress ≠ a.addr ∨ a.owner = .pmm) : HeapOk h' (L.remove a) := by
  have hsame : ∀ i, (h'.bigBlocks i).startingAddress ≠ 0 → h'.bigBlocks i = h.bigBlocks i := by
    intro i hi
    rcases htable i with e | e
    · exact e
    · rw [e] at hi; exact absurd rfl hi
  have hout : ∀ i, i < reserved ∨ (L.remove a).Held i → i ∉ a.extent.cells := by
    rintro i (hi | hi) hc
    · have := (L.inside a ha).2.1
      rw [Extent.mem_cells] at hc
      omega
    · exact ((Ledger.held_remove ha).1 hi).2 hc
  refine ⟨hok.reservedLo, hok.sizeHi, hsize.trans hok.memorySize, ?_, ?_, ?_, ?_, ?_, ?_⟩
  · exact fun b hb => hok.aligned b (Ledger.mem_remove.1 hb).2
  · intro i hp hi
    rw [hcleared i (hout i (.inl hi))]; exact hok.reserved i hp hi
  · intro i hi
    rw [hcleared i (hout i (.inr hi))]; exact hok.held i ((Ledger.held_remove ha).1 hi).1
  · intro i hi
    have e := hsame i hi
    rw [e] at hi
    obtain ⟨b, hb, howner, hbig, haddr, hblocks⟩ := hok.tracked i hi
    refine ⟨b, Ledger.mem_remove.2 ⟨?_, hb⟩, howner, hbig, by rw [e, haddr], by rw [e, hblocks]⟩
    rintro rfl
    rcases hgone i with hne | hpmm
    · exact hne (by rw [e, haddr])
    · rw [howner] at hpmm; cases hpmm
  · intro i j hi hij
    have ei := hsame i hi
    have ej := hsame j (hij ▸ hi)
    rw [ei] at hi hij
    rw [ej] at hij
    exact hok.oneEntry i j hi hij
  · intro i hi
    rcases htable i with e | e
    · rw [e] at hi ⊢; exact hok.empty i hi
    · rw [e]

theorem marked_release_start {a : Live} {p : Pmm} {n i : Nat} (hn : n ≤ blockCount a.size) (hi : i ∉ a.extent.cells) :
    (p.release a.extent.start n).marked i = p.marked i := by
  refine Pmm.marked_release p fun hr => hi ?_
  rw [Extent.mem_cells]
  exact ⟨hr.1, Nat.lt_of_lt_of_le hr.2 (Nat.add_le_add_left hn _)⟩

/-- Everything `kfree` can do with a live address of `kmallac`: release the whole allocation and
empty its entry, or, when no entry names it, release its first block only. -/
theorem kfree_cases (hok : HeapOk h L) {a : Live} (ha : a ∈ L.live) :
    (∃ i, (h.bigBlocks i).startingAddress = a.addr ∧ 4096 < a.size ∧
      h.kfree a.addr = ⟨h.pmm.release a.extent.start (blockCount a.size), Function.update h.bigBlocks i ⟨0, 0⟩⟩) ∨
    ((∀ i, (h.bigBlocks i).startingAddress ≠ a.addr) ∧
      h.kfree a.addr = { h with pmm := h.pmm.release a.extent.start 1 }) := by
  obtain ⟨haddr, hlo, hhi, hne⟩ := hok.addr_eq ha
  have hsz := hok.sizeHi
  unfold Heap.kfree
  rw [if_neg (by rw [haddr]; unfold pmmBlockSize; omega)]
  split
  · rename_i hfound
    obtain ⟨i, hi⟩ := Option.isSome_iff_exists.1 hfound
    have hstart := Heap.searchAddress_some hi
    -- the entry found is the one of `a`, since a live address has one allocation
    obtain ⟨b, hb, -, hbig, hbaddr, hblocks⟩ := hok.tracked i (by rw [hstart]; exact hne)
    have hba : b = a := Live.addr_inj hb ha (by rw [← hbaddr, hstart])
    subst hba
    refine .inl ⟨i, hstart, hbig, ?_⟩
    unfold Heap.freeBigBlocks
    rw [hi]
    simp only
    rw [hblocks, haddr, Heap.freeBlocks_eq _ (by omega)]
  · rename_i hmiss
    have hnone : h.searchAddress a.addr = none := by simpa using hmiss
    rw [Pmm.pmmFreeBlock_eq]
    exact .inr ⟨Heap.searchAddress_none hnone, rfl⟩

/-- `kfree` of a live allocation of `kmallac` removes it from the ledger. -/
theorem kfree (hok : HeapOk h L) {a : Live} (ha : a ∈ L.live) : HeapOk (h.kfree a.addr) (L.remove a) := by
  have hne := (hok.addr_eq ha).2.2.2
  rcases hok.kfree_cases ha with ⟨i, hi, -, e⟩ | ⟨hmiss, e⟩
  · rw [e]
    refine hok.remove ha rfl (fun j hj => marked_release_start (le_refl _) hj) (fun j => ?_) (fun j => .inl ?_)
    · simp only [Function.update_apply]
      split
      · exact .inr rfl
      · exact .inl rfl
    · simp only [Function.update_apply]
      split
      · exact fun h0 => hne h0.symm
      · rename_i hji
        exact fun he => hji (hok.oneEntry j i (by rw [he]; exact hne) (by rw [he, hi]))
  · rw [e]
    exact hok.remove ha rfl (fun j hj => marked_release_start (blockCount_pos _) hj) (fun j => .inl rfl)
      fun j => .inl (hmiss j)

/-- `pmm_free_block` of a live block of `pmm_allocate_block` removes it from the ledger. -/
theorem pmmFreeBlock (hok : HeapOk h L) {a : Live} (ha : a ∈ L.live) (howner : a.owner = .pmm) :
    HeapOk { h with pmm := h.pmm.pmmFreeBlock a.addr } (L.remove a) := by
  rw [Pmm.pmmFreeBlock_eq]
  exact hok.remove ha rfl (fun j hj => marked_release_start (blockCount_pos _) hj) (fun j => .inl rfl)
    fun j => .inr howner

theorem entry_empty (hok : HeapOk h L) {i : Fin bigAddress} (hi : (h.bigBlocks i).startingAddress = 0) :
    h.bigBlocks i = ⟨0, 0⟩ := by
  have hblocks := hok.empty i hi
  cases hb : h.bigBlocks i
  rw [hb] at hi hblocks
  simp_all

/-- With an empty entry in the table a null address is given back without a trace: the search takes the
entry for one of address 0, with no blocks. -/
theorem kfree_null_eq (hok : HeapOk h L) (hslot : h.HasEmptySlot) : h.kfree 0 = h := by
  have hfound := Heap.searchAddress_zero.2 hslot
  obtain ⟨i, hi⟩ := Option.isSome_iff_exists.1 hfound
  have hempty := hok.entry_empty (Heap.searchAddress_some hi)
  have hsame : h.freeBigBlocks 0 = h := by
    unfold Heap.freeBigBlocks
    rw [hi]
    simp only [hempty, Heap.freeBlocks]
    rw [← hempty, Function.update_eq_self]
  unfold Heap.kfree
  rw [if_neg (by decide), if_pos hfound]
  exact hsame

/-- `kfree` of the null address changes nothing, or clears block 0, which is nobody's. -/
theorem kfree_null (hok : HeapOk h L) : HeapOk (h.kfree 0) L := by
  by_cases hslot : h.HasEmptySlot
  · rw [hok.kfree_null_eq hslot]
    exact hok
  · rw [Heap.kfree_null_full hslot]
    have hkept : ∀ i, 1 ≤ i → (h.pmm.release 0 1).marked i = h.pmm.marked i :=
      fun i hi => Pmm.marked_release (s := 0) (n := 1) h.pmm (by omega)
    refine ⟨hok.reservedLo, hok.sizeHi, hok.memorySize, hok.aligned, fun i hp hi => ?_, fun i hi => ?_, hok.tracked,
      hok.oneEntry, hok.empty⟩
    · rw [hkept i hp]
      exact hok.reserved i hp hi
    · have hlo := hi.bounds.1
      rw [hkept i (Nat.le_trans hok.reservedLo hlo)]
      exact hok.held i hi

end HeapOk

/-- The tables after `pmm_init` on the zero globals. -/
def Heap.booted (size reserved : Nat) : Heap := { Heap.zero with pmm := Pmm.booted size reserved }

/-- After `pmm_init` from the zero globals nothing is live and the reserved blocks are marked. Block
0 is never handed out, reserved or not. -/
theorem heapOk_booted (reserved : Nat) {size : Nat} (h3 : size ≤ 2 ^ 20) :
    HeapOk (Heap.booted size reserved) (Ledger.empty Live.extent (max 1 reserved) size) := by
  refine ⟨Nat.le_max_left .., h3, rfl, by simp [Ledger.empty], ?_, ?_, ?_, ?_, fun _ _ => rfl⟩
  · intro i hp hi
    exact (Pmm.marked_booted size reserved i).trans (decide_eq_true (by omega))
  · rintro i ⟨a, ha, -⟩
    simp [Ledger.empty] at ha
  · exact fun i hi => absurd rfl hi
  · exact fun i _ hi => absurd rfl hi

end SimpleMicrokernel.Memory
