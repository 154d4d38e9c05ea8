/-
Address spaces. A chunk denotes a map from page numbers to entries, kept in blocks of its own: the
chunk's, the directory's and one for each table. What leaves these blocks alone leaves the map
alone; a store to one entry changes that entry and nothing outside the tables.
-/
import SimpleMicrokernel.Paging.Paging

namespace SimpleMicrokernel.Paging

open Memory Fs

/-- The entry of a page in the directory of a chunk. -/
def pageEntry (mem : Mem) (chunk p : Nat) : BitVec 32 :=
  uint32At mem (tableAddr mem (directoryEntry mem chunk) (p / 1024) + 4 * (p % 1024))

theorem pagingGet_eq (mem : Mem) (chunk : Nat) {virt : Nat} (h : virt % 4096 = 0) :
    pagingGet mem (directoryEntry mem chunk) virt = pageEntry mem chunk (virt / 4096) := by
  have h1 : virt / (1024 * 4096) = virt / 4096 / 1024 := by omega
  have h2 : virt % (1024 * 4096) / 4096 = virt / 4096 % 1024 := by omega
  simp only [pagingGet, pagingGetIndexes, pagingPageSize, pagingTotalEntriesPerTable, if_pos h,
    Option.getD_some, h1, h2, pageEntry]

theorem pagingSet_eq (mem : Mem) (directory : Nat) {virt : Nat} (h : virt % 4096 = 0) (val : BitVec 32) :
    pagingSet mem directory virt val =
      (1, setUint32 mem (tableAddr mem directory (virt / 4096 / 1024) + 4 * (virt / 4096 % 1024)) val) := by
  have h1 : virt / (1024 * 4096) = virt / 4096 / 1024 := by omega
  have h2 : virt % (1024 * 4096) / 4096 = virt / 4096 % 1024 := by omega
  simp only [pagingSet, pagingGetIndexes, pagingPageSize, pagingTotalEntriesPerTable, if_pos h, h1, h2]

theorem pagingMap_eq (mem : Mem) (directory : Nat) {virt phy : Nat} (hv : virt % 4096 = 0) (hp : phy % 4096 = 0)
    (flags : BitVec 32) : pagingMap mem directory virt phy flags =
      pagingSet mem directory virt (BitVec.ofNat 32 phy ||| flags) := by
  simp only [pagingMap, pagingPageSize, hv, hp, ne_eq, not_true_eq_false, or_self, if_false]

/-- The flags of entry `i` of a chunk's directory. -/
def directoryFlags (mem : Mem) (chunk i : Nat) : BitVec 32 :=
  uint32At mem (directoryEntry mem chunk + 4 * i) &&& 0xfff#32

/-- Table `i` of a chunk. -/
def table (mem : Mem) (chunk i : Nat) : Nat := tableAddr mem (directoryEntry mem chunk) i

/-- The first `n` tables of a chunk. -/
def tables (mem : Mem) (chunk n : Nat) : List Nat := (List.range n).map (table mem chunk)

theorem mem_tables {mem : Mem} {chunk n b : Nat} : b ∈ tables mem chunk n ↔ ∃ i < n, table mem chunk i = b := by
  simp [tables]

/-- The blocks of an address space: the chunk, the directory and the tables. -/
def spaceBlocks (mem : Mem) (chunk : Nat) : List Nat :=
  chunk :: directoryEntry mem chunk :: tables mem chunk pagingTotalEntriesPerTable

theorem table_mem {mem : Mem} {chunk i : Nat} (hi : i < 1024) : table mem chunk i ∈ spaceBlocks mem chunk :=
  List.mem_cons_of_mem _ (List.mem_cons_of_mem _ (mem_tables.2 ⟨i, hi, rfl⟩))

/-- An address space: its blocks are live, on page boundaries and all different. -/
structure IsSpace (mem : Mem) (live : List Live) (chunk : Nat) : Prop where
  live : ∀ b ∈ spaceBlocks mem chunk, Live.block b ∈ live
  aligned : ∀ b ∈ spaceBlocks mem chunk, b % 4096 = 0
  nodup : (spaceBlocks mem chunk).Nodup

theorem block_covers {b x : Nat} (hb : b % 4096 = 0) : (Live.block b).Covers x ↔ b ≤ x ∧ x < b + 4096 :=
  (Live.covers_iff hb).trans (by simp [Live.block, blockCount, pmmBlockSize])

section
variable {mem mem' : Mem} {live live' : List Live} {chunk : Nat}

namespace IsSpace

theorem blocks (h : IsSpace mem live chunk) : IsSpace mem (live.filter fun a => a.owner = .pmm) chunk :=
  ⟨fun b hb => List.mem_filter.2 ⟨h.live b hb, by simp [Live.block]⟩, h.aligned, h.nodup⟩

theorem chunk_ne (h : IsSpace mem live chunk) : directoryEntry mem chunk ≠ chunk := fun he => by
  have := (List.nodup_cons.1 h.nodup).1
  exact this (by rw [he]; exact List.mem_cons_self ..)

theorem table_ne (h : IsSpace mem live chunk) {i : Nat} (hi : i < 1024) :
    table mem chunk i ≠ chunk ∧ table mem chunk i ≠ directoryEntry mem chunk := by
  have hmem : table mem chunk i ∈ tables mem chunk pagingTotalEntriesPerTable := mem_tables.2 ⟨i, hi, rfl⟩
  obtain ⟨h1, h2⟩ := List.nodup_cons.1 h.nodup
  obtain ⟨h2, -⟩ := List.nodup_cons.1 h2
  refine ⟨fun he => h1 (List.mem_cons_of_mem _ ?_), fun he => h2 ?_⟩
  · rwa [he] at hmem
  · rwa [he] at hmem

theorem table_inj (h : IsSpace mem live chunk) {i j : Nat} (hi : i < 1024) (hj : j < 1024)
    (he : table mem chunk i = table mem chunk j) : i = j := by
  obtain ⟨-, h1⟩ := List.nodup_cons.1 h.nodup
  obtain ⟨-, h2⟩ := List.nodup_cons.1 h1
  unfold tables at h2
  exact List.inj_on_of_nodup_map h2 (List.mem_range.2 hi) (List.mem_range.2 hj) he

end IsSpace

/-- What leaves the chunk and the directory alone leaves the tables where they are. -/
theorem spaceBlocks_congr (hc : chunk % 4096 = 0) (hd : directoryEntry mem chunk % 4096 = 0)
    (hchunk : ∀ x, (Live.block chunk).Covers x → mem' x = mem x)
    (hdir : ∀ x, (Live.block (directoryEntry mem chunk)).Covers x → mem' x = mem x) :
    directoryEntry mem' chunk = directoryEntry mem chunk ∧ (∀ i < 1024, table mem' chunk i = table mem chunk i) ∧
      spaceBlocks mem' chunk = spaceBlocks mem chunk := by
  have h1 : directoryEntry mem' chunk = directoryEntry mem chunk := by
    unfold directoryEntry
    exact congrArg BitVec.toNat (uint32At_congr fun x h1 h2 => hchunk x ((block_covers hc).2 ⟨h1, by omega⟩))
  have h2 : ∀ i < 1024, table mem' chunk i = table mem chunk i := by
    intro i hi
    unfold table tableAddr
    rw [h1]
    exact congrArg frameOf (uint32At_congr fun x h1 h2 => hdir x ((block_covers hd).2 ⟨by omega, by omega⟩))
  refine ⟨h1, h2, ?_⟩
  have h3 : tables mem' chunk pagingTotalEntriesPerTable = tables mem chunk pagingTotalEntriesPerTable :=
    List.map_congr_left fun i hi => h2 i (List.mem_range.1 hi)
  unfold spaceBlocks
  rw [h1, h3]

/-- The directory and the tables stay where they are when no block of the page allocator is stored to. -/
theorem IsSpace.same (h : IsSpace mem live chunk)
    (hmem : ∀ a ∈ live, a.owner = .pmm → ∀ x, a.Covers x → mem' x = mem x) :
    directoryEntry mem' chunk = directoryEntry mem chunk ∧ (∀ i < 1024, table mem' chunk i = table mem chunk i) ∧
      spaceBlocks mem' chunk = spaceBlocks mem chunk := by
  have hin : ∀ b ∈ spaceBlocks mem chunk, ∀ x, (Live.block b).Covers x → mem' x = mem x :=
    fun b hb => hmem _ (h.live b hb) rfl
  have hc : chunk ∈ spaceBlocks mem chunk := List.mem_cons_self ..
  have hd : directoryEntry mem chunk ∈ spaceBlocks mem chunk := List.mem_cons_of_mem _ (List.mem_cons_self ..)
  exact spaceBlocks_congr (h.aligned _ hc) (h.aligned _ hd) (hin _ hc) (hin _ hd)

/-- What leaves the blocks of an address space alone leaves the space and its map alone. -/
theorem IsSpace.congr (h : IsSpace mem live chunk) (hlive : live ⊆ live')
    (hmem : ∀ a ∈ live, ∀ x, a.Covers x → mem' x = mem x) :
    IsSpace mem' live' chunk ∧ spaceBlocks mem' chunk = spaceBlocks mem chunk ∧
      ∀ p < 2 ^ 20, pageEntry mem' chunk p = pageEntry mem chunk p := by
  have hin : ∀ b ∈ spaceBlocks mem chunk, ∀ x, (Live.block b).Covers x → mem' x = mem x :=
    fun b hb => hmem _ (h.live b hb)
  obtain ⟨-, h2, h3⟩ := h.same fun a ha _ => hmem a ha
  refine ⟨⟨?_, ?_, ?_⟩, h3, fun p hp => ?_⟩
  · rw [h3]; exact fun b hb => hlive (h.live b hb)
  · rw [h3]; exact h.aligned
  · rw [h3]; exact h.nodup
  · have ht : table mem chunk (p / 1024) ∈ spaceBlocks mem chunk := table_mem (by omega)
    have e := h2 (p / 1024) (by omega)
    unfold table at e ht
    unfold pageEntry
    rw [e]
    exact uint32At_congr fun x h1 h2 => hin _ ht x ((block_covers (h.aligned _ ht)).2 ⟨by omega, by omega⟩)

theorem IsSpace.directoryFlags_congr (h : IsSpace mem live chunk) (hmem : ∀ a ∈ live, ∀ x, a.Covers x → mem' x = mem x)
    {i : Nat} (hi : i < 1024) : directoryFlags mem' chunk i = directoryFlags mem chunk i := by
  have hd : directoryEntry mem chunk ∈ spaceBlocks mem chunk := List.mem_cons_of_mem _ (List.mem_cons_self ..)
  have hda := h.aligned _ hd
  unfold directoryFlags
  rw [(h.same fun a ha _ => hmem a ha).1]
  exact congrArg (· &&& 0xfff#32) (uint32At_congr fun x h1 h2 =>
    hmem _ (h.live _ hd) x ((block_covers hda).2 ⟨by omega, by omega⟩))

/-! ## Changing entries -/

/-- Only bytes of the tables of the chunk may have changed. -/
def InTables (mem mem' : Mem) (chunk : Nat) : Prop :=
  ∀ x, (∀ i < 1024, ¬ (Live.block (table mem chunk i)).Covers x) → mem' x = mem x

/-- A change of the map of a chunk, from `entry` to `entry'`, by stores to its tables. -/
structure Remaps (mem mem' : Mem) (chunk : Nat) (entry' : Nat → BitVec 32) : Prop where
  inTables : InTables mem mem' chunk
  blocks : spaceBlocks mem' chunk = spaceBlocks mem chunk
  tables : ∀ i < 1024, table mem' chunk i = table mem chunk i
  directory : directoryEntry mem' chunk = directoryEntry mem chunk
  entry : ∀ p < 2 ^ 20, pageEntry mem' chunk p = entry' p

theorem Remaps.isSpace {entry : Nat → BitVec 32} (h : IsSpace mem live chunk) (hr : Remaps mem mem' chunk entry) :
    IsSpace mem' live chunk := by
  refine ⟨?_, ?_, ?_⟩
  · rw [hr.blocks]; exact h.live
  · rw [hr.blocks]; exact h.aligned
  · rw [hr.blocks]; exact h.nodup

theorem Remaps.directoryFlags_eq {entry : Nat → BitVec 32} (h : IsSpace mem live chunk)
    (hr : Remaps mem mem' chunk entry) {i : Nat} (hi : i < 1024) :
    directoryFlags mem' chunk i = directoryFlags mem chunk i := by
  have hd : directoryEntry mem chunk ∈ spaceBlocks mem chunk := List.mem_cons_of_mem _ (List.mem_cons_self ..)
  unfold directoryFlags
  rw [hr.directory]
  refine congrArg (· &&& 0xfff#32) (uint32At_congr fun x h1 h2 => hr.inTables x fun j hj hx => ?_)
  rw [block_covers (h.aligned _ (table_mem hj))] at hx
  have hda := h.aligned _ hd
  have hta := h.aligned _ (table_mem hj)
  have hne := (h.table_ne hj).2
  omega

theorem remaps_refl (mem : Mem) (chunk : Nat) : Remaps mem mem chunk (pageEntry mem chunk) :=
  ⟨fun _ _ => rfl, rfl, fun _ _ => rfl, rfl, fun _ _ => rfl⟩

theorem Remaps.trans {mem'' : Mem} {entry entry' : Nat → BitVec 32} (h : Remaps mem mem' chunk entry)
    (h' : Remaps mem' mem'' chunk entry') : Remaps mem mem'' chunk entry' := by
  refine ⟨fun x hx => ?_, h'.blocks.trans h.blocks, fun i hi => (h'.tables i hi).trans (h.tables i hi),
    h'.directory.trans h.directory, h'.entry⟩
  rw [h'.inTables x fun i hi => by rw [h.tables i hi]; exact hx i hi, h.inTables x hx]

theorem Remaps.congr {entry entry' : Nat → BitVec 32} (h : Remaps mem mem' chunk entry)
    (he : ∀ q < 2 ^ 20, entry q = entry' q) : Remaps mem mem' chunk entry' :=
  ⟨h.inTables, h.blocks, h.tables, h.directory, fun q hq => (h.entry q hq).trans (he q hq)⟩

/-- `paging_set` changes the entry of its page. -/
theorem remaps_pagingSet (h : IsSpace mem live chunk) {p : Nat} (hp : p < 2 ^ 20) (val : BitVec 32) :
    (pagingSet mem (directoryEntry mem chunk) (p * 4096) val).1 = 1 ∧
      Remaps mem (pagingSet mem (directoryEntry mem chunk) (p * 4096) val).2 chunk
        fun q => if q = p then val else pageEntry mem chunk q := by
  have hp' : p * 4096 / 4096 = p := by omega
  have hset : pagingSet mem (directoryEntry mem chunk) (p * 4096) val =
      (1, setUint32 mem (table mem chunk (p / 1024) + 4 * (p % 1024)) val) := by
    rw [pagingSet_eq _ _ (by omega), hp', table]
  rw [hset]
  refine ⟨rfl, ?_⟩
  have htable : ∀ i < 1024, table mem chunk i % 4096 = 0 := fun i hi => h.aligned _ (table_mem hi)
  have hi : p / 1024 < 1024 := by omega
  have hout : ∀ x, ¬ (Live.block (table mem chunk (p / 1024))).Covers x →
      setUint32 mem (table mem chunk (p / 1024) + 4 * (p % 1024)) val x = mem x := by
    intro x hx
    rw [block_covers (htable _ hi)] at hx
    exact setUint32_apply mem val (by omega)
  -- the chunk and the directory are in other blocks than the table
  have hother : ∀ b ∈ spaceBlocks mem chunk, b ≠ table mem chunk (p / 1024) → ∀ x, (Live.block b).Covers x →
      setUint32 mem (table mem chunk (p / 1024) + 4 * (p % 1024)) val x = mem x := by
    intro b hb hne x hx
    refine hout x fun ht => ?_
    have hb' := h.aligned b hb
    have ht' := htable _ hi
    rw [block_covers hb'] at hx
    rw [block_covers ht'] at ht
    omega
  have hc : chunk ∈ spaceBlocks mem chunk := List.mem_cons_self ..
  have hd : directoryEntry mem chunk ∈ spaceBlocks mem chunk := List.mem_cons_of_mem _ (List.mem_cons_self ..)
  obtain ⟨e1, e2, e3⟩ := spaceBlocks_congr (h.aligned _ hc) (h.aligned _ hd)
    (hother _ hc (h.table_ne hi).1.symm) (hother _ hd (h.table_ne hi).2.symm)
  refine ⟨fun x hx => hout x (hx _ hi), e3, e2, e1, fun q hq => ?_⟩
  have eq := e2 (q / 1024) (by omega)
  unfold pageEntry
  change uint32At _ (table _ chunk (q / 1024) + _) = if q = p then val else
    uint32At mem (table mem chunk (q / 1024) + _)
  rw [eq]
  by_cases hqp : q = p
  · rw [if_pos hqp, hqp, uint32At_setUint32]
  · rw [if_neg hqp]
    by_cases ht : q / 1024 = p / 1024
    · rw [ht]
      exact uint32At_setUint32_of_ne mem val (by omega)
    · have hne : table mem chunk (q / 1024) ≠ table mem chunk (p / 1024) :=
        fun he => ht (h.table_inj (by omega) hi he)
      have h3 := htable (q / 1024) (by omega)
      have h4 := htable (p / 1024) hi
      exact uint32At_setUint32_of_ne mem val (by omega)

theorem next_page {v : Nat} (h : v + 1 < 2 ^ 20) : (v * 4096 + 4096) % 2 ^ 32 = (v + 1) * 4096 := by
  omega

/-- `paging_map_range` over pages `v`, …, to frames `f`, …, none of them past the last page. -/
theorem remaps_pagingMapRange {flags : BitVec 32} {n : Nat} : ∀ {mem : Mem} {v f : Nat}, IsSpace mem live chunk →
    v + n < 2 ^ 20 → f + n < 2 ^ 20 →
    (pagingMapRange (directoryEntry mem chunk) flags n mem (v * 4096) (f * 4096)).1 = 1 ∧
      Remaps mem (pagingMapRange (directoryEntry mem chunk) flags n mem (v * 4096) (f * 4096)).2 chunk fun q =>
        if v ≤ q ∧ q < v + n then BitVec.ofNat 32 ((f + (q - v)) * 4096) ||| flags else pageEntry mem chunk q := by
  induction n with
  | zero =>
    intro mem v f _ _ _
    refine ⟨rfl, ?_⟩
    have := remaps_refl mem chunk
    exact ⟨this.inTables, this.blocks, this.tables, this.directory, fun q hq => by rw [if_neg (by omega)]; rfl⟩
  | succ n ih =>
    intro mem v f h hv hf
    obtain ⟨hset, hone⟩ := remaps_pagingSet h (p := v) (by omega) (BitVec.ofNat 32 (f * 4096) ||| flags)
    obtain ⟨hres, hrest⟩ := ih (v := v + 1) (f := f + 1) (hone.isSpace h) (by omega) (by omega)
    rw [hone.directory] at hres hrest
    have hstep : pagingMapRange (directoryEntry mem chunk) flags (n + 1) mem (v * 4096) (f * 4096) =
        pagingMapRange (directoryEntry mem chunk) flags n (pagingSet mem (directoryEntry mem chunk) (v * 4096)
          (BitVec.ofNat 32 (f * 4096) ||| flags)).2 ((v + 1) * 4096) ((f + 1) * 4096) := by
      rw [pagingMapRange]
      simp only [pagingMap, pagingPageSize, Nat.mul_mod_left, ne_eq, not_true_eq_false, or_self, if_false,
        next_page (show v + 1 < 2 ^ 20 by omega), next_page (show f + 1 < 2 ^ 20 by omega)]
      rw [if_neg (by rw [hset]; decide)]
    rw [hstep]
    refine ⟨hres, ?_⟩
    have := hone.trans hrest
    refine ⟨this.inTables, this.blocks, this.tables, this.directory, fun q hq => ?_⟩
    rw [this.entry q hq]
    by_cases h1 : v + 1 ≤ q ∧ q < v + 1 + n
    · rw [if_pos h1, if_pos (by omega), show f + 1 + (q - (v + 1)) = f + (q - v) by omega]
    · rw [if_neg h1, hone.entry q hq]
      by_cases h2 : q = v
      · rw [if_pos h2, if_pos (by omega), h2, Nat.sub_self, Nat.add_zero]
      · rw [if_neg h2, if_neg (by omega)]

/-- `paging_map_to` from page `v` on to the frames of a range on page boundaries. -/
theorem remaps_pagingMapTo {flags : BitVec 32} (h : IsSpace mem live chunk) {v f n : Nat} (hv : v + n < 2 ^ 20)
    (hf : f + n < 2 ^ 20) :
    Remaps mem (pagingMapTo mem (directoryEntry mem chunk) (v * 4096) (f * 4096) ((f + n) * 4096) flags).2
    chunk fun q =>
      if v ≤ q ∧ q < v + n then BitVec.ofNat 32 ((f + (q - v)) * 4096) ||| flags else pageEntry mem chunk q := by
  have hpages : ((f + n) * 4096 - f * 4096) / 4096 = n := by omega
  unfold pagingMapTo
  simp only [pagingPageSize, Nat.mul_mod_left, ne_eq, not_true_eq_false, if_false, hpages]
  rw [if_neg (by omega)]
  exact (remaps_pagingMapRange h hv hf).2

theorem pagingAlignAddress_eq {ptr : Nat} (h : ptr + 4095 < 2 ^ 32) :
    pagingAlignAddress ptr = (ptr + 4095) / 4096 * 4096 := by
  unfold pagingAlignAddress pagingPageSize
  split <;> omega

end

end SimpleMicrokernel.Paging
