/-
Page directories as independent maps. The abstract side has a map from pages to entries for each
directory made, and each call of the code changes one map or makes one. The code refines it: in every
state reached every directory reads as its map, because the blocks of the directories are all
different and a call stores to the tables of its own directory only.
-/
import SimpleMicrokernel.Paging.New

namespace SimpleMicrokernel.Paging

open Memory Fs

/-! ## The abstract side -/

/-- The entry of each page, page `p` the one at address `p * 4096`. -/
abbrev PageMap := Nat → BitVec 32

/-- Every page taken to itself. -/
def identityPages (flags : BitVec 32) : PageMap := fun p => BitVec.ofNat 32 (p * 4096) ||| flags

/-- Pages from `virt` on taken to frames from `phy` on, one after another, both starting again at 0
past the last. -/
def PageMap.range (flags : BitVec 32) : Nat → PageMap → Nat → Nat → PageMap
  | 0, m, _, _ => m
  | n + 1, m, virt, phy =>
    range flags n (Function.update m virt (BitVec.ofNat 32 (phy * 4096) ||| flags)) ((virt + 1) % 2 ^ 20)
      ((phy + 1) % 2 ^ 20)

/-- A call on a directory, with its arguments. -/
inductive DirectoryOp where
  | set (virt val : BitVec 32)
  | map (virt phy flags : BitVec 32)
  | mapRange (virt phy totalPages flags : BitVec 32)
  | mapTo (virt phy phyEnd flags : BitVec 32)
deriving DecidableEq, Repr

namespace DirectoryOp

/-- The call of the code. -/
def call (mem : Mem) (directory : Nat) : DirectoryOp → Int × Mem
  | set virt val => pagingSet mem directory virt.toNat val
  | map virt phy flags => pagingMap mem directory virt.toNat phy.toNat flags
  | mapRange virt phy totalPages flags =>
    pagingMapRange directory flags totalPages.toNat mem virt.toNat phy.toNat
  | mapTo virt phy phyEnd flags => pagingMapTo mem directory virt.toNat phy.toNat phyEnd.toNat flags

/-- The page an address on a page boundary starts. -/
def page? (a : BitVec 32) : Option Nat := if a.toNat % 4096 = 0 then some (a.toNat / 4096) else none

/-- The map with a range changed, when both ends are on page boundaries. -/
def rangeAt (flags : BitVec 32) (n : Nat) (m : PageMap) (virt phy : BitVec 32) : PageMap :=
  match page? virt, page? phy with
  | some v, some f => m.range flags n v f
  | _, _ => m

/-- What a call is for. -/
def apply (m : PageMap) : DirectoryOp → PageMap
  | set virt val =>
    match page? virt with
    | some v => Function.update m v val
    | none => m
  | map virt phy flags => rangeAt flags 1 m virt phy
  | mapRange virt phy totalPages flags => rangeAt flags totalPages.toNat m virt phy
  | mapTo virt phy phyEnd flags =>
    match page? phyEnd with
    | some e => rangeAt flags (e - phy.toNat / 4096) m virt phy
    | none => m

end DirectoryOp

/-! ## Calls refine -/

section
variable {mem mem' : Mem} {live : List Live} {chunk : Nat} {flags : BitVec 32}

theorem PageMap.range_congr {n : Nat} : ∀ {m m' : PageMap} {v f : Nat}, (∀ p < 2 ^ 20, m p = m' p) →
    ∀ p < 2 ^ 20, range flags n m v f p = range flags n m' v f p := by
  induction n with
  | zero => exact fun h => h
  | succ n ih =>
    intro m m' v f h
    refine ih fun p hp => ?_
    rw [Function.update_apply, Function.update_apply, h p hp]

theorem DirectoryOp.rangeAt_congr {n : Nat} {m m' : PageMap} {virt phy : BitVec 32} (h : ∀ p < 2 ^ 20, m p = m' p) :
    ∀ p < 2 ^ 20, rangeAt flags n m virt phy p = rangeAt flags n m' virt phy p := by
  unfold rangeAt
  cases page? virt with
  | none => exact h
  | some v =>
    cases page? phy with
    | none => exact h
    | some f => exact PageMap.range_congr h

theorem DirectoryOp.apply_congr (op : DirectoryOp) {m m' : PageMap} (h : ∀ p < 2 ^ 20, m p = m' p) :
    ∀ p < 2 ^ 20, op.apply m p = op.apply m' p := by
  cases op with
  | set virt val =>
    rw [apply, apply]
    cases page? virt with
    | none => exact h
    | some v =>
      intro p hp
      show Function.update m v val p = Function.update m' v val p
      rw [Function.update_apply, Function.update_apply, h p hp]
  | map virt phy flags => exact rangeAt_congr h
  | mapRange virt phy totalPages flags => exact rangeAt_congr h
  | mapTo virt phy phyEnd flags =>
    rw [apply, apply]
    cases page? phyEnd with
    | none => exact h
    | some e => exact rangeAt_congr h

/-- `paging_map_range` from any page to any frame, for any number of pages. -/
theorem remaps_range {n : Nat} : ∀ {mem : Mem} {v f : Nat}, IsSpace mem live chunk → v < 2 ^ 20 → f < 2 ^ 20 →
    Remaps mem (pagingMapRange (directoryEntry mem chunk) flags n mem (v * 4096) (f * 4096)).2 chunk
      (PageMap.range flags n (pageEntry mem chunk) v f) := by
  induction n with
  | zero =>
    intro mem v f _ _ _
    exact remaps_refl mem chunk
  | succ n ih =>
    intro mem v f h hv hf
    obtain ⟨hset, hone⟩ := remaps_pagingSet h hv (BitVec.ofNat 32 (f * 4096) ||| flags)
    have hrest := ih (v := (v + 1) % 2 ^ 20) (f := (f + 1) % 2 ^ 20) (hone.isSpace h) (Nat.mod_lt _ (by decide))
      (Nat.mod_lt _ (by decide))
    have hnext : ∀ x < 2 ^ 20, (x * 4096 + 4096) % 2 ^ 32 = (x + 1) % 2 ^ 20 * 4096 := by
      intro x _
      omega
    have hstep : pagingMapRange (directoryEntry mem chunk) flags (n + 1) mem (v * 4096) (f * 4096) =
        pagingMapRange (directoryEntry mem chunk) flags n (pagingSet mem (directoryEntry mem chunk) (v * 4096)
          (BitVec.ofNat 32 (f * 4096) ||| flags)).2 ((v + 1) % 2 ^ 20 * 4096) ((f + 1) % 2 ^ 20 * 4096) := by
      rw [pagingMapRange, pagingMap_eq _ _ (Nat.mul_mod_left ..) (Nat.mul_mod_left ..)]
      simp only [pagingPageSize, hnext v hv, hnext f hf]
      rw [if_neg (by rw [hset]; decide)]
    rw [hstep]
    rw [hone.directory] at hrest
    refine (hone.trans hrest).congr (PageMap.range_congr fun q hq => ?_)
    rw [hone.entry q hq, Function.update_apply]

theorem of_page {a : BitVec 32} {p : Nat} (h : DirectoryOp.page? a = some p) : a.toNat = p * 4096 ∧ p < 2 ^ 20 := by
  unfold DirectoryOp.page? at h
  have := a.isLt
  split at h
  · cases h
    omega
  · cases h

theorem of_page_none {a : BitVec 32} (h : DirectoryOp.page? a = none) : a.toNat % 4096 ≠ 0 := by
  unfold DirectoryOp.page? at h
  split at h
  · cases h
  · assumption

/-- A range with an address that is not on a page boundary changes nothing. -/
theorem pagingMapRange_unaligned {directory n v f : Nat} (h : v % 4096 ≠ 0 ∨ f % 4096 ≠ 0) :
    (pagingMapRange directory flags n mem v f).2 = mem := by
  cases n with
  | zero => rfl
  | succ n =>
    rw [pagingMapRange]
    simp only [pagingMap, pagingPageSize, if_pos h]
    rw [if_pos (by decide)]

/-- `paging_map_range` between any addresses. -/
theorem remaps_rangeAt (h : IsSpace mem live chunk) (n : Nat) (virt phy : BitVec 32) :
    Remaps mem (pagingMapRange (directoryEntry mem chunk) flags n mem virt.toNat phy.toNat).2 chunk
      (DirectoryOp.rangeAt flags n (pageEntry mem chunk) virt phy) := by
  unfold DirectoryOp.rangeAt
  cases hv : DirectoryOp.page? virt with
  | none =>
    rw [pagingMapRange_unaligned (.inl (of_page_none hv))]
    exact remaps_refl mem chunk
  | some v =>
    cases hp : DirectoryOp.page? phy with
    | none =>
      rw [pagingMapRange_unaligned (.inr (of_page_none hp))]
      exact remaps_refl mem chunk
    | some f =>
      obtain ⟨hv, hvlt⟩ := of_page hv
      obtain ⟨hp, hplt⟩ := of_page hp
      rw [hv, hp]
      exact remaps_range h hvlt hplt

theorem pagingMap_eq_range (directory virt phy : Nat) :
    (pagingMap mem directory virt phy flags).2 = (pagingMapRange directory flags 1 mem virt phy).2 := by
  by_cases h : virt % 4096 ≠ 0 ∨ phy % 4096 ≠ 0
  · rw [pagingMapRange_unaligned h]
    simp only [pagingMap, pagingPageSize, if_pos h]
  · rw [not_or, not_ne_iff, not_ne_iff] at h
    rw [pagingMapRange, pagingMap_eq _ _ h.1 h.2, pagingSet_eq _ _ h.1]
    rfl

/-- `paging_map_to` is a range, or nothing. -/
theorem pagingMapTo_eq_range (directory virt phy phyEnd : Nat) :
    (pagingMapTo mem directory virt phy phyEnd flags).2 =
      if phyEnd % 4096 = 0 then
      (pagingMapRange directory flags (phyEnd / 4096 - phy / 4096) mem virt phy).2 else mem := by
  unfold pagingMapTo
  simp only [pagingPageSize]
  by_cases h1 : virt % 4096 ≠ 0
  · rw [if_pos h1, pagingMapRange_unaligned (.inl h1), ite_self]
  by_cases h2 : phy % 4096 ≠ 0
  · rw [if_neg h1, if_pos h2, pagingMapRange_unaligned (.inr h2), ite_self]
  by_cases h3 : phyEnd % 4096 ≠ 0
  · rw [if_neg h1, if_neg h2, if_pos h3, if_neg h3]
  rw [not_ne_iff] at h3
  rw [if_neg h1, if_neg h2, if_neg (by omega), if_pos h3]
  by_cases h4 : phyEnd < phy
  · rw [if_pos h4, show phyEnd / 4096 - phy / 4096 = 0 by omega]
    rfl
  · rw [if_neg h4, show (phyEnd - phy) / 4096 = phyEnd / 4096 - phy / 4096 by omega]

/-- Every call refines its change of the map, by stores to the tables of its directory. -/
theorem remaps_call (h : IsSpace mem live chunk) (op : DirectoryOp) :
    Remaps mem (op.call mem (directoryEntry mem chunk)).2 chunk (op.apply (pageEntry mem chunk)) := by
  cases op with
  | set virt val =>
    rw [DirectoryOp.call, DirectoryOp.apply]
    cases hv : DirectoryOp.page? virt with
    | none =>
      have hv := of_page_none hv
      simp only [pagingSet, pagingGetIndexes, pagingPageSize, if_neg hv]
      exact remaps_refl mem chunk
    | some v =>
      obtain ⟨hv, hlt⟩ := of_page hv
      rw [hv]
      refine (remaps_pagingSet h hlt val).2.congr fun q _ => ?_
      exact (Function.update_apply (pageEntry mem chunk) v val q).symm
  | map virt phy flags =>
    rw [DirectoryOp.call, DirectoryOp.apply, pagingMap_eq_range]
    exact remaps_rangeAt h 1 virt phy
  | mapRange virt phy totalPages flags => exact remaps_rangeAt h totalPages.toNat virt phy
  | mapTo virt phy phyEnd flags =>
    rw [DirectoryOp.call, DirectoryOp.apply, pagingMapTo_eq_range]
    cases he : DirectoryOp.page? phyEnd with
    | none =>
      rw [if_neg (of_page_none he)]
      exact remaps_refl mem chunk
    | some e =>
      obtain ⟨he, -⟩ := of_page he
      rw [he, if_pos (Nat.mul_mod_left ..), Nat.mul_div_cancel _ (by decide)]
      exact remaps_rangeAt h (e - phy.toNat / 4096) virt phy

end

/-! ## Many directories -/

/-- Every directory named has blocks of its own and reads as its map. -/
structure Denotes (mem : Mem) (live : List Live) (maps : Nat → Option PageMap) : Prop where
  space : ∀ c m, maps c = some m → IsSpace mem live c
  apart : ∀ c d m m', maps c = some m → maps d = some m' → c ≠ d → ∀ b ∈ spaceBlocks mem c, b ∉ spaceBlocks mem d
  entry : ∀ c m, maps c = some m → ∀ p < 2 ^ 20, pageEntry mem c p = m p

section
variable {mem mem' : Mem} {live live' : List Live} {maps : Nat → Option PageMap} {chunk : Nat}

theorem denotes_none (mem : Mem) (live : List Live) : Denotes mem live fun _ => none :=
  ⟨by simp, by simp, by simp⟩

theorem Denotes.congr (h : Denotes mem live maps) (hlive : live ⊆ live')
    (hmem : ∀ a ∈ live, ∀ x, a.Covers x → mem' x = mem x) : Denotes mem' live' maps := by
  have hc : ∀ c m, maps c = some m → _ := fun c m hm => (h.space c m hm).congr hlive hmem
  refine ⟨fun c m hm => (hc c m hm).1, fun c d m m' hm hm' hne => ?_, fun c m hm p hp => ?_⟩
  · rw [(hc c m hm).2.1, (hc d m' hm').2.1]
    exact h.apart c d m m' hm hm' hne
  · rw [(hc c m hm).2.2 p hp]
    exact h.entry c m hm p hp

/-- One more directory, with blocks none of the others has. -/
theorem Denotes.add (h : Denotes mem live maps) {m : PageMap} (hspace : IsSpace mem live chunk)
    (hnew : ∀ c m, maps c = some m → ∀ b ∈ spaceBlocks mem c, b ∉ spaceBlocks mem chunk)
    (hentry : ∀ p < 2 ^ 20, pageEntry mem chunk p = m p) : Denotes mem live (Function.update maps chunk (some m)) := by
  have hcases : ∀ {c m'}, Function.update maps chunk (some m) c = some m' → (c = chunk ∧ m' = m) ∨
    (c ≠ chunk ∧ maps c = some m') := by
    intro c m' hm
    by_cases hc : c = chunk
    · rw [hc, Function.update_self] at hm
      cases hm
      exact .inl ⟨hc, rfl⟩
    · rw [Function.update_of_ne hc] at hm
      exact .inr ⟨hc, hm⟩
  refine ⟨fun c m' hm => ?_, fun c d m1 m2 h1 h2 hne b hb hb' => ?_, fun c m' hm => ?_⟩
  · rcases hcases hm with ⟨rfl, -⟩ | ⟨-, hm⟩
    · exact hspace
    · exact h.space c m' hm
  · rcases hcases h1 with ⟨rfl, -⟩ | ⟨-, h1'⟩
    · rcases hcases h2 with ⟨rfl, -⟩ | ⟨-, h2⟩
      · exact hne rfl
      · exact hnew d m2 h2 b hb' hb
    · rcases hcases h2 with ⟨rfl, -⟩ | ⟨-, h2'⟩
      · exact hnew c m1 h1' b hb hb'
      · exact h.apart c d m1 m2 h1' h2' hne b hb hb'
  · rcases hcases hm with ⟨rfl, rfl⟩ | ⟨-, hm⟩
    · exact hentry
    · exact h.entry c m' hm

theorem Denotes.forget (h : Denotes mem live maps) (chunk : Nat) :
    Denotes mem live (Function.update maps chunk none) := by
  have hcases : ∀ {c m}, Function.update maps chunk none c = some m → maps c = some m := by
    intro c m hm
    by_cases hc : c = chunk
    · rw [hc, Function.update_self] at hm
      cases hm
    · rwa [Function.update_of_ne hc] at hm
  exact ⟨fun c m hm => h.space c m (hcases hm), fun c d m m' hm hm' => h.apart c d m m' (hcases hm) (hcases hm'),
    fun c m hm => h.entry c m (hcases hm)⟩

/-- One address space given back: all blocks but its own stay allocated. -/
theorem Denotes.freed (h : Denotes mem live maps) {m : PageMap} (hm : maps chunk = some m)
    (hlive : ∀ b, Live.block b ∈ live → b ∉ spaceBlocks mem chunk → Live.block b ∈ live') :
    Denotes mem live' (Function.update maps chunk none) := by
  have hforget := h.forget chunk
  refine ⟨fun c m' hc => ?_, hforget.apart, hforget.entry⟩
  by_cases he : c = chunk
  · rw [he, Function.update_self] at hc
    cases hc
  · rw [Function.update_of_ne he] at hc
    have hspace := h.space c m' hc
    exact ⟨fun b hb => hlive b (hspace.live b hb) (h.apart c chunk m' m hc hm he b hb), hspace.aligned, hspace.nodup⟩

theorem IsSpace.congr_own (h : IsSpace mem live chunk)
    (hmem : ∀ b ∈ spaceBlocks mem chunk, ∀ x, (Live.block b).Covers x → mem' x = mem x) :
    IsSpace mem' live chunk ∧ spaceBlocks mem' chunk = spaceBlocks mem chunk ∧
      ∀ p < 2 ^ 20, pageEntry mem' chunk p = pageEntry mem chunk p := by
  have hown : IsSpace mem ((spaceBlocks mem chunk).map Live.block) chunk :=
    ⟨fun b hb => List.mem_map_of_mem hb, h.aligned, h.nodup⟩
  refine hown.congr (fun a ha => ?_) fun a ha => ?_
  · obtain ⟨b, hb, rfl⟩ := List.mem_map.1 ha
    exact h.live b hb
  · obtain ⟨b, hb, rfl⟩ := List.mem_map.1 ha
    exact hmem b hb

/-- A change of the map of one directory, the others as they were. -/
theorem Denotes.remaps {reserved size : Nat} {s : Sys} (h : Denotes s.mem s.live maps) (hok : s.Ok reserved size)
    {m : PageMap} (hm : maps chunk = some m) {entry : PageMap} (hr : Remaps s.mem mem' chunk entry) :
    Denotes mem' s.live (Function.update maps chunk (some entry)) := by
  have hspace := h.space chunk m hm
  -- no block of another directory is a table of this one
  have hout : ∀ d m', maps d = some m' → d ≠ chunk → ∀ b ∈ spaceBlocks s.mem d, ∀ x, (Live.block b).Covers x →
      mem' x = s.mem x := by
    intro d m' hd hne b hb x hx
    refine hr.inTables x fun i hi hc => ?_
    have ht : table s.mem chunk i ∈ spaceBlocks s.mem chunk := table_mem hi
    have hbt : Live.block b ≠ Live.block (table s.mem chunk i) := by
      intro he
      have he : b = table s.mem chunk i := congrArg Live.addr he
      rw [he] at hb
      exact h.apart d chunk m' m hd hm hne _ hb ht
    exact (hok.apart ((h.space d m' hd).live b hb) (hspace.live _ ht) hbt).not_covers hx hc
  have hrest : Denotes mem' s.live (Function.update maps chunk none) := by
    have hd : ∀ d m', Function.update maps chunk none d = some m' → d ≠ chunk ∧ maps d = some m' := by
      intro d m' hd
      by_cases he : d = chunk
      · rw [he, Function.update_self] at hd
        cases hd
      · rw [Function.update_of_ne he] at hd
        exact ⟨he, hd⟩
    have hc : ∀ d m', Function.update maps chunk none d = some m' → _ :=
      fun d m' hdm => (h.space d m' (hd d m' hdm).2).congr_own (hout d m' (hd d m' hdm).2 (hd d m' hdm).1)
    refine ⟨fun d m' hdm => (hc d m' hdm).1, fun c d m1 m2 h1 h2 hne => ?_, fun d m' hdm p hp => ?_⟩
    · rw [(hc c m1 h1).2.1, (hc d m2 h2).2.1]
      exact h.apart c d m1 m2 (hd c m1 h1).2 (hd d m2 h2).2 hne
    · rw [(hc d m' hdm).2.2 p hp]
      exact h.entry d m' (hd d m' hdm).2 p hp
  have hall := hrest.add (hr.isSpace hspace) (fun d m' hdm b hb => ?_) hr.entry
  · rwa [Function.update_idem] at hall
  · by_cases he : d = chunk
    · rw [he, Function.update_self] at hdm
      cases hdm
    · rw [Function.update_of_ne he] at hdm
      rw [((h.space d m' hdm).congr_own (hout d m' hdm he)).2.1] at hb
      rw [hr.blocks]
      exact h.apart d chunk m' m hdm hm he b hb

end

/-! ## Giving a directory back -/

section
variable {reserved size : Nat} {keep : Prop} {held : List Live} {chunk : Nat}

/-- The loop gives back the tables left, which are live and all different, and nothing else. -/
theorem freeTables_spec {n : Nat} : ∀ {i : Nat} {s : Sys}, s.Ok reserved size → held ⊆ s.live →
    (∀ j, i ≤ j → j < i + n → Live.block (table s.mem chunk j) ∈ s.live ∧ ∀ a ∈ held, a.addr ≠ table s.mem chunk j) →
    (∀ j k, i ≤ j → j < k → k < i + n → table s.mem chunk j ≠ table s.mem chunk k) →
    ∃ s', freeTables chunk n i s = .ok ((), s') ∧ s'.mem = s.mem ∧ FramesSys reserved size keep held s s' := by
  induction n with
  | zero =>
    intro i s _ _ _ _
    exact ⟨s, rfl, rfl, AllocState.Frames.rfl' _⟩
  | succ n ih =>
    intro i s hok hheld hlive hne
    obtain ⟨hi, hout⟩ := hlive i (Nat.le_refl i) (by omega)
    -- what is framed by the first call is held besides the table: `held` and the tables after
    have hfirst : ∀ held : List Live, (∀ a ∈ held, a.addr ≠ table s.mem chunk i) →
        ∃ s1, pmmFreeBlock (table s.mem chunk i) s = .ok ((), s1) ∧ s1.mem = s.mem ∧
          FramesSys reserved size keep held s s1 := by
      intro held hout
      obtain ⟨s1, h1, hmem, f1, -⟩ := pmmFreeBlock_spec reserved size keep hi hout
      exact ⟨s1, h1, hmem, f1⟩
    obtain ⟨s1, h1, hmem, f1⟩ := hfirst held hout
    obtain ⟨hok1, hheld1, -⟩ := f1 hok hheld
    have htables : ∀ j, i + 1 ≤ j → j < i + 1 + n → Live.block (table s.mem chunk j) ∈ s1.live := by
      intro j hij hj
      obtain ⟨s1', h1', -, f1'⟩ := hfirst [Live.block (table s.mem chunk j)] fun a ha => by
        rw [List.mem_singleton.1 ha]
        exact (hne i j (Nat.le_refl i) (by omega) (by omega)).symm
      rw [h1] at h1'
      cases h1'
      obtain ⟨-, hin, -⟩ := f1' hok (List.cons_subset.2 ⟨(hlive j (by omega) (by omega)).1, List.nil_subset _⟩)
      exact hin (List.mem_singleton_self _)
    obtain ⟨s2, h2, hmem2, f2⟩ := ih (i := i + 1) (s := s1) hok1 hheld1
      (fun j hij hj => by rw [hmem]; exact ⟨htables j hij hj, (hlive j (by omega) (by omega)).2⟩)
      (fun j k hij hjk hk => by rw [hmem]; exact hne j k (by omega) hjk (by omega))
    refine ⟨s2, ?_, hmem2.trans hmem, f1.trans' f2⟩
    rw [freeTables, Exec.bind_of_ok (Exec.get_apply s)]
    exact (Exec.bind_of_ok h1).trans h2

/-- `paging_free_4gb` gives back the blocks of the address space and nothing else. -/
theorem pagingFree4gb_spec {s : Sys} (h : IsSpace s.mem s.live chunk) (hok : s.Ok reserved size) (hheld : held ⊆ s.live)
    (hout : ∀ a ∈ held, ∀ b ∈ spaceBlocks s.mem chunk, a.addr ≠ b) :
    ∃ s', pagingFree4gb chunk s = .ok ((), s') ∧ s'.mem = s.mem ∧ FramesSys reserved size keep held s s' := by
  have hc : chunk ∈ spaceBlocks s.mem chunk := List.mem_cons_self ..
  have hd : directoryEntry s.mem chunk ∈ spaceBlocks s.mem chunk := List.mem_cons_of_mem _ (List.mem_cons_self ..)
  have hcd := h.chunk_ne
  -- the directory and the chunk stay while the tables go
  have hloop : ∃ s1, freeTables chunk 1024 0 s = .ok ((), s1) ∧ s1.mem = s.mem ∧ FramesSys reserved size keep
      (Live.block (directoryEntry s.mem chunk) :: Live.block chunk :: held) s s1 := freeTables_spec hok
    (List.cons_subset.2 ⟨h.live _ hd, List.cons_subset.2 ⟨h.live _ hc, hheld⟩⟩)
    (fun j _ hj => by
      have hj : j < 1024 := by omega
      refine ⟨h.live _ (table_mem hj), fun a ha => ?_⟩
      rcases List.mem_cons.1 ha with rfl | ha
      · exact (h.table_ne hj).2.symm
      · rcases List.mem_cons.1 ha with rfl | ha
        · exact (h.table_ne hj).1.symm
        · exact hout a ha _ (table_mem hj))
    (fun j k _ hjk hk he => Nat.ne_of_lt hjk (h.table_inj (by omega) (by omega) he))
  obtain ⟨s1, h1, hmem1, f1⟩ := hloop
  obtain ⟨hok1, hheld1, -⟩ := f1 hok (List.cons_subset.2 ⟨h.live _ hd, List.cons_subset.2 ⟨h.live _ hc, hheld⟩⟩)
  rw [List.cons_subset, List.cons_subset] at hheld1
  obtain ⟨hd1, hc1, hheld1⟩ := hheld1
  have hout2 : ∀ a ∈ Live.block chunk :: held, a.addr ≠ directoryEntry s.mem chunk := by
    intro a ha
    rcases List.mem_cons.1 ha with rfl | ha
    · exact hcd.symm
    · exact hout a ha _ hd
  obtain ⟨s2, h2, hmem2, f2, -⟩ := pmmFreeBlock_spec reserved size keep hd1 hout2
  obtain ⟨hok2, hheld2, -⟩ := f2 hok1 (List.cons_subset.2 ⟨hc1, hheld1⟩)
  rw [List.cons_subset] at hheld2
  obtain ⟨s3, h3, hmem3, f3, -⟩ := pmmFreeBlock_spec reserved size keep hheld2.1
    fun a ha => hout a ha _ hc
  have fall : FramesSys reserved size keep held s s3 := by
    refine AllocState.Frames.trans' (AllocState.Frames.mono f1 ?_ ?_) ((AllocState.Frames.mono f2 ?_ ?_).trans' f3)
    · exact List.subset_cons_of_subset _ (List.subset_cons_self ..)
    · exact fun _ => List.cons_subset.2 ⟨h.live _ hd, List.cons_subset.2 ⟨h.live _ hc, hheld⟩⟩
    · exact List.subset_cons_self ..
    · exact fun hin => List.cons_subset.2 ⟨hc1, hin⟩
  refine ⟨s3, ?_, hmem3.trans (hmem2.trans hmem1), fall⟩
  unfold pagingFree4gb
  rw [Exec.bind_of_ok h1, Exec.bind_of_ok (Exec.get_apply s1), hmem1]
  exact (Exec.bind_of_ok h2).trans h3

end

/-! ## Runs -/

section
variable {reserved size : Nat}

/-- The states after calls that make directories and calls on the directories made, from any state of
the allocator, with the maps the directories are to have. -/
inductive PagingRun (reserved size : Nat) : Sys → (Nat → Option PageMap) → Prop where
  | start {s : Sys} (mem : Mem) (ops : List Op) :
      AllocState.Allowed (AllocState.init size reserved mem) ops →
      s.toAllocState = (AllocState.init size reserved mem).after ops → PagingRun reserved size s fun _ => none
  | new {s s' : Sys} {maps} {flags : BitVec 8} {c : Nat} : PagingRun reserved size s maps →
    pagingNew4gb flags s = .ok (c, s') →
      PagingRun reserved size s' (if c = 0 then maps else
        Function.update maps c (some (identityPages (flags.setWidth 32))))
  | call {s : Sys} {maps} {c : Nat} {m : PageMap} (op : DirectoryOp) : PagingRun reserved size s maps →
    maps c = some m →
      PagingRun reserved size { s with mem := (op.call s.mem (directoryEntry s.mem c)).2 }
        (Function.update maps c (some (op.apply m)))

variable {s s' : Sys} {maps : Nat → Option PageMap}

/-- A directory made has blocks that nobody held. -/
theorem Denotes.new (h : Denotes s.mem s.live maps) (hok : s.Ok reserved size) {flags : BitVec 8} {c : Nat}
    (hnew : pagingNew4gb flags s = .ok (c, s')) : s'.Ok reserved size ∧ Denotes s'.mem s'.live maps ∧
      (c ≠ 0 → maps c = none ∧
        Denotes s'.mem s'.live (Function.update maps c (some (identityPages (flags.setWidth 32))))) := by
  have hspec : FramesSys reserved size True s.live s s' ∧ _ := pagingNew4gb_spec hnew hok (List.Subset.refl _)
  obtain ⟨f, hspec⟩ := hspec
  obtain ⟨hok', hlive, hmem⟩ := f hok (List.Subset.refl _)
  have hmem := hmem trivial
  have hold := h.congr hlive hmem
  refine ⟨hok', hold, fun hc => ?_⟩
  obtain ⟨hspace, hfresh, hentry, -⟩ := hspec hc
  have hapart : ∀ d m, maps d = some m → ∀ b ∈ spaceBlocks s'.mem d, b ∉ spaceBlocks s'.mem c := by
    intro d m hd b hb hb'
    rw [((h.space d m hd).congr hlive hmem).2.1] at hb
    exact hfresh b hb' _ ((h.space d m hd).live b hb) rfl
  refine ⟨?_, hold.add hspace hapart hentry⟩
  cases hm : maps c with
  | none => rfl
  | some m => exact absurd (List.mem_cons_self ..) (hapart c m hm c (List.mem_cons_self ..))

theorem Denotes.call (h : Denotes s.mem s.live maps) (hok : s.Ok reserved size) {c : Nat} {m : PageMap}
    (hm : maps c = some m) (op : DirectoryOp) :
    Denotes (op.call s.mem (directoryEntry s.mem c)).2 s.live (Function.update maps c (some (op.apply m))) := by
  have hr := (remaps_call (h.space c m hm) op).congr fun p hp => op.apply_congr (h.entry c m hm) p hp
  exact h.remaps hok hm hr

/-- In every state reached the tables are right and every directory reads as its map. -/
theorem PagingRun.denotes (hsize : size ≤ 2 ^ 20) (h : PagingRun reserved size s maps) :
    s.Ok (max 1 reserved) size ∧ Denotes s.mem s.live maps := by
  induction h with
  | @start s mem ops hops hs =>
    have hok := AllocState.after_ok hsize hops
    exact ⟨by rw [Sys.Ok, hs]; exact hok, denotes_none _ _⟩
  | new _ hnew ih =>
    obtain ⟨hok, hd⟩ := ih
    obtain ⟨hok', hold, hmade⟩ := hd.new hok hnew
    refine ⟨hok', ?_⟩
    split
    · exact hold
    · rename_i hc
      exact (hmade hc).2
  | call op _ hm ih =>
    obtain ⟨hok, hd⟩ := ih
    exact ⟨hok.withMem _, hd.call hok hm op⟩

/-! ## Independence -/

theorem Denotes.get (h : Denotes s.mem s.live maps) {c : Nat} {m : PageMap} (hm : maps c = some m) {va : BitVec 32}
    (halign : va.toNat % 4096 = 0) : pagingGet s.mem (directoryEntry s.mem c) va.toNat = m (va.toNat / 4096) := by
  have := va.isLt
  rw [pagingGet_eq _ _ halign]
  exact h.entry c m hm _ (by omega)

theorem of_pagingSet_one {mem : Mem} {directory : Nat} {virt val : BitVec 32}
    (h : (pagingSet mem directory virt.toNat val).1 = 1) : virt.toNat % 4096 = 0 := by
  by_contra hv
  simp only [pagingSet, pagingGetIndexes, pagingPageSize, if_neg hv] at h
  cases h

/-- In every state reached by making directories and by calls on them, every directory reads as a total
map, the one its calls describe. A directory just made takes every page to itself, and making it
changes no other; a set that returns 1 changes one entry; no call on one directory changes what is
read from another. -/
theorem directories_independent (hsize : size ≤ 2 ^ 20) (h : PagingRun reserved size s maps) :
    (∀ c m, maps c = some m → ∀ va : BitVec 32, va.toNat % 4096 = 0 →
      pagingGet s.mem (directoryEntry s.mem c) va.toNat = m (va.toNat / 4096)) ∧
    (∀ flags c s', pagingNew4gb flags s = .ok (c, s') →
      (c ≠ 0 → maps c = none ∧ ∀ va : BitVec 32, va.toNat % 4096 = 0 →
        pagingGet s'.mem (directoryEntry s'.mem c) va.toNat = va ||| flags.setWidth 32) ∧
      ∀ d m, maps d = some m → ∀ va : BitVec 32, va.toNat % 4096 = 0 →
        pagingGet s'.mem (directoryEntry s'.mem d) va.toNat = pagingGet s.mem (directoryEntry s.mem d) va.toNat) ∧
    ∀ c m, maps c = some m →
      (∀ virt val mem', pagingSet s.mem (directoryEntry s.mem c) virt.toNat val = (1, mem') →
        pagingGet mem' (directoryEntry mem' c) virt.toNat = val ∧
        ∀ va : BitVec 32, va.toNat % 4096 = 0 → va ≠ virt →
          pagingGet mem' (directoryEntry mem' c) va.toNat = pagingGet s.mem (directoryEntry s.mem c) va.toNat) ∧
      ∀ (op : DirectoryOp) res mem', op.call s.mem (directoryEntry s.mem c) = (res, mem') →
        ∀ d m', maps d = some m' → d ≠ c → ∀ va : BitVec 32, va.toNat % 4096 = 0 →
          pagingGet mem' (directoryEntry mem' d) va.toNat = pagingGet s.mem (directoryEntry s.mem d) va.toNat := by
  obtain ⟨hok, hd⟩ := h.denotes hsize
  refine ⟨fun c m hm va hva => hd.get hm hva, fun flags c s' hnew => ?_, fun c m hm => ⟨fun virt val mem' hset => ?_,
    fun op res mem' hcall d m' hd' hne va hva => ?_⟩⟩
  · obtain ⟨-, hold, hmade⟩ := hd.new hok hnew
    refine ⟨fun hc => ?_, fun d m hm va hva => ?_⟩
    · obtain ⟨hnone, hmade⟩ := hmade hc
      refine ⟨hnone, fun va hva => ?_⟩
      have hpage : va.toNat / 4096 * 4096 = va.toNat := by omega
      rw [hmade.get (Function.update_self ..) hva, identityPages, hpage, BitVec.ofNat_toNat, BitVec.setWidth_eq]
    · rw [hold.get hm hva, hd.get hm hva]
  · have hvirt : virt.toNat % 4096 = 0 := of_pagingSet_one (by rw [hset])
    have hcall := hd.call hok hm (.set virt val)
    rw [DirectoryOp.call, hset, DirectoryOp.apply, DirectoryOp.page?, if_pos hvirt] at hcall
    have hget : ∀ va : BitVec 32, va.toNat % 4096 = 0 → pagingGet mem' (directoryEntry mem' c) va.toNat =
        Function.update m (virt.toNat / 4096) val (va.toNat / 4096) :=
      fun va hva => Denotes.get (s := { s with mem := mem' }) hcall (Function.update_self ..) hva
    refine ⟨?_, fun va hva hne => ?_⟩
    · rw [hget virt hvirt, Function.update_self]
    · have hpage : va.toNat / 4096 ≠ virt.toNat / 4096 := fun he => hne (BitVec.eq_of_toNat_eq (by omega))
      rw [hget va hva, Function.update_of_ne hpage, hd.get hm hva]
  · have hcall' := hd.call hok hm op
    rw [hcall] at hcall'
    have hd'' : Function.update maps c (some (op.apply m)) d = some m' := by
      rw [Function.update_of_ne hne]
      exact hd'
    rw [Denotes.get (s := { s with mem := mem' }) hcall' hd'' hva, hd.get hd' hva]

/-- Two directories made one after the other, in memory for both. -/
theorem directories_independent_two : ∃ s maps c d, PagingRun 1 4096 s maps ∧ c ≠ d ∧
    maps c = some (identityPages 7) ∧ maps d = some (identityPages 5) ∧
    ∀ va : BitVec 32, va.toNat % 4096 = 0 →
    pagingGet s.mem (directoryEntry s.mem d) va.toNat = identityPages 5 (va.toNat / 4096) := by
  have hstart : PagingRun 1 4096 (bare 4096 1) fun _ => none := .start (fun _ => 0) [] trivial rfl
  have hroom : (bare 4096 1).Room 4094 := room_bare (by decide) (by decide) (by decide)
  obtain ⟨c, s1, h1, hc, hroom⟩ := pagingNew4gb_room 7 (n := 2000) (hroom.mono (by decide))
  obtain ⟨d, s2, h2, hd, -⟩ := pagingNew4gb_room 5 (n := 0) (hroom.mono (by decide))
  have hone := hstart.new h1
  rw [if_neg hc] at hone
  have htwo := hone.new h2
  rw [if_neg hd] at htwo
  have hnone := ((directories_independent (by decide) hone).2.1 5 d s2 h2).1 hd
  have hcd : c ≠ d := by
    rintro rfl
    rw [Function.update_self] at hnone
    cases hnone.1
  refine ⟨s2, _, c, d, htwo, hcd, ?_, Function.update_self .., ?_⟩
  · rw [Function.update_of_ne hcd, Function.update_self]
    rfl
  · exact (directories_independent (by decide) htwo).1 d _ (Function.update_self ..)

end

end SimpleMicrokernel.Paging
