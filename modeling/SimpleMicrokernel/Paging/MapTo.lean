/-
`paging_map_to` maps the whole range or nothing. Its tests come before the first store, and page
boundaries stay page boundaries from one page to the next, so no page of the loop is refused; a range
has fewer pages than the address space, so no entry is stored twice, wherever the range starts again
at 0.
-/
import SimpleMicrokernel.Paging.Maps

namespace SimpleMicrokernel.Paging

open Memory Fs

section
variable {mem : Mem} {flags : BitVec 32} {directory virt phy phyEnd : Nat}

/-- Each page of a range is taken to its frame, the others are as they were. -/
theorem PageMap.range_apply {n : Nat} : ∀ {m : PageMap} {v f p : Nat}, n ≤ 2 ^ 20 → v < 2 ^ 20 → f < 2 ^ 20 →
    p < 2 ^ 20 →
    range flags n m v f p = if (p + 2 ^ 20 - v) % 2 ^ 20 < n then
      BitVec.ofNat 32 ((f + (p + 2 ^ 20 - v) % 2 ^ 20) % 2 ^ 20 * 4096) ||| flags else m p := by
  induction n with
  | zero =>
    intro m v f p _ _ _ _
    rw [range, if_neg (Nat.not_lt_zero _)]
  | succ n ih =>
    intro m v f p hn hv hf hp
    rw [range, ih (by omega) (Nat.mod_lt _ (by decide)) (Nat.mod_lt _ (by decide)) hp]
    by_cases hpv : p = v
    · -- the page stored now comes around again after all the others
      subst hpv
      have hlast : (p + 2 ^ 20 - (p + 1) % 2 ^ 20) % 2 ^ 20 = 2 ^ 20 - 1 := by omega
      have hfirst : (p + 2 ^ 20 - p) % 2 ^ 20 = 0 := by omega
      have hframe : (f + 0) % 2 ^ 20 = f := by omega
      rw [hlast, hfirst, hframe, if_neg (by omega), if_pos (by omega), Function.update_self]
    · have hnext : (p + 2 ^ 20 - v) % 2 ^ 20 = (p + 2 ^ 20 - (v + 1) % 2 ^ 20) % 2 ^ 20 + 1 := by omega
      have hframe : ((f + 1) % 2 ^ 20 + (p + 2 ^ 20 - (v + 1) % 2 ^ 20) % 2 ^ 20) % 2 ^ 20 =
          (f + ((p + 2 ^ 20 - (v + 1) % 2 ^ 20) % 2 ^ 20 + 1)) % 2 ^ 20 := by omega
      rw [hnext, hframe, Function.update_of_ne hpv]
      exact if_congr (by omega) rfl rfl

theorem pagingMapRange_one (directory : Nat) (flags : BitVec 32) (n : Nat) : ∀ {mem : Mem} {virt phy : Nat},
    virt % 4096 = 0 → phy % 4096 = 0 → (pagingMapRange directory flags n mem virt phy).1 = 1 := by
  induction n with
  | zero => exact fun _ _ => rfl
  | succ n ih =>
    intro mem virt phy hv hp
    have hone : (pagingSet mem directory virt (BitVec.ofNat 32 phy ||| flags)).1 = 1 := by rw [pagingSet_eq _ _ hv]
    rw [pagingMapRange, pagingMap_eq _ _ hv hp]
    simp only
    rw [if_neg (by rw [hone]; decide)]
    exact ih (by unfold pagingPageSize; omega) (by unfold pagingPageSize; omega)

/-- What `paging_map_to` asks of its addresses. -/
def RangeAligned (virt phy phyEnd : Nat) : Prop := virt % 4096 = 0 ∧ phy % 4096 = 0 ∧ phyEnd % 4096 = 0 ∧ phy ≤ phyEnd

theorem pagingMapTo_refused (h : ¬ RangeAligned virt phy phyEnd) :
    pagingMapTo mem directory virt phy phyEnd flags = (-1, mem) := by
  unfold pagingMapTo pagingPageSize
  by_cases h1 : virt % 4096 ≠ 0
  · rw [if_pos h1]
  · by_cases h2 : phy % 4096 ≠ 0
    · rw [if_neg h1, if_pos h2]
    · by_cases h3 : phyEnd % 4096 ≠ 0
      · rw [if_neg h1, if_neg h2, if_pos h3]
      · have h4 : phyEnd < phy := by
          by_contra h4
          exact h ⟨not_ne_iff.1 h1, not_ne_iff.1 h2, not_ne_iff.1 h3, Nat.le_of_not_lt h4⟩
        rw [if_neg h1, if_neg h2, if_neg h3, if_pos h4]

theorem pagingMapTo_accepted (h : RangeAligned virt phy phyEnd) : pagingMapTo mem directory virt phy phyEnd flags =
    pagingMapRange directory flags ((phyEnd - phy) / 4096) mem virt phy := by
  obtain ⟨h1, h2, h3, h4⟩ := h
  unfold pagingMapTo pagingPageSize
  rw [if_neg (not_ne_iff.2 h1), if_neg (not_ne_iff.2 h2), if_neg (not_ne_iff.2 h3), if_neg (by omega)]

end

section
variable {reserved size : Nat} {s : Sys} {maps : Nat → Option PageMap} {c : Nat} {m : PageMap}

theorem not_mem_range {va virt : BitVec 32} {n : Nat} (hva : va.toNat % 4096 = 0) (hvirt : virt.toNat % 4096 = 0)
    (hout : ∀ k < n, va ≠ virt + BitVec.ofNat 32 (4096 * k)) :
    ¬ (va.toNat / 4096 + 2 ^ 20 - virt.toNat / 4096) % 2 ^ 20 < n := by
  have hlt := va.isLt
  have hlt' := virt.isLt
  intro hin
  refine hout _ hin (BitVec.eq_of_toNat_eq ?_)
  rw [BitVec.toNat_add, BitVec.toNat_ofNat]
  omega

/-- For every directory made, in every state its calls and those on others lead to: `paging_map_to`
between page boundaries succeeds, takes page `k` of the range to frame `k` with the flags, past the
last address to the first if it comes so far, and changes no other entry of this or of another
directory; with any other addresses it gives -1 and changes nothing. -/
theorem pagingMapTo_all_or_nothing (hsize : size ≤ 2 ^ 20) (h : PagingRun reserved size s maps) (hm : maps c = some m)
    (virt phy phyEnd flags : BitVec 32) {res : Int} {mem' : Mem}
    (hcall : pagingMapTo s.mem (directoryEntry s.mem c) virt.toNat phy.toNat phyEnd.toNat flags = (res, mem')) :
    (RangeAligned virt.toNat phy.toNat phyEnd.toNat → 0 ≤ res ∧
      (∀ k < (phyEnd.toNat - phy.toNat) / 4096,
        pagingGet mem' (directoryEntry mem' c) (virt + BitVec.ofNat 32 (4096 * k)).toNat =
          (phy + BitVec.ofNat 32 (4096 * k)) ||| flags) ∧
      (∀ va : BitVec 32, va.toNat % 4096 = 0 →
        (∀ k < (phyEnd.toNat - phy.toNat) / 4096, va ≠ virt + BitVec.ofNat 32 (4096 * k)) →
        pagingGet mem' (directoryEntry mem' c) va.toNat = pagingGet s.mem (directoryEntry s.mem c) va.toNat) ∧
      ∀ d m', maps d = some m' → d ≠ c → ∀ va : BitVec 32, va.toNat % 4096 = 0 →
        pagingGet mem' (directoryEntry mem' d) va.toNat = pagingGet s.mem (directoryEntry s.mem d) va.toNat) ∧
    (¬ RangeAligned virt.toNat phy.toNat phyEnd.toNat → res = -1 ∧ mem' = s.mem) := by
  refine ⟨fun haligned => ?_, fun hrefused => ?_⟩
  · obtain ⟨h1, h2, h3, h4⟩ := haligned
    have hv := virt.isLt
    have hp := phy.isLt
    have he := phyEnd.isLt
    obtain ⟨hok, hd⟩ := h.denotes hsize
    -- the map the call leaves, in the terms of the abstract side
    have hres : res = 1 := by
      rw [pagingMapTo_accepted ⟨h1, h2, h3, h4⟩] at hcall
      have hone : (pagingMapRange (directoryEntry s.mem c) flags
        ((phyEnd.toNat - phy.toNat) / 4096) s.mem virt.toNat phy.toNat).1 = 1 :=
        pagingMapRange_one (directoryEntry s.mem c) flags ((phyEnd.toNat - phy.toNat) / 4096) h1 h2
      rwa [hcall] at hone
    have hcalled : Denotes mem' s.live (Function.update maps c
      (some ((DirectoryOp.mapTo virt phy phyEnd flags).apply m))) := by
      have := hd.call hok hm (.mapTo virt phy phyEnd flags)
      rwa [DirectoryOp.call, hcall] at this
    have happly : (DirectoryOp.mapTo virt phy phyEnd flags).apply m =
        m.range flags ((phyEnd.toNat - phy.toNat) / 4096) (virt.toNat / 4096) (phy.toNat / 4096) := by
      have hpages : phyEnd.toNat / 4096 - phy.toNat / 4096 = (phyEnd.toNat - phy.toNat) / 4096 := by omega
      simp only [DirectoryOp.apply, DirectoryOp.rangeAt, DirectoryOp.page?, if_pos h1, if_pos h2, if_pos h3, hpages]
    rw [happly] at hcalled
    have hget : ∀ va : BitVec 32, va.toNat % 4096 = 0 → pagingGet mem' (directoryEntry mem' c) va.toNat =
        m.range flags ((phyEnd.toNat - phy.toNat) / 4096) (virt.toNat / 4096) (phy.toNat / 4096) (va.toNat / 4096) := by
      intro va hva
      exact Denotes.get (s := { s with mem := mem' }) hcalled (Function.update_self ..) hva
    refine ⟨by rw [hres]; decide, fun k hk => ?_, fun va hva hout => ?_, fun d m' hdm hdc va hva => ?_⟩
    · have hva : (virt + BitVec.ofNat 32 (4096 * k)).toNat = (virt.toNat + 4096 * k) % 2 ^ 32 := by
        rw [BitVec.toNat_add, BitVec.toNat_ofNat]
        omega
      have hindex : ((virt.toNat + 4096 * k) % 2 ^ 32 / 4096 + 2 ^ 20 - virt.toNat / 4096) % 2 ^ 20 = k := by omega
      have hframe : (phy.toNat / 4096 + k) % 2 ^ 20 * 4096 = phy.toNat + 4096 * k := by omega
      rw [hget _ (by rw [hva]; omega), PageMap.range_apply (by omega) (by omega) (by omega) (by rw [hva]; omega),
        hva, hindex, if_pos hk, hframe, BitVec.ofNat_add, BitVec.ofNat_toNat, BitVec.setWidth_eq]
    · have hlt := va.isLt
      rw [hget va hva, PageMap.range_apply (by omega) (by omega) (by omega) (by omega),
        if_neg (not_mem_range hva h1 hout)]
      exact (hd.get hm hva).symm
    · rw [hd.get hdm hva]
      exact Denotes.get (s := { s with mem := mem' }) hcalled (by rw [Function.update_of_ne hdc]; exact hdm) hva
  · rw [pagingMapTo_refused hrefused] at hcall
    cases hcall
    exact ⟨rfl, rfl⟩

theorem pagingRun_one : ∃ s c, PagingRun 1 4096 s (Function.update (fun _ => none) c (some (identityPages 7))) := by
  have hstart : PagingRun 1 4096 (bare 4096 1) fun _ => none := .start (fun _ => 0) [] trivial rfl
  have hroom : (bare 4096 1).Room 4094 := room_bare (by decide) (by decide) (by decide)
  obtain ⟨c, s1, h1, hc, -⟩ := pagingNew4gb_room 7 (n := 0) (hroom.mono (by decide))
  have hone := hstart.new h1
  have hflags : (7 : BitVec 8).setWidth 32 = 7#32 := by decide
  rw [if_neg hc, hflags] at hone
  exact ⟨s1, c, hone⟩

/-- Two pages from the last address on, in a directory just made: the second is page 0. -/
theorem pagingMapTo_wraps : ∃ s c res mem',
    PagingRun 1 4096 s (Function.update (fun _ => none) c (some (identityPages 7))) ∧
    pagingMapTo s.mem (directoryEntry s.mem c) (0xFFFFF000 : BitVec 32).toNat (0x1000 : BitVec 32).toNat
    (0x3000 : BitVec 32).toNat 7 =
      (res, mem') ∧
    pagingGet mem' (directoryEntry mem' c) (0 : BitVec 32).toNat = 0x2007 := by
  obtain ⟨s1, c, hone⟩ := pagingRun_one
  rcases hcall : pagingMapTo s1.mem (directoryEntry s1.mem c) (0xFFFFF000 : BitVec 32).toNat
    (0x1000 : BitVec 32).toNat (0x3000 : BitVec 32).toNat 7 with ⟨res, mem'⟩
  have hall := (pagingMapTo_all_or_nothing (by decide) hone (Function.update_self ..) _ _ _ _ hcall).1
    ⟨by decide, by decide, by decide, by decide⟩
  have hsecond := hall.2.1 1 (by decide)
  have hwrap : (0xFFFFF000 : BitVec 32) + BitVec.ofNat 32 (4096 * 1) = 0 := by decide
  have hframe : ((0x1000 : BitVec 32) + BitVec.ofNat 32 (4096 * 1)) ||| 7 = 0x2007 := by decide
  rw [hwrap, hframe] at hsecond
  exact ⟨s1, c, res, mem', hone, hcall, hsecond⟩

end

end SimpleMicrokernel.Paging
