/-
Three laws of the allocator and exactly when the code keeps them. Giving back what `kmallac`
returned restores the tables unless the allocation is large and `big_blocks` is full. A request
that fails changes nothing unless it is large and its blocks, counted from block 0, were not all
marked. The counters agree with the map in every state of a run exactly when no request of the run
fails that way.
-/
import SimpleMicrokernel.Memory.AllocRun

namespace SimpleMicrokernel.Memory

/-! ## Giving back -/

namespace HeapOk

variable {reserved size : Nat} {h : Heap} {L : Ledger Live.extent reserved size}

theorem update_update_empty (hok : HeapOk h L) {i : Fin bigAddress} (hi : (h.bigBlocks i).startingAddress = 0)
    (b : BigAddress) : Function.update (Function.update h.bigBlocks i b) i ⟨0, 0⟩ = h.bigBlocks := by
  have hempty := hok.entry_empty hi
  rw [Function.update_idem, ← hempty, Function.update_eq_self]

/-- A grant is undone by `kfree` exactly when it is one block or found an entry of the table. -/
theorem kfree_grant (hok : HeapOk h L) {s n : Nat} (hs : 1 ≤ s) (hlt : s + blockCount n ≤ size)
    (hclear : ∀ i, s ≤ i → i < s + blockCount n → h.pmm.marked i = false) :
    (h.grant s n).kfree (s * pmmBlockSize) = h ↔ n ≤ 4096 ∨ h.HasEmptySlot := by
  have hcount := blockCount_pos n
  obtain ⟨hfree, hin, hgrant⟩ := hok.grant hs hlt hclear
  have hnew := hok.not_tracked_of_clear hs (hclear s (le_refl s) (by omega))
  have hstart : (Live.mk (s * pmmBlockSize) n .kheap).extent.start = s := by rw [extent_mk]
  have hcases := hgrant.kfree_cases (a := ⟨s * pmmBlockSize, n, .kheap⟩) (List.mem_cons_self ..)
  rw [hstart] at hcases
  simp only at hcases
  by_cases hbig : 4096 < n
  · have htwo : 2 ≤ blockCount n := by
      unfold blockCount; rw [if_pos hbig]; simp only; split <;> omega
    have hg : h.grant s n = (({ h with pmm := h.pmm.take s (blockCount n) } : Heap).insertInBigBlocks
        (s * pmmBlockSize) (blockCount n)).2 := by
      simp only [Heap.grant, if_pos hbig]
    rcases Heap.insertInBigBlocks_cases ({ h with pmm := h.pmm.take s (blockCount n) } : Heap)
      (s * pmmBlockSize) (blockCount n) with ⟨hfull, e⟩ | ⟨i, hi, e⟩
    · -- the table is full: only the first of at least two blocks is released
      have hfull : ¬ h.HasEmptySlot := hfull
      rw [e] at hg
      rcases hcases with ⟨i, hi, -, -⟩ | ⟨-, hk⟩
      · rw [hg] at hi
        exact absurd hi (hnew i)
      · rw [hk, hg]
        refine ⟨fun heq => ?_, fun hor => ?_⟩
        · have hb : (((h.pmm.take s (blockCount n)).release s 1).marked (s + 1)) = false := by
            rw [show (h.pmm.take s (blockCount n)).release s 1 = h.pmm from congrArg Heap.pmm heq]
            exact hclear _ (by omega) (by omega)
          rw [Pmm.marked_release _ (by omega)] at hb
          have := (Pmm.marked_take h.pmm s (blockCount n) (s + 1)).2 (.inl ⟨by omega, by omega⟩)
          rw [hb] at this
          cases this
        · rcases hor with hle | hslot
          · omega
          · exact absurd hslot hfull
    · -- an entry was free: it names the whole run
      simp only at hi e
      rw [e] at hg
      rcases hcases with ⟨j, hj, -, hk⟩ | ⟨hmiss, -⟩
      · have hji : j = i := by
          by_contra hne
          rw [hg] at hj
          simp only [Function.update_apply, if_neg hne] at hj
          exact hnew j hj
        rw [hk, hg, hji]
        simp only [Pmm.release_take hclear, hok.update_update_empty hi]
        exact ⟨fun _ => .inr ⟨i, hi⟩, fun _ => trivial⟩
      · have := hmiss i
        rw [hg] at this
        simp at this
  · have hone := blockCount_of_le (Nat.le_of_not_lt hbig)
    have hg : h.grant s n = { h with pmm := h.pmm.take s 1 } := by
      simp only [Heap.grant, if_neg hbig, hone]
    rw [hone] at hclear
    rcases hcases with ⟨i, hi, -, -⟩ | ⟨-, hk⟩
    · rw [hg] at hi
      exact absurd hi (hnew i)
    · rw [hk, hg]
      simp only [Pmm.release_take hclear]
      exact ⟨fun _ => .inl (by omega), fun _ => trivial⟩

end HeapOk

namespace AllocState

variable {reserved size : Nat}

/-- `kfree` undoes `kmallac` exactly when the allocation is a single block or `big_blocks` has an
empty entry: after any run and for every size, if `kmallac` returned an address then freeing it
brings the map, both counters and the table back. -/
theorem kfree_kmallac_iff (h3 : size ≤ 2 ^ 20) (mem : Mem)
    (ops : List Op) (hops : Allowed (init size reserved mem) ops) (n : Nat) :
    let h := ((init size reserved mem).after ops).heap
    (h.kmallac n).1 ≠ 0 →
      ((h.kmallac n).2.kfree (h.kmallac n).1 = h ↔ n ≤ 4096 ∨ h.HasEmptySlot) := by
  intro h hp
  obtain ⟨L, -, hok⟩ := after_ok h3 hops
  have hok : HeapOk h L := hok
  rcases h.kmallac_cases n hok.memoryLe with ⟨-, e, -⟩ | ⟨-, -, e⟩ | ⟨s, hs, hlt, hclear, e⟩
  · rw [e] at hp; exact absurd rfl hp
  · rw [e] at hp; exact absurd rfl hp
  · rw [e]
    exact hok.kfree_grant hs (hok.memorySize ▸ hlt) hclear

theorem kfree_kmallac_page :
    let h := ((init 16 1 fun _ => 0).after [.kmallac 9000]).heap
    (h.kmallac 12288).2.kfree (h.kmallac 12288).1 = h ↔ 12288 ≤ 4096 ∨ h.HasEmptySlot :=
  kfree_kmallac_iff (by decide) (fun _ => 0) [.kmallac 9000]
    ⟨by simp only [Allows]; decide, trivial⟩ 12288 (by rw [init_eq]; decide +kernel)

/-- The tables after `k` allocations of two blocks from one reserved block: the blocks and the
entries taken in order. -/
def packed (size k : Nat) : Heap :=
  ⟨Pmm.booted size (1 + 2 * k), fun i => if i.val < k then ⟨(1 + 2 * i.val) * pmmBlockSize, 2⟩ else ⟨0, 0⟩⟩

theorem booted_take (size s n : Nat) : (Pmm.booted size s).take s n = Pmm.booted size (s + n) := by
  have hmap : Bitmap.setRange (Bitmap.setRange (w := 32) (fun _ => 0) 0 s) s n =
      Bitmap.setRange (fun _ => 0) 0 (s + n) := by
    refine Bitmap.ext_bit (by omega) fun i => ?_
    rw [Bitmap.bit_setRange (by omega), Bitmap.bit_setRange (by omega), Bitmap.bit_setRange (by omega),
      Pmm.bit_zero, Bool.or_false, Bool.or_false, ← Bool.decide_or]
    exact decide_eq_decide.2 (by omega)
  simp only [Pmm.take, Pmm.booted, hmap, BitVec.ofNat_add, sub_sub]

theorem kmallac_packed {size k : Nat} (hk : k < bigAddress) (hlt : 1 + 2 * k + 2 < size) (hsize : size ≤ 2 ^ 20) :
    (packed size k).kmallac 8192 = ((1 + 2 * k) * pmmBlockSize, packed size (k + 1)) := by
  have hmarked : ∀ i, (packed size k).pmm.marked i = decide (i < 1 + 2 * k) := Pmm.marked_booted size _
  have hfits : ∀ t, (packed size k).pmm.Fits t 2 ↔ 1 + 2 * k ≤ t ∧ t + 2 < size := by
    intro t
    constructor
    · rintro ⟨h1, h2⟩
      have := h2 t (le_refl t) (by omega)
      rw [hmarked] at this
      exact ⟨by simpa using this, h1⟩
    · rintro ⟨h1, h2⟩
      exact ⟨h2, fun i h3 _ => by rw [hmarked]; exact decide_eq_false (by omega)⟩
  have hslot : Fin.find? (fun i => decide (((packed size k).bigBlocks i).startingAddress = 0)) = some ⟨k, hk⟩ := by
    rw [Fin.find?_eq_some_iff]
    refine ⟨by simp [packed], fun j hj => ?_⟩
    have hj : j.val < k := hj
    simp only [packed, if_pos hj, decide_eq_false_iff_not]
    unfold pmmBlockSize
    omega
  unfold Heap.kmallac
  rw [if_pos (by decide), show blockCount 8192 = 2 by decide]
  rcases (packed size k).pmm.pmmAllocateFirstNBlocks_cases 2 with ⟨hno, -⟩ | ⟨s, hs, hfit, hfirst, e⟩
  · exact absurd ((hfits _).2 ⟨le_refl _, hlt⟩) (hno (1 + 2 * k) (by omega))
  · have h1 := ((hfits s).1 hfit).1
    have h2 : s = 1 + 2 * k := by
      by_contra hne
      exact hfirst (1 + 2 * k) (by omega) (by omega) ((hfits _).2 ⟨le_refl _, hlt⟩)
    subst h2
    have hmod : (1 + 2 * k) * pmmBlockSize % 2 ^ 32 = (1 + 2 * k) * pmmBlockSize := by unfold pmmBlockSize; omega
    rw [hmod] at e
    simp only [e]
    rw [if_neg (by unfold pmmBlockSize; omega)]
    unfold Heap.insertInBigBlocks
    simp only [hslot]
    simp only [packed, booted_take, Prod.mk.injEq, true_and, Heap.mk.injEq]
    refine ⟨by rw [Nat.mul_add, Nat.add_assoc], ?_⟩
    funext i
    rw [Function.update_apply]
    split
    · rename_i hi; subst hi; simp
    · rename_i hi
      have hi : i.val ≠ k := fun he => hi (Fin.ext he)
      by_cases hik : i.val < k
      · rw [if_pos hik, if_pos (by omega)]
      · rw [if_neg hik, if_neg (by omega)]

theorem after_replicate {size : Nat} (hsize : size ≤ 2 ^ 20) (mem : Mem) :
    ∀ {k : Nat}, k ≤ bigAddress → 1 + 2 * k < size →
      ((init size 1 mem).after (List.replicate k (.kmallac 8192))).heap = packed size k
  | 0, _, _ => by
    rw [init_eq, List.replicate_zero, after, Run.run_nil]
    simp [packed, Heap.booted, Heap.zero]
  | k + 1, hk, hlt => by
    have ih := after_replicate hsize mem (k := k) (by omega) (by omega)
    rw [List.replicate_succ', after, Run.run_append, Run.run_cons, Run.run_nil]
    simp only [step, ih, kmallac_packed (show k < bigAddress by omega) (show 1 + 2 * k + 2 < size by omega) hsize]

theorem allowed_replicate (n : Nat) (hn : n < 2 ^ 32) :
    ∀ (k : Nat) (s : AllocState), Allowed s (List.replicate k (.kmallac n))
  | 0, _ => trivial
  | k + 1, _ => ⟨hn, allowed_replicate n hn k _⟩

/-- The table is full after as many allocations as it has entries. -/
theorem not_hasEmptySlot_packed {size k : Nat} (hk : k = bigAddress) : ¬ (packed size k).HasEmptySlot := by
  rintro ⟨i, hi⟩
  have hik : i.val < k := hk ▸ i.isLt
  simp only [packed, if_pos hik] at hi
  unfold pmmBlockSize at hi
  omega

/-- Once every entry is taken, one more large allocation is entered nowhere, and giving it back
does not restore the tables. -/
theorem kfree_packed_ne {size k : Nat} {live : List Live} (hk : k = bigAddress) (hlt : 1 + 2 * k + 2 < size)
    (hsize : size ≤ 2 ^ 20) (hok : Ok 1 size ⟨packed size k, fun _ => 0, live⟩) :
    ((packed size k).kmallac 8192).1 ≠ 0 ∧
      ((packed size k).kmallac 8192).2.kfree ((packed size k).kmallac 8192).1 ≠ packed size k := by
  obtain ⟨L, -, hok⟩ := hok
  have hmarked : ∀ i, (packed size k).pmm.marked i = decide (i < 1 + 2 * k) := Pmm.marked_booted size _
  have hfull : ¬ (packed size k).HasEmptySlot := not_hasEmptySlot_packed hk
  rcases (packed size k).kmallac_cases 8192 hsize with ⟨hle, -⟩ | ⟨-, hno, -⟩ | ⟨t, ht, hle, hclear, e⟩
  · omega
  · refine absurd ⟨hlt, fun i h1 _ => ?_⟩ (hno (1 + 2 * k) (by omega))
    rw [hmarked]; exact decide_eq_false (by omega)
  · have hgrant := hok.kfree_grant (n := 8192) ht hle hclear
    rw [e]
    simp only
    rw [Ne, Ne, hgrant]
    refine ⟨by unfold pmmBlockSize; omega, ?_⟩
    rintro (h4096 | hslot)
    · omega
    · exact hfull hslot

/-- With a hundred two-block allocations live, giving back one more does not restore the tables:
its second block stays marked. -/
theorem kfree_kmallac_leaks :
    let s := (init 300 1 fun _ => 0).after (List.replicate 100 (.kmallac 8192))
    Allowed (init 300 1 fun _ => 0) (List.replicate 100 (.kmallac 8192)) ∧ (s.heap.kmallac 8192).1 ≠ 0 ∧
      (s.heap.kmallac 8192).2.kfree (s.heap.kmallac 8192).1 ≠ s.heap := by
  have hallowed := allowed_replicate 8192 (by decide) 100 (init 300 1 fun _ => 0)
  have hheap : ((init 300 1 fun _ => 0).after (List.replicate 100 (.kmallac 8192))).heap = packed 300 100 :=
    after_replicate (by decide) (fun _ => 0) (le_refl 100) (by decide)
  obtain ⟨L, hlive, hok⟩ := after_ok (by decide) hallowed
  simp only
  rw [hheap] at hok ⊢
  exact ⟨hallowed, kfree_packed_ne (k := 100) rfl (by omega) (by omega) ⟨L, hlive, hok⟩⟩

/-! ## Failed requests -/

/-- What a failed search marks is nothing new exactly when the first `n` blocks were all marked. -/
theorem spoil_eq_self_iff {p : Pmm} {n : Nat} : p.spoil n = p ↔ ∀ i < n, p.marked i = true := by
  have hmap : Bitmap.setRange p.pmmMemoryMap 0 n = p.pmmMemoryMap ↔ _ := Bitmap.setRange_eq_self_iff (by omega)
  constructor
  · intro h i hi
    exact hmap.1 (congrArg Pmm.pmmMemoryMap h) i (Nat.zero_le i) (by omega)
  · intro h
    unfold Pmm.spoil
    rw [hmap.2 fun i _ hi => h i (by omega)]

/-- A request that fails changes nothing exactly when it is for up to a page, or when the blocks
it would mark from block 0 are all marked already; and a `kzalloc` that fails moreover only when
the memory it fills from address 0 is zero already. -/
theorem failed_request_iff (h3 : size ≤ 2 ^ 20) (mem : Mem)
    (ops : List Op) (hops : Allowed (init size reserved mem) ops) (n : Nat) :
    let s := (init size reserved mem).after ops
    (s.heap.kmallac n).1 = 0 →
      ((s.heap.kmallac n).2 = s.heap ↔ n ≤ 4096 ∨ ∀ i < blockCount n, s.heap.pmm.pmmMemoryMapTest i = 1) ∧
      ((s.heap.kzalloc s.mem n).2 = (s.heap, s.mem) ↔
        (n ≤ 4096 ∨ ∀ i < blockCount n, s.heap.pmm.pmmMemoryMapTest i = 1) ∧ ∀ a < n, s.mem a = 0) := by
  intro s hzero
  obtain ⟨L, -, hok⟩ := after_ok h3 hops
  have hok : HeapOk s.heap L := hok
  have hkm : (s.heap.kmallac n).2 = s.heap ↔ n ≤ 4096 ∨ ∀ i < blockCount n, s.heap.pmm.pmmMemoryMapTest i = 1 := by
    simp only [Pmm.pmmMemoryMapTest_eq_one]
    rcases s.heap.kmallac_cases n hok.memoryLe with ⟨hle, e, -⟩ | ⟨hbig, -, e⟩ | ⟨t, ht, -, -, e⟩
    · rw [e]
      exact ⟨fun _ => .inl hle, fun _ => rfl⟩
    · rw [e]
      constructor
      · exact fun h => .inr (spoil_eq_self_iff.1 (congrArg Heap.pmm h))
      · rintro (hle | h)
        · omega
        · simp only [spoil_eq_self_iff.2 h]
    · rw [e] at hzero
      unfold pmmBlockSize at hzero
      omega
  have hmem : memset s.mem 0 0 n = s.mem ↔ ∀ a < n, s.mem a = 0 := by
    rw [memset_eq_self_iff]
    exact ⟨fun h a ha => h a (Nat.zero_le a) (by omega), fun h a _ ha => h a (by omega)⟩
  refine ⟨hkm, ?_⟩
  simp only [Heap.kzalloc, hzero, Prod.mk.injEq]
  rw [hkm, hmem]

theorem failed_request_page :
    let s := (init 2 1 fun _ => 0).after [.kmallac 1]
    ((s.heap.kmallac 4096).2 = s.heap ↔ 4096 ≤ 4096 ∨ ∀ i < blockCount 4096, s.heap.pmm.pmmMemoryMapTest i = 1) ∧
      ((s.heap.kzalloc s.mem 4096).2 = (s.heap, s.mem) ↔
        (4096 ≤ 4096 ∨ ∀ i < blockCount 4096, s.heap.pmm.pmmMemoryMapTest i = 1) ∧ ∀ a < 4096, s.mem a = 0) :=
  failed_request_iff (by decide) (fun _ => 0) [.kmallac 1]
    ⟨by simp only [Allows]; decide, trivial⟩ 4096 (by rw [init_eq]; decide +kernel)

/-- Two blocks asked for when the last two are clear: the search does not get to the last one, so the
request fails, the first of them is marked, and `kzalloc` clears memory from address 0. -/
theorem failed_request_marks :
    let s := (init 3 1 fun _ => 1).after []
    Allowed (init 3 1 fun _ => 1) [] ∧ (s.heap.kmallac 5000).1 = 0 ∧ (s.heap.kmallac 5000).2 ≠ s.heap ∧
      (s.heap.kzalloc s.mem 5000).2.2 ≠ s.mem := by
  rw [init_eq]
  refine ⟨trivial, by decide +kernel, fun h => ?_, fun h => ?_⟩
  · have hb : ((Heap.booted 3 1).kmallac 5000).2.pmm.pmmMemoryMapTest 1 = 1 := by decide +kernel
    rw [show ((Heap.booted 3 1).kmallac 5000).2 = Heap.booted 3 1 from h] at hb
    exact absurd hb (by decide +kernel)
  · have hz : ((Heap.booted 3 1).kmallac 5000).1 = 0 := by decide +kernel
    have hm := congrFun h 0
    simp only [Heap.kzalloc, after, Run.run_nil, hz, memset_apply] at hm
    rw [if_pos (by omega)] at hm
    exact absurd hm (by decide)

/-! ## Accounting -/

end AllocState

/-- The counters are the numbers of marked and of clear blocks of the memory. -/
def Pmm.Exact (p : Pmm) : Prop :=
  p.pmmUsedBlocks.toNat = Bitmap.popcount p.pmmMemoryMap p.pmmSystemMemorySize ∧
    p.pmmFreeBlocks.toNat =
      ((Finset.range p.pmmSystemMemorySize).filter fun i => Bitmap.bit p.pmmMemoryMap i = false).card

namespace Pmm

variable {p : Pmm} {s n : Nat}

theorem exact_iff : p.Exact ↔ p.pmmUsedBlocks.toNat = Bitmap.popcount p.pmmMemoryMap p.pmmSystemMemorySize ∧
    p.pmmFreeBlocks.toNat = p.pmmSystemMemorySize - Bitmap.popcount p.pmmMemoryMap p.pmmSystemMemorySize := by
  unfold Exact; rw [Bitmap.card_clear]

theorem Exact.take (h : p.Exact) (hsize : p.pmmSystemMemorySize ≤ 2 ^ 20) (hlt : s + n ≤ p.pmmSystemMemorySize)
    (hclear : ∀ i, s ≤ i → i < s + n → p.marked i = false) : (p.take s n).Exact := by
  rw [exact_iff] at h ⊢
  have hpop := Bitmap.popcount_setRange (w := 32) (by omega) hlt hclear
  have hle := Bitmap.popcount_le (Bitmap.setRange p.pmmMemoryMap s n) p.pmmSystemMemorySize
  simp only [Pmm.take, hpop, BitVec.toNat_add, BitVec.toNat_sub, BitVec.toNat_ofNat, h.1, h.2]
  rw [hpop] at hle
  omega

theorem Exact.release (h : p.Exact) (hsize : p.pmmSystemMemorySize ≤ 2 ^ 20) (hlt : s + n ≤ p.pmmSystemMemorySize)
    (hset : ∀ i, s ≤ i → i < s + n → p.marked i = true) : (p.release s n).Exact := by
  rw [exact_iff] at h ⊢
  have hpop := Bitmap.popcount_clearRange (w := 32) (by omega) hlt hset
  have hle := Bitmap.popcount_le p.pmmMemoryMap p.pmmSystemMemorySize
  simp only [Pmm.release, BitVec.toNat_add, BitVec.toNat_sub, BitVec.toNat_ofNat, h.1, h.2]
  omega

/-- After a failed search the counters are right exactly when it marked nothing new. -/
theorem Exact.spoil_iff (h : p.Exact) :
    (p.spoil n).Exact ↔ ∀ i < n, i < p.pmmSystemMemorySize → p.marked i = true := by
  rw [exact_iff] at h ⊢
  have hiff : Bitmap.popcount (Bitmap.setRange p.pmmMemoryMap 0 n) p.pmmSystemMemorySize =
      Bitmap.popcount p.pmmMemoryMap p.pmmSystemMemorySize ↔ _ := Bitmap.popcount_setRange_eq_iff (by omega)
  simp only [Nat.zero_le, true_implies, Nat.zero_add] at hiff
  rw [← hiff]
  simp only [spoil, h.1, h.2]
  exact ⟨fun he => he.1.symm, fun he => by rw [he]; exact ⟨rfl, rfl⟩⟩

theorem exact_booted {size reserved : Nat} (h : reserved ≤ size) (hsize : size ≤ 2 ^ 20) :
    (booted size reserved).Exact := by
  have hzero : Bitmap.popcount (w := 32) (fun _ => 0) size = 0 := by
    simp only [Bitmap.popcount, Finset.card_eq_zero, Finset.eq_empty_iff_forall_notMem, Bitmap.mem_used, bit_zero]
    simp
  have hpop : Bitmap.popcount (w := 32) (Bitmap.setRange (fun _ => 0) 0 reserved) size = _ :=
    Bitmap.popcount_setRange (by omega) (by omega) fun i _ _ => bit_zero i
  rw [exact_iff]
  simp only [booted, hpop, hzero, BitVec.toNat_sub, BitVec.toNat_ofNat]
  omega

end Pmm

namespace AllocState

variable {reserved size : Nat}

/-- The call is not a large request that fails while some of the blocks it marks from block 0 are
clear. -/
def NoSpoil (s : AllocState) : Op → Prop
  | .kmallac n => 4096 < n → (∀ t, 1 ≤ t → ¬ s.heap.pmm.Fits t (blockCount n)) →
      ∀ i < blockCount n, i < s.heap.pmm.pmmSystemMemorySize → s.heap.pmm.marked i = true
  | .kzalloc n => 4096 < n → (∀ t, 1 ≤ t → ¬ s.heap.pmm.Fits t (blockCount n)) →
      ∀ i < blockCount n, i < s.heap.pmm.pmmSystemMemorySize → s.heap.pmm.marked i = true
  | _ => True

theorem exact_kmallac_iff {h : Heap} {L : Ledger Live.extent reserved size} (hok : HeapOk h L) (he : h.pmm.Exact)
    (n : Nat) : (h.kmallac n).2.pmm.Exact ↔ (4096 < n → (∀ t, 1 ≤ t → ¬ h.pmm.Fits t (blockCount n)) →
      ∀ i < blockCount n, i < h.pmm.pmmSystemMemorySize → h.pmm.marked i = true) := by
  rcases h.kmallac_cases n hok.memoryLe with ⟨hle, e, -⟩ | ⟨hbig, hno, e⟩ | ⟨s, hs, hlt, hclear, e⟩
  · rw [e]
    exact ⟨fun _ hbig => by omega, fun _ => he⟩
  · rw [e]
    exact ⟨fun hx _ _ => he.spoil_iff.1 hx, fun hx => he.spoil_iff.2 (hx hbig hno)⟩
  · have hpmm := h.pmm_grant s n
    rw [e]
    simp only [hpmm]
    refine ⟨fun _ hbig hno => ?_, fun _ => he.take hok.memoryLe hlt hclear⟩
    -- a granted large request found its blocks: the one search succeeded
    rcases h.pmm.pmmAllocateFirstNBlocks_cases (blockCount n) with ⟨-, e'⟩ | ⟨t, ht, hfit, -, -⟩
    · have hz : (h.kmallac n).1 = 0 := by
        unfold Heap.kmallac
        simp only [if_pos hbig, e', if_pos (le_refl 0)]
      rw [e] at hz
      unfold pmmBlockSize at hz
      omega
    · exact absurd hfit (hno t ht)

/-- One allowed call keeps the counters right exactly when it does not spoil the map. -/
theorem step_exact_iff {s : AllocState} {op : Op} (h : Ok reserved size s) (hop : s.Allows op)
    (he : s.heap.pmm.Exact) : (s.step op).heap.pmm.Exact ↔ s.NoSpoil op := by
  obtain ⟨L, hlive, hok⟩ := h
  cases op with
  | kmallac n => exact exact_kmallac_iff hok he n
  | kzalloc n => exact exact_kmallac_iff hok he n
  | kfree a =>
    have ha : a ∈ L.live := hlive ▸ hop.1
    have hheld : ∀ i, a.extent.start ≤ i → i < a.extent.start + blockCount a.size → s.heap.pmm.marked i = true :=
      fun i h1 h2 => hok.held i ⟨a, ha, Extent.mem_cells.2 ⟨h1, h2⟩⟩
    have hhi := (hok.addr_eq ha).2.2.1
    have hcount := blockCount_pos a.size
    have hmem := hok.memorySize
    refine ⟨fun _ => trivial, fun _ => ?_⟩
    simp only [step]
    rcases hok.kfree_cases ha with ⟨i, -, -, e⟩ | ⟨-, e⟩
    · rw [e]
      exact he.release hok.memoryLe (by omega) hheld
    · rw [e]
      exact he.release hok.memoryLe (by omega) fun i h1 h2 => hheld i h1 (by omega)
  | pmmAllocateBlock =>
    refine ⟨fun _ => trivial, fun _ => ?_⟩
    simp only [step]
    rcases s.heap.pmm.pmmAllocateBlock_cases with ⟨e, -⟩ | ⟨i, -, hpos, hlt, hclear, -, e⟩
    · rw [e]; exact he
    · rw [e]
      refine he.take hok.memoryLe (by omega) fun j h1 h2 => ?_
      rw [show j = i by omega]
      exact hclear
  | pmmFreeBlock a =>
    have ha : a ∈ L.live := hlive ▸ hop.1
    have hhi := (hok.addr_eq ha).2.2.1
    have hcount := blockCount_pos a.size
    have hmem := hok.memorySize
    refine ⟨fun _ => trivial, fun _ => ?_⟩
    simp only [step]
    rw [Pmm.pmmFreeBlock_eq]
    exact he.release hok.memoryLe (by simp only [Live.extent] at hhi; omega)
      fun i h1 h2 => hok.held i ⟨a, ha, Extent.mem_cells.2 ⟨h1, by simp only [Live.extent]; omega⟩⟩

/-- The block accounting is exact: along any run from `pmm_init` the counters are the numbers of
marked and of clear blocks in every state exactly when no call is a large request that fails while
some of the blocks it marks from block 0 are clear. -/
theorem accounting_iff (_ : 1 ≤ reserved) (h2 : reserved ≤ size) (h3 : size ≤ 2 ^ 20) (mem : Mem)
    (ops : List Op) (hops : Allowed (init size reserved mem) ops) :
    Run.AllStates step (fun s => s.heap.pmm.Exact) (init size reserved mem) ops ↔
      Run.AllSteps step NoSpoil (init size reserved mem) ops := by
  refine Run.allStates_iff_allSteps (I := Ok (max 1 reserved) size) (fun _ _ h hop => step_ok h hop)
    (fun _ _ h hop he => step_exact_iff h hop he) (ok_init h3 mem) ?_ hops
  rw [init_eq]
  exact Pmm.exact_booted h2 h3

theorem accounting_small :
    Run.AllStates step (fun s => s.heap.pmm.Exact) (init 16 1 fun _ => 0) [.kmallac 9000, .kzalloc 3] ↔
      Run.AllSteps step NoSpoil (init 16 1 fun _ => 0) [.kmallac 9000, .kzalloc 3] :=
  accounting_iff (by decide) (by decide) (by decide) (fun _ => 0) [.kmallac 9000, .kzalloc 3]
    ⟨by simp only [Allows]; decide, by simp only [Allows]; decide, trivial⟩

/-- One failed request for two blocks: one block is counted as used, two are marked. -/
theorem accounting_drifts :
    Allowed (init 3 1 fun _ => 0) [.kmallac 5000] ∧
      ¬ ((init 3 1 fun _ => 0).after [.kmallac 5000]).heap.pmm.Exact := by
  refine ⟨⟨by simp only [Allows]; decide, trivial⟩, ?_⟩
  rw [init_eq, Pmm.Exact]
  decide +kernel

end AllocState

end SimpleMicrokernel.Memory
