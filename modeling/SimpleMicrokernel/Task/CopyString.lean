/-
`copy_string_from_task`: while the string is copied the page `tmp` is mapped to itself in the task's
directory, so the copy stores to that page only; putting the entry back leaves all other memory as
it was.
-/
import SimpleMicrokernel.Task.Load

namespace SimpleMicrokernel.Tasking

open Memory Fs Paging

section
variable {m m2 m3 : Mem} {live : List Live} {chunk tmp src virt max : Nat}

/-- The two memories differ at most in the page at `tmp`. -/
def SameBut (tmp : Nat) (m m' : Mem) : Prop := ∀ x, x < tmp ∨ tmp + 4096 ≤ x → m' x = m x

theorem SameBut.trans (h1 : SameBut tmp m m2) (h2 : SameBut tmp m2 m3) : SameBut tmp m m3 :=
  fun x hx => (h2 x hx).trans (h1 x hx)

theorem sameBut_update {i : Nat} (hi : i < 4096) (c : Byte) : SameBut tmp m (Function.update m (tmp + i) c) := by
  intro x hx
  exact Function.update_of_ne (show x ≠ tmp + i by omega) _ _

theorem storeByte_tmp (hspace : IsSpace m live chunk) (hout : ∀ a ∈ live, ∀ x, a.Covers x → x < tmp ∨ tmp + 4096 ≤ x)
    (halign : tmp % 4096 = 0) (htmp : tmp < 2 ^ 32)
    (hentry : pageEntry m chunk (tmp / 4096) = BitVec.ofNat 32 tmp ||| writeableFlags) (hsame : SameBut tmp m m2)
    {i : Nat} (hi : i < 4096) {c : Byte}
    (h : storeByte m2 (directoryEntry m chunk) supervisor ((tmp + i) % 2 ^ 32) c = .ok m3) : SameBut tmp m m3 := by
  have hlive : ∀ a ∈ live, ∀ x, a.Covers x → m2 x = m x := fun a ha x hx => hsame x (hout a ha x hx)
  have hdir : directoryEntry m2 chunk = directoryEntry m chunk := (hspace.same fun a ha _ => hlive a ha).1
  have hpage : pageEntry m2 chunk (tmp / 4096) = pageEntry m chunk (tmp / 4096) :=
    (hspace.congr (List.Subset.refl live) hlive).2.2 _ (by omega)
  rw [← hdir] at h
  have hvirt : (tmp + i) % 2 ^ 32 / 4096 = tmp / 4096 ∧ (tmp + i) % 2 ^ 32 % 4096 = i := by omega
  obtain ⟨-, rfl⟩ := of_storeByte h
  have hframe : frameOf (BitVec.ofNat 32 tmp ||| writeableFlags) = tmp := by
    have hpage : tmp / 4096 * 4096 = tmp := by omega
    have hentry : frameOf (BitVec.ofNat 32 (tmp / 4096 * 4096) ||| writeableFlags) = tmp / 4096 * 4096 :=
      frameOf_entry (by omega) (by decide)
    rwa [hpage] at hentry
  rw [hvirt.1, hvirt.2, hpage, hentry, hframe]
  exact hsame.trans (sameBut_update hi c)

/-- The copy stores to the page at `tmp` only. -/
theorem strncpyLoop_tmp (hspace : IsSpace m live chunk) (hout : ∀ a ∈ live, ∀ x, a.Covers x → x < tmp ∨ tmp + 4096 ≤ x)
    (halign : tmp % 4096 = 0) (htmp : tmp < 2 ^ 32)
    (hentry : pageEntry m chunk (tmp / 4096) = BitVec.ofNat 32 tmp ||| writeableFlags) (n : Nat) :
    ∀ {i : Nat} {m2 m3 : Mem},
    i + n < 4096 → SameBut tmp m m2 → strncpyLoop (directoryEntry m chunk) tmp src n i m2 = .ok m3 →
    SameBut tmp m m3 := by
  induction n with
  | zero =>
    intro i m2 m3 hi hsame h
    exact storeByte_tmp hspace hout halign htmp hentry hsame (by omega) h
  | succ n ih =>
    intro i m2 m3 hi hsame h
    rw [strncpyLoop] at h
    cases hc : load m2 (directoryEntry m chunk) supervisor ((src + i) % 2 ^ 32) with
    | error e =>
      rw [hc] at h
      cases h
    | ok c =>
      rw [hc] at h
      have h : (if c = 0 then storeByte m2 (directoryEntry m chunk) supervisor ((tmp + i) % 2 ^ 32) 0
        else do
          let mem ← storeByte m2 (directoryEntry m chunk) supervisor ((tmp + i) % 2 ^ 32) c
          strncpyLoop (directoryEntry m chunk) tmp src n (i + 1) mem) = .ok m3 := h
      split at h
      · exact storeByte_tmp hspace hout halign htmp hentry hsame (by omega) h
      · cases hs : storeByte m2 (directoryEntry m chunk) supervisor ((tmp + i) % 2 ^ 32) c with
        | error e =>
          rw [hs] at h
          cases h
        | ok m' =>
          rw [hs] at h
          exact ih (by omega) (storeByte_tmp hspace hout halign htmp hentry hsame (by omega) hs) h

end

section
variable {reserved size : Nat} {env : Env} {k k' : Kernel} {task : Task} {virt max : Nat} {r : Int × List Byte}

theorem tmp_bounds {tmp : Nat} {s s1 : Sys} (hok : s.Ok reserved size) (hmax : max ≤ 4096)
    (h : kzalloc env max s = .ok (tmp, s1)) (h0 : tmp ≠ 0) : tmp % 4096 = 0 ∧ 0 < tmp ∧ tmp + 4096 ≤ 2 ^ 32 := by
  have z1 : FramesSys reserved size True s.live s s1 ∧ _ := kzalloc_spec (fun _ => .inr h0) h
  obtain ⟨hok1, -, -⟩ := z1.1 hok (List.Subset.refl _)
  have htmp : (⟨tmp, max, .kheap⟩ : Live) ∈ s1.live := z1.2 hok h0 ▸ List.mem_cons_self ..
  have hbounds : tmp % 4096 = 0 ∧ 0 < tmp ∧ tmp + blockCount max * 4096 ≤ 2 ^ 32 := hok1.in32 htmp
  rwa [blockCount_of_le hmax, Nat.one_mul] at hbounds

theorem tmp_out {tmp : Nat} {s s1 : Sys} (hok : s.Ok reserved size) (hmax : max ≤ 4096)
    (h : kzalloc env max s = .ok (tmp, s1)) (h0 : tmp ≠ 0) : ∀ a ∈ s.live, ∀ x, a.Covers x → x < tmp ∨
    tmp + 4096 ≤ x := by
  have z1 : FramesSys reserved size True s.live s s1 ∧ _ := kzalloc_spec (fun _ => .inr h0) h
  obtain ⟨hok1, -, -⟩ := z1.1 hok (List.Subset.refl _)
  intro a ha x hx
  have hno := (hok1.fresh (z1.2 hok h0) a ha).symm.not_covers hx
  rw [Live.covers_iff (tmp_bounds hok hmax h h0).1, blockCount_of_le hmax] at hno
  unfold pmmBlockSize at hno
  simp only at hno
  omega

/-- A call fails for lack of a page, or copies the string with the page mapped and puts the entry
back; the page is kept. -/
theorem of_copyStringToPage_ok {meanwhile : Meanwhile} {copied : Option Nat} (hok : k.toSys.Ok reserved size)
    (hmax : max ≤ 4096) (h : copyStringToPage env meanwhile task virt max k = .ok (copied, k')) :
    ∃ tmp s1, kzalloc env max k.toSys = .ok (tmp, s1) ∧
      ((tmp = 0 ∧ copied = none ∧ k' = k.withSys s1) ∨
       (tmp ≠ 0 ∧ copied = some tmp ∧ ∃ m2,
          strncpy (meanwhile.reading (pagingSet s1.mem (directoryEntry s1.mem task.pageDirectory) tmp
            (BitVec.ofNat 32 tmp ||| writeableFlags)).2) (directoryEntry s1.mem task.pageDirectory) tmp virt max =
            .ok m2 ∧
          k' = { k.withSys { s1 with mem := (pagingSet (meanwhile.back m2)
            (directoryEntry s1.mem task.pageDirectory) tmp
            (pagingGet s1.mem (directoryEntry s1.mem task.pageDirectory) tmp)).2 } with
              currentDirectory := directoryEntry m2 k.kernelChunk })) := by
  unfold copyStringToPage at h
  rw [if_neg (by unfold pagingPageSize; omega)] at h
  obtain ⟨tmp, k1, hk1, h⟩ := Exec.of_bind_ok h
  obtain ⟨s1, hs1, rfl⟩ := of_onSys_ok hk1
  refine ⟨tmp, s1, hs1, ?_⟩
  split at h
  · rename_i h0
    obtain ⟨rfl, rfl⟩ := Exec.of_pure_ok h
    exact .inl ⟨h0, rfl, rfl⟩
  · rename_i h0
    have halign := (tmp_bounds hok hmax hs1 h0).1
    rw [Exec.bind_of_ok (Exec.get_apply _)] at h
    obtain ⟨_, k2, hk2, h⟩ := Exec.of_bind_ok h
    obtain ⟨s2, hs2, rfl⟩ := of_onSys_ok hk2
    rw [setMem_apply] at hs2
    cases hs2
    obtain ⟨_, k3, hk3, h⟩ := Exec.of_bind_ok h
    unfold pagingSwitch at hk3
    rw [Exec.modify_apply] at hk3
    cases hk3
    obtain ⟨_, k3, hk3, h⟩ := Exec.of_bind_ok h
    obtain ⟨s3, hs3, rfl⟩ := of_onSys_ok hk3
    rw [setMem_apply] at hs3
    cases hs3
    rw [Exec.bind_of_ok (Exec.get_apply _)] at h
    obtain ⟨m2, k4, hk4, h⟩ := Exec.of_bind_ok h
    obtain ⟨hcopy, rfl⟩ := Exec.of_lift_ok hk4
    have hcopy : strncpy (meanwhile.reading
      (pagingMap s1.mem (directoryEntry s1.mem task.pageDirectory) tmp tmp writeableFlags).2)
        (directoryEntry s1.mem task.pageDirectory) tmp virt max = .ok m2 := hcopy
    rw [pagingMap_eq _ _ halign halign] at hcopy
    obtain ⟨_, k5, hk5, h⟩ := Exec.of_bind_ok h
    obtain ⟨s5, hs5, rfl⟩ := of_onSys_ok hk5
    rw [setMem_apply] at hs5
    cases hs5
    obtain ⟨_, k6, hk6, h⟩ := Exec.of_bind_ok h
    unfold kernelPage pagingSwitch at hk6
    rw [Exec.bind_of_ok (Exec.get_apply _), Exec.modify_apply] at hk6
    cases hk6
    obtain ⟨_, k6, hk6, h⟩ := Exec.of_bind_ok h
    obtain ⟨s6, hs6, rfl⟩ := of_onSys_ok hk6
    rw [setMem_apply] at hs6
    cases hs6
    rw [Exec.bind_of_ok (Exec.get_apply _)] at h
    -- the page is page-aligned, so its entry can be put back
    obtain ⟨m3, hm3⟩ : ∃ m3, pagingSet (meanwhile.back m2) (directoryEntry s1.mem task.pageDirectory) tmp
        (pagingGet s1.mem (directoryEntry s1.mem task.pageDirectory) tmp) = (1, m3) := ⟨_, pagingSet_eq _ _ halign _⟩
    simp only [Kernel.withSys, hm3] at h
    obtain ⟨_, k7, hk7, h⟩ := Exec.of_bind_ok h
    obtain ⟨s7, hs7, rfl⟩ := of_onSys_ok hk7
    rw [setMem_apply] at hs7
    cases hs7
    rw [if_neg (by decide)] at h
    obtain ⟨rfl, rfl⟩ := Exec.of_pure_ok h
    exact .inr ⟨h0, rfl, m2, hcopy, by rw [hm3]; rfl⟩

theorem of_copyStringFromTask_ok (hok : k.toSys.Ok reserved size) (hmax : max ≤ 4096)
    (h : copyStringFromTask env task virt max k = .ok (r, k')) :
    ∃ tmp s1, kzalloc env max k.toSys = .ok (tmp, s1) ∧
      ((tmp = 0 ∧ r = (-1, []) ∧ k' = k.withSys s1) ∨
       (tmp ≠ 0 ∧ ∃ m2 m3,
          strncpy (pagingSet s1.mem (directoryEntry s1.mem task.pageDirectory) tmp
            (BitVec.ofNat 32 tmp ||| writeableFlags)).2
            (directoryEntry s1.mem task.pageDirectory) tmp virt max = .ok m2 ∧
          m3 = (pagingSet m2 (directoryEntry s1.mem task.pageDirectory) tmp
            (pagingGet s1.mem (directoryEntry s1.mem task.pageDirectory) tmp)).2 ∧
          r = (1, strncpyFrom m3 tmp (max - 1)) ∧
          k' = { k.withSys { s1 with mem := m3 } with currentDirectory := directoryEntry m2 k.kernelChunk })) := by
  unfold copyStringFromTask at h
  obtain ⟨copied, k1, h1, h⟩ := Exec.of_bind_ok h
  obtain ⟨tmp, s1, halloc, ⟨h0, rfl, rfl⟩ | ⟨h0, rfl, m2, hcopy, rfl⟩⟩ := of_copyStringToPage_ok hok hmax h1
  · obtain ⟨rfl, rfl⟩ := Exec.of_pure_ok h
    exact ⟨tmp, s1, halloc, .inl ⟨h0, rfl, rfl⟩⟩
  · simp only at h
    rw [Exec.bind_of_ok (Exec.get_apply _)] at h
    obtain ⟨rfl, rfl⟩ := Exec.of_pure_ok h
    exact ⟨tmp, s1, halloc, .inr ⟨h0, m2, _, hcopy, rfl, rfl, rfl⟩⟩

theorem copyString_sameBut (hok : k.toSys.Ok reserved size) (hspace : IsSpace k.mem k.live task.pageDirectory)
    (h1 : 1 ≤ max) (hmax : max ≤ 4096) {tmp : Nat} {s1 : Sys} (hs1 : kzalloc env max k.toSys = .ok (tmp, s1))
    (h0 : tmp ≠ 0) {m2 : Mem} (hcopy : strncpy (pagingSet s1.mem (directoryEntry s1.mem task.pageDirectory) tmp
        (BitVec.ofNat 32 tmp ||| writeableFlags)).2 (directoryEntry s1.mem task.pageDirectory) tmp virt max = .ok m2) :
    SameBut tmp s1.mem (pagingSet m2 (directoryEntry s1.mem task.pageDirectory) tmp
      (pagingGet s1.mem (directoryEntry s1.mem task.pageDirectory) tmp)).2 := by
  have z1 : FramesSys reserved size True k.live k.toSys s1 ∧ _ := kzalloc_spec (fun _ => .inr h0) hs1
  obtain ⟨hok1, hheld1, hmem1⟩ := z1.1 hok (List.Subset.refl _)
  have hbounds := tmp_bounds hok hmax hs1 h0
  -- the space is in memory that was held before, so apart from the new page
  have hout := tmp_out hok hmax hs1 h0
  obtain ⟨hspace1, -, -⟩ := hspace.congr (List.Subset.refl k.live) (hmem1 trivial)
  have hp : tmp / 4096 < 2 ^ 20 := by omega
  have hpage : tmp / 4096 * 4096 = tmp := by omega
  -- the entry of the new page, before and while the string is copied
  have hset : Remaps s1.mem (pagingSet s1.mem (directoryEntry s1.mem task.pageDirectory) (tmp / 4096 * 4096)
      (BitVec.ofNat 32 tmp ||| writeableFlags)).2 task.pageDirectory _ := (remaps_pagingSet hspace1 hp _).2
  rw [hpage, pagingSet_eq _ _ hbounds.1] at hset
  rw [pagingSet_eq _ _ hbounds.1] at hcopy
  generalize hA : tableAddr s1.mem (directoryEntry s1.mem task.pageDirectory) (tmp / 4096 / 1024) +
    4 * (tmp / 4096 % 1024) = A at hset hcopy
  have hsame : SameBut tmp (setUint32 s1.mem A (BitVec.ofNat 32 tmp ||| writeableFlags)) m2 := by
    unfold strncpy at hcopy
    rw [← hset.directory] at hcopy
    refine strncpyLoop_tmp (hset.isSpace hspace1) hout hbounds.1 (by omega) ?_ (max - 1) (by omega)
      (fun _ _ => rfl) hcopy
    rw [hset.entry _ hp, if_pos rfl]
  -- the entry is put back where it was
  have hback : tableAddr m2 (directoryEntry s1.mem task.pageDirectory) (tmp / 4096 / 1024) =
      tableAddr s1.mem (directoryEntry s1.mem task.pageDirectory) (tmp / 4096 / 1024) := by
    obtain ⟨hdir, htables, -⟩ := (hset.isSpace hspace1).same fun a ha _ x hx => hsame x (hout a ha x hx)
    have ht := (htables (tmp / 4096 / 1024) (by omega)).trans (hset.tables _ (by omega))
    unfold table at ht
    rwa [hdir, hset.directory] at ht
  have hold : pagingGet s1.mem (directoryEntry s1.mem task.pageDirectory) tmp = uint32At s1.mem A := by
    rw [pagingGet_eq _ _ hbounds.1, ← hA]
    rfl
  intro x hx
  rw [pagingSet_eq _ _ hbounds.1, hback, hA, hold]
  simp only
  rw [setUint32_uint32At]
  by_cases hin : A ≤ x ∧ x < A + 4
  · rw [if_pos hin]
  · rw [if_neg hin, hsame x hx, setUint32_apply _ _ (by omega)]

/-- A copy frames everything that is held. -/
theorem frames_copyStringFromTask (hfill : FillsBelow env reserved) (hok : k.toSys.Ok reserved size)
    (hspace : IsSpace k.mem k.live task.pageDirectory) (h1 : 1 ≤ max) (hmax : max ≤ 4096)
    (h : copyStringFromTask env task virt max k = .ok (r, k')) :
    FramesSys reserved size True k.live k.toSys k'.toSys := by
  obtain ⟨tmp, s1, hs1, ⟨-, -, rfl⟩ | ⟨h0, m2, m3, hcopy, rfl, -, rfl⟩⟩ := of_copyStringFromTask_ok hok hmax h
  · exact framed_kzalloc (fun _ => hfill) _ _ _ _ hs1
  · have z1 : FramesSys reserved size True k.live k.toSys s1 ∧ _ := kzalloc_spec (fun _ => .inr h0) hs1
    have hsame := copyString_sameBut hok hspace h1 hmax hs1 h0 hcopy
    have hlive := z1.2 hok h0
    have hbounds := tmp_bounds hok hmax hs1 h0
    refine z1.1.trans' (frames_mem (a := ⟨tmp, max, .kheap⟩) (fun _ => hlive ▸ List.mem_cons_self ..) ?_ fun _ x hx =>
      ?_)
    · obtain ⟨hok1, -, -⟩ := z1.1 hok (List.Subset.refl _)
      exact fun b hb => (hok1.fresh hlive b hb).symm.addr_ne
    · rw [Live.covers_iff hbounds.1, blockCount_of_le hmax] at hx
      unfold pmmBlockSize at hx
      simp only at hx
      exact hsame x (by omega)

theorem held_copyStringFromTask {held : List Live} (hok : k.toSys.Ok reserved size) (hmax : max ≤ 4096)
    (h : copyStringFromTask env task virt max k = .ok (r, k')) :
    FramesSys reserved size False held k.toSys k'.toSys := by
  obtain ⟨tmp, s1, hs1, ⟨-, -, rfl⟩ | ⟨h0, m2, m3, -, -, -, rfl⟩⟩ := of_copyStringFromTask_ok hok hmax h
  · exact framed_kzalloc False.elim _ _ _ _ hs1
  · have f1 : FramesSys reserved size False held k.toSys s1 := framed_kzalloc False.elim _ _ _ _ hs1
    exact f1.trans' fun hok1 hheld => ⟨hok1.withMem _, hheld, fun hk => hk.elim⟩

end

/-! ## A copy that succeeds -/

/-- Every page of the address space is present. -/
structure Present (mem : Mem) (chunk : Nat) : Prop where
  tables : ∀ i < 1024, directoryFlags mem chunk i &&& supervisor = supervisor
  pages : ∀ q < 2 ^ 20, pageEntry mem chunk q &&& supervisor = supervisor

section
variable {mem mem' m m2 : Mem} {live : List Live} {chunk tmp virt max : Nat}

theorem Present.translate (h : Present mem chunk) (hv : virt < 2 ^ 32) :
    ∃ addr, translate mem (directoryEntry mem chunk) supervisor virt = some addr := by
  have htable := h.tables (virt / 4096 / 1024) (by omega)
  have hpresent : uint32At mem (directoryEntry mem chunk + 4 * (virt / 4096 / 1024)) &&& supervisor = supervisor := by
    unfold directoryFlags at htable
    rw [BitVec.and_assoc] at htable
    exact htable
  rw [translate_eq, if_pos ⟨hpresent, h.pages _ (by omega)⟩]
  exact ⟨_, rfl⟩

/-- What is outside the memory held does not matter. -/
theorem Present.congr (h : Present mem chunk) (hspace : IsSpace mem live chunk)
    (hmem : ∀ a ∈ live, ∀ x, a.Covers x → mem' x = mem x) :
    Present mem' chunk ∧ directoryEntry mem' chunk = directoryEntry mem chunk := by
  refine ⟨⟨fun i hi => ?_, fun q hq => ?_⟩, (hspace.same fun a ha _ => hmem a ha).1⟩
  · rw [hspace.directoryFlags_congr hmem hi]
    exact h.tables i hi
  · rw [(hspace.congr (List.Subset.refl live) hmem).2.2 q hq]
    exact h.pages q hq

theorem Present.remaps (h : Present mem chunk) (hspace : IsSpace mem live chunk) {entry : Nat → BitVec 32}
    (hr : Remaps mem mem' chunk entry) (hentry : ∀ q < 2 ^ 20, entry q &&& supervisor = supervisor) :
    Present mem' chunk := by
  refine ⟨fun i hi => ?_, fun q hq => ?_⟩
  · rw [hr.directoryFlags_eq hspace hi]
    exact h.tables i hi
  · rw [hr.entry q hq]
    exact hentry q hq

/-- With every page present no load or store of the copy faults. -/
theorem strncpyLoop_ok (src : Nat) (hspace : IsSpace m live chunk) (hpresent : Present m chunk)
    (hout : ∀ a ∈ live, ∀ x, a.Covers x → x < tmp ∨ tmp + 4096 ≤ x) (halign : tmp % 4096 = 0) (htmp : tmp < 2 ^ 32)
    (hentry : pageEntry m chunk (tmp / 4096) = BitVec.ofNat 32 tmp ||| writeableFlags) (n : Nat) :
    ∀ {i : Nat} {m2 : Mem},
    i + n < 4096 → SameBut tmp m m2 → ∃ m3, strncpyLoop (directoryEntry m chunk) tmp src n i m2 = .ok m3 := by
  have hstep : ∀ {m2 : Mem}, SameBut tmp m m2 → ∀ virt < 2 ^ 32, ∃ addr,
      Paging.translate m2 (directoryEntry m chunk) supervisor virt = some addr := by
    intro m2 hsame virt hv
    obtain ⟨hpresent2, hdir⟩ := hpresent.congr hspace fun a ha x hx => hsame x (hout a ha x hx)
    rw [← hdir]
    exact hpresent2.translate hv
  have hstore : ∀ {m2 : Mem} (i : Nat) (c : Byte), SameBut tmp m m2 →
      ∃ m3, storeByte m2 (directoryEntry m chunk) supervisor ((tmp + i) % 2 ^ 32) c = .ok m3 := by
    intro m2 i c hsame
    obtain ⟨addr, ha⟩ := hstep hsame ((tmp + i) % 2 ^ 32) (Nat.mod_lt _ (by decide))
    refine ⟨Function.update m2 addr c, ?_⟩
    unfold storeByte
    rw [ha]
  induction n with
  | zero => exact fun {i m2} _ hsame => hstore i 0 hsame
  | succ n ih =>
    intro i m2 hi hsame
    obtain ⟨addr, ha⟩ := hstep hsame ((src + i) % 2 ^ 32) (Nat.mod_lt _ (by decide))
    have hload : load m2 (directoryEntry m chunk) supervisor ((src + i) % 2 ^ 32) = .ok (m2 addr) := by
      unfold load
      rw [ha]
    rw [strncpyLoop, hload]
    by_cases h0 : m2 addr = 0
    · obtain ⟨m3, e⟩ := hstore i 0 hsame
      refine ⟨m3, ?_⟩
      simp only [bind, Except.bind, if_pos h0]
      exact e
    · obtain ⟨m3, e⟩ := hstore i (m2 addr) hsame
      obtain ⟨m4, e'⟩ := ih (i := i + 1) (by omega) (storeByte_tmp hspace hout halign htmp hentry hsame (by omega) e)
      refine ⟨m4, ?_⟩
      simp only [bind, Except.bind, if_neg h0, e]
      exact e'

variable {reserved size : Nat} {env : Env} {k : Kernel} {task : Task}

/-- A run up to the string in the page, with the entry put back. -/
theorem copyStringToPage_of {meanwhile : Meanwhile} {s1 : Sys} (hmax : max ≤ 4096)
    (halloc : kzalloc env max k.toSys = .ok (tmp, s1)) (h0 : tmp ≠ 0) (halign : tmp % 4096 = 0) {m2 m3 : Mem}
    (hin : strncpy (meanwhile.reading (pagingSet s1.mem (directoryEntry s1.mem task.pageDirectory) tmp
      (BitVec.ofNat 32 tmp ||| writeableFlags)).2) (directoryEntry s1.mem task.pageDirectory) tmp virt max = .ok m2)
    (hback : pagingSet (meanwhile.back m2) (directoryEntry s1.mem task.pageDirectory) tmp
      (pagingGet s1.mem (directoryEntry s1.mem task.pageDirectory) tmp) = (1, m3)) :
    copyStringToPage env meanwhile task virt max k = .ok (some tmp,
      { k.withSys { s1 with mem := m3 } with currentDirectory := directoryEntry m2 k.kernelChunk }) := by
  rw [← pagingMap_eq _ _ halign halign] at hin
  have hin' : ∀ k : Kernel, (liftM (strncpy
    (meanwhile.reading (pagingMap s1.mem (directoryEntry s1.mem task.pageDirectory) tmp tmp
      writeableFlags).2) (directoryEntry s1.mem task.pageDirectory) tmp virt max) : KM Mem) k = .ok (m2, k) := by
    intro k
    rw [hin]
    rfl
  unfold copyStringToPage kernelPage pagingSwitch
  rw [if_neg (by unfold pagingPageSize; omega), Exec.bind_of_ok (onSys_of_ok halloc), if_neg h0,
    Exec.bind_of_ok (Exec.get_apply _)]
  simp only
  rw [Exec.bind_of_ok (onSys_of_ok (setMem_apply ..)), Exec.bind_of_ok (Exec.modify_apply ..),
    Exec.bind_of_ok (onSys_of_ok (setMem_apply ..)), Exec.bind_of_ok (Exec.get_apply _)]
  simp only [Kernel.withSys]
  rw [Exec.bind_of_ok (hin' _), Exec.bind_of_ok (onSys_of_ok (setMem_apply ..)), bind_assoc,
    Exec.bind_of_ok (Exec.get_apply _), Exec.bind_of_ok (Exec.modify_apply ..),
    Exec.bind_of_ok (onSys_of_ok (setMem_apply ..)), Exec.bind_of_ok (Exec.get_apply _)]
  simp only [Kernel.withSys, hback]
  rw [Exec.bind_of_ok (onSys_of_ok (setMem_apply ..)), if_neg (by decide)]
  rfl

theorem copyStringFromTask_of {s1 : Sys} (hmax : max ≤ 4096) (halloc : kzalloc env max k.toSys = .ok (tmp, s1))
    (h0 : tmp ≠ 0) (halign : tmp % 4096 = 0) {m2 m3 : Mem}
    (hin : strncpy (pagingSet s1.mem (directoryEntry s1.mem task.pageDirectory) tmp
      (BitVec.ofNat 32 tmp ||| writeableFlags)).2 (directoryEntry s1.mem task.pageDirectory) tmp virt max = .ok m2)
    (hback : pagingSet m2 (directoryEntry s1.mem task.pageDirectory) tmp
      (pagingGet s1.mem (directoryEntry s1.mem task.pageDirectory) tmp) = (1, m3)) :
    ∃ k', copyStringFromTask env task virt max k = .ok ((1, strncpyFrom m3 tmp (max - 1)), k') := by
  have hcopy : copyStringToPage env .nothing task virt max k = .ok (some tmp, _) :=
    copyStringToPage_of hmax halloc h0 halign hin hback
  unfold copyStringFromTask
  rw [Exec.bind_of_ok hcopy]
  simp only
  rw [Exec.bind_of_ok (Exec.get_apply _)]
  exact ⟨_, rfl⟩

/-- A string is copied through the page it got when every page of the task is present. -/
theorem copyStringFromTask_page {s1 : Sys} (hok : k.toSys.Ok reserved size)
    (hspace : IsSpace k.mem k.live task.pageDirectory) (hpresent : Present k.mem task.pageDirectory) (h1 : 1 ≤ max)
    (hmax : max ≤ 4096) (virt : Nat)
    (halloc : kzalloc env max k.toSys = .ok (tmp, s1)) (h0 : tmp ≠ 0) :
    ∃ r k', copyStringFromTask env task virt max k = .ok (r, k') := by
  have hbounds := tmp_bounds hok hmax halloc h0
  have hout := tmp_out hok hmax halloc h0
  have z1 : FramesSys reserved size True k.live k.toSys s1 ∧ _ := kzalloc_spec (fun _ => .inr h0) halloc
  have hmem : ∀ a ∈ k.live, ∀ x, a.Covers x → s1.mem x = k.mem x := (z1.1 hok (List.Subset.refl _)).2.2 trivial
  obtain ⟨hspace1, -, -⟩ := hspace.congr (List.Subset.refl k.live) hmem
  obtain ⟨hpresent1, -⟩ := hpresent.congr hspace hmem
  have hpage : tmp / 4096 * 4096 = tmp := by omega
  have hset : Remaps s1.mem (pagingSet s1.mem (directoryEntry s1.mem task.pageDirectory) (tmp / 4096 * 4096)
      (BitVec.ofNat 32 tmp ||| writeableFlags)).2 task.pageDirectory _ := (remaps_pagingSet hspace1 (by omega) _).2
  rw [hpage] at hset
  have hpresent2 := hpresent1.remaps hspace1 hset fun q hq => by
    by_cases hq' : q = tmp / 4096
    · rw [if_pos hq', ← hpage, and_entry _ (by decide)]
      decide
    · rw [if_neg hq']
      exact hpresent1.pages q hq
  obtain ⟨m2, hcopy⟩ := strncpyLoop_ok virt (hset.isSpace hspace1) hpresent2 hout hbounds.1 (by omega)
    (by rw [hset.entry _ (by omega), if_pos rfl]) (max - 1) (i := 0) (by omega) fun _ _ => rfl
  rw [hset.directory] at hcopy
  -- the page is page-aligned, so its entry can be put back
  obtain ⟨m3, hback⟩ : ∃ m3, pagingSet m2 (directoryEntry s1.mem task.pageDirectory) tmp
      (pagingGet s1.mem (directoryEntry s1.mem task.pageDirectory) tmp) = (1, m3) := ⟨_, pagingSet_eq _ _ hbounds.1 _⟩
  obtain ⟨k', e⟩ := copyStringFromTask_of hmax halloc h0 hbounds.1 hcopy hback
  exact ⟨_, k', e⟩

/-- A string is copied when there is a page to copy it to and every page of the task is present. -/
theorem copyStringFromTask_ok (env : Env) (hok : k.toSys.Ok reserved size)
    (hspace : IsSpace k.mem k.live task.pageDirectory) (hpresent : Present k.mem task.pageDirectory)
    (hroom : k.toSys.Room 1) (h1 : 1 ≤ max) (hmax : max ≤ 4096) (virt : Nat) :
    ∃ r k', copyStringFromTask env task virt max k = .ok (r, k') := by
  obtain ⟨tmp, s1, e1, h0, -⟩ := (fresh_start hok hroom (List.Subset.refl k.live)).kzallocPage (n := 0) env hmax
  exact copyStringFromTask_page hok hspace hpresent h1 hmax virt e1 h0

end

end SimpleMicrokernel.Tasking
