/-
`paging_new_4gb` makes an address space: blocks nobody held, and the map that takes every page to
itself with the flags given.
-/
import SimpleMicrokernel.Paging.Space

namespace SimpleMicrokernel.Paging

open Memory Fs

section
variable {m : Mem} {e : Nat} {offset fl : BitVec 32}

theorem fillTable_apply {n x : Nat} (h : x < e ∨ e + 4 * n ≤ x) : fillTable m e offset fl n x = m x := by
  induction n with
  | zero => rfl
  | succ n ih => rw [fillTable, setUint32_apply _ _ (by omega), ih (by omega)]

theorem fillTable_entry {n b : Nat} (h : b < n) :
    uint32At (fillTable m e offset fl n) (e + 4 * b) = (offset + BitVec.ofNat 32 (b * 4096)) ||| fl := by
  induction n with
  | zero => omega
  | succ n ih =>
    rw [fillTable]
    by_cases hb : b = n
    · rw [hb, uint32At_setUint32]
    · rw [uint32At_setUint32_of_ne _ _ (by omega), ih (by omega)]

end

variable {reserved size : Nat} {keep : Prop} {held live0 : List Live} {s s' : Sys} {flags : BitVec 32} {directory : Nat}

/-- The first `i` tables of a directory are made: blocks none of which was in `live0`, with the
entries of their pages. -/
structure Built (s : Sys) (live0 : List Live) (flags : BitVec 32) (directory i : Nat) : Prop where
  directoryLive : Live.block directory ∈ s.live
  directoryNew : ∀ a ∈ live0, a.addr ≠ directory
  live : ∀ j < i, Live.block (tableAddr s.mem directory j) ∈ s.live
  new : ∀ j < i, ∀ a ∈ live0, a.addr ≠ tableAddr s.mem directory j
  ne : ∀ j < i, tableAddr s.mem directory j ≠ directory
  inj : ∀ j k, j < k → k < i → tableAddr s.mem directory j ≠ tableAddr s.mem directory k
  entry : ∀ p < i * 1024, uint32At s.mem (tableAddr s.mem directory (p / 1024) + 4 * (p % 1024)) =
    BitVec.ofNat 32 (p * 4096) ||| flags
  flagged : ∀ j < i, uint32At s.mem (directory + 4 * j) &&& 0xfff#32 = (flags ||| pteWriteable) &&& 0xfff#32

theorem blocks_apart {a b : Nat} (ha : a % 4096 = 0) (hb : b % 4096 = 0) (hne : a ≠ b) :
    a + 4096 ≤ b ∨ b + 4096 ≤ a := by
  omega

theorem frameOf_block {e : Nat} (he : e % 4096 = 0) (hlt : e < 2 ^ 32) (hflags : flags.toNat < 4096) :
    frameOf (BitVec.ofNat 32 e ||| flags ||| pteWriteable) = e := by
  have hor : (flags ||| pteWriteable).toNat < 4096 := by
    rw [BitVec.toNat_or]
    exact Nat.or_lt_two_pow (n := 12) hflags (by decide)
  have hpage : e / 4096 * 4096 = e := by omega
  rw [BitVec.or_assoc]
  have := frameOf_entry (show e / 4096 < 2 ^ 20 by omega) hor
  rwa [hpage] at this

theorem flags_block {e : Nat} (he : e % 4096 = 0) :
    (BitVec.ofNat 32 e ||| flags ||| pteWriteable) &&& 0xfff#32 = (flags ||| pteWriteable) &&& 0xfff#32 := by
  have hpage : e / 4096 * 4096 = e := by omega
  have : (BitVec.ofNat 32 (e / 4096 * 4096) ||| (flags ||| pteWriteable)) &&& 0xfff#32 = _ :=
    and_entry (e / 4096) (by decide)
  rwa [hpage, ← BitVec.or_assoc] at this

/-- One table more. -/
theorem Built.step {i e : Nat} (h : Built s live0 flags directory i) (hok : s.Ok reserved size)
    (hlive0 : live0 ⊆ s.live) (hi : i < 1024) (hflags : flags.toNat < 4096) {s1 : Sys}
    (h1 : pmmAllocateBlock s = .ok (e, s1)) (he : e ≠ 0)
    {mem : Mem} (hm : setUint32 (fillTable s1.mem e (BitVec.ofNat 32 (i * 1024 * 4096)) flags 1024) (directory + 4 * i)
      (BitVec.ofNat 32 e ||| flags ||| pteWriteable) = mem) :
    Built { s1 with mem := mem } live0 flags directory (i + 1) := by
  obtain ⟨hmem, f1, hlive⟩ := pmmAllocateBlock_spec reserved size True [] h1
  have hlive := hlive hok he
  obtain ⟨hok1, -, -⟩ := f1 hok (List.nil_subset _)
  -- the new block is at another place than everything held before
  have hnew : ∀ b ∈ s.live, b.addr ≠ e := fun b hb => (hok1.fresh hlive b hb).symm.addr_ne
  have he' := hok1.block (hlive ▸ List.mem_cons_self ..)
  have hin : ∀ {b}, Live.block b ∈ s.live → b % 4096 = 0 := fun hb => (hok1.block (hlive ▸ List.mem_cons_of_mem _ hb)).1
  have hd := hin h.directoryLive
  have hde : directory ≠ e := hnew _ h.directoryLive
  -- what is read elsewhere is as it was
  have hout : ∀ a, (a + 4 ≤ directory + 4 * i ∨ directory + 4 * i + 4 ≤ a) → (a + 4 ≤ e ∨ e + 4096 ≤ a) →
      uint32At mem a = uint32At s.mem a := by
    intro a h1 h2
    rw [← hm, uint32At_setUint32_of_ne _ _ h1, ← hmem]
    exact uint32At_congr fun x _ _ => fillTable_apply (by omega)
  have htable : ∀ j < i, tableAddr mem directory j = tableAddr s.mem directory j := by
    intro j hj
    have := blocks_apart hd he'.1 hde
    exact congrArg frameOf (hout _ (by omega) (by omega))
  have hlast : tableAddr mem directory i = e := by
    rw [← hm, tableAddr, uint32At_setUint32]
    exact frameOf_block he'.1 he'.2.2 hflags
  have hsplit : ∀ {j}, j < i + 1 → j < i ∨ j = i := by omega
  refine ⟨hlive ▸ List.mem_cons_of_mem _ h.directoryLive, h.directoryNew, fun j hj => ?_, fun j hj => ?_,
    fun j hj => ?_, fun j k hjk hk => ?_, fun p hp => ?_, fun j hj => ?_⟩
  · rcases hsplit hj with hj | rfl
    · rw [htable j hj]
      exact hlive ▸ List.mem_cons_of_mem _ (h.live j hj)
    · rw [hlast]
      exact hlive ▸ List.mem_cons_self ..
  · rcases hsplit hj with hj | rfl
    · rw [htable j hj]
      exact h.new j hj
    · rw [hlast]
      exact fun a ha => hnew a (hlive0 ha)
  · rcases hsplit hj with hj | rfl
    · rw [htable j hj]
      exact h.ne j hj
    · rw [hlast]
      exact hde.symm
  · rcases hsplit hk with hk | rfl
    · rw [htable j (by omega), htable k hk]
      exact h.inj j k hjk hk
    · rw [htable j hjk, hlast]
      exact hnew _ (h.live j hjk)
  · rcases hsplit (show p / 1024 < i + 1 by omega) with hp' | hp'
    · have ht := h.live _ hp'
      have hta := blocks_apart (hin ht) he'.1 (hnew _ ht)
      have htd := blocks_apart (hin ht) hd (h.ne _ hp')
      have hlt : p < i * 1024 := (Nat.div_lt_iff_lt_mul (by decide)).1 hp'
      rw [htable _ hp', hout _ (by omega) (by omega)]
      exact h.entry p hlt
    · have := blocks_apart hd he'.1 hde
      have hsum : i * 1024 * 4096 + p % 1024 * 4096 = p * 4096 := by omega
      rw [hp', hlast, ← hm, uint32At_setUint32_of_ne _ _ (by omega), fillTable_entry (by omega),
        ← BitVec.ofNat_add, hsum]
  · rcases hsplit hj with hj | rfl
    · have := blocks_apart hd he'.1 hde
      rw [hout _ (by omega) (by omega)]
      exact h.flagged j hj
    · rw [← hm, uint32At_setUint32]
      exact flags_block he'.1

theorem frames_table {e i : Nat} (hi : i < 1024) {s1 : Sys} (hok1 : s1.Ok reserved size) (he : Live.block e ∈ s1.live)
    (hd : Live.block directory ∈ s1.live) (hnew : ∀ a ∈ live0, a.addr ≠ e)
    (hdnew : ∀ a ∈ live0, a.addr ≠ directory) (offset flags v : BitVec 32) :
    FramesSys reserved size keep live0 s1
      { s1 with mem := setUint32 (fillTable s1.mem e offset flags 1024) (directory + 4 * i) v } := by
  have hfill : FramesSys reserved size keep live0 s1 { s1 with mem := fillTable s1.mem e offset flags 1024 } :=
    frames_mem (fun _ => he) hnew fun hok x hx => by
      rw [block_covers (hok.block he).1] at hx
      exact fillTable_apply (by omega)
  refine hfill.trans' (frames_mem (fun _ => hd) hdnew fun hok x hx => ?_)
  rw [block_covers (hok1.block hd).1] at hx
  exact setUint32_apply _ _ (by omega)

/-- The loop makes the tables left or gives up with what it made. -/
theorem tablesLoop_spec (hflags : flags.toNat < 4096) (n : Nat) :
    ∀ {i : Nat} {offset : BitVec 32} {b : Bool} {s s' : Sys},
    tablesLoop flags directory n i offset s = .ok (b, s') → i + n ≤ 1024 → offset = BitVec.ofNat 32 (i * 1024 * 4096) →
    s.Ok reserved size → live0 ⊆ s.live → Built s live0 flags directory i →
    FramesSys reserved size keep live0 s s' ∧ (b = true → Built s' live0 flags directory (i + n)) := by
  induction n with
  | zero =>
    intro i offset b s s' h _ _ _ _ hbuilt
    obtain ⟨rfl, rfl⟩ := Exec.of_pure_ok h
    exact ⟨AllocState.Frames.rfl' _, fun _ => hbuilt⟩
  | succ n ih =>
    intro i offset b s s' h hi hoffset hok hlive0 hbuilt
    rw [tablesLoop] at h
    obtain ⟨e, s1, h1, h⟩ := Exec.of_bind_ok h
    obtain ⟨-, f1, hlive⟩ := pmmAllocateBlock_spec reserved size keep live0 h1
    split at h
    · obtain ⟨rfl, rfl⟩ := Exec.of_pure_ok h
      exact ⟨f1, fun hb => by cases hb⟩
    · rename_i he
      rw [Exec.bind_of_ok (setMem_apply ..), Exec.bind_of_ok (setMem_apply ..)] at h
      have hlive := hlive hok he
      obtain ⟨hok1, hlive1, -⟩ := f1 hok hlive0
      have hstep := hbuilt.step hok hlive0 (by omega) hflags h1 he rfl
      have hoffset' : offset + BitVec.ofNat 32 (pagingTotalEntriesPerTable * pagingPageSize) =
          BitVec.ofNat 32 ((i + 1) * 1024 * 4096) := by
        have hsum : i * 1024 * 4096 + pagingTotalEntriesPerTable * pagingPageSize = (i + 1) * 1024 * 4096 := by
          rw [Nat.add_mul, Nat.add_mul, Nat.one_mul]
        rw [hoffset, ← BitVec.ofNat_add, hsum]
      rw [hoffset'] at h
      subst hoffset
      have fstep : FramesSys reserved size keep live0 s1 _ :=
        frames_table (i := i) (by omega) hok1 (hlive ▸ List.mem_cons_self ..)
          (hlive ▸ List.mem_cons_of_mem _ hbuilt.directoryLive)
            (fun a ha => (hok1.fresh hlive a (hlive0 ha)).symm.addr_ne)
          hbuilt.directoryNew (BitVec.ofNat 32 (i * 1024 * 4096)) flags (BitVec.ofNat 32 e ||| flags ||| pteWriteable)
      obtain ⟨hok2, hlive2, -⟩ := fstep hok1 hlive1
      obtain ⟨f2, hbuilt2⟩ := ih h (by omega) rfl hok2 hlive2 hstep
      refine ⟨f1.trans' (fstep.trans' f2), fun hb => ?_⟩
      have := hbuilt2 hb
      rwa [show i + 1 + n = i + (n + 1) by omega] at this

theorem frames_word {b : Nat} (hb : s.Ok reserved size → b = 0 ∨ Live.block b ∈ s.live) (hout : ∀ a ∈ held, a.addr ≠ b)
    (v : BitVec 32) : FramesSys reserved size keep held s { s with mem := setUint32 s.mem b v } := by
  intro hok hheld
  rcases hb hok with rfl | hb
  · refine ⟨hok, hheld, fun _ a ha x hx => setUint32_apply _ _ ?_⟩
    -- nothing live is in block 0
    obtain ⟨h1, h2, -⟩ := hok.in32 (hheld ha)
    have := ((Live.covers_iff h1).1 hx).1
    omega
  · refine frames_mem (fun _ => hb) hout (fun hok x hx => ?_) hok hheld
    rw [block_covers (hok.block hb).1] at hx
    exact setUint32_apply _ _ (by omega)

/-- The tables made and a chunk for them are an address space. -/
theorem isSpace_of_built {chunk : Nat} {s3 : Sys} (hok3 : s3.Ok reserved size)
    (h : Built s held flags directory 1024) (hmem : s3.mem = s.mem) (hlive : s3.live = .block chunk :: s.live)
    (hnew : ∀ a ∈ s.live, a.addr ≠ chunk) (hheld : held ⊆ s.live) :
    IsSpace (setUint32 s3.mem chunk (BitVec.ofNat 32 directory)) s3.live chunk ∧
      (∀ b ∈ spaceBlocks (setUint32 s3.mem chunk (BitVec.ofNat 32 directory)) chunk, ∀ a ∈ held, a.addr ≠ b) ∧
      (∀ p < 2 ^ 20, pageEntry (setUint32 s3.mem chunk (BitVec.ofNat 32 directory)) chunk p =
        BitVec.ofNat 32 (p * 4096) ||| flags) ∧
      ∀ i < 1024, directoryFlags (setUint32 s3.mem chunk (BitVec.ofNat 32 directory)) chunk i =
        (flags ||| pteWriteable) &&& 0xfff#32 := by
  have hc := hok3.block (hlive ▸ List.mem_cons_self ..)
  have hin : ∀ {b}, Live.block b ∈ s.live → b % 4096 = 0 ∧ 0 < b ∧ b < 2 ^ 32 :=
    fun hb => hok3.block (hlive ▸ List.mem_cons_of_mem _ hb)
  have hd := hin h.directoryLive
  have hdc : directory ≠ chunk := hnew _ h.directoryLive
  generalize hm : setUint32 s3.mem chunk (BitVec.ofNat 32 directory) = mem
  -- the chunk's block holds nothing of the directory or the tables
  have hout : ∀ {b a : Nat}, b % 4096 = 0 → b ≠ chunk → b ≤ a → a + 4 ≤ b + 4096 →
    uint32At mem a = uint32At s.mem a := by
    intro b a hb hne h1 h2
    have := blocks_apart hb hc.1 hne
    rw [← hm, ← hmem]
    exact uint32At_setUint32_of_ne _ _ (by omega)
  have hdir : directoryEntry mem chunk = directory := by
    rw [directoryEntry, ← hm, uint32At_setUint32, BitVec.toNat_ofNat, Nat.mod_eq_of_lt hd.2.2]
  have htable : ∀ i < 1024, table mem chunk i = tableAddr s.mem directory i := by
    intro i hi
    rw [table, hdir]
    exact congrArg frameOf (hout hd.1 hdc (by omega) (by omega))
  have hblocks : ∀ b ∈ spaceBlocks mem chunk, b = chunk ∨ b = directory ∨
    ∃ i < 1024, b = tableAddr s.mem directory i := by
    intro b hb
    rcases List.mem_cons.1 hb with rfl | hb
    · exact .inl rfl
    · rcases List.mem_cons.1 hb with rfl | hb
      · exact .inr (.inl hdir)
      · obtain ⟨i, hi, rfl⟩ := mem_tables.1 hb
        exact .inr (.inr ⟨i, hi, htable i hi⟩)
  refine ⟨⟨fun b hb => ?_, fun b hb => ?_, ?_⟩, fun b hb a ha => ?_, fun p hp => ?_, fun i hi => ?_⟩
  · rw [hlive]
    rcases hblocks b hb with rfl | rfl | ⟨i, hi, rfl⟩
    · exact List.mem_cons_self ..
    · exact List.mem_cons_of_mem _ h.directoryLive
    · exact List.mem_cons_of_mem _ (h.live i hi)
  · rcases hblocks b hb with rfl | rfl | ⟨i, hi, rfl⟩
    · exact hc.1
    · exact hd.1
    · exact (hin (h.live i hi)).1
  · refine List.nodup_cons.2 ⟨fun hmem => ?_, List.nodup_cons.2 ⟨fun hmem => ?_, ?_⟩⟩
    · rcases List.mem_cons.1 hmem with he | hmem
      · exact hdc (hdir.symm.trans he.symm)
      · obtain ⟨i, hi, he⟩ := mem_tables.1 hmem
        rw [htable i hi] at he
        exact hnew _ (h.live i hi) he
    · obtain ⟨i, hi, he⟩ := mem_tables.1 hmem
      rw [htable i hi, hdir] at he
      exact h.ne i hi he
    · refine List.Nodup.map_on (fun i hi j hj he => ?_) List.nodup_range
      rw [List.mem_range] at hi hj
      rw [htable i hi, htable j hj] at he
      rcases Nat.lt_trichotomy i j with hlt | heq | hgt
      · exact absurd he (h.inj i j hlt hj)
      · exact heq
      · exact absurd he.symm (h.inj j i hgt hi)
  · rcases hblocks b hb with rfl | rfl | ⟨i, hi, rfl⟩
    · exact hnew a (hheld ha)
    · exact h.directoryNew a ha
    · exact h.new i hi a ha
  · have hi : p / 1024 < 1024 := by omega
    have ht := hin (h.live _ hi)
    have htp : tableAddr mem (directoryEntry mem chunk) (p / 1024) = tableAddr s.mem directory (p / 1024) := htable _ hi
    rw [pageEntry, htp, hout ht.1 (hnew _ (h.live _ hi)) (by omega) (by omega)]
    exact h.entry p (by omega)
  · rw [directoryFlags, hdir, hout hd.1 hdc (by omega) (by omega)]
    exact h.flagged i hi

/-- `paging_new_4gb` gives an address space of new blocks that takes every page to itself, or gives
up; either way everything held before is as it was. -/
theorem pagingNew4gb_spec {flags : BitVec 8} {c : Nat} (h : pagingNew4gb flags s = .ok (c, s'))
    (hok : s.Ok reserved size) (hheld : held ⊆ s.live) : FramesSys reserved size keep held s s' ∧
      (c ≠ 0 → IsSpace s'.mem s'.live c ∧ (∀ b ∈ spaceBlocks s'.mem c, ∀ a ∈ held, a.addr ≠ b) ∧
        (∀ p < 2 ^ 20, pageEntry s'.mem c p = BitVec.ofNat 32 (p * 4096) ||| flags.setWidth 32) ∧
        ∀ i < 1024, directoryFlags s'.mem c i = (flags.setWidth 32 ||| pteWriteable) &&& 0xfff#32) := by
  have hflags : (flags.setWidth 32).toNat < 4096 := by
    have := flags.isLt
    rw [BitVec.toNat_setWidth]
    omega
  unfold pagingNew4gb at h
  obtain ⟨d, s1, h1, h⟩ := Exec.of_bind_ok h
  obtain ⟨-, f1, l1⟩ := pmmAllocateBlock_spec reserved size keep held h1
  split at h
  · obtain ⟨rfl, rfl⟩ := Exec.of_pure_ok h
    exact ⟨f1, fun hc => absurd rfl hc⟩
  · rename_i hd
    obtain ⟨hok1, hheld1, -⟩ := f1 hok hheld
    have l1 := l1 hok hd
    obtain ⟨b, s2, h2, h⟩ := Exec.of_bind_ok h
    have hstart : Built s1 held (flags.setWidth 32) d 0 :=
      ⟨l1 ▸ List.mem_cons_self .., fun a ha => (hok1.fresh l1 a (hheld ha)).symm.addr_ne, by simp, by simp, by simp,
        by simp, by simp, by simp⟩
    have hloop : FramesSys reserved size keep held s1 s2 ∧ _ :=
      tablesLoop_spec hflags 1024 h2 (by decide) rfl hok1 hheld1 hstart
    obtain ⟨f2, hbuilt⟩ := hloop
    split at h
    · rename_i hb
      have hbuilt := hbuilt hb
      rw [Nat.zero_add] at hbuilt
      obtain ⟨hok2, hheld2, -⟩ := f2 hok1 hheld1
      obtain ⟨chunk, s3, h3, h⟩ := Exec.of_bind_ok h
      obtain ⟨hmem3, f3, l3⟩ := pmmAllocateBlock_spec reserved size keep held h3
      rw [Exec.bind_of_ok (setMem_apply ..)] at h
      obtain ⟨rfl, rfl⟩ := Exec.of_pure_ok h
      obtain ⟨hok3, hheld3, -⟩ := f3 hok2 hheld2
      have hnew : chunk ≠ 0 → ∀ a ∈ s2.live, a.addr ≠ chunk :=
        fun hc a ha => (hok3.fresh (l3 hok2 hc) a ha).symm.addr_ne
      have hchunk : chunk = 0 ∨ Live.block chunk ∈ s3.live := by
        by_cases hc : chunk = 0
        · exact .inl hc
        · exact .inr (l3 hok2 hc ▸ List.mem_cons_self ..)
      have hout : ∀ a ∈ held, a.addr ≠ chunk := by
        intro a ha
        by_cases hc : chunk = 0
        · have := (hok2.in32 (hheld2 ha)).2.1
          omega
        · exact hnew hc a (hheld2 ha)
      refine ⟨f1.trans' (f2.trans' (f3.trans' (frames_word (fun _ => hchunk) hout _))), fun hc => ?_⟩
      exact isSpace_of_built hok3 hbuilt hmem3 (l3 hok2 hc) (hnew hc) hheld2
    · obtain ⟨rfl, rfl⟩ := Exec.of_pure_ok h
      exact ⟨f1.trans' f2, fun hc => absurd rfl hc⟩

/-! ## What it leaves alone -/

theorem sameFiles_tablesLoop (flags : BitVec 32) (directory : Nat) : ∀ (n i : Nat) (offset : BitVec 32),
    Exec.Keeps SameFiles (tablesLoop flags directory n i offset)
  | 0, _, _ => Exec.keeps_pure _
  | n + 1, i, offset => by
    rw [tablesLoop]
    refine Exec.keeps_bind sameFiles_pmmAllocateBlock fun entry => Exec.keeps_ite (Exec.keeps_pure _) ?_
    refine Exec.keeps_bind (sameFiles_setMem _) fun _ => Exec.keeps_bind (sameFiles_setMem _) fun _ => ?_
    exact sameFiles_tablesLoop flags directory n _ _

theorem sameFiles_pagingNew4gb (flags : BitVec 8) : Exec.Keeps SameFiles (pagingNew4gb flags) := by
  unfold pagingNew4gb
  refine Exec.keeps_bind sameFiles_pmmAllocateBlock fun directory => Exec.keeps_ite (Exec.keeps_pure _) ?_
  refine Exec.keeps_bind (sameFiles_tablesLoop _ _ _ _ _) fun made => Exec.keeps_ite ?_ (Exec.keeps_pure _)
  refine Exec.keeps_bind sameFiles_pmmAllocateBlock fun chunk => ?_
  exact Exec.keeps_bind (sameFiles_setMem _) fun _ => Exec.keeps_pure _

theorem keepsEnds_table {e i : Nat} (hi : i < 1024) {s1 : Sys} (hok1 : s1.Ok reserved size)
    (he : Live.block e ∈ s1.live) (hd : Live.block directory ∈ s1.live) (offset flags v : BitVec 32) :
    KeepsEnds s1 { s1 with mem := setUint32 (fillTable s1.mem e offset flags 1024) (directory + 4 * i) v } := by
  have hfill : KeepsEnds s1 { s1 with mem := fillTable s1.mem e offset flags 1024 } :=
    keepsEnds_in (List.Subset.refl _) he (hok1.block he).1 fun x hx => fillTable_apply hx
  refine IsTrans.trans _ _ _ hfill (keepsEnds_in (List.Subset.refl _) hd (hok1.block hd).1 fun x hx => ?_)
  have hx : x < directory ∨ directory + 4096 ≤ x := hx
  exact setUint32_apply _ _ (by omega)

theorem keepsEnds_tablesLoop (n : Nat) : ∀ {i : Nat} {offset : BitVec 32} {b : Bool} {s s' : Sys},
    tablesLoop flags directory n i offset s = .ok (b, s') → i + n ≤ 1024 → s.Ok reserved size →
    Live.block directory ∈ s.live → KeepsEnds s s' ∧ s'.Ok reserved size := by
  induction n with
  | zero =>
    intro i offset b s s' h _ hok _
    obtain ⟨-, rfl⟩ := Exec.of_pure_ok h
    exact ⟨refl s, hok⟩
  | succ n ih =>
    intro i offset b s s' h hi hok hd
    rw [tablesLoop] at h
    obtain ⟨e, s1, h1, h⟩ := Exec.of_bind_ok h
    have g1 := keepsEnds_pmmAllocateBlock _ _ _ h1
    obtain ⟨-, f1, hlive⟩ := pmmAllocateBlock_spec reserved size False [] h1
    obtain ⟨hok1, -, -⟩ := f1 hok (List.nil_subset _)
    split at h
    · obtain ⟨-, rfl⟩ := Exec.of_pure_ok h
      exact ⟨g1, hok1⟩
    · rename_i he
      rw [Exec.bind_of_ok (setMem_apply ..), Exec.bind_of_ok (setMem_apply ..)] at h
      have hlive := hlive hok he
      have hd1 : Live.block directory ∈ s1.live := hlive ▸ List.mem_cons_of_mem _ hd
      have gtable := keepsEnds_table (i := i) (by omega) hok1 (hlive ▸ List.mem_cons_self ..) hd1 offset flags
        (BitVec.ofNat 32 e ||| flags ||| pteWriteable)
      obtain ⟨g2, hok2⟩ := ih h (by omega) (hok1.withMem _) hd1
      exact ⟨IsTrans.trans _ _ _ g1 (IsTrans.trans _ _ _ gtable g2), hok2⟩

/-- An address space is made in blocks of its own. -/
theorem keepsEnds_pagingNew4gb {flags : BitVec 8} {c : Nat} (hok : s.Ok reserved size)
    (h : pagingNew4gb flags s = .ok (c, s')) (hc : c ≠ 0) : KeepsEnds s s' := by
  unfold pagingNew4gb at h
  obtain ⟨d, s1, h1, h⟩ := Exec.of_bind_ok h
  obtain ⟨-, f1, hlive1⟩ := pmmAllocateBlock_spec reserved size True [] h1
  split at h
  · obtain ⟨rfl, -⟩ := Exec.of_pure_ok h
    exact absurd rfl hc
  rename_i hd
  obtain ⟨hok1, -, -⟩ := f1 hok (List.nil_subset _)
  obtain ⟨b, s2, h2, h⟩ := Exec.of_bind_ok h
  obtain ⟨g2, hok2⟩ := keepsEnds_tablesLoop 1024 h2 (by decide) hok1 (hlive1 hok hd ▸ List.mem_cons_self ..)
  have g12 := IsTrans.trans _ _ _ (keepsEnds_pmmAllocateBlock _ _ _ h1) g2
  split at h
  · obtain ⟨chunk, s3, h3, h⟩ := Exec.of_bind_ok h
    obtain ⟨-, f3, hlive3⟩ := pmmAllocateBlock_spec reserved size True [] h3
    rw [Exec.bind_of_ok (setMem_apply ..)] at h
    obtain ⟨rfl, rfl⟩ := Exec.of_pure_ok h
    obtain ⟨hok3, -, -⟩ := f3 hok2 (List.nil_subset _)
    have hc3 : Live.block chunk ∈ s3.live := hlive3 hok2 hc ▸ List.mem_cons_self ..
    have g3 : KeepsEnds s3 { s3 with mem := setUint32 s3.mem chunk (BitVec.ofNat 32 d) } :=
      keepsEnds_in (List.Subset.refl _) hc3 (hok3.block hc3).1 fun x hx => by
        have hx : x < chunk ∨ chunk + 4096 ≤ x := hx
        exact setUint32_apply _ _ (by omega)
    exact IsTrans.trans _ _ _ g12 (IsTrans.trans _ _ _ (keepsEnds_pmmAllocateBlock _ _ _ h3) g3)
  · obtain ⟨rfl, -⟩ := Exec.of_pure_ok h
    exact absurd rfl hc

/-! ## With blocks for it -/

theorem tablesLoop_grants (flags : BitVec 32) (directory : Nat) : ∀ (n i : Nat) (offset : BitVec 32) (s : Sys),
    ∃ b s', tablesLoop flags directory n i offset s = .ok (b, s') ∧ (b = true ↔ Grants n s.heap.pmm) ∧
      (b = true → s'.heap.pmm = afterBlocks n s.heap.pmm)
  | 0, _, _, s => ⟨true, s, rfl, ⟨fun _ => trivial, fun _ => rfl⟩, fun _ => rfl⟩
  | n + 1, i, offset, s => by
    rw [tablesLoop, Exec.bind_of_ok (pmmAllocateBlock_apply s)]
    by_cases he : s.heap.pmm.pmmAllocateBlock.1 = 0
    · rw [if_pos he]
      exact ⟨false, _, rfl, ⟨nofun, fun h => absurd he h.1⟩, nofun⟩
    · rw [if_neg he, Exec.bind_of_ok (setMem_apply ..), Exec.bind_of_ok (setMem_apply ..)]
      obtain ⟨b, s', h, hb, hpmm⟩ := tablesLoop_grants flags directory n _ _ _
      exact ⟨b, s', h, hb.trans (and_iff_right he).symm, hpmm⟩

/-- An address space takes 1026 blocks, and is made exactly when they are granted. -/
theorem pagingNew4gb_grants (flags : BitVec 8) (s : Sys) : ∃ c s', pagingNew4gb flags s = .ok (c, s') ∧
    (c ≠ 0 ↔ Grants 1026 s.heap.pmm) ∧ (c ≠ 0 → s'.heap.pmm = afterBlocks 1026 s.heap.pmm) := by
  have hends : Grants 1026 s.heap.pmm ↔ _ := grants_ends 1024 s.heap.pmm
  have hafter : afterBlocks 1026 s.heap.pmm = _ := afterBlocks_ends 1024 s.heap.pmm
  obtain ⟨s1, hs1, hpmm1⟩ : ∃ s1, pmmAllocateBlock s = .ok (s.heap.pmm.pmmAllocateBlock.1, s1) ∧
      s1.heap.pmm = s.heap.pmm.pmmAllocateBlock.2 := ⟨_, pmmAllocateBlock_apply s, rfl⟩
  rw [hends, hafter, ← hpmm1]
  unfold pagingNew4gb
  rw [Exec.bind_of_ok hs1]
  by_cases hd : s.heap.pmm.pmmAllocateBlock.1 = 0
  · rw [if_pos hd]
    exact ⟨0, s1, rfl, ⟨fun h => absurd rfl h, fun h => absurd hd h.1⟩, fun h => absurd rfl h⟩
  · rw [if_neg hd]
    obtain ⟨b, s2, h2, hb, hpmm2⟩ := tablesLoop_grants (flags.setWidth 32) s.heap.pmm.pmmAllocateBlock.1 1024 0 0 s1
    rw [Exec.bind_of_ok h2]
    cases b with
    | false => exact ⟨0, s2, rfl, ⟨fun h => absurd rfl h, fun h => absurd (hb.2 h.2.1) nofun⟩, fun h => absurd rfl h⟩
    | true =>
      rw [← hpmm2 rfl, ← hb]
      refine ⟨s2.heap.pmm.pmmAllocateBlock.1, _, rfl, ⟨fun h => ⟨hd, rfl, h⟩, fun h => h.2.2⟩, fun _ => rfl⟩

theorem pagingNew4gb_room (flags : BitVec 8) {n : Nat} (h : s.Room (n + 1026)) :
    ∃ c s', pagingNew4gb flags s = .ok (c, s') ∧ c ≠ 0 ∧ s'.Room n := by
  obtain ⟨c, s', e, hc, hpmm⟩ := pagingNew4gb_grants flags s
  have hc := hc.2 (Room.grants (h.mono (by omega)))
  refine ⟨c, s', e, hc, ?_⟩
  rw [Sys.Room, hpmm hc]
  exact Room.afterBlocks h

end SimpleMicrokernel.Paging
