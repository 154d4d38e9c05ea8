/-
A string copied out of a task. While its directory is loaded the page `tmp` is mapped to itself there, so the
string is read through the task's own map and stored to `tmp`; the entry is put back, and the string is read
back from `tmp` through the kernel's directory, which takes every page to itself. Only the low byte of the entry
of `tmp` reads otherwise in between.
-/
import SimpleMicrokernel.Kernel.Spaces
import SimpleMicrokernel.Task.Image
import SimpleMicrokernel.Paging.Strncpy

namespace SimpleMicrokernel.Tasking

open Memory Fs Fat16 Paging

/-! ## Through a directory -/

section
variable {mem m : Mem} {live : List Live} {chunk out count : Nat}

theorem Present.translate_at (h : Present mem chunk) {virt : Nat} (hv : virt < 2 ^ 32) :
    Paging.translate mem (directoryEntry mem chunk) supervisor virt =
      some (frameOf (pageEntry mem chunk (virt / 4096)) + virt % 4096) := by
  obtain ⟨addr, h⟩ := h.translate hv
  rw [h, (of_translate h).2]

theorem Present.translate_same (h : Present mem chunk) (hspace : IsSpace mem live chunk)
    (hout : ∀ a ∈ live, ∀ x, a.Covers x → x < out ∨ out + count ≤ x) (hsame : SameOutside out count mem m) {virt : Nat}
    (hv : virt < 2 ^ 32) : Paging.translate m (directoryEntry mem chunk) supervisor virt =
      some (frameOf (pageEntry mem chunk (virt / 4096)) + virt % 4096) := by
  have hmem : ∀ a ∈ live, ∀ x, a.Covers x → m x = mem x := fun a ha x hx => hsame x (hout a ha x hx)
  obtain ⟨hpresent, hdir⟩ := h.congr hspace hmem
  rw [← hdir, hpresent.translate_at hv, (hspace.congr (List.Subset.refl live) hmem).2.2 _ (by omega)]

theorem HasMap.present {entry : Nat → BitVec 32} (h : HasMap mem chunk entry)
    (hentry : ∀ q, entry q &&& supervisor = supervisor) :
    Present mem chunk := by
  refine ⟨fun i hi => ?_, fun q hq => ?_⟩
  · rw [h.flags i hi]
    decide
  · rw [h.entries q hq]
    exact hentry q

theorem kernelMap_supervisor (q : Nat) : kernelMap q &&& supervisor = supervisor := by
  unfold kernelMap
  rw [and_entry q (by decide)]
  decide

end

/-! ## The entry of the page -/

/-- Where the entry of a page is. -/
def entryAddr (mem : Mem) (directory virt : Nat) : Nat :=
  tableAddr mem directory (virt / 4096 / 1024) + 4 * (virt / 4096 % 1024)

theorem setUint32_low (m : Mem) {a x : Nat} {v w : BitVec 32} (h : v &&& 0xffffff00#32 = w &&& 0xffffff00#32)
    (hx : x ≠ a) :
    setUint32 m a v x = setUint32 m a w x := by
  have hmask : ∀ j : Fin 32, 8 ≤ j.val → (0xffffff00#32).getLsbD j = true := by decide
  have hbyte : ∀ start, 8 ≤ start → v.extractLsb' start 8 = w.extractLsb' start 8 := by
    intro start hstart
    refine BitVec.eq_of_getLsbD_eq fun i hi => ?_
    rw [BitVec.getLsbD_extractLsb', BitVec.getLsbD_extractLsb']
    by_cases hlt : start + i < 32
    · have hbit := congrArg (fun u : BitVec 32 => u.getLsbD (start + i)) h
      simp only [BitVec.getLsbD_and, hmask ⟨start + i, hlt⟩ (by simp only; omega), Bool.and_true] at hbit
      rw [hbit]
    · rw [BitVec.getLsbD_of_ge v _ (by omega), BitVec.getLsbD_of_ge w _ (by omega)]
  unfold setUint32
  rw [if_neg hx, if_neg hx, hbyte 8 (by omega), hbyte 16 (by omega), hbyte 24 (by omega)]

theorem processMap_high (p : Process) (q : Nat) : processMap p identityMap q &&& 0xf00#32 = 0#32 := by
  unfold processMap mapped identityMap
  split
  · rw [and_entry _ (by decide)]
    decide
  · split
    · rw [and_entry _ (by decide)]
      decide
    · rw [and_entry _ (by decide)]
      decide

theorem and_self_entry {p : Process} {tmp : Nat} (halign : tmp % 4096 = 0) (htmp : tmp < 2 ^ 32)
    (hself : frameOf (processMap p identityMap (tmp / 4096)) = tmp) :
    processMap p identityMap (tmp / 4096) &&& 0xffffff00#32 =
    (BitVec.ofNat 32 tmp ||| writeableFlags) &&& 0xffffff00#32 := by
  have hsplit : ∀ e : BitVec 32, e &&& 0xffffff00#32 = e &&& 0xfffff000#32 ||| e &&& 0xf00#32 := by
    intro e
    rw [← BitVec.and_or_distrib_left]
    rfl
  have hpage : tmp / 4096 * 4096 = tmp := by omega
  have hframe : frameOf (BitVec.ofNat 32 (tmp / 4096 * 4096) ||| writeableFlags) = tmp / 4096 * 4096 :=
    frameOf_entry (by omega) (by decide)
  have hhigh : (BitVec.ofNat 32 (tmp / 4096 * 4096) ||| writeableFlags) &&& 0xf00#32 = 0#32 := by
    rw [and_entry _ (by decide)]
    decide
  rw [hpage] at hframe hhigh
  rw [hsplit, hsplit, processMap_high, hhigh]
  exact congrArg (· ||| 0#32) (BitVec.eq_of_toNat_eq (hself.trans hframe.symm))

/-! ## The copy -/

section
variable {env : Env} {k : Kernel} {task : Task} {p : Process} {virt phys max tmp : Nat} {s1 : Sys} {m m1 m2 : Mem}
  {live : List Live} {chunk : Nat} {entry : Nat → BitVec 32}

/-- The address a task's directory takes the string's byte `i` to. -/
def stringAddr (mem : Mem) (chunk virt i : Nat) : Nat :=
  frameOf (pageEntry mem chunk ((virt + i) / 4096)) + (virt + i) % 4096

theorem strncpy_in (hspace : IsSpace m live chunk) (hpresent : Present m chunk)
    (hout : ∀ a ∈ live, ∀ x, a.Covers x → x < tmp ∨ tmp + 4096 ≤ x) (halign : tmp % 4096 = 0)
    (htmp : tmp + 4096 ≤ 2 ^ 32) (h1 : 1 ≤ max) (hmax : max ≤ 4096) (hvirt : virt + max ≤ 2 ^ 32)
    (hself : frameOf (pageEntry m chunk (tmp / 4096)) = tmp)
    (hno : ∀ i < max, stringAddr m chunk virt i / 4096 ≠ tmp / 4096) :
    strncpy m (directoryEntry m chunk) tmp virt max =
      .ok (store m tmp (cString (fun i => m (stringAddr m chunk virt i)) 0 (max - 1) ++ [0])) := by
  -- what the directory does with an address, whatever is stored to the page
  have hsees : ∀ m2, SameOutside tmp max m m2 →
    ∀ x < 2 ^ 32, Paging.translate m2 (directoryEntry m chunk) supervisor x =
      some (frameOf (pageEntry m chunk (x / 4096)) + x % 4096) := fun m2 hsame x hx =>
    hpresent.translate_same hspace (fun a ha x hx => (hout a ha x hx).imp id fun h => by omega) hsame hx
  refine strncpy_store (fun m2 hsame i hi => ?_) (fun m2 hsame i hi => ?_) (fun i hi => ?_) h1
  · have hpage : (tmp + i) / 4096 = tmp / 4096 := by omega
    rw [hsees m2 hsame _ (Nat.mod_lt _ (by decide)), Nat.mod_eq_of_lt (show tmp + i < 2 ^ 32 by omega), hpage, hself]
    exact congrArg some (show tmp + (tmp + i) % 4096 = tmp + i by omega)
  · rw [hsees m2 hsame _ (Nat.mod_lt _ (by decide)), Nat.mod_eq_of_lt (show virt + i < 2 ^ 32 by omega)]
    rfl
  · have hne := hno i (by omega)
    omega

theorem strncpy_out (hspace : IsSpace m live chunk) (hmap : HasMap m chunk kernelMap)
    (hbuf : ∀ a ∈ live, ∀ x, a.Covers x → x < phys ∨ phys + max ≤ x) (hphys : phys + max ≤ 2 ^ 32)
    (htmp : tmp + max ≤ 2 ^ 32) (hapart : phys + max ≤ tmp ∨ tmp + max ≤ phys) (h1 : 1 ≤ max) :
    strncpy m (directoryEntry m chunk) phys tmp max =
      .ok (store m phys (cString (fun i => m (tmp + i)) 0 (max - 1) ++ [0])) := by
  have hpresent := hmap.present kernelMap_supervisor
  have hsees : ∀ m2, SameOutside phys max m m2 →
    ∀ x < 2 ^ 32, Paging.translate m2 (directoryEntry m chunk) supervisor x = some x := by
    intro m2 hsame x hx
    have hframe : frameOf (kernelMap (x / 4096)) = x / 4096 * 4096 := frameOf_entry (by omega) (by decide)
    rw [hpresent.translate_same hspace hbuf hsame hx, hmap.entries _ (by omega), hframe, Nat.div_add_mod' x 4096]
  refine strncpy_store (fun m2 hsame i hi => ?_) (fun m2 hsame i hi => ?_) (fun i hi => by omega) h1
  · rw [hsees m2 hsame _ (Nat.mod_lt _ (by decide)), Nat.mod_eq_of_lt (show phys + i < 2 ^ 32 by omega)]
  · rw [hsees m2 hsame _ (Nat.mod_lt _ (by decide)), Nat.mod_eq_of_lt (show tmp + i < 2 ^ 32 by omega)]

theorem copyStringFromTaskTo_of {meanwhile : Meanwhile} (hmax : max ≤ 4096)
    (halloc : kzalloc env max k.toSys = .ok (tmp, s1)) (h0 : tmp ≠ 0) (halign : tmp % 4096 = 0) {m3 m4 : Mem}
    (hin : strncpy (meanwhile.reading (pagingSet s1.mem (directoryEntry s1.mem task.pageDirectory) tmp
      (BitVec.ofNat 32 tmp ||| writeableFlags)).2) (directoryEntry s1.mem task.pageDirectory) tmp virt max = .ok m2)
    (hback : pagingSet (meanwhile.back m2) (directoryEntry s1.mem task.pageDirectory) tmp
      (pagingGet s1.mem (directoryEntry s1.mem task.pageDirectory) tmp) = (1, m3))
    (hout : strncpy m3 (directoryEntry m2 k.kernelChunk) phys tmp max = .ok m4) :
    copyStringFromTaskTo env meanwhile task virt phys max k = .ok (1,
      { k.withSys { s1 with mem := meanwhile.returning m4 } with
        currentDirectory := directoryEntry m2 k.kernelChunk }) := by
  have hout' : ∀ k' : Kernel, (liftM (strncpy m3 (directoryEntry m2 k.kernelChunk) phys tmp max) : KM Mem) k' =
    .ok (m4, k') := by
    intro k'
    rw [hout]
    rfl
  unfold copyStringFromTaskTo
  rw [Exec.bind_of_ok (copyStringToPage_of hmax halloc h0 halign hin hback)]
  simp only
  rw [Exec.bind_of_ok (Exec.get_apply _)]
  simp only [Kernel.withSys]
  rw [Exec.bind_of_ok (hout' _), Exec.bind_of_ok (onSys_of_ok (setMem_apply ..))]
  rfl

/-- The kernel's own variables and its stack are the only memory that the call changes meanwhile. -/
def Meanwhile.In (meanwhile : Meanwhile) (vars : Set Nat) : Prop :=
  ∀ mem, ∀ x ∉ vars, meanwhile.reading mem x = mem x ∧ meanwhile.back mem x = mem x ∧ meanwhile.returning mem x = mem x

theorem nothing_in : Meanwhile.nothing.In ∅ := fun _ _ _ => ⟨rfl, rfl, rfl⟩

/-- Memory the kernel can have a buffer in: inside the address space, and no table of an address space. -/
structure IsBuffer (live : List Live) (phys max : Nat) : Prop where
  fits : phys + max ≤ 2 ^ 32
  noTable : ∀ a ∈ live, a.owner = .pmm → ∀ x, a.Covers x → x < phys ∨ phys + max ≤ x

theorem setUint32_congr {a x : Nat} {v : BitVec 32} (h : m x = m1 x) : setUint32 m a v x = setUint32 m1 a v x := by
  unfold setUint32
  rw [h]

/-- The byte of the string at an index, while the page at `tmp` is mapped. -/
def copiedByte (mem : Mem) (chunk virt tmp i : Nat) : Byte :=
  setUint32 mem (entryAddr mem (directoryEntry mem chunk) tmp) (BitVec.ofNat 32 tmp ||| writeableFlags)
    (stringAddr mem chunk virt i)

/-- A table of a space with every page present is no chunk: the word at the start of a chunk has no flags. -/
theorem table_ne_chunk {c : Nat} (hpresent : Present m chunk) (hspace : IsSpace m live c) {i : Nat} (hi : i < 1024) :
    table m chunk i ≠ c := by
  intro he
  have hentry := hpresent.pages (1024 * i) (by omega)
  have hindex : 1024 * i / 1024 = i ∧ 1024 * i % 1024 = 0 := by omega
  have hword : pageEntry m chunk (1024 * i) = uint32At m c := by
    unfold pageEntry
    rw [hindex.1, hindex.2]
    exact congrArg (uint32At m) he
  have haligned : (uint32At m c).toNat % 4096 = 0 :=
    hspace.aligned _ (List.mem_cons_of_mem _ (List.mem_cons_self ..))
  have hodd : (uint32At m c).toNat % 2 = 1 := by
    rw [hword] at hentry
    have hbit := congrArg BitVec.toNat hentry
    rwa [BitVec.toNat_and, show supervisor.toNat = 1 from rfl, Nat.and_one_is_mod] at hbit
  omega

theorem store_of_out {out : Nat} {bs : List Byte} {x : Nat} (h : x < out ∨ out + bs.length ≤ x) :
    store m out bs x = m x := by
  rw [store_apply]
  split
  · rw [List.getElem?_eq_none (by omega)]
    rfl
  · rfl

theorem store_at {out j : Nat} {bs : List Byte} {b : Byte} (h : bs[j]? = some b) : store m out bs (out + j) = b := by
  rw [store_apply, if_pos (Nat.le_add_right ..), Nat.add_sub_cancel_left, h]
  rfl

theorem entryAddr_congr (hspace : IsSpace m live chunk) (hmem : ∀ a ∈ live, ∀ x, a.Covers x → m1 x = m x)
    (htmp : tmp < 2 ^ 32) :
    entryAddr m1 (directoryEntry m1 chunk) tmp = entryAddr m (directoryEntry m chunk) tmp := by
  obtain ⟨-, htables, -⟩ := hspace.same fun a ha _ => hmem a ha
  exact congrArg (· + 4 * (tmp / 4096 % 1024)) (htables (tmp / 4096 / 1024) (by omega))

theorem copiedByte_congr (hspace : IsSpace m live chunk) (hout : ∀ a ∈ live, ∀ x, a.Covers x → x < tmp ∨ tmp + 4096 ≤ x)
    (hsame : SameBut tmp m m1) (htmp : tmp % 4096 = 0 ∧ tmp < 2 ^ 32) {i : Nat} (hvirt : virt + i < 2 ^ 32)
    (hno : stringAddr m chunk virt i / 4096 ≠ tmp / 4096) :
    stringAddr m1 chunk virt i = stringAddr m chunk virt i ∧
    copiedByte m1 chunk virt tmp i = copiedByte m chunk virt tmp i := by
  have hmem : ∀ a ∈ live, ∀ x, a.Covers x → m1 x = m x := fun a ha x hx => hsame x (hout a ha x hx)
  have haddr : stringAddr m1 chunk virt i = stringAddr m chunk virt i := by
    unfold stringAddr
    rw [(hspace.congr (List.Subset.refl live) hmem).2.2 _ (by omega)]
  refine ⟨haddr, ?_⟩
  unfold copiedByte
  rw [entryAddr_congr hspace hmem htmp.2, haddr]
  exact setUint32_congr (hsame _ (by omega))

theorem pagingSet_back {c : Nat} (halign : tmp % 4096 = 0) (hdir : directoryEntry m1 c = directoryEntry m c)
    (htable : table m1 c (tmp / 4096 / 1024) = table m c (tmp / 4096 / 1024)) :
    pagingSet m1 (directoryEntry m c) tmp (pagingGet m (directoryEntry m c) tmp) =
      (1, setUint32 m1 (entryAddr m (directoryEntry m c) tmp) (uint32At m (entryAddr m (directoryEntry m c) tmp))) := by
  have htable' : tableAddr m1 (directoryEntry m c) (tmp / 4096 / 1024) =
    tableAddr m (directoryEntry m c) (tmp / 4096 / 1024) := by
    unfold table at htable
    rwa [hdir] at htable
  rw [pagingSet_eq _ _ halign, pagingGet_eq _ _ halign, htable']
  rfl

theorem not_vars {vars : Set Nat} (hok : TablesOk k.toSys) (hvars : ∀ x ∈ vars, x < kernelBlocks * 4096) {a : Live}
    (ha : a ∈ k.live) {x : Nat} (hx : a.Covers x) : x ∉ vars := by
  obtain ⟨halign, -, hlow, -⟩ := hok.bounds ha
  have hle := ((Live.covers_iff halign).1 hx).1
  exact fun hin => absurd (hvars x hin) (Nat.not_lt.2 (Nat.le_trans hlow hle))

/-- The entry of a page is in a table. -/
theorem entry_covers (hspace : IsSpace m live chunk) (htmp : tmp < 2 ^ 32) {x : Nat}
    (h1 : entryAddr m (directoryEntry m chunk) tmp ≤ x) (h2 : x < entryAddr m (directoryEntry m chunk) tmp + 4) :
    (Live.block (table m chunk (tmp / 4096 / 1024))).Covers x := by
  have hentry : entryAddr m (directoryEntry m chunk) tmp =
      table m chunk (tmp / 4096 / 1024) + 4 * (tmp / 4096 % 1024) := rfl
  exact (block_covers (hspace.aligned _ (table_mem (by omega)))).2 ⟨by omega, by omega⟩

/-- While the page is mapped to itself and nothing that is held is stored to, the tables stay where they are, every
page is present, and no other page has a new entry. -/
theorem mapped_space (hspace : IsSpace m live chunk) (hpresent : Present m chunk) (halign : tmp % 4096 = 0)
    (htmp : tmp < 2 ^ 32) (hmem : ∀ a ∈ live, ∀ x, a.Covers x → m1 x =
      setUint32 m (entryAddr m (directoryEntry m chunk) tmp) (BitVec.ofNat 32 tmp ||| writeableFlags) x) :
    IsSpace m1 live chunk ∧ Present m1 chunk ∧ directoryEntry m1 chunk = directoryEntry m chunk ∧
      (∀ i < 1024, table m1 chunk i = table m chunk i) ∧ ∀ q < 2 ^ 20, pageEntry m1 chunk q =
        if q = tmp / 4096 then BitVec.ofNat 32 tmp ||| writeableFlags else pageEntry m chunk q := by
  have hpage : tmp / 4096 * 4096 = tmp := by omega
  obtain ⟨-, hset⟩ := remaps_pagingSet hspace (show tmp / 4096 < 2 ^ 20 by omega)
    (BitVec.ofNat 32 tmp ||| writeableFlags)
  rw [hpage, pagingSet_eq _ _ halign] at hset
  have hspace' := hset.isSpace hspace
  have hpresent' := hpresent.remaps hspace hset fun q hq => by
    by_cases hq' : q = tmp / 4096
    · rw [if_pos hq', ← hpage, and_entry _ (by decide)]
      decide
    · rw [if_neg hq']
      exact hpresent.pages q hq
  obtain ⟨hspace1, -, hentries⟩ := hspace'.congr (List.Subset.refl live) hmem
  obtain ⟨hpresent1, -⟩ := hpresent'.congr hspace' hmem
  obtain ⟨hdir, htables, -⟩ := hspace'.same fun a ha _ => hmem a ha
  exact ⟨hspace1, hpresent1, hdir.trans hset.directory, fun i hi => (htables i hi).trans (hset.tables i hi),
    fun q hq => (hentries q hq).trans (hset.entry q hq)⟩

/-- The entry of a page is not the word at the start of a chunk, of whatever space. -/
theorem chunk_kept {c : Nat} (hspace : IsSpace m live chunk) (hpresent : Present m chunk) (hc : IsSpace m live c)
    (htmp : tmp < 2 ^ 32) {v : BitVec 32}
    (hmem : ∀ a ∈ live, ∀ x, a.Covers x → m1 x = setUint32 m (entryAddr m (directoryEntry m chunk) tmp) v x) :
    directoryEntry m1 c = directoryEntry m c := by
  have hin : c ∈ spaceBlocks m c := List.mem_cons_self ..
  have hca := hc.aligned _ hin
  have htable : table m chunk (tmp / 4096 / 1024) ∈ spaceBlocks m chunk := table_mem (by omega)
  have hne : table m chunk (tmp / 4096 / 1024) ≠ c := table_ne_chunk hpresent hc (by omega)
  unfold directoryEntry
  refine congrArg BitVec.toNat (uint32At_congr fun x hx1 hx2 => ?_)
  have hcovers : (Live.block c).Covers x := (block_covers hca).2 ⟨hx1, by omega⟩
  rw [hmem _ (hc.live _ hin) x hcovers, setUint32_apply]
  by_contra hentry
  have ht := (block_covers (hspace.aligned _ htable)).1 (entry_covers hspace htmp (x := x) (by omega) (by omega))
  rw [block_covers hca] at hcovers
  have hta := hspace.aligned _ htable
  omega

/-- The string is copied to the page while that is mapped to itself. -/
theorem string_read {vars : Set Nat} (hspace : IsSpace m live chunk) (hpresent : Present m chunk)
    (hout : ∀ a ∈ live, ∀ x, a.Covers x → x < tmp ∨ tmp + 4096 ≤ x) (halign : tmp % 4096 = 0)
    (htmp : tmp + 4096 ≤ 2 ^ 32) (h1 : 1 ≤ max) (hmax : max ≤ 4096) (hvirt : virt + max ≤ 2 ^ 32)
    (hself : frameOf (pageEntry m chunk (tmp / 4096)) = tmp)
    (hread : ∀ x ∉ vars, m1 x =
      setUint32 m (entryAddr m (directoryEntry m chunk) tmp) (BitVec.ofNat 32 tmp ||| writeableFlags) x)
    (hlive : ∀ a ∈ live, ∀ x, a.Covers x → x ∉ vars)
    (hno : ∀ i < max, stringAddr m chunk virt i / 4096 ≠ tmp / 4096 ∧ stringAddr m chunk virt i ∉ vars) :
    strncpy m1 (directoryEntry m chunk) tmp virt max =
      .ok (store m1 tmp (cString (copiedByte m chunk virt tmp) 0 (max - 1) ++ [0])) := by
  obtain ⟨hspace1, hpresent1, hdir1, -, hentries1⟩ := mapped_space hspace hpresent halign (by omega)
    fun a ha x hx => hread x (hlive a ha x hx)
  have hframe : frameOf (BitVec.ofNat 32 tmp ||| writeableFlags) = tmp := by
    have h := frameOf_entry (show tmp / 4096 < 2 ^ 20 by omega) (show writeableFlags.toNat < 4096 by decide)
    rwa [show tmp / 4096 * 4096 = tmp by omega] at h
  have hself1 : frameOf (pageEntry m1 chunk (tmp / 4096)) = tmp := by
    rw [hentries1 _ (by omega), if_pos rfl, hframe]
  have haddr : ∀ i < max, stringAddr m1 chunk virt i = stringAddr m chunk virt i := by
    intro i hi
    have hne := (hno i hi).1
    unfold stringAddr at hne ⊢
    rw [hentries1 _ (by omega), if_neg]
    -- the page of the string is not the one that is mapped
    intro hq
    rw [hq, hself] at hne
    omega
  have hin := strncpy_in hspace1 hpresent1 hout halign htmp h1 hmax hvirt hself1
    fun i hi => by rw [haddr i hi]; exact (hno i hi).1
  have hstring : cString (fun i => m1 (stringAddr m1 chunk virt i)) 0 (max - 1) =
      cString (copiedByte m chunk virt tmp) 0 (max - 1) := by
    refine cString_congr fun i _ hi => ?_
    rw [haddr i (by omega), hread _ (hno i (by omega)).2]
    rfl
  rwa [hdir1, hstring] at hin

/-- The string is in the page, the entry is put back, and the kernel's directory was where it is all along. -/
theorem copy_in {meanwhile : Meanwhile} {vars : Set Nat} (hok : TablesOk k.toSys)
    (hspace : IsSpace k.mem k.live task.pageDirectory) (hpresent : Present k.mem task.pageDirectory)
    (hkspace : IsSpace k.mem k.live k.kernelChunk) (h1 : 1 ≤ max) (hmax : max ≤ 4096)
    (hvirt : virt + max ≤ 2 ^ 32) (halloc : kzalloc env max k.toSys = .ok (tmp, s1)) (h0 : tmp ≠ 0)
    (hself : frameOf (pageEntry k.mem task.pageDirectory (tmp / 4096)) = tmp) (hmeanwhile : meanwhile.In vars)
    (hvars : ∀ x ∈ vars, x < kernelBlocks * 4096)
    (hno : ∀ i < max, stringAddr k.mem task.pageDirectory virt i / 4096 ≠ tmp / 4096 ∧
      stringAddr k.mem task.pageDirectory virt i ∉ vars) :
    ∃ m2 m3, strncpy (meanwhile.reading (pagingSet s1.mem (directoryEntry s1.mem task.pageDirectory) tmp
        (BitVec.ofNat 32 tmp ||| writeableFlags)).2) (directoryEntry s1.mem task.pageDirectory) tmp virt max = .ok m2 ∧
      pagingSet (meanwhile.back m2) (directoryEntry s1.mem task.pageDirectory) tmp
        (pagingGet s1.mem (directoryEntry s1.mem task.pageDirectory) tmp) = (1, m3) ∧
      (∀ x ∉ vars, x < tmp ∨ tmp + 4096 ≤ x → m3 x = k.mem x) ∧
      (∀ j b, (cString (copiedByte k.mem task.pageDirectory virt tmp) 0 (max - 1) ++ [0])[j]? = some b →
        m3 (tmp + j) = b) ∧
      directoryEntry m2 k.kernelChunk = directoryEntry k.mem k.kernelChunk := by
  have hbounds := tmp_bounds hok hmax halloc h0
  have hout := tmp_out hok hmax halloc h0
  have hnew : SameBut tmp k.mem s1.mem := by
    obtain ⟨mem, rfl, -, -, hfill⟩ := of_kzalloc_ok halloc
    intro x hx
    show mem x = k.mem x
    rw [hfill h0, memset_apply, if_neg (by omega)]
  have hlow : kernelBlocks * 4096 ≤ tmp := by
    have z1 : FramesSys kernelBlocks systemBlocks True k.live k.toSys s1 ∧ _ := kzalloc_spec (fun _ => .inr h0) halloc
    obtain ⟨hok1, -, -⟩ := z1.1 hok (List.Subset.refl _)
    exact (hok1.bounds (z1.2 hok h0 ▸ List.mem_cons_self ..)).2.2.1
  have hlive : ∀ a ∈ k.live, ∀ x, a.Covers x → s1.mem x = k.mem x := fun a ha x hx => hnew x (hout a ha x hx)
  obtain ⟨hspace1, -, hentries⟩ := hspace.congr (List.Subset.refl k.live) hlive
  obtain ⟨hpresent1, -⟩ := hpresent.congr hspace hlive
  obtain ⟨hkspace1, -⟩ := hkspace.congr (List.Subset.refl k.live) hlive
  obtain ⟨hkdir, -, -⟩ := hkspace.same fun a ha _ => hlive a ha
  have hbyte := fun i (hi : i < max) => copiedByte_congr hspace hout hnew ⟨hbounds.1, by omega⟩
    (show virt + i < 2 ^ 32 by omega) (hno i hi).1
  -- while the string is read
  obtain ⟨A, hA⟩ : ∃ A, entryAddr s1.mem (directoryEntry s1.mem task.pageDirectory) tmp = A := ⟨_, rfl⟩
  obtain ⟨m1, hm1⟩ : ∃ m1, meanwhile.reading (setUint32 s1.mem A (BitVec.ofNat 32 tmp ||| writeableFlags)) = m1 :=
    ⟨_, rfl⟩
  have hreading : ∀ x ∉ vars, m1 x = setUint32 s1.mem A (BitVec.ofNat 32 tmp ||| writeableFlags) x :=
    fun x hx => hm1 ▸ (hmeanwhile _ x hx).1
  have hin := string_read hspace1 hpresent1 hout hbounds.1 hbounds.2.2 h1 hmax hvirt
    (by rw [hentries _ (by omega)]; exact hself) (hA ▸ hreading) (fun a ha x hx => not_vars hok hvars ha hx)
    fun i hi => by rw [(hbyte i hi).1]; exact hno i hi
  rw [cString_congr fun i _ hi => (hbyte i (by omega)).2] at hin
  have hlen := length_cString (copiedByte k.mem task.pageDirectory virt tmp) (max - 1) 0
  generalize cString (copiedByte k.mem task.pageDirectory virt tmp) 0 (max - 1) = l at hin hlen ⊢
  have hstored : ∀ x, x < tmp ∨ tmp + 4096 ≤ x → store m1 tmp (l ++ [0]) x = m1 x :=
    fun x hx => store_of_out (by rw [List.length_append, List.length_singleton]; omega)
  have hkept1 : ∀ a ∈ k.live, ∀ x, a.Covers x →
      store m1 tmp (l ++ [0]) x = setUint32 s1.mem A (BitVec.ofNat 32 tmp ||| writeableFlags) x := fun a ha x hx => by
    rw [hstored x (hout a ha x hx), hreading x (not_vars hok hvars ha hx)]
  -- and while it is read back
  obtain ⟨m2, hm2⟩ : ∃ m2, meanwhile.back (store m1 tmp (l ++ [0])) = m2 := ⟨_, rfl⟩
  have hread : ∀ x ∉ vars, m2 x = store m1 tmp (l ++ [0]) x := fun x hx => hm2 ▸ (hmeanwhile _ x hx).2.1
  have hkept2 : ∀ a ∈ k.live, ∀ x, a.Covers x →
      m2 x = setUint32 s1.mem A (BitVec.ofNat 32 tmp ||| writeableFlags) x := fun a ha x hx => by
    rw [hread x (not_vars hok hvars ha hx), hkept1 a ha x hx]
  obtain ⟨-, -, hdir, htables, -⟩ := mapped_space hspace1 hpresent1 hbounds.1 (by omega) (hA ▸ hkept2)
  have hback := pagingSet_back hbounds.1 hdir (htables (tmp / 4096 / 1024) (by omega))
  rw [hA, ← hm2] at hback
  refine ⟨_, _, ?_, hback, fun x hv hx => ?_, fun j b hj => ?_, ?_⟩
  · rw [pagingSet_eq _ _ hbounds.1, show tableAddr _ _ _ + _ = A from hA, hm1]
    exact hin
  · rw [setUint32_uint32At]
    split
    · exact hnew x hx
    · rename_i hx'
      rw [hm2, hread x hv, hstored x hx, hreading x hv, setUint32_apply _ _ (by omega)]
      exact hnew x hx
  · have hj' : j < (l ++ [0]).length := (List.getElem?_eq_some_iff.1 hj).1
    rw [List.length_append, List.length_singleton] at hj'
    rw [setUint32_uint32At, if_neg fun hx => ?_]
    · rw [hm2, hread _ fun hv => ?_]
      · exact store_at hj
      · have hlt := hvars _ hv
        omega
    · rw [← hA] at hx
      have hx' := hout _ (hspace1.live _ (table_mem (by omega))) _ (entry_covers hspace1 (by omega) hx.1 hx.2)
      omega
  · exact (chunk_kept hspace1 hpresent1 hkspace1 (by omega) (hA ▸ hkept1)).trans hkdir

/-- Without the buffer in memory the bytes given are the same. -/
theorem copyStringFromTask_bytes (hok : TablesOk k.toSys) (hspace : IsSpace k.mem k.live task.pageDirectory)
    (hpresent : Present k.mem task.pageDirectory) (hkspace : IsSpace k.mem k.live k.kernelChunk) (h1 : 1 ≤ max)
    (hmax : max ≤ 4096) (hvirt : virt + max ≤ 2 ^ 32) (halloc : kzalloc env max k.toSys = .ok (tmp, s1)) (h0 : tmp ≠ 0)
    (hself : frameOf (pageEntry k.mem task.pageDirectory (tmp / 4096)) = tmp)
    (hno : ∀ i < max, stringAddr k.mem task.pageDirectory virt i / 4096 ≠ tmp / 4096) {r : Int × List Byte}
    {k' : Kernel} (h : copyStringFromTask env task virt max k = .ok (r, k')) :
    r = (1, cString (copiedByte k.mem task.pageDirectory virt tmp) 0 (max - 1) ++ [0]) := by
  obtain ⟨m2, m3, hin, hback, -, hstored, -⟩ :=
    copy_in hok hspace hpresent hkspace h1 hmax hvirt halloc h0 hself nothing_in
    (fun x hx => absurd hx (Set.notMem_empty x)) fun i hi => ⟨hno i hi, Set.notMem_empty _⟩
  obtain ⟨tmp', s1', halloc', hrest⟩ := of_copyStringFromTask_ok hok hmax h
  rw [halloc] at halloc'
  cases halloc'
  rcases hrest with ⟨h0', -⟩ | ⟨-, m2', m3', hin', rfl, rfl, -⟩
  · exact absurd h0' h0
  · obtain rfl : m2 = m2' := Except.ok.inj (hin.symm.trans hin')
    have hback : pagingSet m2 _ tmp _ = (1, m3) := hback
    rw [hback]
    have hread := strncpyFrom_eq m3 tmp (max - 1) 0
    rw [cString_stored (max - 1) fun j b hj => by rw [Nat.zero_add]; exact hstored j b hj] at hread
    exact congrArg (Prod.mk 1) hread

/-- A copy gives 1, leaves the string and its NUL in the buffer and every address space as it was, and comes
back with the kernel's directory loaded. -/
theorem copyStringFromTaskTo_ok {meanwhile : Meanwhile} {vars : Set Nat} (hok : TablesOk k.toSys)
    (hspace : IsSpace k.mem k.live task.pageDirectory) (hpresent : Present k.mem task.pageDirectory)
    (hkspace : IsSpace k.mem k.live k.kernelChunk)
    (hkmap : HasMap k.mem k.kernelChunk kernelMap) (h1 : 1 ≤ max) (hmax : max ≤ 4096) (hvirt : virt + max ≤ 2 ^ 32)
    (halloc : kzalloc env max k.toSys = .ok (tmp, s1)) (h0 : tmp ≠ 0)
    (hself : frameOf (pageEntry k.mem task.pageDirectory (tmp / 4096)) = tmp)
    (hmeanwhile : meanwhile.In vars) (hvars : ∀ x ∈ vars, x < kernelBlocks * 4096)
    (hno : ∀ i < max, stringAddr k.mem task.pageDirectory virt i / 4096 ≠ tmp / 4096 ∧
      stringAddr k.mem task.pageDirectory virt i ∉ vars) (hbuf : IsBuffer k.live phys max) (hapart : phys + max ≤ tmp ∨
      tmp + 4096 ≤ phys) (hphys : ∀ j < max, phys + j ∉ vars) :
    ∃ k', copyStringFromTaskTo env meanwhile task virt phys max k = .ok (1, k') ∧
      (∀ j b, (cString (copiedByte k.mem task.pageDirectory virt tmp) 0 (max - 1) ++ [0])[j]? = some b →
        k'.mem (phys + j) = b) ∧
      (∀ a ∈ k.live, a.owner = .pmm → ∀ x, a.Covers x → k'.mem x = k.mem x) ∧
      k'.currentDirectory = directoryEntry k.mem k.kernelChunk ∧ k'.kernelChunk = k.kernelChunk := by
  have hbounds := tmp_bounds hok hmax halloc h0
  have hout := tmp_out hok hmax halloc h0
  obtain ⟨m2, m3, hin, hback, hsame, hstored, hdir2⟩ :=
    copy_in hok hspace hpresent hkspace h1 hmax hvirt halloc h0 hself hmeanwhile hvars hno
  have hlive : ∀ a ∈ k.live, ∀ x, a.Covers x → m3 x = k.mem x :=
    fun a ha x hx => hsame x (not_vars hok hvars ha hx) (hout a ha x hx)
  obtain ⟨hkspace3, hkdir, -⟩ := hkspace.congr (List.Subset.refl k.live) hlive
  have hkmap3 : HasMap m3 k.kernelChunk kernelMap :=
    hkmap.keep hkspace (List.Subset.refl k.live) fun a ha _ => hlive a ha
  have hdir3 : directoryEntry m3 k.kernelChunk = directoryEntry k.mem k.kernelChunk :=
    ((hkmap.present kernelMap_supervisor).congr hkspace hlive).2
  have hnoTable : ∀ a ∈ k.live.filter fun a => a.owner = .pmm, ∀ x, a.Covers x → x < phys ∨ phys + max ≤ x := by
    intro a ha
    obtain ⟨ha, howner⟩ := List.mem_filter.1 ha
    exact hbuf.noTable a ha (by simpa using howner)
  have htmp : tmp + max ≤ 2 ^ 32 := by omega
  have hcopied := strncpy_out hkspace3.blocks hkmap3 hnoTable hbuf.fits htmp (by omega) h1
  rw [hdir3, ← hdir2] at hcopied
  have hstring : cString (fun i => m3 (tmp + i)) 0 (max - 1) =
    cString (copiedByte k.mem task.pageDirectory virt tmp) 0 (max - 1) :=
    cString_stored (max - 1) fun j b hj => by rw [Nat.zero_add]; exact hstored j b hj
  rw [hstring] at hcopied
  have hlen := length_cString (copiedByte k.mem task.pageDirectory virt tmp) (max - 1) 0
  have hreturning : ∀ mem, ∀ x ∉ vars, meanwhile.returning mem x = mem x := fun mem x hx => (hmeanwhile mem x hx).2.2
  refine ⟨_, copyStringFromTaskTo_of hmax halloc h0 hbounds.1 hin hback hcopied, fun j b hj => ?_,
    fun a ha howner x hx => ?_, hdir2, rfl⟩
  · have hj' : j < _ := (List.getElem?_eq_some_iff.1 hj).1
    rw [List.length_append, List.length_singleton] at hj'
    exact (hreturning _ _ (hphys j (by omega))).trans (store_at hj)
  · have hx' := hbuf.noTable a ha howner x hx
    refine (hreturning _ x (not_vars hok hvars ha hx)).trans ((store_of_out ?_).trans (hlive a ha x hx))
    rw [List.length_append, List.length_singleton]
    omega

end

/-! ## Every task -/

/-- In every state reached, or with the registers of a task saved on top, a copy from any task gives 1, leaves in
the buffer the string as the task's directory takes it, with a NUL, leaves the directory and its tables byte for
byte as they were, and comes back with the kernel's directory loaded. The byte where the entry of the page is may
not be in the string, nor what the call changes of the kernel's own variables and stack, whatever it does to them. -/
theorem copied_string_faithful {env : Env} (hfill : FillsBelow env kernelBlocks) {meanwhile : Meanwhile}
    {vars : Set Nat} (hmeanwhile : meanwhile.In vars) (hvars : ∀ x ∈ vars, x < kernelBlocks * 4096) {k0 k : Kernel}
    (hreach : Reachable env k0)
    (hk : Kept Eq k0 k) {t : Nat} {task : Task} (ht : k.tasks t = some task) {virt phys max tmp : Nat} {s1 : Sys}
    (h1 : 1 ≤ max) (hmax : max ≤ 4096) (hvirt : virt + max ≤ 2 ^ 32) (halloc : kzalloc env max k.toSys = .ok (tmp, s1))
    (h0 : tmp ≠ 0)
    (hself : translate k.mem (directoryEntry k.mem task.pageDirectory) supervisor tmp = some tmp)
    (hno : ∀ i < max, ∀ addr, translate k.mem (directoryEntry k.mem task.pageDirectory) supervisor (virt + i) =
      some addr →
      addr / 4096 ≠ tmp / 4096 ∧ addr ≠ entryAddr k.mem (directoryEntry k.mem task.pageDirectory) tmp ∧ addr ∉ vars)
    (hbuf : IsBuffer k.live phys max) (hapart : phys + max ≤ tmp ∨ tmp + 4096 ≤ phys)
    (hphys : ∀ j < max, phys + j ∉ vars) :
    ∃ k', copyStringFromTaskTo env meanwhile task virt phys max k = .ok (1, k') ∧
      (∃ c : Nat → Byte, (∀ i < max, load k.mem (directoryEntry k.mem task.pageDirectory) supervisor (virt + i) =
        .ok (c i)) ∧
        ∀ j b, (cString c 0 (max - 1) ++ [0])[j]? = some b → k'.mem (phys + j) = b) ∧
      directoryEntry k'.mem task.pageDirectory = directoryEntry k.mem task.pageDirectory ∧
      (∀ b ∈ spaceBlocks k.mem task.pageDirectory, ∀ x, (Live.block b).Covers x → k'.mem x = k.mem x) ∧
      k'.currentDirectory = directoryEntry k'.mem k'.kernelChunk := by
  have hi0 := reachable_inv hfill hreach
  have hkeeps : KeepsSpaces k0 k := keepsSpaces_of_same hi0.ok hk
  have hi := hi0.keep hkeeps
  have hm := (reachable_mapped hfill hreach).keep hi0 hkeeps
  obtain ⟨p, -, hmap⟩ := hm.tasks t task ht
  obtain ⟨p', -, ho⟩ := hi.owns t task ht
  have hpresent := hmap.present fun q => processMap_and (by decide)
  have hbounds := tmp_bounds hi.ok hmax halloc h0
  have hstring : ∀ i < max, translate k.mem (directoryEntry k.mem task.pageDirectory) supervisor (virt + i) =
      some (stringAddr k.mem task.pageDirectory virt i) := fun i hi => hpresent.translate_at (by omega)
  have hframe : frameOf (pageEntry k.mem task.pageDirectory (tmp / 4096)) = tmp := by
    rw [hpresent.translate_at (by omega)] at hself
    have hself := Option.some.inj hself
    omega
  obtain ⟨k', hrun, hbytes, hpmm, hcurrent, hchunk⟩ :=
    copyStringFromTaskTo_ok hi.ok ho.space hpresent hi.kernelSpace hm.kernel h1 hmax
    hvirt halloc h0 hframe hmeanwhile hvars
    (fun i hi => ⟨(hno i hi _ (hstring i hi)).1, (hno i hi _ (hstring i hi)).2.2⟩) hbuf hapart hphys
  -- mapping the page changes the low byte of its entry only
  have hcopied : ∀ i < max, copiedByte k.mem task.pageDirectory virt tmp i =
    k.mem (stringAddr k.mem task.pageDirectory virt i) := by
    intro i hi
    have hentry : uint32At k.mem (entryAddr k.mem (directoryEntry k.mem task.pageDirectory) tmp) =
        processMap p identityMap (tmp / 4096) := hmap.entries _ (by omega)
    have hlow := and_self_entry hbounds.1 (by omega) (hmap.entries (tmp / 4096) (by omega) ▸ hframe)
    unfold copiedByte
    rw [setUint32_low _ hlow.symm (hno i hi _ (hstring i hi)).2.1, ← hentry, setUint32_uint32At, ite_self]
  refine ⟨k', hrun, ⟨fun i => k.mem (stringAddr k.mem task.pageDirectory virt i), fun i hi => ?_,
    fun j b hj => hbytes j b ?_⟩, (ho.space.same hpmm).1, fun b hb => hpmm _ (ho.space.live b hb) rfl, ?_⟩
  · unfold load
    rw [hstring i hi]
  · rwa [cString_congr fun i _ hi => hcopied i (by omega)]
  · rw [hchunk, (hi.kernelSpace.same hpmm).1]
    exact hcurrent

theorem smallDisk_copies : ∃ k t task p tmp s1, Reachable smallDisk k ∧ k.tasks t = some task ∧ p.image ∈ k.live ∧
    p.size.toNat = 0x1000 ∧ HasMap k.mem task.pageDirectory (processMap p identityMap) ∧
    kzalloc smallDisk 2 k.toSys = .ok (tmp, s1) ∧ tmp ≠ 0 ∧ 25000 * 4096 ≤ tmp ∧
    translate k.mem (directoryEntry k.mem task.pageDirectory) supervisor tmp = some tmp ∧
    IsBuffer k.live (bootStack - 512) 2 := by
  obtain ⟨k, process, k', slot, ptr, stack, task, chunk, s1, s2, s3, s4, s5, k5, hstart, hstarted, hload, h, hroom⟩ :=
    oneProgram_smallDisk.loaded
  obtain ⟨-, ⟨t, ht, rfl, -⟩, -, -, hmap, hflags⟩ := h.maps hstarted.ok
  have hreach : Reachable smallDisk k' := .step (.start hstart) (.load _ _ hload)
  have hok : TablesOk k'.toSys := (reachable_inv (noFill_smallDisk.below _) hreach).ok
  have howned : FramesSys kernelBlocks systemBlocks False k.live k.toSys k'.toSys ∧ _ := h.owned False.elim hstarted.ok
  obtain ⟨-, -, -, -, howned⟩ := howned
  have himage := (howned t rfl).image
  obtain ⟨tmp, u, e, h0, hfresh, hlive⟩ :=
    (fresh_start hok hroom (List.nil_subset _)).kzallocPage (n := 0) (m := 2) smallDisk (by decide)
  have hbounds : tmp % 4096 = 0 ∧ tmp ≠ 0 ∧ 25000 * 4096 ≤ tmp ∧ tmp + blockCount 2 * 4096 ≤ 250000 * 4096 ∧ _ :=
    hfresh.ok.bounds (hlive ▸ List.mem_cons_self ..)
  have hpages : pages smallItem.filesize.toNat = 1 := by decide
  refine ⟨k', task, t, _, tmp, u, hreach, ht, himage, rfl, ⟨hmap, hflags⟩, e, h0, hbounds.2.2.1, ?_, by decide,
    fun a ha _ x hx => ?_⟩
  · exact translate_out hmap hflags (by omega) (.inr (by show 1024 + pages smallItem.filesize.toNat ≤ _; omega))
  · have ha' := hok.bounds ha
    have hle := ((Live.covers_iff ha'.1).1 hx).1
    have hlow : bootStack - 512 + 2 ≤ kernelBlocks * pmmBlockSize := by decide
    omega

/-- `paging_switch` keeps the loaded directory in `current_directory`. -/
def Meanwhile.switches (currentDirectory : Nat) (taskDirectory kernelDirectory : BitVec 32) : Meanwhile :=
  ⟨fun mem => setUint32 mem currentDirectory taskDirectory,
    fun mem => setUint32 mem currentDirectory kernelDirectory, id⟩

theorem switches_in (currentDirectory : Nat) (taskDirectory kernelDirectory : BitVec 32) :
    (Meanwhile.switches currentDirectory taskDirectory kernelDirectory).In
      {x | currentDirectory ≤ x ∧ x < currentDirectory + 4} := by
  intro mem x hx
  have hx : ¬ (currentDirectory ≤ x ∧ x < currentDirectory + 4) := hx
  exact ⟨setUint32_apply _ _ (by omega), setUint32_apply _ _ (by omega), rfl⟩

/-- The first byte of the program is copied. -/
theorem copied_string_faithful_program : ∃ k task k',
    copyStringFromTaskTo smallDisk (.switches 0x101000 (BitVec.ofNat 32 (directoryEntry k.mem task.pageDirectory))
      (BitVec.ofNat 32 (directoryEntry k.mem k.kernelChunk))) task programVirtualAddress (bootStack - 512) 2 k =
      .ok (1, k') ∧
    (∃ c : Nat → Byte, (∀ i < 2,
      load k.mem (directoryEntry k.mem task.pageDirectory) supervisor (programVirtualAddress + i) = .ok (c i)) ∧
      ∀ j b, (cString c 0 1 ++ [0])[j]? = some b → k'.mem (bootStack - 512 + j) = b) := by
  obtain ⟨k, t, task, p, tmp, s1, hreach, ht, himage, hsize, hmap, e, h0, hlow, hself, hbuf⟩ := smallDisk_copies
  have hfill : FillsBelow smallDisk kernelBlocks := noFill_smallDisk.below _
  have hi := reachable_inv hfill hreach
  obtain ⟨p', -, ho⟩ := hi.owns t task ht
  have hbounds := tmp_bounds hi.ok (by decide) e h0
  have hout := tmp_out hi.ok (by decide) e h0
  have hok : TablesOk k.toSys := hi.ok
  have bimage : p.ptr % 4096 = 0 ∧ p.ptr ≠ 0 ∧ 25000 * 4096 ≤ p.ptr ∧
    p.ptr + blockCount p.size.toNat * 4096 ≤ 250000 * 4096 ∧ _ :=
    hok.bounds himage
  -- the string is in the image
  have hno : ∀ i < 2, ∀ addr, translate k.mem (directoryEntry k.mem task.pageDirectory) supervisor
    (programVirtualAddress + i) = some addr →
      addr / 4096 ≠ tmp / 4096 ∧ addr ≠ entryAddr k.mem (directoryEntry k.mem task.pageDirectory) tmp ∧
        addr ∉ {x | 0x101000 ≤ x ∧ x < 0x101000 + 4} := by
    intro i hi' addr haddr
    have hpages := pages_le_blockCount p.size.toNat
    have hvirt : programVirtualAddress + i < 2 ^ 32 := by
      unfold programVirtualAddress
      omega
    rw [translate_processMap hmap.entries hmap.flags (by decide) hvirt,
      processMap_image bimage.1 (by omega) (lt_pages (by omega))] at haddr
    obtain rfl := Option.some.inj haddr
    have hcovers : p.image.Covers (p.ptr + i) :=
      covers_of_fill bimage.1 (Nat.le_add_right ..) (Nat.add_lt_add_left (show i < p.size.toNat by omega) _)
    have hne := hout _ himage _ hcovers
    refine ⟨by omega, fun he => ?_, fun hin => absurd hin.2 (by omega)⟩
    have htable : table k.mem task.pageDirectory (tmp / 4096 / 1024) ∈ spaceBlocks k.mem task.pageDirectory :=
      table_mem (by omega)
    refine space_apart hi ho.space himage rfl hcovers _ htable ((block_covers (ho.space.aligned _ htable)).2 ?_)
    rw [he]
    unfold entryAddr table
    omega
  have hvirt : programVirtualAddress + 2 ≤ 2 ^ 32 := by decide
  have hvars : ∀ x ∈ {x | 0x101000 ≤ x ∧ x < 0x101000 + 4}, x < kernelBlocks * 4096 :=
    fun x hx => Nat.lt_of_lt_of_le hx.2 (by decide)
  have hphys : ∀ j < 2, bootStack - 512 + j ∉ {x | 0x101000 ≤ x ∧ x < 0x101000 + 4} :=
    fun j _ hin => absurd (Nat.lt_of_le_of_lt (Nat.le_add_right ..) hin.2) (by decide)
  obtain ⟨k', hrun, hbytes, -⟩ := copied_string_faithful hfill (switches_in 0x101000 _ _) hvars hreach
    (Std.Refl.refl k) ht
    (by decide) (by decide) hvirt e h0 hself hno hbuf (.inl (Nat.le_trans (by decide) hlow)) hphys
  exact ⟨k, task, k', hrun, hbytes⟩

theorem byte_of_uint32At {m : Mem} {a : Nat} {c : Byte} (h : uint32At m a &&& 0xff#32 = c.setWidth 32) : m a = c := by
  have hlow : c = (c.setWidth 32).setWidth 8 := by simp
  have hword := setUint32_uint32At m m a a
  rw [ite_self] at hword
  unfold setUint32 at hword
  rw [if_pos rfl] at hword
  rw [hlow, ← h, ← hword]
  refine BitVec.eq_of_toNat_eq ?_
  rw [BitVec.extractLsb'_toNat, Nat.shiftRight_zero, BitVec.toNat_setWidth, BitVec.toNat_and]
  have hmask : (uint32At m a).toNat &&& (0xff#32).toNat = (uint32At m a).toNat % 2 ^ 8 :=
    Nat.and_two_pow_sub_one_eq_mod _ 8
  rw [hmask, Nat.mod_mod]

/-- The string whose first byte is the low byte of the entry of the page: the byte is 5, and 7 is copied. -/
theorem copied_entry_changed : ∃ k t task virt tmp s1 k', Reachable smallDisk k ∧ k.tasks t = some task ∧
    virt + 2 ≤ 2 ^ 32 ∧
    KeepsEntryPath k.mem (directoryEntry k.mem task.pageDirectory) ∧
    kzalloc smallDisk 2 k.toSys = .ok (tmp, s1) ∧ tmp ≠ 0 ∧
    translate k.mem (directoryEntry k.mem task.pageDirectory) supervisor tmp = some tmp ∧
    (∀ i < 2, ∀ addr, translate k.mem (directoryEntry k.mem task.pageDirectory) supervisor (virt + i) = some addr →
      addr / 4096 ≠ tmp / 4096) ∧
    IsBuffer k.live (bootStack - 512) 2 ∧ bootStack - 512 + 2 ≤ tmp ∧
    copyStringFromTaskTo smallDisk .nothing task virt (bootStack - 512) 2 k = .ok (1, k') ∧
    load k.mem (directoryEntry k.mem task.pageDirectory) supervisor virt = .ok 5 ∧ k'.mem (bootStack - 512) = 7 := by
  obtain ⟨k, t, task, p, tmp, s1, hreach, ht, himage, hsize, hmap, e, h0, hlow, hself, hbuf⟩ := smallDisk_copies
  have hfill : FillsBelow smallDisk kernelBlocks := noFill_smallDisk.below _
  have hi := reachable_inv hfill hreach
  obtain ⟨p', -, ho⟩ := hi.owns t task ht
  have hok : TablesOk k.toSys := hi.ok
  have hbounds := tmp_bounds hi.ok (by decide) e h0
  have hpresent := hmap.present fun q => processMap_and (by decide)
  have hpages : pages p.size.toNat = 1 := by rw [hsize]; rfl
  -- the table of the entry is in memory the directory takes to itself
  have htable : table k.mem task.pageDirectory (tmp / 4096 / 1024) ∈ spaceBlocks k.mem task.pageDirectory :=
    table_mem (by omega)
  have hlive := ho.space.live _ htable
  obtain ⟨b, hb⟩ : ∃ b, table k.mem task.pageDirectory (tmp / 4096 / 1024) = b := ⟨_, rfl⟩
  rw [hb] at hlive
  have hcount : blockCount pmmBlockSize = 1 := by decide
  have btable : b % 4096 = 0 ∧ b ≠ 0 ∧ 25000 * 4096 ≤ b ∧ b + blockCount pmmBlockSize * 4096 ≤ 250000 * 4096 ∧ _ :=
    hok.bounds hlive
  obtain ⟨halign, -, hlow', hend, -⟩ := btable
  rw [hcount] at hend
  obtain ⟨A, hA⟩ : ∃ A, entryAddr k.mem (directoryEntry k.mem task.pageDirectory) tmp = A := ⟨_, rfl⟩
  have hA' : b + 4 * (tmp / 4096 % 1024) = A := by
    rw [← hA, ← hb]
    rfl
  have hcovers : ∀ i < 2, (Live.block b).Covers (A + i) := fun i hi => (block_covers halign).2 ⟨by omega, by omega⟩
  have hself' : ∀ i < 2, translate k.mem (directoryEntry k.mem task.pageDirectory) supervisor (A + i) = some (A + i) :=
    fun i hi => translate_out hmap.entries hmap.flags (by omega) (.inr (by omega))
  have hstring : ∀ i < 2, stringAddr k.mem task.pageDirectory A i = A + i := by
    intro i hi
    have haddr := hself' i hi
    rw [hpresent.translate_at (by omega)] at haddr
    exact Option.some.inj haddr
  have hout : ∀ i < 2, (A + i) / 4096 ≠ tmp / 4096 := by
    intro i hi
    have hne := tmp_out hok (by decide) e h0 _ hlive _ (hcovers i hi)
    omega
  have hframe : frameOf (pageEntry k.mem task.pageDirectory (tmp / 4096)) = tmp := by
    rw [hpresent.translate_at (by omega)] at hself
    have hself := Option.some.inj hself
    omega
  have hentry : uint32At k.mem A = BitVec.ofNat 32 (tmp / 4096 * 4096) ||| taskFlags.setWidth 32 := by
    rw [← hA]
    exact (hmap.entries _ (by omega)).trans (processMap_of_out (.inr (by omega)))
  have hread : k.mem A = 5 := by
    refine byte_of_uint32At ?_
    rw [hentry, and_entry _ (by decide)]
    rfl
  have hcopied : copiedByte k.mem task.pageDirectory A tmp 0 = 7 := by
    have hpage : tmp / 4096 * 4096 = tmp := by omega
    unfold copiedByte
    rw [hstring 0 (by omega), Nat.add_zero, hA, ← hpage]
    refine byte_of_uint32At ?_
    rw [uint32At_setUint32, and_entry _ (by decide)]
    rfl
  obtain ⟨k', hrun, hbytes, -⟩ := copyStringFromTaskTo_ok hok ho.space hpresent hi.kernelSpace
    (reachable_mapped hfill hreach).kernel
    (by decide) (by decide) (show A + 2 ≤ 2 ^ 32 by omega) e h0 hframe nothing_in
      (fun x hx => absurd hx (Set.notMem_empty x))
    (fun i hi => ⟨by rw [hstring i hi]; exact hout i hi, Set.notMem_empty _⟩) hbuf
      (.inl (Nat.le_trans (by decide) hlow))
    fun j _ => Set.notMem_empty _
  refine ⟨k, t, task, A, tmp, s1, k', hreach, ht, by omega, ?_, e, h0, hself, fun i hi addr haddr => ?_, hbuf,
    Nat.le_trans (by decide) hlow, hrun, ?_, hbytes 0 7 ?_⟩
  · have bimage : p.ptr % 4096 = 0 ∧ p.ptr ≠ 0 ∧ 25000 * 4096 ≤ p.ptr ∧
      p.ptr + blockCount p.size.toNat * 4096 ≤ 250000 * 4096 ∧ _ :=
      hok.bounds himage
    have hcount := pages_le_blockCount p.size.toNat
    exact (keepsEntryPath_iff hmap.entries hmap.flags bimage.2.2.1 (by omega)).2 (by omega)
  · rw [hself' i hi] at haddr
    obtain rfl := Option.some.inj haddr
    exact hout i hi
  · unfold load
    rw [show translate _ _ _ A = _ from hself' 0 (by omega), Nat.add_zero]
    exact congrArg Except.ok hread
  · rw [cString_succ, hcopied]
    rfl

end SimpleMicrokernel.Tasking
