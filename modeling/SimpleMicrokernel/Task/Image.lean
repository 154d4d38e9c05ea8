/-
The image of a loaded program is its file: the byte at a virtual address of the image, read through the
new task's directory, is the disk's byte in the cluster the walk gives for that offset. What is
allocated after the image was read leaves it alone, and the pages of the image are mapped one by one.
-/
import SimpleMicrokernel.Fat16.Contents
import SimpleMicrokernel.Fs.Keeps
import SimpleMicrokernel.Kernel.Table

namespace SimpleMicrokernel.Tasking

open Memory Disk Fs Fat16 Paging

/-! ## The bytes read -/

section
variable {env : Env} {s s' : Sys}

/-- A read of a whole file from its beginning, in one item, leaves the bytes of its clusters. -/
theorem fread_image {fd : Fin maxFileDescriptors} {item : Fat16DirectoryItem} {ptr n : Nat} {res : Int}
    (h : HoldsFile s fd item 0) (hfd : 1 ≤ fd.val) (hn : 1 ≤ n) (hlt : n < 2 ^ 31)
    (hread : fread env ptr n 1 fd.val s = .ok (res, s')) (hres : 0 < res) :
    0 < sizeOfClusterInBytes s.fat16Private ∧
    ∀ i < n, ∃ cl, clusterForOffset env s.fat16Private (fat16GetFirstCluster item) i = .ok cl ∧
      0 ≤ cl ∧ s'.mem (ptr + i) =
      env.byteAt (clusterPos s.fat16Private cl (i % sizeOfClusterInBytes s.fat16Private : Nat)) := by
  rw [fread_eq env h hfd hn (Nat.le_refl 1), readItems, bind_assoc] at hread
  obtain ⟨r, s1, h1, hread⟩ := Exec.of_bind_ok hread
  have hpos : int32 ((0 : BitVec 32).toNat : Int) = 0 := by decide
  rw [hpos, int32_of_lt (by omega) (by omega)] at h1
  have hreads : Reads (fat16ReadInternalFromStream env .clusterRead (fat16GetFirstCluster item) 0 n ptr) s ptr
      (readFrom env s.fat16Private (fat16GetFirstCluster item) 0 n) :=
    fat16ReadInternalFromStream_reads env .clusterRead _ n ptr s (Int.toNat_natCast n)
  cases hr : readFrom env s.fat16Private (fat16GetFirstCluster item) 0 n with
  | error e =>
    rw [hr] at hreads
    have h1 : fat16ReadInternalFromStream env .clusterRead (fat16GetFirstCluster item) 0 n ptr s = .ok (r, s1) := h1
    rw [show _ = _ from hreads] at h1
    cases h1
  | ok p =>
    obtain ⟨r', w⟩ := p
    rw [hr] at hreads
    obtain ⟨s2, hsame, e⟩ := hreads
    have h1 : fat16ReadInternalFromStream env .clusterRead (fat16GetFirstCluster item) 0 n ptr s = .ok (r, s1) := h1
    rw [e] at h1
    cases h1
    have hr' : readFrom env s.fat16Private (fat16GetFirstCluster item)
        ((0 * sizeOfClusterInBytes s.fat16Private : Nat) : Int) n = .ok (r, w) := by
      rw [Nat.zero_mul]
      exact hr
    by_cases hneg : r < 0
    · -- a read that failed gives -1
      rw [if_pos hneg, pure_bind, if_pos (by decide)] at hread
      obtain ⟨rfl, -⟩ := Exec.of_pure_ok hread
      omega
    · rw [if_neg hneg, readItems, pure_bind, if_neg (by decide)] at hread
      obtain ⟨-, rfl⟩ := Exec.of_pure_ok hread
      have hsize : 0 < sizeOfClusterInBytes s.fat16Private := by
        by_contra h0
        rw [readFrom, if_pos (by omega)] at hr
        cases hr
      refine ⟨hsize, fun i hi => ?_⟩
      obtain ⟨cl, hcl, hpos, hbyte⟩ := readFrom_bytes n hr' (by omega) (by rw [Nat.zero_mul]; omega) i hi
      rw [Nat.zero_mul, Nat.zero_add] at hcl
      refine ⟨cl, hcl, hpos, ?_⟩
      rw [hsame]
      show w.put s.mem ptr (ptr + i) = _
      unfold Written.put
      rw [if_pos (by omega), Nat.add_sub_cancel_left, hbyte]
      rfl

end

/-! ## The pages of the image -/

theorem lt_pages {n i : Nat} (h : i < n) : i < pages n * 4096 := by
  unfold pages
  omega

theorem processMap_image {p : Process} {i : Nat} (halign : p.ptr % 4096 = 0)
    (hend : p.ptr / 4096 + pages p.size.toNat < 2 ^ 20) (hi : i < pages p.size.toNat * 4096) :
    frameOf (processMap p identityMap ((programVirtualAddress + i) / 4096)) +
      (programVirtualAddress + i) % 4096 = p.ptr + i := by
  have hpage : (programVirtualAddress + i) / 4096 = 1024 + i / 4096 := by
    unfold programVirtualAddress
    omega
  have hoffset : (programVirtualAddress + i) % 4096 = i % 4096 := by
    unfold programVirtualAddress
    omega
  have hlt : i / 4096 < pages p.size.toNat := by omega
  rw [hpage, hoffset, processMap_of_image (by omega) (by omega), frameOf_entry (by omega) (by decide)]
  omega

section
variable {env : Env} {k k' k5 : Kernel} {filename : List Byte} {slot : Fin maxProcesses}
    {process ptr stack task chunk : Nat}
  {sz : BitVec 32} {s1 s2 s3 s4 s5 : Sys}

theorem Loaded.sameFiles (h : Loaded env filename slot k k' process ptr stack task chunk sz s1 s2 s3 s4 s5 k5) :
    SameFiles s2 k'.toSys := by
  have h3 := sameFiles_kzalloc env _ _ _ _ h.stackAlloc
  have h4 := sameFiles_kzalloc env _ _ _ _ h.taskAlloc
  have h5 := sameFiles_pagingNew4gb _ _ _ _ h.spaceAlloc
  have hlink := h.link.rest
  have h6 : SameFiles s5 k'.toSys := by
    rw [h.result]
    exact ⟨rfl, rfl, rfl⟩
  exact IsTrans.trans _ _ _ (IsTrans.trans _ _ _ h3 h4) (IsTrans.trans _ _ _ h5 h6)

/-- The image is where its bytes were read to, and its pages are seen through the task's directory. -/
theorem Loaded.image_load (hok0 : TablesOk k.toSys)
    (h : Loaded env filename slot k k' process ptr stack task chunk sz s1 s2 s3 s4 s5 k5) {i : Nat}
    (hi : i < pages sz.toNat * 4096) :
    load k'.mem (directoryEntry k'.mem chunk) userRead (programVirtualAddress + i) = .ok (s2.mem (ptr + i)) := by
  obtain ⟨hok, himage⟩ := h.image hok0
  have hrest : FramesSys kernelBlocks systemBlocks True [⟨ptr, sz.toNat, .kheap⟩] s2 k'.toSys ∧ _ :=
    h.rest (by decide) hok himage (List.cons_subset.2 ⟨himage, List.nil_subset _⟩)
  obtain ⟨f, -, -, -, -, hmap, hflags⟩ := hrest
  obtain ⟨-, -, hmem⟩ := f hok (List.cons_subset.2 ⟨himage, List.nil_subset _⟩)
  have bptr : ptr % 4096 = 0 ∧ ptr ≠ 0 ∧ 25000 * 4096 ≤ ptr ∧ ptr + blockCount sz.toNat * 4096 ≤ 250000 * 4096 ∧ _ :=
    hok.bounds himage
  have hpages := pages_le_blockCount sz.toNat
  have hvirt : programVirtualAddress + i < 2 ^ 32 := by
    unfold programVirtualAddress
    omega
  have himg : frameOf (processMap (newProcess filename slot task ptr stack sz) identityMap
    ((programVirtualAddress + i) / 4096)) +
      (programVirtualAddress + i) % 4096 = ptr + i :=
    processMap_image bptr.1 (by show ptr / 4096 + pages sz.toNat < 2 ^ 20; omega) hi
  unfold load
  rw [translate_processMap hmap hflags (by decide) hvirt, himg]
  have hcovers : (⟨ptr, sz.toNat, .kheap⟩ : Live).Covers (ptr + i) :=
    (Live.covers_iff bptr.1).2 ⟨Nat.le_add_right ..,
      Nat.add_lt_add_left (Nat.lt_of_lt_of_le hi (Nat.mul_le_mul_right _ hpages)) _⟩
  exact congrArg Except.ok (hmem trivial _ (List.mem_singleton_self _) _ hcovers)

end

/-! ## The program -/

/-- The descriptor a program is read through is a new one, at the beginning of the file. -/
theorem BinaryLoaded.holds_start {env : Env} {filename : List Byte} {s s1 s2 s' : Sys} {ptr : Nat}
    {item : Fat16DirectoryItem} {fd : Fin maxFileDescriptors} {pos : BitVec 32} {res : Int}
    (h : BinaryLoaded env filename s ptr item s1 s2 s' fd pos res) :
    HoldsFile s1 fd item 0 := by
  obtain ⟨addr, desc, hdesc, hitem, -⟩ := h.holds
  exact ⟨addr, desc, hdesc, hitem, fopen_pos h.opened hdesc⟩

/-- If a load gives a slot, then the task's image is the file the path was resolved to: the byte at every
offset is the disk's byte in the cluster that `fat16_get_cluster_for_offset` gives for that offset. -/
theorem program_is_file {env : Env} {k k' : Kernel} (hreach : Reachable env k) {filename : List Byte}
    {r : Int × Option Nat} (hload : processLoad env filename k = .ok (r, k')) (hr : 0 ≤ r.1) :
    ∃ process p task s1 s2 item, ∃ fd : Fin maxFileDescriptors, r.2 = some process ∧ k'.procs process = some p ∧
      k'.tasks p.task = some task ∧ kzalloc env sizeofProcess k.toSys = .ok (process, s1) ∧
      fopen env filename [0x72] s1 = .ok ((fd.val : Int), s2) ∧ HoldsFile s2 fd item 0 ∧ p.size = item.filesize ∧
      0 < sizeOfClusterInBytes k'.fat16Private ∧
      ∀ i < item.filesize.toNat, ∃ cl s3, 0 ≤ cl ∧
        fat16GetClusterForOffset env (fat16GetFirstCluster item) i k'.toSys = .ok (cl, s3) ∧
        load k'.mem (directoryEntry k'.mem task.pageDirectory) userRead (programVirtualAddress + i) =
          .ok (env.byteAt (clusterPos k'.fat16Private cl (i % sizeOfClusterInBytes k'.fat16Private : Nat))) := by
  have hok : TablesOk k.toSys := (reachable_agrees hreach).ok
  rcases of_processLoad_ok kernelBlocks systemBlocks False [] False.elim hload with
    ⟨rfl, -⟩ | ⟨slot, process, ptr, stack, task, chunk, sz, s1, s2, s3, s4, s5, k5, rfl, -, h⟩
  · exact absurd hr (by decide)
  obtain ⟨hp, ⟨t, ht, hspace, -⟩, ⟨-, -, hend⟩, -⟩ := h.maps hok
  obtain ⟨item, t1, t2, fd, pos, res, rfl, hb⟩ := of_processLoadBinary_ok h.imageAlloc
  have hslot := hb.slot
  have hholds1 := hb.holds_start
  have hsame := sameFiles_kzalloc env _ _ _ _ hb.allocated
  have hholds2 : HoldsFile t2 fd item 0 := by
    unfold HoldsFile at hholds1 ⊢
    rw [hsame.fileDescriptors]
    exact hholds1
  have hn := hb.nonempty
  have hle : item.filesize.toNat ≤ blockCount item.filesize.toNat * 4096 := (blockCount_bounds _).1
  obtain ⟨hsize, hbytes⟩ := fread_image hholds2 hslot hn (by omega) hb.read hb.positive
  -- the header is the one the file was read with
  have hvolume : k'.fat16Private = { t2.fat16Private with stream := k'.fat16Private.stream } := by
    have hread := (fread_writesIn item.filesize.isLt hb.read).1
    rw [h.sameFiles.fat16Private, hread]
  have hclusters : clusterForOffset env k'.fat16Private = clusterForOffset env t2.fat16Private := by
    rw [hvolume]
    rfl
  have hpos : clusterPos k'.fat16Private = clusterPos t2.fat16Private ∧
      sizeOfClusterInBytes k'.fat16Private = sizeOfClusterInBytes t2.fat16Private := by
    rw [hvolume]
    exact ⟨rfl, rfl⟩
  refine ⟨process, newProcess filename slot task ptr stack item.filesize, t, s1, t1, item, fd, rfl, hp, ht,
    h.processAlloc, hb.opened, hholds1, rfl, ?_, fun i hi => ?_⟩
  · rw [hpos.2]
    exact hsize
  · obtain ⟨cl, hcl, hge, hbyte⟩ := hbytes i hi
    have hwalk := fat16GetClusterForOffset_gives env (fat16GetFirstCluster item) i k'.toSys
    rw [hclusters, hcl] at hwalk
    obtain ⟨s6, -, e⟩ := hwalk
    refine ⟨cl, s6, hge, e, ?_⟩
    rw [hspace, hpos.1, hpos.2, ← hbyte]
    exact h.image_load hok (lt_pages hi)

/-- The first byte of a program, seen through its task's directory. -/
theorem program_first_byte : ∃ k k' process p task item, Reachable programDisk k ∧
    processLoad programDisk (onePart [0x41]) k = .ok ((0, some process), k') ∧ k'.procs process = some p ∧
    k'.tasks p.task = some task ∧ p.size = item.filesize ∧
    ∀ i : Nat, i < item.filesize.toNat → ∃ cl s, 0 ≤ cl ∧
      fat16GetClusterForOffset programDisk (fat16GetFirstCluster item) i k'.toSys = .ok (cl, s) ∧
      load k'.mem (directoryEntry k'.mem task.pageDirectory) userRead (programVirtualAddress + i) =
        .ok (programDisk.byteAt (clusterPos k'.fat16Private cl (i % sizeOfClusterInBytes k'.fat16Private : Nat))) := by
  obtain ⟨k, process, k', -, -, -, hstart, -, hload, -⟩ := program_loads
  have hreach : Reachable programDisk k := .start hstart
  obtain ⟨process', p, task, s1, s2, item, fd, he, hp, ht, -, -, -, hsize, -, hbytes⟩ :=
    program_is_file hreach hload (Int.le_refl 0)
  cases he
  exact ⟨k, k', process, p, task, item, hreach, hload, hp, ht, hsize, hbytes⟩

/-! ## The way into the kernel -/

/-- Where the kernel's image starts, where its boot stack does, and `tss.esp0`. -/
def kernelImage : Nat := 0x100000
def bootStack : Nat := 0x200000
def esp0 : Nat := 0x600000

/-- What an interrupt needs before the kernel's directory is loaded: the kernel's image and boot stack, and
the page its frame is pushed to. -/
def OnEntryPath (virt : Nat) : Prop := (kernelImage ≤ virt ∧ virt < bootStack) ∨
    (esp0 - pagingPageSize ≤ virt ∧ virt < esp0)

/-- The directory takes every address on the way to itself. -/
def KeepsEntryPath (mem : Mem) (directory : Nat) : Prop :=
  ∀ virt, OnEntryPath virt → translate mem directory supervisor virt = some virt

theorem keepsEntryPath_of {mem : Mem} {chunk : Nat} {p : Process}
    (hmap : ∀ q < 2 ^ 20, pageEntry mem chunk q = processMap p identityMap q)
    (hflags : ∀ i < 1024, directoryFlags mem chunk i = 7#32) (hsize : p.size.toNat ≤ 0x1FF000) :
    KeepsEntryPath mem (directoryEntry mem chunk) := by
  have hpages : pages p.size.toNat ≤ 511 := by
    unfold pages
    omega
  intro virt hvirt
  have hlt : virt < 2 ^ 32 ∧ (virt / 4096 < 1019 ∨ 1535 ≤ virt / 4096) := by
    unfold OnEntryPath kernelImage bootStack esp0 pagingPageSize at hvirt
    omega
  exact translate_out hmap hflags hlt.1 (by omega)

/-- A map of a process on top of the identity keeps the way exactly when the image ends below the last page
of the interrupt stack. -/
theorem keepsEntryPath_iff {mem : Mem} {chunk : Nat} {p : Process}
    (hmap : ∀ q < 2 ^ 20, pageEntry mem chunk q = processMap p identityMap q)
    (hflags : ∀ i < 1024, directoryFlags mem chunk i = 7#32) (hlow : 25000 * 4096 ≤ p.ptr)
    (hend : p.ptr / 4096 + pages p.size.toNat < 2 ^ 20) :
    KeepsEntryPath mem (directoryEntry mem chunk) ↔ p.size.toNat ≤ 0x1FF000 := by
  constructor
  · intro h
    by_contra hlong
    have hpages : 512 ≤ pages p.size.toNat := by
      unfold pages
      omega
    -- the image takes the page below `tss.esp0`
    have hpage : esp0 - pagingPageSize = 1535 * 4096 := by decide
    have hin : OnEntryPath (1535 * 4096) := .inr ⟨Nat.le_of_eq hpage, by decide⟩
    have hself := h _ hin
    rw [translate_processMap hmap hflags (by decide) (by decide), Nat.mul_div_cancel _ (by decide), Nat.mul_mod_left,
      processMap_of_image (by decide) (by omega), frameOf_entry (by omega) (by decide)] at hself
    have hself := Option.some.inj hself
    omega
  · exact keepsEntryPath_of hmap hflags

/-- The directory of a new task keeps the way into the kernel exactly when the file that was loaded has at
most `0x1FF000` bytes. -/
theorem entry_path_mapped {env : Env} {k k' : Kernel} (hreach : Reachable env k) {filename : List Byte}
    {r : Int × Option Nat} (hload : processLoad env filename k = .ok (r, k')) (hr : 0 ≤ r.1) :
    ∃ process p task s1 s2 item pos, ∃ fd : Fin maxFileDescriptors, r.2 = some process ∧ k'.procs process = some p ∧
      k'.tasks p.task = some task ∧ kzalloc env sizeofProcess k.toSys = .ok (process, s1) ∧
      fopen env filename [0x72] s1 = .ok ((fd.val : Int), s2) ∧ HoldsFile s2 fd item pos ∧
      (KeepsEntryPath k'.mem (directoryEntry k'.mem task.pageDirectory) ↔ item.filesize.toNat ≤ 0x1FF000) := by
  rcases of_processLoad_ok kernelBlocks systemBlocks False [] False.elim hload with
    ⟨rfl, -⟩ | ⟨slot, process, ptr, stack, task, chunk, sz, s1, s2, s3, s4, s5, k5, rfl, -, h⟩
  · exact absurd hr (by decide)
  obtain ⟨item, t1, t2, fd, pos, res, rfl, hb⟩ := of_processLoadBinary_ok h.imageAlloc
  obtain ⟨hp, ⟨t, ht, rfl, -⟩, ⟨-, hlow, hend⟩, -, hmap, hflags⟩ := h.maps (reachable_agrees hreach).ok
  have hpages := pages_le_blockCount item.filesize.toNat
  exact ⟨process, _, t, s1, t1, item, pos, fd, rfl, hp, ht, h.processAlloc, hb.opened, hb.holds,
    keepsEntryPath_iff hmap hflags hlow (by show ptr / 4096 + pages item.filesize.toNat < 2 ^ 20; omega)⟩

theorem opened_unique {env : Env} {k s1 s2 t1 t2 : Sys} {filename : List Byte} {n process process' : Nat}
    {fd fd' : Fin maxFileDescriptors} {item item' : Fat16DirectoryItem} {pos pos' : BitVec 32}
    (halloc : kzalloc env n k = .ok (process, s1)) (halloc' : kzalloc env n k = .ok (process', t1))
    (hopen : fopen env filename [0x72] s1 = .ok ((fd.val : Int), s2))
    (hopen' : fopen env filename [0x72] t1 = .ok ((fd'.val : Int), t2)) (h : HoldsFile s2 fd item pos)
    (h' : HoldsFile t2 fd' item' pos') : item = item' := by
  obtain rfl : s1 = t1 := congrArg Prod.snd (Except.ok.inj (halloc.symm.trans halloc'))
  have hsame := Except.ok.inj (hopen.symm.trans hopen')
  have hslot : (fd.val : Int) = fd'.val := congrArg Prod.fst hsame
  obtain rfl : fd = fd' := Fin.ext (by exact_mod_cast hslot)
  obtain rfl : s2 = t2 := congrArg Prod.snd hsame
  exact (h.unique h').1

/-- A program of one page is inside the bound. -/
theorem entry_path_mapped_program : ∃ k k' process p task, Reachable smallDisk k ∧
    processLoad smallDisk (onePart [0x41]) k = .ok ((0, some process), k') ∧ k'.procs process = some p ∧
    k'.tasks p.task = some task ∧ KeepsEntryPath k'.mem (directoryEntry k'.mem task.pageDirectory) := by
  obtain ⟨k, process, k', s1, s2, fd, hstart, -, hload, halloc, hopen, hfile, -⟩ :=
    oneProgram_smallDisk.loads fun _ => 0
  have hreach : Reachable smallDisk k := .start hstart
  obtain ⟨process', p, task, t1, t2, item, pos, fd', he, hp, ht, halloc', hopen', hfile', hiff⟩ :=
    entry_path_mapped hreach hload (Int.le_refl 0)
  cases he
  obtain rfl := opened_unique halloc halloc' hopen hopen' hfile hfile'
  exact ⟨k, k', process, p, task, hreach, hload, hp, ht, hiff.2 (by decide)⟩

/-- What is loaded from a disk with one program is this program. -/
theorem OneProgram.loaded {env : Env} {item : Fat16DirectoryItem} (ho : OneProgram env item) :
    ∃ k process k' slot ptr stack task chunk s1 s2 s3 s4 s5 k5, startPaging env (initial fun _ => 0) = .ok (⟨⟩, k) ∧
    Started env 1 k ∧
      processLoad env (onePart [0x41]) k = .ok ((0, some process), k') ∧
      Loaded env (onePart [0x41]) slot k k' process ptr stack task chunk item.filesize s1 s2 s3 s4 s5 k5 ∧
      k'.toSys.Room 1 := by
  obtain ⟨k, process, k', s1, s2, fd, hstart, hstarted, hload, halloc, hopen, hfile, hroom, -⟩ := ho.loads fun _ => 0
  rcases of_processLoad_ok kernelBlocks systemBlocks False [] False.elim hload with
    ⟨he, -⟩ | ⟨slot, process', ptr, stack, task, chunk, sz, t1, t2, t3, t4, t5, k5, he, -, h⟩
  · cases he
  obtain rfl : process = process' := Option.some.inj (congrArg Prod.snd he)
  obtain ⟨item', u1, u2, fd', pos, res, rfl, hb⟩ := of_processLoadBinary_ok h.imageAlloc
  obtain rfl := opened_unique halloc h.processAlloc hopen hb.opened hfile hb.holds
  exact ⟨k, process, k', slot, ptr, stack, task, chunk, t1, t2, t3, t4, t5, k5, hstart, hstarted, hload, h, hroom⟩

/-- A program of `0x200000` bytes is loaded, and its image has the page below `tss.esp0`. -/
theorem entry_path_lost : ∃ k k' process p task, Reachable programDisk k ∧
    processLoad programDisk (onePart [0x41]) k = .ok ((0, some process), k') ∧ k'.procs process = some p ∧
    k'.tasks p.task = some task ∧ ¬ KeepsEntryPath k'.mem (directoryEntry k'.mem task.pageDirectory) := by
  obtain ⟨k, process, k', slot, ptr, stack, task, chunk, s1, s2, s3, s4, s5, k5, hstart, hstarted, hload, h, -⟩ :=
    oneProgram_programDisk.loaded
  obtain ⟨hp, ⟨t, ht, rfl, -⟩, ⟨-, hlow, hend⟩, -, hmap, hflags⟩ := h.maps hstarted.ok
  have hpages := pages_le_blockCount programItem.filesize.toNat
  have hiff := keepsEntryPath_iff hmap hflags hlow
    (by show ptr / 4096 + pages programItem.filesize.toNat < 2 ^ 20; omega)
  exact ⟨k, k', process, _, t, .start hstart, hload, hp, ht, fun hkeep =>
    absurd (hiff.1 hkeep) (by decide : ¬ programItem.filesize.toNat ≤ 0x1FF000)⟩

end SimpleMicrokernel.Tasking
