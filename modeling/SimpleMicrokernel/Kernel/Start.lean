/-
A kernel that starts and loads a program. With the signature and an end marker on the disk the kernel
mounts it and turns paging on; with room for its memory, a program that is alone in the root directory
and whose clusters the table leads to is loaded.
-/
import SimpleMicrokernel.Fs.Found
import SimpleMicrokernel.Kernel.Kernel
import SimpleMicrokernel.Task.Runs

namespace SimpleMicrokernel.Tasking

open Memory Disk Fs Fat16 Paging

section
variable {reserved size n : Nat} {held : List Live} {env : Env} {s0 s s' : Sys} {k : Kernel} {name : List Byte}
  {item : Fat16DirectoryItem} {array : Live}

/-! ## Reading a program -/

theorem fread_whole (env : Env) {fd : Fin maxFileDescriptors} (h : HoldsFile s fd item 0) (hfd : 1 ≤ fd.val) {m : Nat}
    (hm : 1 ≤ m) (hlt : m < 2 ^ 32) (hcluster : 0 < sizeOfClusterInBytes s.fat16Private)
    (hwalk : ∀ o, WalksTo env s.fat16Private (fat16GetFirstCluster item) o) (ptr : Nat) :
    ∃ mem s', fread env ptr m 1 fd.val s = .ok (1, s') ∧ SameButStreams { s with mem := mem } s' := by
  have hbuf : ∀ i < 1, InBuffer (uint32 (itemOffset 0 m i)) m := by
    intro i hi
    obtain rfl : i = 0 := by omega
    rw [itemOffset_zero]
    exact .inl (by decide)
  obtain ⟨s', hsame, e⟩ := readItems_ok env hm hlt 0 ptr s hcluster (fun i _ t _ => hwalk _) hbuf
  refine ⟨_, s', ?_, hsame⟩
  rw [fread_eq env h hfd hm (Nat.le_refl 1)]
  exact (Exec.bind_of_ok e).trans rfl

theorem walksTo_self {fat16Private : Fat16Private} {c : Nat} (hfat : fat env fat16Private c = c)
    (hin : InSector fat16Private c) (hgo : ¬ Stops c) (o : Int) : WalksTo env fat16Private c o := by
  unfold WalksTo clusterOf
  rw [walkResult_eq_walk]
  have hwalk : ∀ i, walk (fat env fat16Private) c i = c := by
    intro i
    induction i with
    | zero => rfl
    | succ i ih => rw [walk_succ, ih, hfat]
  intro i _
  rw [hwalk, hwalk]
  exact ⟨hin, hgo⟩

/-- What a program needs to be loaded under its name. -/
structure Loadable (env : Env) (name : List Byte) (item : Fat16DirectoryItem) (array : Live) (s : Sys) : Prop
    extends OneFile name item array s where
  part : IsPart name
  nonempty : 1 ≤ item.filesize.toNat
  cluster : 0 < sizeOfClusterInBytes s.fat16Private
  walks : ∀ o, WalksTo env s.fat16Private (fat16GetFirstCluster item) o
  slot : ∃ i : Fin maxFileDescriptors, 1 ≤ i.val ∧
    Fin.find? (fun i : Fin maxFileDescriptors => 1 ≤ i.val ∧ (s.fileDescriptors i).isNone) = some i

theorem processLoadBinary_room (h : Fresh reserved size held (n + blockCount item.filesize.toNat + 12) s0 s)
    (hload : Loadable env name item array s0) (harray : array ∈ held) :
    ∃ ptr s' s1, ∃ fd : Fin maxFileDescriptors,
    processLoadBinary env (onePart name) s = .ok (some (ptr, item.filesize), s') ∧
      s'.Room n ∧ fopen env (onePart name) [0x72] s = .ok ((fd.val : Int), s1) ∧ HoldsFile s1 fd item 0 ∧
      s1.Ok reserved size ∧ KeepsEnds s0 s1 := by
  obtain ⟨fd, hfd, hslot⟩ := hload.slot
  obtain ⟨desc, s1, e1, h1, hfile⟩ := h.fopen env hload.part hload.toOneFile harray hslot
  have hpriv1 : s1.fat16Private = s0.fat16Private := h1.files.fat16Private
  have hstat : fstat fd.val s1 = .ok ((1, some ⟨if item.itemAttribute &&& fatFileReadOnly ≠ 0 then
      fileStatReadOnly else 0, item.filesize⟩), s1) := by
    obtain ⟨addr, desc, hdesc, hitem, -⟩ := hfile
    unfold fstat
    rw [Exec.bind_of_ok (fileGetDescriptor_apply hfd), hdesc]
    simp only
    unfold fat16Stat
    rw [hitem]
    simp only
    rw [Exec.bind_of_ok (fileItem_apply hitem s1)]
    rfl
  obtain ⟨ptr, s2, e2, hptr, h2, -⟩ := h1.kzalloc env (m := item.filesize.toNat) (by omega)
  have hfiles2 := sameFiles_kzalloc env _ _ _ _ e2
  have hpriv2 : s2.fat16Private = s0.fat16Private := hfiles2.fat16Private.trans hpriv1
  have hfile2 : HoldsFile s2 fd item 0 := by
    unfold HoldsFile at hfile ⊢
    rw [hfiles2.fileDescriptors]
    exact hfile
  obtain ⟨mem, s3, e3, hsame⟩ := fread_whole env hfile2 hfd hload.nonempty item.filesize.isLt
    (by rw [hpriv2]; exact hload.cluster) (by rw [hpriv2]; exact hload.walks) ptr
  refine ⟨ptr, s3, s1, fd, ?_, ?_, e1, hfile, h1.ok, h1.ends.live, h1.ends.mem⟩
  · unfold processLoadBinary
    rw [Exec.bind_of_ok e1, if_neg (by omega), Exec.bind_of_ok hstat]
    simp only
    rw [if_neg (by decide), Exec.bind_of_ok e2, if_neg hptr, Exec.bind_of_ok e3, if_neg (by decide)]
    rfl
  · have hroom := h2.room
    rw [Nat.add_sub_cancel] at hroom
    have hheap : s3.heap = s2.heap := hsame.heap
    unfold Sys.Room at *
    rw [hheap]
    exact hroom

/-- A program is loaded when there is room for it, a slot, and a descriptor. -/
theorem processLoad_room (hok : k.toSys.Ok reserved size)
    (hroom : k.toSys.Room (n + 1031 + blockCount item.filesize.toNat + 14))
    (hload : Loadable env name item array k.toSys) (harray : array ∈ k.live) {slot : Fin maxProcesses}
    (hslot : processGetFreeSlot k.processes = some slot)
    (htail : k.taskHead ≠ 0 → ∃ tail, k.tasks k.taskTail = some tail) :
    ∃ p k' s1 s2, ∃ fd : Fin maxFileDescriptors,
    processLoad env (onePart name) k = .ok (((slot.val : Int), some p), k') ∧
      kzalloc env sizeofProcess k.toSys = .ok (p, s1) ∧ fopen env (onePart name) [0x72] s1 = .ok ((fd.val : Int), s2) ∧
      HoldsFile s2 fd item 0 ∧ k'.toSys.Room n ∧ s2.Ok reserved size ∧ KeepsEnds k.toSys s2 := by
  have hheld : [array] ⊆ k.live := List.cons_subset.2 ⟨harray, List.nil_subset _⟩
  obtain ⟨p, s1, e1, hp, h1, -⟩ := (fresh_start hok hroom hheld).kzalloc env (m := sizeofProcess) (by
    rw [show blockCount sizeofProcess = 2 by decide]
    omega)
  rw [show blockCount sizeofProcess = 2 by decide] at h1
  obtain ⟨ptr, s2, t, fd, e2, hroom2, hopen, hfile, hopened⟩ :=
    processLoadBinary_room (n := n + 1031) h1 hload (List.mem_singleton_self _)
  obtain ⟨stack, s3, e3, hstack, hroom3⟩ := kzalloc_room env hroom2 (m := userProgramStackSize) (by
    rw [show blockCount userProgramStackSize = 4 by decide]
    omega)
  rw [show blockCount userProgramStackSize = 4 by decide] at hroom3
  obtain ⟨task, k4, e4, htask, ⟨newTask, ht⟩, hroom4⟩ := taskNew_room env p (k := k.withSys s3) (n := n) hroom3 htail
  have hfree : k.processes slot = 0 := of_decide_eq_true (Fin.find?_eq_some_iff.1 hslot).1
  have b2 : onSys (processLoadBinary env (onePart name)) (k.withSys s1) =
    .ok (some (ptr, item.filesize), k.withSys s2) :=
    onSys_of_ok e2
  have b3 : onSys (kzalloc env userProgramStackSize) (k.withSys s2) = .ok (stack, k.withSys s3) := onSys_of_ok e3
  have hfor : ∃ k', processLoadForSlot env (onePart name) slot k = .ok (some p, k') ∧ k'.toSys.Room n := by
    unfold processLoadForSlot
    rw [Exec.bind_of_ok (Exec.get_apply k), if_neg (not_not.2 hfree), Exec.bind_of_ok (onSys_of_ok e1), if_neg hp,
      Exec.bind_of_ok b2]
    simp only
    rw [Exec.bind_of_ok b3, if_neg hstack, Exec.bind_of_ok e4, if_neg htask]
    rw [Exec.bind_of_ok (taskAt_of ht), Exec.bind_of_ok (onSys_of_ok (setMem_apply ..)),
      Exec.bind_of_ok (Exec.modify_apply ..)]
    exact ⟨_, rfl, hroom4⟩
  obtain ⟨k', e, hroom5⟩ := hfor
  refine ⟨p, k', s1, t, fd, ?_, e1, hopen, hfile, hroom5, hopened⟩
  unfold processLoad
  rw [Exec.bind_of_ok (Exec.get_apply k), hslot]
  simp only
  rw [Exec.bind_of_ok e]
  rfl

/-! ## Starting -/

/-- The kernel has mounted its disk and has loaded nothing yet. -/
structure Started (env : Env) (m : Nat) (k : Kernel) : Prop where
  ok : k.toSys.Ok kernelBlocks systemBlocks
  filesystem : k.filesystem = true
  header : k.fat16Private.header = diskHeader env
  root : RootLoaded env k.toSys m
  array : rootArray k.toSys ∈ k.live
  fileDescriptors : k.fileDescriptors = fun _ => none
  processes : k.processes = fun _ => 0
  taskHead : k.taskHead = 0

/-- A disk with the signature, sectors of 512 bytes or more, and a marker is mounted, and paging is turned on. -/
theorem startPaging_room (env : Env) (mem : Mem) {m : Nat} (hsig : diskSignature env = 0x29) (hm : m < 2 ^ 27)
    (hmark : Marker env (rootPos (diskHeader env)) m) (h512 : 512 ≤ (diskHeader env).bytesPerSector.toNat)
    (hroom : n + 1026 + 1 + blockCount (rootSectors (diskHeader env) * (diskHeader env).bytesPerSector.toNat) +
      5 ≤ 224999) :
    ∃ k, startPaging env (initial mem) = .ok (⟨⟩, k) ∧ k.toSys.Room n ∧ Started env m k ∧
    KeepsEnds (initial mem).toSys k.toSys := by
  have hsize : systemBlocks ≤ 2 ^ 20 := by decide
  have hok : (initial mem).toSys.Ok kernelBlocks systemBlocks := @AllocState.ok_init kernelBlocks systemBlocks hsize mem
  have hinit : (initial mem).toSys.Room (systemBlocks - kernelBlocks - 1) := by
    have hbooted : (Pmm.booted systemBlocks kernelBlocks).Room (systemBlocks - kernelBlocks - 1) :=
      Pmm.room_booted (by decide) (by decide) hsize
    unfold Sys.Room initial
    rw [AllocState.init_eq]
    exact hbooted
  obtain ⟨s1, e1, hroom1⟩ := fat16Resolve_room (n := n + 1026) env hok hsig hm hmark (by omega)
    (hinit.mono (Nat.le_trans hroom (by decide)))
  obtain ⟨⟨m', hroot⟩, -, hheader, hfds, -, hmounted⟩ := of_fat16Resolve e1
  obtain ⟨harray, hends1⟩ := hmounted hok
  obtain rfl : m' = m := by
    have h' := hroot.marker
    rw [hheader] at h'
    exact h'.unique hmark
  have hok1 : s1.Ok kernelBlocks systemBlocks := ok_fat16Resolve e1 hok
  obtain ⟨chunk, s2, e2, hchunk, hroom2⟩ := pagingNew4gb_room (s := { s1 with filesystem := true }) kernelFlags hroom1
  have hfiles := sameFiles_pagingNew4gb kernelFlags _ _ _ e2
  have f2 : FramesSys kernelBlocks systemBlocks True [rootArray s1] { s1 with filesystem := true } s2 :=
    framed_pagingNew4gb _ _ _ _ e2
  obtain ⟨hok2, hlive2, hmem2⟩ := f2 hok1 (List.cons_subset.2 ⟨harray, List.nil_subset _⟩)
  have hpriv : s2.fat16Private = s1.fat16Private := hfiles.fat16Private
  have hends2 : KeepsEnds { s1 with filesystem := true } s2 := keepsEnds_pagingNew4gb hok1 e2 hchunk
  have hends : KeepsEnds (initial mem).toSys s2 := IsTrans.trans _ _ _ (hends1 h512) ⟨hends2.live, hends2.mem⟩
  have hinit : onSys (diskSearchInit env) (initial mem) =
    .ok ((), (initial mem).withSys { s1 with filesystem := true }) := by
    refine onSys_of_ok ?_
    unfold diskSearchInit
    rw [Exec.bind_of_ok e1, Exec.modify_apply]
    rfl
  refine ⟨{ (initial mem).withSys s2 with kernelChunk := chunk, currentDirectory := directoryEntry s2.mem chunk }, ?_,
    hroom2, ?_, hends⟩
  · have b2 : onSys (pagingNew4gb kernelFlags) ((initial mem).withSys { s1 with filesystem := true }) =
        .ok (chunk, (initial mem).withSys s2) := onSys_of_ok e2
    unfold startPaging
    rw [Exec.bind_of_ok hinit, Exec.bind_of_ok b2, if_neg hchunk, Exec.modify_apply]
    rfl
  · refine ⟨hok2, hfiles.filesystem, ?_, ⟨?_, hm, ?_, ?_, fun t ht => ?_⟩, ?_,
      hfiles.fileDescriptors.trans hfds, rfl, rfl⟩
    · show s2.fat16Private.header = _
      rw [hpriv, hheader]
    · show Marker env (rootPos s2.fat16Private.header) m'
      rw [hpriv]
      exact hroot.marker
    · show s2.fat16Private.header.bytesPerSector.toNat ≠ 0
      rw [hpriv]
      exact hroot.bytesPerSector
    · show s2.fat16Private.rootDirectory.totalEntries = liveCount env (rootPos s2.fat16Private.header) m'
      rw [hpriv]
      exact hroot.total
    · have ht : t < rootSectors s2.fat16Private.header * 512 := ht
      show s2.mem (s2.fat16Private.rootDirectory.item + t) = env.byteAt ((rootPos s2.fat16Private.header + t) % 2 ^ 32)
      rw [hpriv] at ht ⊢
      have hbytes : t < (rootArray s1).size := by
        have hle := Nat.mul_le_mul_left (rootSectors s1.fat16Private.header) (hheader ▸ h512)
        exact Nat.lt_of_lt_of_le ht hle
      have hcovers : (rootArray s1).Covers (s1.fat16Private.rootDirectory.item + t) :=
        covers_of_fill (hok1.bounds (harray)).1 (Nat.le_add_right ..) (Nat.add_lt_add_left hbytes _)
      exact (hmem2 trivial _ (List.mem_singleton_self _) _ hcovers).trans (hroot.entries t ht)
    · show rootArray s2 ∈ s2.live
      have he : rootArray s2 = rootArray s1 := by
        unfold rootArray
        rw [hpriv]
      rw [he]
      exact hlive2 (List.mem_singleton_self _)

end

/-! ## A disk with one program -/

/-- The first sector, the table and the root directory of the disk: the file `A` starts in cluster 2, has
`0x200000` bytes, and is cluster 2 over and over. -/
def programHeader : Nat → Byte
  | 12 => 2
  | 13 => 1
  | 14 => 1
  | 16 => 1
  | 17 => 16
  | 22 => 1
  | 38 => 0x29
  | _ => 0

def programTable : Nat → Byte
  | 4 => 2
  | _ => 0

def programEntry : Nat → Byte
  | 0 => 0x41
  | 1 => 0x20
  | 8 => 0x20
  | 26 => 2
  | 30 => 0x20
  | _ => 0

def programDisk : Env where
  image sector i := match sector with
    | 0 => programHeader i
    | 1 => programTable i
    | 2 => programEntry i
    | _ => 0
  overread := fun _ _ => .error .outOfBounds
  nullFill := fun _ mem => .ok mem
  nullStore := fun _ _ _ => .error .nullDeref

theorem noFill_programDisk : NoFill programDisk := ⟨fun _ _ => rfl, nofun⟩

def programItem : Fat16DirectoryItem := ⟨0, 0, 2, 0x200000⟩

/-- The disk holds one program under the name `A`, and its table has cluster 2 lead to itself. -/
structure OneProgram (env : Env) (item : Fat16DirectoryItem) : Prop where
  signature : diskSignature env = 0x29
  header : diskHeader env = ⟨512, 1, 1, 1, 16, 1, 0⟩
  marker : Marker env 1024 1
  live : liveCount env 1024 1 = 1
  name : env.image 2 0 = 0x41 ∧ env.image 2 1 = 0x20 ∧ env.image 2 8 = 0x20
  entry : ∀ mem : Mem, ∀ a, (∀ t : Fin 32, mem (a + t) = env.image 2 ⟨t, by omega⟩) → itemAt mem a = item
  file : item.itemAttribute &&& fatFileSubdirectory = 0
  nonempty : 1 ≤ item.filesize.toNat
  fits : blockCount item.filesize.toNat ≤ 513
  cluster : fat16GetFirstCluster item = 2
  table : env.byteAt 516 = 2 ∧ env.byteAt 517 = 0

section
variable {env : Env} {item : Fat16DirectoryItem} {k : Kernel}

theorem rootPos_oneProgram : rootPos ⟨512, 1, 1, 1, 16, 1, 0⟩ = 1024 := by decide

/-- The name of the entry, in any memory that holds the entry. -/
theorem OneProgram.named (h : OneProgram env item) {mem : Mem} {a : Nat}
    (hat : ∀ t : Fin 32, mem (a + t) = env.image 2 ⟨t, by omega⟩) :
    ∃ tmp, fat16GetRelativePathName mem a maxPathName = .ok tmp ∧ istrncmp tmp [0x41] 1 = .ok 0 := by
  obtain ⟨e0, e1, e8⟩ := h.name
  have h0 : mem a = 0x41 := (hat 0).trans e0
  have h1 : mem (a + 1) = 0x20 := (hat 1).trans e1
  have h8 : mem (a + 8) = 0x20 := (hat 8).trans e8
  refine ⟨((List.replicate maxPathName 0).set 0 0x41).set 1 0, ?_, by decide⟩
  have hname : fat16ToProperString mem ⟨List.replicate maxPathName 0, 0⟩ (a + filenameOffset) =
      .ok ⟨((List.replicate maxPathName 0).set 0 0x41).set 1 0, 1⟩ := by
    rw [fat16ToProperString, filenameOffset, Nat.add_zero, if_pos (by rw [h0]; decide), if_pos (by simp [maxPathName]),
      fat16ToProperString, if_neg (by rw [h1]; decide), if_pos h1, h0]
    rfl
  have hext : ¬ (mem (a + extOffset) ≠ 0x00 ∧ mem (a + extOffset) ≠ 0x20) := by
    rw [show mem (a + extOffset) = 0x20 from h8]
    decide
  unfold fat16GetRelativePathName
  simp only [hname, bind, Except.bind, if_neg hext]
  rfl

theorem OneProgram.mountedHeader (ho : OneProgram env item) (h : Started env 1 k) :
    k.fat16Private.header = ⟨512, 1, 1, 1, 16, 1, 0⟩ := h.header.trans ho.header

theorem OneProgram.array_size (ho : OneProgram env item) (h : Started env 1 k) : (rootArray k.toSys).size = 512 := by
  unfold rootArray
  rw [ho.mountedHeader h]
  exact (by decide : rootSectors ⟨512, 1, 1, 1, 16, 1, 0⟩ * (512 : BitVec 16).toNat = 512)

theorem OneProgram.entry_at (ho : OneProgram env item) (h : Started env 1 k) (t : Fin 32) :
    k.mem (k.fat16Private.rootDirectory.item + t) = env.image 2 ⟨t, by omega⟩ := by
  have hheader := ho.mountedHeader h
  rw [h.root.entries t (by rw [hheader]; exact Nat.lt_of_lt_of_le t.isLt (by decide)), hheader, rootPos_oneProgram]
  have hpos : (1024 + t.val) % 2 ^ 32 = 1024 + t := by omega
  have hsector : (1024 + t.val) / 512 = 2 := by omega
  have hoffset : (1024 + t.val) % 512 = t := by omega
  rw [hpos]
  unfold Env.byteAt
  simp only [hsector, hoffset]

theorem OneProgram.loadable (ho : OneProgram env item) (h : Started env 1 k) :
    Loadable env [0x41] item (rootArray k.toSys) k.toSys := by
  have hheader := ho.mountedHeader h
  have hbounds := (h.ok.bounds h.array).1
  have hentry : ∀ mem : Mem, (∀ x, (rootArray k.toSys).Covers x → mem x = k.mem x) → ∀ t : Fin 32,
      mem (k.fat16Private.rootDirectory.item + t) = env.image 2 ⟨t, by omega⟩ := by
    intro mem hmem t
    have hcovers : (rootArray k.toSys).Covers (k.fat16Private.rootDirectory.item + t) :=
      covers_of_fill hbounds (Nat.le_add_right ..) (by rw [ho.array_size h]; exact Nat.add_lt_add_left (by omega) _)
    rw [hmem _ hcovers]
    exact ho.entry_at h t
  refine ⟨⟨h.filesystem, ?_, rfl, fun mem hmem => ho.named (hentry mem hmem),
    fun mem hmem => ho.entry mem _ (hentry mem hmem), ho.file⟩, ?_, ho.nonempty, ?_, ?_, ?_⟩
  · rw [h.root.total, hheader, rootPos_oneProgram]
    rw [ho.live]
    rfl
  · exact ⟨by decide, by decide, by decide⟩
  · unfold sizeOfClusterInBytes
    rw [hheader]
    decide
  · have hentryPos : entryPos k.fat16Private 2 = 516 := by
      unfold entryPos fat16GetFirstFatSector
      rw [hheader]
      decide
    have hfat : fat env k.fat16Private 2 = 2 := by
      unfold fat
      rw [hentryPos]
      show uint16OfBytes [env.byteAt 516, env.byteAt 517] = 2
      rw [ho.table.1, ho.table.2]
      decide
    have hin : InSector k.fat16Private 2 := by
      unfold InSector
      rw [hentryPos]
      decide
    rw [ho.cluster]
    exact walksTo_self hfat hin (by decide)
  · refine ⟨1, by decide, Fin.find?_eq_some_iff.2 ⟨?_, fun j hj => ?_⟩⟩
    · rw [h.fileDescriptors]
      decide
    · have hj : j.val = 0 := by
        have := Fin.lt_def.1 hj
        have h1 : ((1 : Fin maxFileDescriptors) : Nat) = 1 := rfl
        omega
      simp [hj]

theorem OneProgram.starts (ho : OneProgram env item) (mem : Mem) : ∃ k, startPaging env (initial mem) = .ok (⟨⟩, k) ∧
    k.toSys.Room 3000 ∧ Started env 1 k ∧ KeepsEnds (initial mem).toSys k.toSys :=
  startPaging_room env mem ho.signature (by decide) (by rw [ho.header, rootPos_oneProgram]; exact ho.marker)
    (by rw [ho.header]; decide) (by rw [ho.header]; decide)

/-- The program is loaded into the first slot, whatever was in memory before the start. -/
theorem OneProgram.loads (ho : OneProgram env item) (mem : Mem) : ∃ k p k' s1 s2, ∃ fd : Fin maxFileDescriptors,
    startPaging env (initial mem) = .ok (⟨⟩, k) ∧ Started env 1 k ∧
    processLoad env (onePart [0x41]) k = .ok ((0, some p), k') ∧ kzalloc env sizeofProcess k.toSys = .ok (p, s1) ∧
    fopen env (onePart [0x41]) [0x72] s1 = .ok ((fd.val : Int), s2) ∧ HoldsFile s2 fd item 0 ∧ k'.toSys.Room 1 ∧
    s2.Ok kernelBlocks systemBlocks ∧ KeepsEnds (initial mem).toSys s2 := by
  obtain ⟨k, e, hroom, h, hends⟩ := ho.starts mem
  have hslot : processGetFreeSlot k.processes = some 0 := by
    rw [h.processes]
    decide
  have hfits := ho.fits
  obtain ⟨p, k', s1, s2, fd, hload, halloc, hopen, hfile, hroom', hok', hends'⟩ :=
    processLoad_room (n := 1) h.ok (hroom.mono (by omega)) (ho.loadable h) h.array hslot fun hne =>
      absurd h.taskHead hne
  exact ⟨k, p, k', s1, s2, fd, e, h, hload, halloc, hopen, hfile, hroom', hok', IsTrans.trans _ _ _ hends hends'⟩

end

/-- The first entry of the root directory. -/
def firstItem (env : Env) : Fat16DirectoryItem := itemAt env.byteAt 1024

theorem itemAt_firstItem {env : Env} {mem : Mem} {a : Nat} (h : ∀ t : Fin 32, mem (a + t) = env.image 2 ⟨t, by omega⟩) :
    itemAt mem a = firstItem env := by
  unfold firstItem
  simp only [itemAt, uint16At, uint32At, Nat.add_assoc]
  rw [show mem (a + 11) = _ from h 11, show mem (a + 21) = _ from h 21, show mem (a + 20) = _ from h 20,
    show mem (a + 27) = _ from h 27, show mem (a + 26) = _ from h 26, show mem (a + 31) = _ from h 31,
    show mem (a + 30) = _ from h 30, show mem (a + 29) = _ from h 29, show mem (a + 28) = _ from h 28]
  rfl

theorem oneProgram_programDisk : OneProgram programDisk programItem where
  signature := by decide +kernel
  header := by decide +kernel
  marker := by
    refine ⟨by decide +kernel, fun j hj => ?_⟩
    obtain rfl : j = 0 := by omega
    decide +kernel
  live := by decide +kernel
  name := ⟨rfl, rfl, rfl⟩
  entry := fun mem a h => (itemAt_firstItem h).trans (by decide)
  file := by decide
  nonempty := by decide
  fits := by decide
  cluster := by decide
  table := ⟨rfl, rfl⟩

/-- The disk with a file of one page. -/
def smallEntry : Nat → Byte
  | 29 => 0x10
  | 30 => 0
  | i => programEntry i

def smallDisk : Env where
  image sector i := match sector with
    | 2 => smallEntry i
    | _ => programDisk.image sector i
  overread := programDisk.overread
  nullFill := programDisk.nullFill
  nullStore := programDisk.nullStore

theorem noFill_smallDisk : NoFill smallDisk := ⟨fun _ _ => rfl, nofun⟩

def smallItem : Fat16DirectoryItem := ⟨0, 0, 2, 0x1000⟩

theorem oneProgram_smallDisk : OneProgram smallDisk smallItem where
  signature := by decide +kernel
  header := by decide +kernel
  marker := by
    refine ⟨by decide +kernel, fun j hj => ?_⟩
    obtain rfl : j = 0 := by omega
    decide +kernel
  live := by decide +kernel
  name := ⟨rfl, rfl, rfl⟩
  entry := fun mem a h => (itemAt_firstItem h).trans (by decide)
  file := by decide
  nonempty := by decide
  fits := by decide
  cluster := by decide
  table := ⟨rfl, rfl⟩

theorem program_loads : ∃ k p k' s1 s2, ∃ fd : Fin maxFileDescriptors,
    startPaging programDisk (initial fun _ => 0) = .ok (⟨⟩, k) ∧ Started programDisk 1 k ∧
    processLoad programDisk (onePart [0x41]) k = .ok ((0, some p), k') ∧
    kzalloc programDisk sizeofProcess k.toSys = .ok (p, s1) ∧
    fopen programDisk (onePart [0x41]) [0x72] s1 = .ok ((fd.val : Int), s2) ∧ HoldsFile s2 fd programItem 0 ∧
    k'.toSys.Room 1 := by
  obtain ⟨k, p, k', s1, s2, fd, hstart, h, hload, halloc, hopen, hfile, hroom, -⟩ :=
    oneProgram_programDisk.loads fun _ => 0
  exact ⟨k, p, k', s1, s2, fd, hstart, h, hload, halloc, hopen, hfile, hroom⟩

end SimpleMicrokernel.Tasking
