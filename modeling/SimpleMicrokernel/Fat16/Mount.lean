/-
`fat16_resolve`: the first sector is read, and if it has the signature its header becomes the disk's
and the root directory is read into memory. Mounting keeps the allocator's tables right; a disk that
was mounted has its root directory in memory, and one with an end marker is mounted when there is room.
-/
import SimpleMicrokernel.Fat16.Count
import SimpleMicrokernel.Fat16.Frame

namespace SimpleMicrokernel.Fat16

open Memory Disk Fs

/-- `sizeof(struct fat16_private)`, `sizeof(struct disk_stream)`, `sizeof(struct fat16_header)`. -/
def sizeofFat16Private : Nat := 92
def sizeofDiskStream : Nat := 8
def sizeofFat16Header : Nat := 62

/-- The header in the bytes of the first sector, its fields at their offsets. -/
def headerAt (mem : Mem) (a : Nat) : Fat16HeaderPrimary where
  bytesPerSector := uint16At mem (a + 11)
  sectorsPerCluster := mem (a + 13)
  reservedSectors := uint16At mem (a + 14)
  fatCopies := mem (a + 16)
  rootDirEntries := uint16At mem (a + 17)
  sectorsPerFat := uint16At mem (a + 22)
  hiddenSetors := uint32At mem (a + 28)

/-- `extended_header.signature`. -/
def signatureAt (mem : Mem) (a : Nat) : Byte := mem (a + 38)

/-- Bytes that were read, as memory from address 0 on. -/
def readMem (bytes : List Byte) : Mem := store (fun _ => 0) 0 bytes

/-- The stream is stored to without a test, and its position is read back on every read. -/
def createDiskStreamer : FsM Nat := do
  let streamer ← kmallac sizeofDiskStream
  if streamer = 0 then
    throw .nullDeref
  else
    return streamer

def fat16LoadRootDirectory (env : Env) : FsM Int := do
  let header := (← get).fat16Private.header
  let rootDirSize := header.rootDirEntries.toNat * sizeofFat16DirectoryItem
  let bytesPerSector := header.bytesPerSector.toNat
  if bytesPerSector = 0 then
    throw .divByZero
  else
    let rootSectors :=
      if rootDirSize % bytesPerSector = 0 then rootDirSize / bytesPerSector else rootDirSize / bytesPerSector + 1
    let reservedSectors := int32 ((header.hiddenSetors.toNat : Int) + header.reservedSectors.toNat)
    let fat16SectorsSize := header.fatCopies.toNat * header.sectorsPerFat.toNat
    let rootDirectoryStartSector := int32 (reservedSectors + fat16SectorsSize)
    let item ← kzalloc env (rootSectors * bytesPerSector)
    let _ ← streamerSeek .directory (fat16SectorsToAbosulute (uint32 rootDirectoryStartSector))
    let (res, bytes) ← streamerRead env .directory (rootSectors * 512)
    if item = 0 then
      throw .nullDeref
    else
      setMem fun mem => store mem item bytes
      if res ≤ 0 then
        return -1
      else
        let totalItems ← fat16GetTotalItemsForDirectory env (uint32 rootDirectoryStartSector)
        modify fun s => { s with fat16Private := { s.fat16Private with
          rootDirectory := ⟨item, totalItems, rootDirectoryStartSector,
            int32 (rootDirectoryStartSector + rootSectors)⟩ } }
        return 1

/-- The head stream is given back only when the disk is mounted. -/
def fat16Resolve (env : Env) : FsM Int := do
  let fat16Private ← kzalloc env sizeofFat16Private
  if fat16Private = 0 then
    throw .nullDeref
  else
    let _ ← createDiskStreamer
    let _ ← createDiskStreamer
    let _ ← createDiskStreamer
    let headStreamer ← createDiskStreamer
    let (res, bytes, _) ← (diskStreamerRead env ⟨0⟩ sizeofFat16Header : Except Halt (Int × List Byte × DiskStream))
    if res ≤ 0 then
      return -1
    else if signatureAt (readMem bytes) 0 ≠ 0x29 then
      return -1
    else
      modify fun s => { s with fat16Private :=
        { s.fat16Private with header := headerAt (readMem bytes) 0, stream := fun _ => ⟨0⟩ } }
      if (← fat16LoadRootDirectory env) ≠ 1 then
        return -1
      else
        kfree headStreamer
        return 0

/-! ## What mounting keeps -/

section
variable {reserved size : Nat} {held : List Live} {env : Env} {s s' : Sys}

theorem frames_setMem (f : Mem → Mem) : Framed reserved size False held (setMem f) := by
  intro s u s' h
  rw [setMem_apply] at h
  cases h
  exact fun hok hheld => ⟨hok.withMem _, hheld, fun hk => hk.elim⟩

theorem framed_createDiskStreamer : Framed reserved size False held createDiskStreamer := by
  unfold createDiskStreamer
  refine Exec.keeps_bind (fun _ _ _ h => (kmallac_spec h).2.1) fun streamer => ?_
  exact Exec.keeps_ite (Exec.keeps_throw _) (Exec.keeps_pure _)

theorem createDiskStreamer_live {p : Nat} (h : createDiskStreamer s = .ok (p, s')) (hok : s.Ok reserved size) :
    p ≠ 0 ∧ s'.live = ⟨p, sizeofDiskStream, .kheap⟩ :: s.live := by
  unfold createDiskStreamer at h
  obtain ⟨q, s1, h1, h⟩ := Exec.of_bind_ok h
  split at h
  · rw [Exec.throw_apply] at h
    cases h
  · rename_i hq
    obtain ⟨rfl, rfl⟩ := Exec.of_pure_ok h
    have hspec : _ ∧ FramesSys reserved size False [] s s1 ∧ _ := kmallac_spec h1
    exact ⟨hq, hspec.2.2 hok hq⟩

theorem framed_fat16LoadRootDirectory : Framed reserved size False held (fat16LoadRootDirectory env) := by
  unfold fat16LoadRootDirectory
  refine Exec.keeps_bind Exec.keeps_get fun s => ?_
  refine Exec.keeps_ite (Exec.keeps_throw _) ?_
  refine Exec.keeps_bind (framed_kzalloc False.elim _) fun item => ?_
  refine Exec.keeps_bind (framed_streamerSeek _ _) fun _ => ?_
  refine Exec.keeps_bind (framed_streamerRead _ _ _) fun p => ?_
  refine Exec.keeps_ite (Exec.keeps_throw _) ?_
  refine Exec.keeps_bind (frames_setMem _) fun _ => ?_
  refine Exec.keeps_ite (Exec.keeps_pure _) ?_
  refine Exec.keeps_bind (fun _ _ _ h => (keeps_fat16GetTotalItemsForDirectory _ _ _ _ _ h).frames) fun _ => ?_
  exact Exec.keeps_bind (framed_modify fun _ => rfl) fun _ => Exec.keeps_pure _

theorem headStreamer_held {priv a b c head : Nat} {s1 s2 s3 s4 s5 : Sys}
    (h1 : kzalloc env sizeofFat16Private s = .ok (priv, s1)) (h2 : createDiskStreamer s1 = .ok (a, s2))
    (h3 : createDiskStreamer s2 = .ok (b, s3)) (h4 : createDiskStreamer s3 = .ok (c, s4))
    (h5 : createDiskStreamer s4 = .ok (head, s5)) (hok : s.Ok reserved size) :
    s5.Ok reserved size ∧ (⟨head, sizeofDiskStream, .kheap⟩ : Live) ∈ s5.live := by
  have f1 : FramesSys reserved size False [] s s1 := framed_kzalloc False.elim _ _ _ _ h1
  have f2 : FramesSys reserved size False [] s1 s2 := framed_createDiskStreamer _ _ _ h2
  have f3 : FramesSys reserved size False [] s2 s3 := framed_createDiskStreamer _ _ _ h3
  have f4 : FramesSys reserved size False [] s3 s4 := framed_createDiskStreamer _ _ _ h4
  have f5 : FramesSys reserved size False [] s4 s5 := framed_createDiskStreamer _ _ _ h5
  obtain ⟨hok4, -, -⟩ := (f1.trans' (f2.trans' (f3.trans' f4))) hok (List.nil_subset _)
  obtain ⟨hok5, -, -⟩ := f5 hok4 (List.nil_subset _)
  obtain ⟨-, hlive⟩ := createDiskStreamer_live h5 hok4
  exact ⟨hok5, hlive ▸ List.mem_cons_self ..⟩

/-- Mounting, or failing to, keeps the allocator's tables right. -/
theorem ok_fat16Resolve {res : Int} (h : fat16Resolve env s = .ok (res, s')) (hok : s.Ok reserved size) :
    s'.Ok reserved size := by
  unfold fat16Resolve at h
  obtain ⟨priv, s1, h1, h⟩ := Exec.of_bind_ok h
  split at h
  · rw [Exec.throw_apply] at h
    cases h
  · obtain ⟨a, s2, h2, h⟩ := Exec.of_bind_ok h
    obtain ⟨b, s3, h3, h⟩ := Exec.of_bind_ok h
    obtain ⟨c, s4, h4, h⟩ := Exec.of_bind_ok h
    obtain ⟨head, s5, h5, h⟩ := Exec.of_bind_ok h
    obtain ⟨hok5, hlive⟩ := headStreamer_held h1 h2 h3 h4 h5 hok
    obtain ⟨r, s6, h6, h⟩ := Exec.of_bind_ok h
    obtain ⟨-, rfl⟩ := Exec.of_lift_ok h6
    obtain ⟨res', bytes, stream⟩ := r
    simp only at h
    split at h
    · obtain ⟨-, rfl⟩ := Exec.of_pure_ok h
      exact hok5
    · split at h
      · obtain ⟨-, rfl⟩ := Exec.of_pure_ok h
        exact hok5
      · rw [Exec.bind_of_ok (Exec.modify_apply ..)] at h
        obtain ⟨loaded, s7, h7, h⟩ := Exec.of_bind_ok h
        -- the head stream stays held while the root directory is loaded
        have f7 : FramesSys reserved size False [⟨head, sizeofDiskStream, .kheap⟩] _ s7 :=
          framed_fat16LoadRootDirectory _ _ _ h7
        have hhead : [(⟨head, sizeofDiskStream, .kheap⟩ : Live)] ⊆ s5.live :=
          List.cons_subset.2 ⟨hlive, List.nil_subset _⟩
        obtain ⟨hok7, hlive7, -⟩ := f7 hok5 hhead
        split at h
        · obtain ⟨-, rfl⟩ := Exec.of_pure_ok h
          exact hok7
        · obtain ⟨_, s8, h8, h⟩ := Exec.of_bind_ok h
          obtain ⟨-, rfl⟩ := Exec.of_pure_ok h
          have f8 : FramesSys reserved size False [] s7 s8 :=
            kfree_spec (.inr ⟨_, hlive7 (List.mem_cons_self ..), rfl⟩) (by simp) h8
          exact (f8 hok7 (List.nil_subset _)).1

end

/-! ## What mounting gives -/

/-- `root_sectors` and `root_directory_start_sector` of a header, and the position of the root directory
on the disk. -/
def rootSectors (header : Fat16HeaderPrimary) : Nat :=
  let rootDirSize := header.rootDirEntries.toNat * sizeofFat16DirectoryItem
  let bytesPerSector := header.bytesPerSector.toNat
  if rootDirSize % bytesPerSector = 0 then rootDirSize / bytesPerSector else rootDirSize / bytesPerSector + 1

def rootStart (header : Fat16HeaderPrimary) : Int :=
  int32 (int32 ((header.hiddenSetors.toNat : Int) + header.reservedSectors.toNat) +
    (header.fatCopies.toNat * header.sectorsPerFat.toNat : Nat))

def rootPos (header : Fat16HeaderPrimary) : Nat := fat16SectorsToAbosulute (uint32 (rootStart header))

/-- The header on the disk, and its signature. -/
def diskHeader (env : Env) : Fat16HeaderPrimary := headerAt (readMem (bytesAt env 0 sizeofFat16Header)) 0

def diskSignature (env : Env) : Byte := signatureAt (readMem (bytesAt env 0 sizeofFat16Header)) 0

/-- The allocation that the root directory is in. -/
def rootArray (s : Sys) : Live :=
  ⟨s.fat16Private.rootDirectory.item, rootSectors s.fat16Private.header * s.fat16Private.header.bytesPerSector.toNat,
    .kheap⟩

/-- The root directory as the disk has it: its entries are in memory, `m` of them before the marker. -/
structure RootLoaded (env : Env) (s : Sys) (m : Nat) : Prop where
  marker : Marker env (rootPos s.fat16Private.header) m
  bounded : m < 2 ^ 27
  bytesPerSector : s.fat16Private.header.bytesPerSector.toNat ≠ 0
  total : s.fat16Private.rootDirectory.totalEntries = liveCount env (rootPos s.fat16Private.header) m
  entries : ∀ t < rootSectors s.fat16Private.header * 512,
    s.mem (s.fat16Private.rootDirectory.item + t) = env.byteAt ((rootPos s.fat16Private.header + t) % 2 ^ 32)

section
variable {reserved size n : Nat} {env : Env} {s s' : Sys}

theorem fat16LoadRootDirectory_eq (env : Env) (h : s.fat16Private.header.bytesPerSector.toNat ≠ 0) :
    fat16LoadRootDirectory env s = (do
      let item ← kzalloc env (rootSectors s.fat16Private.header * s.fat16Private.header.bytesPerSector.toNat)
      let _ ← streamerSeek .directory (rootPos s.fat16Private.header)
      let (res, bytes) ← streamerRead env .directory (rootSectors s.fat16Private.header * 512)
      if item = 0 then
        throw .nullDeref
      else
        setMem fun mem => store mem item bytes
        if res ≤ 0 then
          return -1
        else
          let totalItems ← fat16GetTotalItemsForDirectory env (uint32 (rootStart s.fat16Private.header))
          modify fun s' => { s' with fat16Private := { s'.fat16Private with rootDirectory := ⟨item, totalItems,
            rootStart s.fat16Private.header,
              int32 (rootStart s.fat16Private.header + rootSectors s.fat16Private.header)⟩ } }
          return 1 : FsM Int) s := by
  unfold fat16LoadRootDirectory
  rw [Exec.bind_of_ok (Exec.get_apply s)]
  simp only
  rw [if_neg h]
  rfl

theorem streamerRead_root (env : Env) (header : Fat16HeaderPrimary) (total : Nat) (s : Sys) : ∃ s1 res s2,
    streamerSeek .directory (rootPos header) s = .ok (0, s1) ∧
      streamerRead env .directory total s1 = .ok ((res, bytesAt env (rootPos header) total), s2) ∧ 0 < res ∧
      SameButStreams s s1 ∧ SameButStreams s1 s2 := by
  have hlt : rootPos header < 2 ^ 32 := Nat.mod_lt _ (by decide)
  have hmod : rootPos header % 512 = 0 := by
    unfold rootPos fat16SectorsToAbosulute sectorSize
    omega
  obtain ⟨s1, e1, hsame, hs1⟩ := seek_directory (uint32 (rootStart header)) s
  obtain ⟨res, hres, e2⟩ := diskStreamerRead_ok env hlt (.inl hmod : InBuffer (rootPos header) total)
  have hstream : s1.fat16Private.stream .directory = ⟨rootPos header⟩ := by
    rw [hs1, show fat16SectorsToAbosulute (uint32 (rootStart header)) % 2 ^ 32 = rootPos header from
      Nat.mod_eq_of_lt hlt]
  refine ⟨s1, res, s1.setStream .directory ⟨(rootPos header + total) % 2 ^ 32⟩, e1, ?_, hres, hsame,
    sameButStreams_setStream s1 ..⟩
  unfold streamerRead
  rw [hstream, e2]
  rfl

/-- The array of the root directory is zero past the sectors that were read. -/
def RootPadded (s : Sys) : Prop := ∀ t, rootSectors s.fat16Private.header * 512 ≤ t → t < (rootArray s).size →
  s.mem (s.fat16Private.rootDirectory.item + t) = 0

theorem fat16LoadRootDirectory_steps (h : fat16LoadRootDirectory env s = .ok (1, s')) :
    s.fat16Private.header.bytesPerSector.toNat ≠ 0 ∧ ∃ item s1 s3 total s4,
      kzalloc env (rootSectors s.fat16Private.header * s.fat16Private.header.bytesPerSector.toNat) s = .ok (item, s1) ∧
      item ≠ 0 ∧ SameButStreams s1 s3 ∧
      fat16GetTotalItemsForDirectory env (uint32 (rootStart s.fat16Private.header))
        { s3 with mem := store s3.mem item (bytesAt env (rootPos s.fat16Private.header)
          (rootSectors s.fat16Private.header * 512)) } =
          .ok (total, s4) ∧
      s' = { s4 with fat16Private := { s4.fat16Private with rootDirectory := ⟨item, total,
        rootStart s.fat16Private.header, int32
        (rootStart s.fat16Private.header + rootSectors s.fat16Private.header)⟩ } } := by
  by_cases h0 : s.fat16Private.header.bytesPerSector.toNat = 0
  · unfold fat16LoadRootDirectory at h
    rw [Exec.bind_of_ok (Exec.get_apply s)] at h
    simp only at h
    rw [if_pos h0, Exec.throw_apply] at h
    cases h
  rw [fat16LoadRootDirectory_eq env h0] at h
  obtain ⟨item, s1, h1, h⟩ := Exec.of_bind_ok h
  obtain ⟨s2, res, s3, e2, e3, hres, hsame2, hsame3⟩ :=
    streamerRead_root env s.fat16Private.header (rootSectors s.fat16Private.header * 512) s1
  rw [Exec.bind_of_ok e2, Exec.bind_of_ok e3] at h
  simp only at h
  split at h
  · rw [Exec.throw_apply] at h
    cases h
  rename_i hitem
  rw [Exec.bind_of_ok (setMem_apply ..), if_neg (by omega)] at h
  obtain ⟨total, s4, h4, h⟩ := Exec.of_bind_ok h
  rw [Exec.bind_of_ok (Exec.modify_apply ..)] at h
  obtain ⟨-, e⟩ := Exec.of_pure_ok h
  exact ⟨h0, item, s1, s3, total, s4, h1, hitem, IsTrans.trans _ _ _ hsame2 hsame3, h4, e.symm⟩

/-- A root directory that was loaded is in memory as the disk has it. -/
theorem of_fat16LoadRootDirectory (h : fat16LoadRootDirectory env s = .ok (1, s')) : (∃ m, RootLoaded env s' m) ∧
    s'.fat16Private.header = s.fat16Private.header ∧ s'.fileDescriptors = s.fileDescriptors ∧ RootPadded s' ∧
    (∀ {reserved size}, s.Ok reserved size → s'.live = rootArray s' :: s.live ∧
      (512 ≤ s.fat16Private.header.bytesPerSector.toNat → KeepsEnds s s')) := by
  obtain ⟨h0, item, s1, s3, total, s4, h1, hitem, hsame, h4, rfl⟩ := fat16LoadRootDirectory_steps h
  have hfiles := sameFiles_kzalloc env _ _ _ _ h1
  obtain ⟨hsame4, m, hm, hmark, htotal⟩ := of_fat16GetTotalItemsForDirectory h4
  have hheader : s4.fat16Private.header = s.fat16Private.header :=
    hsame4.header.trans (hsame.header.trans (congrArg _ hfiles.fat16Private))
  have hfds : s4.fileDescriptors = s.fileDescriptors :=
    hsame4.fileDescriptors.trans (hsame.fileDescriptors.trans hfiles.fileDescriptors)
  refine ⟨⟨m, ?_, hm, ?_, ?_, fun t ht => ?_⟩, hheader, hfds, fun t hread ht => ?_, fun {reserved size} hok => ?_⟩
  · show Marker env (rootPos s4.fat16Private.header) m
    rw [hheader]
    exact hmark
  · show s4.fat16Private.header.bytesPerSector.toNat ≠ 0
    rw [hheader]
    exact h0
  · show total = liveCount env (rootPos s4.fat16Private.header) m
    rw [hheader]
    exact htotal
  · have ht : t < rootSectors s4.fat16Private.header * 512 := ht
    show s4.mem (item + t) = env.byteAt ((rootPos s4.fat16Private.header + t) % 2 ^ 32)
    rw [hheader] at ht ⊢
    rw [hsame4]
    show store s3.mem item _ (item + t) = _
    rw [store_apply, if_pos (by omega), Nat.add_sub_cancel_left, getElem?_bytesAt env ht]
    rfl
  · have hread : rootSectors s4.fat16Private.header * 512 ≤ t := hread
    have ht : t < rootSectors s4.fat16Private.header * s4.fat16Private.header.bytesPerSector.toNat := ht
    show s4.mem (item + t) = 0
    rw [hheader] at hread ht
    rw [hsame4]
    show store s3.mem item _ (item + t) = 0
    -- past the bytes that are stored the array is as it was allocated
    have hmem : s3.mem = s1.mem := by rw [hsame]
    obtain ⟨mem, rfl, -, -, hfill⟩ := of_kzalloc_ok h1
    rw [store_apply, if_pos (by omega), Nat.add_sub_cancel_left, List.getElem?_eq_none (by rw [length_bytesAt]; omega),
      Option.getD_none, hmem]
    show mem (item + t) = 0
    rw [hfill hitem, memset_apply, if_pos (by omega)]
  · have hspec : FramesSys reserved size False [] s s1 ∧ _ := kzalloc_spec False.elim h1
    have hlive3 : s3.live = _ :: s.live := hsame.live.trans (hspec.2 hok hitem)
    have hlive : s4.live = _ :: s.live := hsame4.live.trans hlive3
    refine ⟨?_, fun h512 => ?_⟩
    · show s4.live = ⟨item, rootSectors s4.fat16Private.header * s4.fat16Private.header.bytesPerSector.toNat,
        .kheap⟩ :: s.live
      rw [hheader, hlive]
    · obtain ⟨hok1, -, -⟩ := hspec.1 hok (List.nil_subset _)
      have hin : ⟨item, rootSectors s.fat16Private.header * s.fat16Private.header.bytesPerSector.toNat,
        .kheap⟩ ∈ s3.live :=
        hlive3 ▸ List.mem_cons_self ..
      have hin1 := hin
      rw [hsame.live] at hin1
      have g3 : KeepsEnds s1 s3 := keepsEnds_of_subset (by rw [hsame]; exact List.Subset.refl _) (by rw [hsame])
      -- the sectors that are read are not longer than the array
      have hbytes := Nat.mul_le_mul_left (rootSectors s.fat16Private.header) h512
      have hmem4 : s4.mem = store s3.mem item (bytesAt env (rootPos s.fat16Private.header)
          (rootSectors s.fat16Private.header * 512)) := by rw [hsame4]
      have gstore : KeepsEnds s3 s4 :=
        keepsEnds_store hin (hok1.bounds hin1).1 hsame4.live hmem4 (by rw [length_bytesAt]; exact hbytes)
      have g : KeepsEnds s s4 := IsTrans.trans _ _ _ (keepsEnds_kzalloc hok h1 hitem) (IsTrans.trans _ _ _ g3 gstore)
      exact ⟨g.live, g.mem⟩

theorem ending_fat16LoadRootDirectory (h : fat16LoadRootDirectory env s = .ok (1, s')) :
    s'.fat16Private.rootDirectory.endingSectorPos =
    int32 (rootStart s.fat16Private.header + rootSectors s.fat16Private.header) := by
  obtain ⟨-, item, s1, s3, total, s4, -, -, -, -, rfl⟩ := fat16LoadRootDirectory_steps h
  simp only

/-- A root directory with a marker is loaded when there is room for it. -/
theorem fat16LoadRootDirectory_room (env : Env) {m : Nat} (hm : m < 2 ^ 27)
    (hmark : Marker env (rootPos s.fat16Private.header) m) (h0 : s.fat16Private.header.bytesPerSector.toNat ≠ 0)
    (hroom : s.Room (n + blockCount (rootSectors s.fat16Private.header * s.fat16Private.header.bytesPerSector.toNat))) :
    ∃ s', fat16LoadRootDirectory env s = .ok (1, s') ∧ s'.Room n := by
  obtain ⟨item, s1, e1, hitem, hroom1⟩ := kzalloc_room env hroom (Nat.le_add_left ..)
  rw [Nat.add_sub_cancel] at hroom1
  obtain ⟨s2, res, s3, e2, e3, hres, hsame2, hsame3⟩ :=
    streamerRead_root env s.fat16Private.header (rootSectors s.fat16Private.header * 512) s1
  obtain ⟨s4, e4, hsame4⟩ := fat16GetTotalItemsForDirectory_ok hm hmark
    { s3 with mem := store s3.mem item (bytesAt env (rootPos s.fat16Private.header)
      (rootSectors s.fat16Private.header * 512)) }
  have hsame : SameButStreams s1 s3 := IsTrans.trans _ _ _ hsame2 hsame3
  have hroom4 : s4.Room n := by
    have hheap4 : s4.heap = s3.heap := hsame4.heap
    have hheap : s3.heap = s1.heap := hsame.heap
    unfold Sys.Room at *
    rw [hheap4, hheap]
    exact hroom1
  refine ⟨{ s4 with fat16Private := { s4.fat16Private with rootDirectory := ⟨item,
    liveCount env (rootPos s.fat16Private.header) m, rootStart s.fat16Private.header,
    int32 (rootStart s.fat16Private.header + rootSectors s.fat16Private.header)⟩ } }, ?_, hroom4⟩
  rw [fat16LoadRootDirectory_eq env h0, Exec.bind_of_ok e1, Exec.bind_of_ok e2, Exec.bind_of_ok e3]
  simp only
  rw [if_neg hitem, Exec.bind_of_ok (setMem_apply ..), if_neg (by omega), Exec.bind_of_ok e4,
    Exec.bind_of_ok (Exec.modify_apply ..)]
  rfl

theorem createDiskStreamer_room (hroom : s.Room (n + 1)) : ∃ p s', createDiskStreamer s = .ok (p, s') ∧ s'.Room n := by
  obtain ⟨p, s', e, hp, hroom'⟩ := kmallac_room hroom (m := sizeofDiskStream)
    (by rw [blockCount_of_le (by decide)]; omega)
  rw [blockCount_of_le (by decide), Nat.add_sub_cancel] at hroom'
  refine ⟨p, s', ?_, hroom'⟩
  unfold createDiskStreamer
  rw [Exec.bind_of_ok e, if_neg hp]
  rfl

theorem sameFiles_createDiskStreamer : Exec.Keeps SameFiles createDiskStreamer := by
  unfold createDiskStreamer
  refine Exec.keeps_bind (fun s p s' h => ?_) fun streamer => Exec.keeps_ite (Exec.keeps_throw _) (Exec.keeps_pure _)
  rw [kmallac_apply, Except.ok.injEq, Prod.mk.injEq] at h
  rw [← h.2]
  exact ⟨rfl, rfl, rfl⟩

theorem keepsEnds_createDiskStreamer : Exec.Keeps KeepsEnds createDiskStreamer := by
  unfold createDiskStreamer
  refine Exec.keeps_bind (keepsEnds_kmallac _) fun streamer => Exec.keeps_ite (Exec.keeps_throw _) (Exec.keeps_pure _)

theorem diskStreamerRead_header (env : Env) : ∃ res stream, 0 < res ∧
    diskStreamerRead env ⟨0⟩ sizeofFat16Header = .ok (res, bytesAt env 0 sizeofFat16Header, stream) := by
  obtain ⟨res, hres, e⟩ := diskStreamerRead_ok env (by decide : 0 < 2 ^ 32) (.inl rfl : InBuffer 0 sizeofFat16Header)
  exact ⟨res, _, hres, e⟩

theorem fat16Resolve_steps (h : fat16Resolve env s = .ok (0, s')) : diskSignature env = 0x29 ∧
    ∃ priv a b c head s1 s2 s3 s4 s5 s7, kzalloc env sizeofFat16Private s = .ok (priv, s1) ∧ priv ≠ 0 ∧
      createDiskStreamer s1 = .ok (a, s2) ∧ createDiskStreamer s2 = .ok (b, s3) ∧ createDiskStreamer s3 = .ok (c, s4) ∧
      createDiskStreamer s4 = .ok (head, s5) ∧
      fat16LoadRootDirectory env { s5 with fat16Private :=
        { s5.fat16Private with header := diskHeader env, stream := fun _ => ⟨0⟩ } } = .ok (1, s7) ∧
      s' = s7.alloc (s7.heap.kfree head) (s7.live.filter fun a => a.addr ≠ head) := by
  have hneg : ∀ {t : Sys}, (pure (-1) : FsM Int) t = .ok (0, s') → False := by
    intro t ht
    obtain ⟨he, -⟩ := Exec.of_pure_ok ht
    cases he
  unfold fat16Resolve at h
  obtain ⟨priv, s1, h1, h⟩ := Exec.of_bind_ok h
  split at h
  · rw [Exec.throw_apply] at h
    cases h
  rename_i hpriv
  obtain ⟨a, s2, h2, h⟩ := Exec.of_bind_ok h
  obtain ⟨b, s3, h3, h⟩ := Exec.of_bind_ok h
  obtain ⟨c, s4, h4, h⟩ := Exec.of_bind_ok h
  obtain ⟨head, s5, h5, h⟩ := Exec.of_bind_ok h
  obtain ⟨r, s6, h6, h⟩ := Exec.of_bind_ok h
  obtain ⟨hr, rfl⟩ := Exec.of_lift_ok h6
  obtain ⟨res, stream, hres, e⟩ := diskStreamerRead_header env
  rw [e] at hr
  cases hr
  simp only at h
  rw [if_neg (by omega)] at h
  split at h
  · exact (hneg h).elim
  rename_i hsig
  rw [Exec.bind_of_ok (Exec.modify_apply ..)] at h
  obtain ⟨loaded, s7, h7, h⟩ := Exec.of_bind_ok h
  split at h
  · exact (hneg h).elim
  rename_i hloaded
  obtain rfl : loaded = 1 := not_not.1 hloaded
  obtain ⟨_, s8, h8, h⟩ := Exec.of_bind_ok h
  obtain ⟨-, rfl⟩ := Exec.of_pure_ok h
  unfold kfree at h8
  rw [Exec.modify_apply] at h8
  cases h8
  exact ⟨not_not.1 hsig, priv, a, b, c, head, s1, s2, s3, s4, s5, s7, h1, hpriv, h2, h3, h4, h5, h7, rfl⟩

/-- A disk that was mounted has the signature, its header, and its root directory in memory. -/
theorem of_fat16Resolve (h : fat16Resolve env s = .ok (0, s')) : (∃ m, RootLoaded env s' m) ∧ diskSignature env = 0x29 ∧
    s'.fat16Private.header = diskHeader env ∧ s'.fileDescriptors = s.fileDescriptors ∧ RootPadded s' ∧
    (∀ {reserved size}, s.Ok reserved size → rootArray s' ∈ s'.live ∧
      (512 ≤ (diskHeader env).bytesPerSector.toNat → KeepsEnds s s')) := by
  obtain ⟨hsig, priv, a, b, c, head, s1, s2, s3, s4, s5, s7, h1, hpriv, h2, h3, h4, h5, h7, rfl⟩ := fat16Resolve_steps h
  have hfiles : SameFiles s s5 :=
    IsTrans.trans _ _ _ (sameFiles_kzalloc env _ _ _ _ h1) (IsTrans.trans _ _ _
      (IsTrans.trans _ _ _ (sameFiles_createDiskStreamer _ _ _ h2) (sameFiles_createDiskStreamer _ _ _ h3))
      (IsTrans.trans _ _ _ (sameFiles_createDiskStreamer _ _ _ h4) (sameFiles_createDiskStreamer _ _ _ h5)))
  obtain ⟨⟨m, hroot⟩, hheader, hfds, hpadded, hlive⟩ := of_fat16LoadRootDirectory h7
  refine ⟨⟨m, hroot.marker, hroot.bounded, hroot.bytesPerSector, hroot.total, hroot.entries⟩, hsig, hheader,
    hfds.trans hfiles.fileDescriptors, hpadded, fun {reserved size} hok => ?_⟩
  obtain ⟨hok5, hhead⟩ := headStreamer_held h1 h2 h3 h4 h5 hok
  have f7 : FramesSys reserved size False [] _ s7 := framed_fat16LoadRootDirectory _ _ _ h7
  obtain ⟨hok7, -, -⟩ := f7 hok5 (List.nil_subset _)
  obtain ⟨hlive7, hends7⟩ := hlive hok5
  have hne := (hok7.fresh hlive7 _ hhead).addr_ne
  refine ⟨List.mem_filter.2 ⟨hlive7 ▸ List.mem_cons_self .., decide_eq_true hne⟩, fun h512 => ?_⟩
  have hhead7 : ⟨head, sizeofDiskStream, .kheap⟩ ∈ s7.live := hlive7 ▸ List.mem_cons_of_mem _ hhead
  have g4 : KeepsEnds s s5 :=
    IsTrans.trans _ _ _ (keepsEnds_kzalloc hok h1 hpriv) (IsTrans.trans _ _ _
      (IsTrans.trans _ _ _ (keepsEnds_createDiskStreamer _ _ _ h2) (keepsEnds_createDiskStreamer _ _ _ h3))
      (IsTrans.trans _ _ _ (keepsEnds_createDiskStreamer _ _ _ h4) (keepsEnds_createDiskStreamer _ _ _ h5)))
  have g7 : KeepsEnds s5 s7 := ⟨(hends7 h512).live, (hends7 h512).mem⟩
  exact IsTrans.trans _ _ _ g4 (IsTrans.trans _ _ _ g7 (keepsEnds_kfree hok7 hhead7 (by decide) rfl))

theorem ending_fat16Resolve (h : fat16Resolve env s = .ok (0, s')) :
    s'.fat16Private.rootDirectory.endingSectorPos =
    int32 (rootStart (diskHeader env) + rootSectors (diskHeader env)) := by
  obtain ⟨-, priv, a, b, c, head, s1, s2, s3, s4, s5, s7, -, -, -, -, -, -, h7, rfl⟩ := fat16Resolve_steps h
  have hending := ending_fat16LoadRootDirectory h7
  exact hending

/-- A disk with the signature and a marker in its root directory is mounted when there is room. -/
theorem fat16Resolve_room (env : Env) {m : Nat} (hok : s.Ok reserved size) (hsig : diskSignature env = 0x29)
    (hm : m < 2 ^ 27) (hmark : Marker env (rootPos (diskHeader env)) m) (h0 : (diskHeader env).bytesPerSector.toNat ≠ 0)
    (hroom : s.Room (n + 1 + blockCount (rootSectors (diskHeader env) * (diskHeader env).bytesPerSector.toNat) + 5)) :
    ∃ s', fat16Resolve env s = .ok (0, s') ∧ s'.Room n := by
  generalize hb : blockCount (rootSectors (diskHeader env) * (diskHeader env).bytesPerSector.toNat) = b at hroom
  obtain ⟨priv, s1, e1, hpriv, hroom1⟩ := kzalloc_room env hroom (m := sizeofFat16Private)
    (by rw [blockCount_of_le (by decide)]; omega)
  rw [blockCount_of_le (by decide)] at hroom1
  obtain ⟨a, s2, e2, hroom2⟩ := createDiskStreamer_room hroom1
  obtain ⟨c, s3, e3, hroom3⟩ := createDiskStreamer_room hroom2
  obtain ⟨d, s4, e4, hroom4⟩ := createDiskStreamer_room hroom3
  obtain ⟨head, s5, e5, hroom5⟩ := createDiskStreamer_room hroom4
  obtain ⟨res, stream, hres, e6⟩ := diskStreamerRead_header env
  obtain ⟨s7, e7, hroom7⟩ := fat16LoadRootDirectory_room (n := n + 1) (s := { s5 with fat16Private :=
    { s5.fat16Private with header := diskHeader env, stream := fun _ => ⟨0⟩ } }) env hm hmark h0 (by
      show s5.Room (n + 1 + blockCount (rootSectors (diskHeader env) * (diskHeader env).bytesPerSector.toNat))
      rw [hb]
      exact hroom5)
  -- the head stream is still held, and gives its block back
  obtain ⟨hok5, hlive⟩ := headStreamer_held e1 e2 e3 e4 e5 hok
  have f7 : FramesSys reserved size False [⟨head, sizeofDiskStream, .kheap⟩] _ s7 :=
    framed_fat16LoadRootDirectory _ _ _ e7
  obtain ⟨hok7, hlive7, -⟩ := f7 hok5 (List.cons_subset.2 ⟨hlive, List.nil_subset _⟩)
  obtain ⟨s8, e8, h8⟩ := (fresh_start hok7 hroom7 (List.nil_subset _)).kfree (hlive7 (List.mem_cons_self ..))
    (by decide) (by simp)
  have hread : (liftM (diskStreamerRead env ⟨0⟩ sizeofFat16Header) : FsM (Int × List Byte × DiskStream)) s5 =
      .ok ((res, bytesAt env 0 sizeofFat16Header, stream), s5) := by
    rw [e6]
    rfl
  refine ⟨s8, ?_, h8.room⟩
  unfold fat16Resolve
  rw [Exec.bind_of_ok e1, if_neg hpriv, Exec.bind_of_ok e2, Exec.bind_of_ok e3, Exec.bind_of_ok e4, Exec.bind_of_ok e5,
    Exec.bind_of_ok hread]
  simp only
  have hnot : ¬ signatureAt (readMem (bytesAt env 0 sizeofFat16Header)) 0 ≠ 0x29 := not_not.2 hsig
  rw [if_neg (by omega), if_neg hnot, Exec.bind_of_ok (Exec.modify_apply ..)]
  refine (Exec.bind_of_ok e7).trans ?_
  rw [if_neg (by decide), Exec.bind_of_ok e8]
  rfl

end

end SimpleMicrokernel.Fat16
