/-
What the fields of the header must be. The size of a sector and the size of a cluster come from the disk
as they are and are divided by: a mount divides by the first, a walk along a chain by the second. The
root directory is read in sectors of 512 bytes into a buffer of sectors of the header's size.
-/
import SimpleMicrokernel.Fat16.Mount
import SimpleMicrokernel.Fs.Open
import SimpleMicrokernel.Fs.Stops

namespace SimpleMicrokernel.Fs

open Memory Disk Fat16

/-- The header of the disk that is mounted. -/
def HasHeader (header : Fat16HeaderPrimary) (s : Sys) : Prop := s.fat16Private.header = header

/-- What lies past a sector buffer, or at address 0, is no division. -/
structure NoDivision (env : Env) : Prop where
  overread : ∀ pos index, env.overread pos index ≠ .error .divByZero
  nullFill : ∀ size mem, env.nullFill size mem ≠ .error .divByZero
  nullStore : ∀ a bytes mem, env.nullStore a bytes mem ≠ .error .divByZero

/-- The computation divides by no zero on a disk with this header, and leaves the header as it is. -/
abbrev Divides {α : Type} (header : Fat16HeaderPrimary) (x : FsM α) : Prop :=
  Exec.Avoids .divByZero (HasHeader header) x (HasHeader header)

section
variable {env : Env} {header : Fat16HeaderPrimary}

/-! ## Reading the disk -/

theorem sizeOfCluster_ne {s : Sys} (h0 : header.sectorsPerCluster ≠ 0) (hs : HasHeader header s) :
    sizeOfClusterInBytes s.fat16Private ≠ 0 := by
  unfold sizeOfClusterInBytes sectorSize
  rw [hs]
  intro h
  refine h0 (BitVec.eq_of_toNat_eq ?_)
  show header.sectorsPerCluster.toNat = 0
  omega

theorem steady_hasHeader (header : Fat16HeaderPrimary) : Steady (HasHeader header) := ⟨fun _ _ _ h => h, fun _ _ h => h⟩

theorem hasBytes_header (h0 : header.sectorsPerCluster ≠ 0) (e : Halt) : HasBytes e (HasHeader header) :=
  fun _ _ hs => sizeOfCluster_ne h0 hs

theorem divides_streamerSeek (id : StreamId) (pos : Int) : Divides header (streamerSeek id pos) :=
  avoids_streamerSeek (steady_hasHeader header) id pos

theorem divides_streamerRead (hno : NoDivision env) (id : StreamId) (total : Nat) :
    Divides header (streamerRead env id total) :=
  avoids_streamerRead (steady_hasHeader header) hno.overread id total

theorem divides_fat16ReadInternal (hno : NoDivision env) (h0 : header.sectorsPerCluster ≠ 0) (cluster : Nat)
    (offset total : Int) (out : Nat) : Divides header (fat16ReadInternal env cluster offset total out) :=
  avoids_fat16ReadInternal (steady_hasHeader header) hno.overread (hasBytes_header h0 _) cluster offset total out

/-! ## The allocator -/

theorem divides_kmallac (n : Nat) : Divides header (kmallac n) := by
  refine fun s hs => ⟨fun h => ?_, fun a s' h => ?_⟩
  · rw [kmallac_apply] at h
    cases h
  · rw [kmallac_apply] at h
    cases h
    exact hs

theorem divides_kfree (a : Nat) : Divides header (kfree a) := Exec.avoids_modify fun _ hs => hs

theorem divides_nullStore (hno : NoDivision env) (a : Nat) (bytes : List Byte) :
    Divides header (nullStore env a bytes) := by
  unfold nullStore
  refine Exec.avoids_get_bind fun s hs => ?_
  refine Exec.Avoids.bind (Exec.avoids_lift (hno.nullStore _ _ _)) fun mem t _ => ⟨fun h => ?_, fun a s' h => ?_⟩
  · rw [Exec.set_apply] at h
    cases h
  · rw [Exec.set_apply] at h
    cases h
    exact hs

theorem divides_kzalloc (hno : NoDivision env) (n : Nat) : Divides header (kzalloc env n) := by
  unfold kzalloc
  refine (divides_kmallac n).bind fun temp => ?_
  refine Exec.avoids_get_bind fun s hs => ?_
  refine Exec.Avoids.bind (Exec.avoids_lift ?_) fun mem => ?_
  · split
    · exact hno.nullFill _ _
    · exact Exec.ok_ne _
  · refine Exec.Avoids.bind (Q := HasHeader header) (fun t _ => ⟨fun h => ?_, fun a s' h => ?_⟩) fun _ =>
      Exec.avoids_pure _
    · rw [Exec.set_apply] at h
      cases h
    · rw [Exec.set_apply] at h
      cases h
      exact hs

/-! ## Directories -/

theorem divides_totalItemsLoop (hno : NoDivision env) : ∀ (n : Nat) (i : Int), Divides header (totalItemsLoop env n i)
  | 0, _ => Exec.avoids_throw (by decide)
  | n + 1, i => by
    rw [totalItemsLoop]
    refine (divides_streamerRead hno _ _).bind fun r => ?_
    simp only
    refine Exec.avoids_ite (fun _ => Exec.avoids_pure _) fun _ => ?_
    refine Exec.avoids_ite (fun _ => Exec.avoids_pure _) fun _ => ?_
    exact Exec.avoids_ite (fun _ => divides_totalItemsLoop hno n i) fun _ => divides_totalItemsLoop hno n (i + 1)

theorem divides_fat16GetTotalItemsForDirectory (hno : NoDivision env) (sector : Nat) :
    Divides header (fat16GetTotalItemsForDirectory env sector) :=
  (divides_streamerSeek _ _).bind fun _ => divides_totalItemsLoop hno _ _

theorem divides_fat16FreeDirectory (directory : Option (Ptr Fat16Directory)) :
    Divides header (fat16FreeDirectory directory) := by
  unfold fat16FreeDirectory
  cases directory with
  | none => exact Exec.avoids_pure _
  | some d => exact Exec.avoids_ite (fun _ => (divides_kfree _).bind fun _ => divides_kfree _) fun _ => divides_kfree _

theorem divides_fat16FatItemFree (item : Ptr FatItem) : Divides header (fat16FatItemFree item) := by
  unfold fat16FatItemFree
  cases item.val with
  | directory directory => exact (divides_fat16FreeDirectory directory).bind fun _ => divides_kfree _
  | file i => exact (divides_kfree _).bind fun _ => divides_kfree _

theorem divides_fat16LoadDirectory (hno : NoDivision env) (h0 : header.sectorsPerCluster ≠ 0) (dirItem : Nat) :
    Divides header (fat16LoadDirectory env dirItem) := by
  unfold fat16LoadDirectory
  refine Exec.avoids_get_bind fun s _ => ?_
  refine Exec.avoids_ite (fun _ => Exec.avoids_pure _) fun _ => ?_
  refine (divides_kzalloc hno _).bind fun directory => ?_
  refine Exec.avoids_ite (fun _ => Exec.avoids_pure _) fun _ => ?_
  refine Exec.avoids_get_bind fun s _ => ?_
  refine (divides_fat16GetTotalItemsForDirectory hno _).bind fun totalItems => ?_
  refine (divides_kzalloc hno _).bind fun item => ?_
  refine Exec.avoids_ite (fun _ => Exec.avoids_pure _) fun _ => ?_
  refine (divides_fat16ReadInternal hno h0 _ _ _ _).bind fun res => ?_
  refine Exec.avoids_ite (fun _ => ?_) fun _ => Exec.avoids_pure _
  exact (divides_fat16FreeDirectory _).bind fun _ => Exec.avoids_pure _

theorem divides_fat16NewFatItemDirectoryItem (hno : NoDivision env) (h0 : header.sectorsPerCluster ≠ 0) (item : Nat) :
    Divides header (fat16NewFatItemDirectoryItem env item) := by
  unfold fat16NewFatItemDirectoryItem
  refine (divides_kzalloc hno _).bind fun fItem => ?_
  refine Exec.avoids_ite (fun _ => Exec.avoids_pure _) fun _ => ?_
  refine Exec.avoids_get_bind fun s _ => ?_
  refine Exec.avoids_ite (fun _ => ?_) fun _ => ?_
  · exact (divides_fat16LoadDirectory hno h0 item).bind fun directory => Exec.avoids_pure _
  · refine Exec.Avoids.bind (Q := HasHeader header) ?_ fun _ => Exec.avoids_pure _
    unfold fat16CloneDirectoryItem
    refine Exec.avoids_ite (fun _ => Exec.avoids_pure _) fun _ => ?_
    refine (divides_kzalloc hno _).bind fun itemCopy => ?_
    refine Exec.avoids_ite (fun _ => Exec.avoids_pure _) fun _ => ?_
    exact Exec.avoids_get_bind fun s _ => Exec.avoids_pure _

theorem put_ne (out : NameBuffer) (c : Byte) : out.put c ≠ .error .divByZero := by
  unfold NameBuffer.put
  split
  · exact Exec.ok_ne _
  · exact nofun

theorem fat16ToProperString_ne (mem : Mem) (n : Nat) :
    ∀ {out : NameBuffer} {inp : Nat}, out.chars.length - out.pos = n →
    fat16ToProperString mem out inp ≠ .error .divByZero := by
  induction n with
  | zero =>
    intro out inp hn
    rw [fat16ToProperString]
    split
    · rw [if_neg (by omega)]
      exact nofun
    · split
      · exact put_ne _ _
      · exact Exec.ok_ne _
  | succ n ih =>
    intro out inp hn
    rw [fat16ToProperString]
    split
    · rw [if_pos (by omega)]
      exact ih (by simp only [List.length_set]; omega)
    · split
      · exact put_ne _ _
      · exact Exec.ok_ne _

theorem fat16GetRelativePathName_ne (mem : Mem) (item maxLen : Nat) :
    fat16GetRelativePathName mem item maxLen ≠ .error .divByZero := by
  unfold fat16GetRelativePathName
  refine Exec.bind_ne (fat16ToProperString_ne mem _ rfl) fun out => ?_
  split
  · refine Exec.bind_ne (put_ne _ _) fun out => ?_
    exact Exec.bind_ne (fat16ToProperString_ne mem _ rfl) fun out => Exec.ok_ne _
  · exact Exec.ok_ne _

theorem istrncmp_ne : ∀ (as bs : List Byte) (n : Nat), istrncmp as bs n ≠ .error .divByZero
  | as, bs, 0 => by
    rw [istrncmp]
    exact Exec.ok_ne _
  | a :: as, b :: bs, n + 1 => by
    rw [istrncmp]
    split
    · exact Exec.ok_ne _
    · exact istrncmp_ne as bs n
  | [], _, _ + 1 => nofun
  | _ :: _, [], _ + 1 => nofun

theorem divides_findLoop (hno : NoDivision env) (h0 : header.sectorsPerCluster ≠ 0) (d : Fat16Directory)
    (name : List Byte) :
    ∀ (n i : Nat) (fItem : Option (Ptr FatItem)), Divides header (findLoop env d name n i fItem)
  | 0, _, _ => Exec.avoids_pure _
  | n + 1, i, fItem => by
    rw [findLoop]
    refine Exec.avoids_get_bind fun s _ => ?_
    refine (Exec.avoids_lift (fat16GetRelativePathName_ne _ _ _)).bind fun tmpFilename => ?_
    refine (Exec.avoids_lift (istrncmp_ne _ _ _)).bind fun cmp => ?_
    refine Exec.avoids_ite (fun _ => ?_) fun _ => divides_findLoop hno h0 d name n (i + 1) fItem
    exact (divides_fat16NewFatItemDirectoryItem hno h0 _).bind fun fItem =>
      divides_findLoop hno h0 d name n (i + 1) fItem

theorem divides_fat16FindItemInDirectory (hno : NoDivision env) (h0 : header.sectorsPerCluster ≠ 0)
    (directory : Option Fat16Directory) (name : List Byte) :
    Divides header (fat16FindItemInDirectory env directory name) := by
  unfold fat16FindItemInDirectory
  cases directory with
  | none => exact Exec.avoids_throw (by decide)
  | some d => exact divides_findLoop hno h0 d name _ _ _

theorem divides_directoryEntryLoop (hno : NoDivision env) (h0 : header.sectorsPerCluster ≠ 0) :
    ∀ (parts : List (List Byte)) (currentItem : Option (Ptr FatItem)),
    Divides header (directoryEntryLoop env parts currentItem)
  | [], currentItem => Exec.avoids_pure currentItem
  | part :: next, none => Exec.avoids_throw (by decide)
  | part :: next, some ⟨_, .file _⟩ => Exec.avoids_pure none
  | part :: next, some ⟨a, .directory directory⟩ =>
    (divides_fat16FindItemInDirectory hno h0 (directory.map Ptr.val) part).bind fun tmpItem =>
      (divides_fat16FatItemFree ⟨a, .directory directory⟩).bind fun _ => divides_directoryEntryLoop hno h0 next tmpItem

theorem divides_fat16GetDirectoryEntry (hno : NoDivision env) (h0 : header.sectorsPerCluster ≠ 0) (part : List Byte)
    (next : List (List Byte)) : Divides header (fat16GetDirectoryEntry env part next) := by
  unfold fat16GetDirectoryEntry
  refine Exec.avoids_get_bind fun s _ => ?_
  refine (divides_fat16FindItemInDirectory hno h0 _ _).bind fun rootItem => ?_
  exact Exec.avoids_ite (fun _ => Exec.avoids_pure _) fun _ => divides_directoryEntryLoop hno h0 next rootItem

/-! ## Opening and reading -/

theorem divides_fat16Open (hno : NoDivision env) (h0 : header.sectorsPerCluster ≠ 0) (part : List Byte)
    (next : List (List Byte)) (mode : FileMode) : Divides header (fat16Open env part next mode) := by
  unfold fat16Open
  refine Exec.avoids_ite (fun _ => Exec.avoids_pure _) fun _ => ?_
  refine (divides_kzalloc hno _).bind fun descriptor => ?_
  refine Exec.avoids_ite (fun _ => Exec.avoids_pure _) fun _ => ?_
  refine (divides_fat16GetDirectoryEntry hno h0 _ _).bind fun _ => ?_
  refine (divides_fat16GetDirectoryEntry hno h0 _ _).bind fun item => ?_
  cases item with
  | none => exact Exec.avoids_pure _
  | some item => exact Exec.avoids_pure _

theorem divides_fileItem (descriptor : FatFileDescriptor) : Divides header (fileItem descriptor) := by
  unfold fileItem
  split
  · exact Exec.avoids_pure _
  · exact Exec.avoids_throw (by decide)
  · exact Exec.avoids_throw (by decide)

theorem divides_fat16Read (hno : NoDivision env) (h0 : header.sectorsPerCluster ≠ 0) (descriptor : FatFileDescriptor)
    (size nmemb out : Nat) : Divides header (fat16Read env descriptor size nmemb out) := by
  unfold fat16Read
  refine (divides_fileItem descriptor).bind fun item => ?_
  refine (avoids_readItems (steady_hasHeader header) hno.overread (hasBytes_header h0 _) _ _ _ _ _).bind fun res => ?_
  exact Exec.avoids_ite (fun _ => Exec.avoids_pure _) fun _ => Exec.avoids_pure _

theorem copyPart_ne (cTemp : Nat) : ∀ (path : List Byte) (i : Nat), copyPart cTemp path i ≠ .error .divByZero
  | [], i => by
    rw [copyPart]
    split
    · exact nofun
    · exact Exec.ok_ne _
  | c :: cs, i => by
    rw [copyPart]
    split
    · exact nofun
    · simp only
      split
      · exact Exec.bind_ne (copyPart_ne cTemp cs (i + 1)) fun r => Exec.ok_ne _
      · exact Exec.ok_ne _

theorem divides_storePart (hno : NoDivision env) (cTemp : Nat) (part : List Byte) :
    Divides header (storePart env cTemp part) := by
  unfold storePart
  exact Exec.avoids_ite (fun _ => divides_nullStore hno _ _) fun _ => Exec.avoids_pure _

theorem divides_pathparserGetPathPart (hno : NoDivision env) (path : List Byte) :
    Divides header (pathparserGetPathPart env path) := by
  unfold pathparserGetPathPart
  refine (divides_kzalloc hno _).bind fun temp => ?_
  refine (divides_kzalloc hno _).bind fun cTemp => ?_
  refine (Exec.avoids_lift (copyPart_ne cTemp path 0)).bind fun r => ?_
  simp only
  refine (divides_storePart hno cTemp r.1).bind fun _ => ?_
  refine Exec.avoids_ite (fun _ => ?_) fun _ => Exec.avoids_ite (fun _ => ?_) fun _ => Exec.avoids_pure _
  · exact (divides_kfree _).bind fun _ => Exec.avoids_pure _
  · exact (divides_nullStore hno _ _).bind fun _ => Exec.avoids_pure _

theorem divides_createPathPartLoop (hno : NoDivision env) :
    ∀ (n : Nat) (path : List Byte), Divides header (createPathPartLoop env n path)
  | 0, _ => Exec.avoids_throw (by decide)
  | n + 1, path => by
    rw [createPathPartLoop]
    refine (divides_pathparserGetPathPart hno path).bind fun r => ?_
    obtain ⟨part, path⟩ := r
    cases part with
    | none => exact Exec.avoids_pure _
    | some part => exact (divides_createPathPartLoop hno n path).bind fun r => Exec.avoids_pure _

theorem divides_pathparserParse (hno : NoDivision env) (path : List Byte) :
    Divides header (pathparserParse env path) := by
  unfold pathparserParse pathparserCreatePathRoot
  refine Exec.Avoids.bind (Q := HasHeader header) ?_ fun r => ?_
  · refine (divides_kzalloc hno _).bind fun temp => ?_
    simp only
    refine Exec.avoids_ite (fun _ => ?_) fun _ => Exec.avoids_pure _
    exact (divides_nullStore hno _ _).bind fun _ => Exec.avoids_pure _
  · refine (divides_createPathPartLoop hno _ _).bind fun r => ?_
    unfold linkFirst
    refine Exec.avoids_ite (fun _ => ?_) fun _ => Exec.avoids_pure _
    exact (divides_nullStore hno _ _).bind fun _ => Exec.avoids_pure _

theorem fileModeGetByString_ne (str : List Byte) : fileModeGetByString str ≠ .error .divByZero := by
  unfold fileModeGetByString
  refine Exec.bind_ne (istrncmp_ne _ _ _) fun cmp => ?_
  split
  · exact Exec.ok_ne _
  refine Exec.bind_ne (istrncmp_ne _ _ _) fun cmp => ?_
  split
  · exact Exec.ok_ne _
  refine Exec.bind_ne (istrncmp_ne _ _ _) fun cmp => ?_
  split
  · exact Exec.ok_ne _
  · exact Exec.ok_ne _

theorem divides_fileNewDescriptor (hno : NoDivision env) (privateData : Ptr FatFileDescriptor) :
    Divides header (fileNewDescriptor env privateData) := by
  unfold fileNewDescriptor
  refine Exec.avoids_get_bind fun s _ => ?_
  split
  · exact Exec.avoids_pure _
  · refine (divides_kzalloc hno _).bind fun desc => ?_
    refine Exec.avoids_ite (fun _ => ?_) fun _ => ?_
    · exact (divides_nullStore hno _ _).bind fun _ => (divides_nullStore hno _ _).bind fun _ => Exec.avoids_pure _
    · exact Exec.Avoids.bind (Q := HasHeader header) (Exec.avoids_modify fun _ hs => hs) fun _ => Exec.avoids_pure _

theorem divides_fopen (hno : NoDivision env) (h0 : header.sectorsPerCluster ≠ 0) (filename mode : List Byte) :
    Divides header (fopen env filename mode) := by
  unfold fopen
  refine (divides_pathparserParse hno _).bind fun rootPath => ?_
  cases rootPath with
  | none => exact Exec.avoids_pure _
  | some rootPath =>
  simp only
  split
  · exact Exec.avoids_pure _
  · refine Exec.avoids_ite (fun _ => Exec.avoids_pure _) fun _ => ?_
    refine Exec.avoids_get_bind fun s _ => ?_
    refine Exec.avoids_ite (fun _ => Exec.avoids_pure _) fun _ => ?_
    refine (Exec.avoids_lift (fileModeGetByString_ne mode)).bind fun fMode => ?_
    refine Exec.avoids_ite (fun _ => Exec.avoids_pure _) fun _ => ?_
    refine (divides_fat16Open hno h0 _ _ _).bind fun des => ?_
    cases des with
    | none => exact Exec.avoids_pure _
    | some des =>
      refine (divides_fileNewDescriptor hno des).bind fun index => ?_
      cases index with
      | none => exact Exec.avoids_pure _
      | some index => exact Exec.avoids_pure _

theorem divides_fileGetDescriptor (fd : Int) : Divides header (fileGetDescriptor fd) := by
  unfold fileGetDescriptor
  refine Exec.avoids_get_bind fun s _ => ?_
  split
  · exact Exec.avoids_pure _
  · exact Exec.avoids_pure _

theorem divides_fread (hno : NoDivision env) (h0 : header.sectorsPerCluster ≠ 0) (ptr size nmemb : Nat) (fd : Int) :
    Divides header (fread env ptr size nmemb fd) := by
  unfold fread
  refine Exec.avoids_ite (fun _ => Exec.avoids_pure _) fun _ => ?_
  refine (divides_fileGetDescriptor fd).bind fun desc => ?_
  cases desc with
  | none => exact Exec.avoids_pure _
  | some desc => exact divides_fat16Read hno h0 _ _ _ _

theorem divides_fseek (fd offset : Int) (whence : FileSeekMode) : Divides header (fseek fd offset whence) := by
  unfold fseek
  refine (divides_fileGetDescriptor fd).bind fun desc => ?_
  cases desc with
  | none => exact Exec.avoids_pure _
  | some desc =>
    refine Exec.Avoids.bind (Q := HasHeader header) ?_ fun r => ?_
    · unfold fat16Seek
      split
      · exact Exec.avoids_pure _
      · refine (divides_fileItem _).bind fun ritem => ?_
        refine Exec.avoids_ite (fun _ => Exec.avoids_pure _) fun _ => ?_
        cases whence with
        | seekSet => exact Exec.avoids_pure _
        | seekCur => exact Exec.avoids_pure _
        | seekEnd => exact Exec.avoids_pure _
        | other => exact Exec.avoids_pure _
    · refine Exec.Avoids.bind (Q := HasHeader header) (Exec.avoids_modify fun s hs => ?_) fun _ => Exec.avoids_pure _
      split
      · exact hs
      · exact hs

/-! ## Mounting -/

theorem divides_createDiskStreamer : Divides header createDiskStreamer := by
  unfold createDiskStreamer
  refine (divides_kmallac _).bind fun streamer => ?_
  exact Exec.avoids_ite (fun _ => Exec.avoids_throw (by decide)) fun _ => Exec.avoids_pure _

theorem divides_fat16LoadRootDirectory (hno : NoDivision env) (h0 : header.bytesPerSector.toNat ≠ 0) :
    Divides header (fat16LoadRootDirectory env) := by
  unfold fat16LoadRootDirectory
  refine Exec.avoids_get_bind fun s hs => ?_
  have hbytes : s.fat16Private.header.bytesPerSector.toNat ≠ 0 := by
    rw [hs]
    exact h0
  simp only
  rw [if_neg hbytes]
  refine (divides_kzalloc hno _).bind fun item => ?_
  refine (divides_streamerSeek _ _).bind fun _ => ?_
  refine (divides_streamerRead hno _ _).bind fun r => ?_
  refine Exec.avoids_ite (fun _ => Exec.avoids_throw (by decide)) fun _ => ?_
  refine Exec.Avoids.bind (Q := HasHeader header) (Exec.avoids_modify fun _ hs => hs) fun _ => ?_
  refine Exec.avoids_ite (fun _ => Exec.avoids_pure _) fun _ => ?_
  refine (divides_fat16GetTotalItemsForDirectory hno _).bind fun totalItems => ?_
  exact Exec.Avoids.bind (Q := HasHeader header) (Exec.avoids_modify fun _ hs => hs) fun _ => Exec.avoids_pure _

theorem fat16Resolve_ne (hno : NoDivision env) (h0 : (diskHeader env).bytesPerSector.toNat ≠ 0) (s : Sys) :
    fat16Resolve env s ≠ .error .divByZero := by
  have hrun : Exec.Avoids .divByZero (HasHeader s.fat16Private.header) (fat16Resolve env) fun _ => True := by
    have hpure : ∀ {H : Fat16HeaderPrimary} {a : Int},
      Exec.Avoids .divByZero (HasHeader H) (pure a : FsM Int) fun _ => True :=
      fun t ht => ⟨((Exec.avoids_pure _) t ht).1, fun _ _ _ => trivial⟩
    obtain ⟨res, stream, -, e⟩ := diskStreamerRead_header env
    unfold fat16Resolve
    refine (divides_kzalloc hno _).bind fun fat16Private => ?_
    refine Exec.avoids_ite (fun _ => Exec.avoids_throw (by decide)) fun _ => ?_
    refine divides_createDiskStreamer.bind fun _ => ?_
    refine divides_createDiskStreamer.bind fun _ => ?_
    refine divides_createDiskStreamer.bind fun _ => ?_
    refine divides_createDiskStreamer.bind fun headStreamer => ?_
    refine Exec.avoids_lift_bind e ?_
    refine Exec.avoids_ite (fun _ => hpure) fun _ => ?_
    refine Exec.avoids_ite (fun _ => hpure) fun _ => ?_
    refine Exec.Avoids.bind (Q := HasHeader (diskHeader env)) (Exec.avoids_modify fun _ _ => rfl) fun _ => ?_
    refine (divides_fat16LoadRootDirectory hno h0).bind fun loaded => ?_
    exact Exec.avoids_ite (fun _ => hpure) fun _ => (divides_kfree _).bind fun _ => hpure
  exact (hrun s rfl).1

/-- The first sector as memory. -/
def sectorMem (sector : Fin 512 → Byte) : Mem := fun a => if h : a < 512 then sector ⟨a, h⟩ else 0

/-- The header and the signature in a first sector. -/
def sectorHeader (sector : Fin 512 → Byte) : Fat16HeaderPrimary := headerAt (sectorMem sector) 0

def sectorSignature (sector : Fin 512 → Byte) : Byte := signatureAt (sectorMem sector) 0

theorem readMem_sector (env : Env) {a : Nat} (h : a < sizeofFat16Header) :
    readMem (bytesAt env 0 sizeofFat16Header) a = sectorMem (env.image 0) a := by
  have hlt : a < 62 := h
  unfold readMem sectorMem
  rw [store_apply, if_pos (Nat.zero_le a), Nat.sub_zero, getElem?_bytesAt env h, dif_pos (by omega)]
  have hpos : (0 + a) % 2 ^ 32 = a := by omega
  have hdiv : a / 512 = 0 := by omega
  have hmod : a % 512 = a := by omega
  rw [hpos, Option.getD_some]
  unfold Env.byteAt
  simp only [hdiv, hmod]

theorem diskHeader_eq (env : Env) : diskHeader env = sectorHeader (env.image 0) := by
  have hbyte : ∀ {a}, a < 62 → readMem (bytesAt env 0 sizeofFat16Header) a = sectorMem (env.image 0) a :=
    readMem_sector env
  unfold diskHeader sectorHeader headerAt uint16At uint32At
  rw [hbyte (by decide), hbyte (by decide), hbyte (by decide), hbyte (by decide), hbyte (by decide), hbyte (by decide),
    hbyte (by decide), hbyte (by decide), hbyte (by decide), hbyte (by decide), hbyte (by decide), hbyte (by decide),
    hbyte (by decide), hbyte (by decide)]

theorem diskSignature_eq (env : Env) : diskSignature env = sectorSignature (env.image 0) :=
  readMem_sector env (by decide)

/-! ## What a mount checks -/

/-- One call of the file system, or whatever the rest of the kernel does in between. -/
inductive FileStep (env : Env) : Sys → Sys → Prop
  | fopen {filename mode : List Byte} {fd : Int} {s s' : Sys} : fopen env filename mode s = .ok (fd, s') →
  FileStep env s s'
  | fread {ptr size nmemb : Nat} {fd res : Int} {s s' : Sys} : fread env ptr size nmemb fd s = .ok (res, s') →
    FileStep env s s'
  | fseek {fd offset res : Int} {whence : FileSeekMode} {s s' : Sys} : fseek fd offset whence s = .ok (res, s') →
    FileStep env s s'
  | other {s s' : Sys} : s'.fat16Private = s.fat16Private → FileStep env s s'

/-- Any number of steps later. -/
abbrev Later (env : Env) : Sys → Sys → Prop := Relation.ReflTransGen (FileStep env)

/-- No disk with this first sector makes its mount, or an open or a read at any time after it, divide by
zero, and the sectors of the root directory fit the buffer they are read into. -/
def MountsSafely (sector : Fin 512 → Byte) : Prop :=
  (∀ env, env.image 0 = sector → NoDivision env → ∀ s, fat16Resolve env s ≠ .error .divByZero ∧
    ∀ s' s'', fat16Resolve env s = .ok (0, s') → Later env s' s'' →
      (∀ pathPart next mode, fat16Open env pathPart next mode s'' ≠ .error .divByZero) ∧
      ∀ descriptor size nmemb out, fat16Read env descriptor size nmemb out s'' ≠ .error .divByZero) ∧
  rootSectors (sectorHeader sector) * 512 ≤
    rootSectors (sectorHeader sector) * (sectorHeader sector).bytesPerSector.toNat

theorem Later.hasHeader (hno : NoDivision env) (h0 : header.sectorsPerCluster ≠ 0) {s s' : Sys}
    (hs : HasHeader header s) (h : Later env s s') : HasHeader header s' := by
  induction h with
  | refl => exact hs
  | tail _ hstep ih =>
    cases hstep with
    | fopen e => exact (divides_fopen hno h0 _ _ _ ih).2 _ _ e
    | fread e => exact (divides_fread hno h0 _ _ _ _ _ ih).2 _ _ e
    | fseek e => exact (divides_fseek _ _ _ _ ih).2 _ _ e
    | other e =>
      unfold HasHeader at *
      rw [e]
      exact ih

end

/-! ## A disk with nothing but its first sector -/

def blankDisk (sector : Fin 512 → Byte) : Env :=
  ⟨fun n => if n = 0 then sector else fun _ => 0, fun _ _ => .ok 0, fun _ mem => .ok mem,
    fun _ _ _ => .error .nullDeref⟩

theorem noDivision_blankDisk (sector : Fin 512 → Byte) : NoDivision (blankDisk sector) :=
  ⟨fun _ _ => Exec.ok_ne _, fun _ _ => Exec.ok_ne _, nofun⟩

section
variable {sector : Fin 512 → Byte}

theorem rootSectors_mul_le (header : Fat16HeaderPrimary) :
    rootSectors header * header.bytesPerSector.toNat ≤
      header.rootDirEntries.toNat * sizeofFat16DirectoryItem + header.bytesPerSector.toNat := by
  unfold rootSectors
  simp only
  have h := Nat.div_mul_le_self (header.rootDirEntries.toNat * sizeofFat16DirectoryItem) header.bytesPerSector.toNat
  split
  · omega
  · rw [Nat.succ_mul]
    omega

theorem rootSectors_eq_zero_iff {header : Fat16HeaderPrimary} (h0 : header.bytesPerSector ≠ 0) :
    rootSectors header = 0 ↔ header.rootDirEntries = 0 := by
  have hpos : header.bytesPerSector.toNat ≠ 0 := fun h => h0 (BitVec.eq_of_toNat_eq h)
  have hentries : header.rootDirEntries.toNat = 0 ↔ header.rootDirEntries = 0 :=
    ⟨fun h => BitVec.eq_of_toNat_eq h, fun h => by rw [h]; rfl⟩
  have hdm := Nat.div_add_mod (header.rootDirEntries.toNat * sizeofFat16DirectoryItem) header.bytesPerSector.toNat
  rw [← hentries]
  unfold rootSectors sizeofFat16DirectoryItem at *
  simp only
  constructor
  · intro h
    split at h
    · rename_i hmod
      rw [h, hmod] at hdm
      omega
    · exact absurd h (Nat.succ_ne_zero _)
  · intro h
    rw [h, Nat.zero_mul, Nat.zero_mod, if_pos rfl, Nat.zero_div]

theorem marker_blankDisk (sector : Fin 512 → Byte) :
    ∃ m < 2 ^ 27, Marker (blankDisk sector) (rootPos (diskHeader (blankDisk sector))) m := by
  have hlt : rootPos (diskHeader (blankDisk sector)) < 2 ^ 32 := Nat.mod_lt _ (by decide)
  have hmod : rootPos (diskHeader (blankDisk sector)) % 512 = 0 := by
    unfold rootPos fat16SectorsToAbosulute sectorSize
    omega
  generalize rootPos (diskHeader (blankDisk sector)) = p at hlt hmod
  have hzero : ∀ q, q / 512 ≠ 0 → (blankDisk sector).byteAt q = 0 := by
    intro q hq
    unfold Env.byteAt blankDisk
    simp only [if_neg hq]
  by_cases h0 : p = 0
  · subst h0
    exact exists_marker (m := 16) (hzero _ (by decide)) (by decide)
  · refine exists_marker (m := 0) (hzero _ ?_) (by decide)
    rw [Nat.mul_zero, Nat.add_zero, Nat.mod_eq_of_lt hlt]
    omega

theorem mounts_blankDisk (hsig : sectorSignature sector = 0x29) (h0 : (sectorHeader sector).bytesPerSector ≠ 0) :
    ∃ s', fat16Resolve (blankDisk sector) (bare 4096 1) = .ok (0, s') := by
  have hheader : diskHeader (blankDisk sector) = sectorHeader sector := diskHeader_eq _
  obtain ⟨m, hm, hmark⟩ := marker_blankDisk sector
  have hok : (bare 4096 1).Ok 1 4096 := @AllocState.ok_init 1 4096 (by decide) fun _ => 0
  have hroom : (bare 4096 1).Room 4094 := room_bare (by decide) (by decide) (by decide)
  have hsize : blockCount (rootSectors (sectorHeader sector) * (sectorHeader sector).bytesPerSector.toNat) ≤ 529 := by
    have hle := rootSectors_mul_le (sectorHeader sector)
    have h1 := (sectorHeader sector).bytesPerSector.isLt
    have h2 := (sectorHeader sector).rootDirEntries.isLt
    unfold sizeofFat16DirectoryItem at hle
    generalize rootSectors (sectorHeader sector) * (sectorHeader sector).bytesPerSector.toNat = k at hle
    by_cases hk : k ≤ 4096
    · rw [blockCount_of_le hk]
      decide
    · have hbounds := (blockCount_bounds k).2 (by omega)
      unfold pmmBlockSize at hbounds
      omega
  obtain ⟨s', e, -⟩ := fat16Resolve_room (n := 0) (blankDisk sector) hok ((diskSignature_eq _).trans hsig) hm hmark
    (by rw [hheader]; exact fun h => h0 (BitVec.eq_of_toNat_eq h)) (hroom.mono (by rw [hheader]; omega))
  exact ⟨s', e⟩

theorem resolve_divides (hsig : sectorSignature sector = 0x29) (h0 : (sectorHeader sector).bytesPerSector = 0) :
    fat16Resolve (blankDisk sector) (bare 4096 1) = .error .divByZero := by
  have hroom : (bare 4096 1).Room 4094 := room_bare (by decide) (by decide) (by decide)
  obtain ⟨priv, s1, e1, hpriv, hroom1⟩ := kzalloc_room (blankDisk sector) hroom (m := sizeofFat16Private) (by decide)
  obtain ⟨a, s2, e2, hroom2⟩ := createDiskStreamer_room (n := 4092) (hroom1.mono (by decide))
  obtain ⟨b, s3, e3, hroom3⟩ := createDiskStreamer_room hroom2
  obtain ⟨c, s4, e4, hroom4⟩ := createDiskStreamer_room hroom3
  obtain ⟨head, s5, e5, -⟩ := createDiskStreamer_room hroom4
  obtain ⟨res, stream, hres, e6⟩ := diskStreamerRead_header (blankDisk sector)
  have hread : (liftM (diskStreamerRead (blankDisk sector) ⟨0⟩ sizeofFat16Header) :
    FsM (Int × List Byte × DiskStream)) s5 =
      .ok ((res, bytesAt (blankDisk sector) 0 sizeofFat16Header, stream), s5) := by
    rw [e6]
    rfl
  have hsig' : diskSignature (blankDisk sector) = 0x29 := (diskSignature_eq _).trans hsig
  have hnot : ¬ signatureAt (readMem (bytesAt (blankDisk sector) 0 sizeofFat16Header)) 0 ≠ 0x29 := not_not.2 hsig'
  unfold fat16Resolve
  rw [Exec.bind_of_ok e1, if_neg hpriv, Exec.bind_of_ok e2, Exec.bind_of_ok e3, Exec.bind_of_ok e4, Exec.bind_of_ok e5,
    Exec.bind_of_ok hread]
  simp only
  rw [if_neg (by omega), if_neg hnot, Exec.bind_of_ok (Exec.modify_apply ..)]
  refine Exec.bind_of_error ?_
  unfold fat16LoadRootDirectory
  rw [Exec.bind_of_ok (Exec.get_apply _)]
  simp only
  have hzero : (diskHeader (blankDisk sector)).bytesPerSector.toNat = 0 := by
    rw [diskHeader_eq]
    show (sectorHeader sector).bytesPerSector.toNat = 0
    rw [h0]
    rfl
  exact (if_pos hzero).symm ▸ rfl

/-- With clusters of no sectors a read of any file divides by zero. -/
theorem fat16Read_divides {env : Env} {s : Sys} (h0 : s.fat16Private.header.sectorsPerCluster = 0)
    (item : Fat16DirectoryItem) :
    fat16Read env ⟨⟨0, .file (some ⟨0, item⟩)⟩, 0⟩ 1 1 0 s = .error .divByZero := by
  have hsize : sizeOfClusterInBytes s.fat16Private = 0 := by
    unfold sizeOfClusterInBytes
    rw [h0]
    rfl
  unfold fat16Read
  rw [Exec.bind_of_ok (fileItem_apply rfl s)]
  refine Exec.bind_of_error ?_
  rw [readItems]
  refine Exec.bind_of_error ?_
  unfold fat16ReadInternal
  rw [fat16ReadInternalFromStream, Exec.bind_of_ok (Exec.get_apply s)]
  simp only
  rw [if_pos hsize]
  rfl

/-- A first sector mounts safely exactly when its sectors have a size, its clusters have sectors, and its
sectors are no smaller than 512 bytes unless the root directory has no entries. -/
theorem mount_safe_iff (sector : Fin 512 → Byte) (hsig : sectorSignature sector = 0x29) : MountsSafely sector ↔
    (sectorHeader sector).bytesPerSector ≠ 0 ∧ (sectorHeader sector).sectorsPerCluster ≠ 0 ∧
      (512 ≤ (sectorHeader sector).bytesPerSector.toNat ∨ (sectorHeader sector).rootDirEntries = 0) := by
  have hfits : rootSectors (sectorHeader sector) * 512 ≤
    rootSectors (sectorHeader sector) * (sectorHeader sector).bytesPerSector.toNat ↔
      rootSectors (sectorHeader sector) = 0 ∨ 512 ≤ (sectorHeader sector).bytesPerSector.toNat := by
    rcases Nat.eq_zero_or_pos (rootSectors (sectorHeader sector)) with h | h
    · rw [h]
      simp
    · rw [Nat.mul_le_mul_left_iff h]
      exact ⟨.inr, fun hor => hor.resolve_left (Nat.ne_of_gt h)⟩
  constructor
  · rintro ⟨hruns, hroot⟩
    have hbytes : (sectorHeader sector).bytesPerSector ≠ 0 := fun h =>
      (hruns (blankDisk sector) rfl (noDivision_blankDisk sector) (bare 4096 1)).1 (resolve_divides hsig h)
    refine ⟨hbytes, fun h => ?_, ?_⟩
    · obtain ⟨s', e⟩ := mounts_blankDisk hsig hbytes
      have hheader := (of_fat16Resolve e).2.2.1
      obtain ⟨-, hread⟩ := (hruns (blankDisk sector) rfl (noDivision_blankDisk sector) (bare 4096 1)).2 s' s' e .refl
      refine hread _ _ _ _ (fat16Read_divides ?_ ⟨0, 0, 0, 0⟩)
      rw [hheader, diskHeader_eq]
      exact h
    · rcases hfits.1 hroot with h | h
      · exact .inr ((rootSectors_eq_zero_iff hbytes).1 h)
      · exact .inl h
  · rintro ⟨hbytes, hclusters, hroot⟩
    refine ⟨fun env himage hno s => ?_, hfits.2 ?_⟩
    · subst himage
      have hheader := diskHeader_eq env
      refine ⟨fat16Resolve_ne hno (fun h => hbytes ?_) s, fun s' s'' e hlater => ?_⟩
      · rw [← hheader]
        exact BitVec.eq_of_toNat_eq h
      · have hs'' := Later.hasHeader hno hclusters (((of_fat16Resolve e).2.2.1).trans hheader) hlater
        exact ⟨fun pathPart next mode => (divides_fat16Open hno hclusters pathPart next mode s'' hs'').1,
          fun descriptor size nmemb out => (divides_fat16Read hno hclusters descriptor size nmemb out s'' hs'').1⟩
    · rcases hroot with h | h
      · exact .inr h
      · exact .inl ((rootSectors_eq_zero_iff hbytes).2 h)

end

/-- A first sector with the signature and nothing else. -/
def signedSector : Fin 512 → Byte := fun i => if i.val = 38 then 0x29 else 0

/-- One with sectors of 512 bytes in clusters of one sector. -/
def plainSector : Fin 512 → Byte :=
    fun i => if i.val = 38 then 0x29 else if i.val = 12 then 2 else if i.val = 13 then 1 else 0

theorem mount_safe_plain : MountsSafely plainSector ↔ (sectorHeader plainSector).bytesPerSector ≠ 0 ∧
    (sectorHeader plainSector).sectorsPerCluster ≠ 0 ∧
      (512 ≤ (sectorHeader plainSector).bytesPerSector.toNat ∨ (sectorHeader plainSector).rootDirEntries = 0) :=
  mount_safe_iff plainSector (by decide)

/-- The signature alone is accepted, and the mount divides by zero. -/
theorem signed_mount_divides : sectorSignature signedSector = 0x29 ∧ ¬ MountsSafely signedSector := by
  refine ⟨by decide, fun h => ?_⟩
  obtain ⟨hno, -⟩ := h.1 (blankDisk signedSector) rfl (noDivision_blankDisk signedSector) (bare 4096 1)
  exact hno (resolve_divides (by decide) (by decide))

end SimpleMicrokernel.Fs
