/-
The data of the file system and the state its functions run on. The structures of `fat16.h` and
`file.h` that the kernel allocates one by one are values that keep the address they were
allocated at; what it reads and writes as bytes (directory arrays, file contents) is in memory.
-/
import SimpleMicrokernel.Disk.Streamer
import SimpleMicrokernel.Memory.AllocRun

namespace SimpleMicrokernel.Fs

open Memory Disk

/-- `disk->sector_size`, set by `disk_search_init`. -/
def sectorSize : Nat := 512

/-- The fields of `struct fat16_header_primary` the kernel uses. -/
structure Fat16HeaderPrimary where
  bytesPerSector : BitVec 16
  sectorsPerCluster : BitVec 8
  reservedSectors : BitVec 16
  fatCopies : BitVec 8
  rootDirEntries : BitVec 16
  sectorsPerFat : BitVec 16
  hiddenSetors : BitVec 32
deriving DecidableEq, Repr

/-- The fields of `struct fat16_directory_item` that are read once the item is cloned. -/
structure Fat16DirectoryItem where
  itemAttribute : BitVec 8
  high16BitsFirstCluster : BitVec 16
  low16BitsFirstCluster : BitVec 16
  filesize : BitVec 32
deriving DecidableEq, Repr

/-- `struct fat16_directory`: `item` is the address of the array, in memory. -/
structure Fat16Directory where
  item : Nat
  totalEntries : Int
  startSectorPos : Int
  endingSectorPos : Int
deriving DecidableEq, Repr

/-- A structure allocated by itself: its address and its value. -/
structure Ptr (α : Type) where
  addr : Nat
  val : α
deriving DecidableEq, Repr

/-- `struct fat_item`: the type and the side of the union it names, `none` for a null pointer. -/
inductive FatItem where
  | directory (directory : Option (Ptr Fat16Directory))
  | file (item : Option (Ptr Fat16DirectoryItem))
deriving DecidableEq, Repr

/-- `struct fat_file_descriptor`. -/
structure FatFileDescriptor where
  item : Ptr FatItem
  pos : BitVec 32
deriving DecidableEq, Repr

/-- `struct file_descriptor`: its file system and disk are the only ones there are. -/
structure FileDescriptor where
  index : Nat
  privateData : Ptr FatFileDescriptor
deriving DecidableEq, Repr

/-- The three streams of `struct fat16_private`. -/
inductive StreamId where
  | clusterRead
  | fatRead
  | directory
deriving DecidableEq, Repr

/-- `struct fat16_private`. -/
structure Fat16Private where
  header : Fat16HeaderPrimary
  rootDirectory : Fat16Directory
  stream : StreamId → DiskStream

/-- `MAX_FILE_DESCRIPTORS`. -/
abbrev maxFileDescriptors : Nat := 512

/-- The allocator with what its callers hold, memory, and the file system. `filesystem` says whether
`disk->filesystem` is bound. -/
structure Sys extends AllocState where
  filesystem : Bool
  fat16Private : Fat16Private
  fileDescriptors : Fin maxFileDescriptors → Option (Ptr FileDescriptor)

/-- A computation of the file system. -/
abbrev FsM := Exec Halt Sys

/-! ## The allocator -/

/-- The allocator after other tables and other holdings. -/
def Sys.alloc (s : Sys) (heap : Heap) (live : List Live) : Sys := { s with heap := heap, live := live }

def kmallac (size : Nat) : FsM Nat := fun s =>
  let (temp, heap) := s.heap.kmallac size
  .ok (temp, s.alloc heap (AllocState.hold s.live ⟨temp, size, .kheap⟩))

def kfree (addr : Nat) : FsM Unit := modify fun s =>
  s.alloc (s.heap.kfree addr) (s.live.filter fun a => a.addr ≠ addr)

/-- The zero fill of a null pointer is the machine's. -/
def kzalloc (env : Env) (size : Nat) : FsM Nat := do
  let temp ← kmallac size
  let s ← get
  let mem ← (if temp = 0 then env.nullFill size s.mem else .ok (memset s.mem temp 0 size) : Except Halt Mem)
  set { s with mem := mem }
  return temp

/-- So is a store through one. -/
def nullStore (env : Env) (a : Nat) (bytes : List Byte) : FsM Unit := do
  let s ← get
  let mem ← (env.nullStore a bytes s.mem : Except Halt Mem)
  set { s with mem := mem }

def pmmAllocateBlock : FsM Nat := fun s =>
  let (addr, pmm) := s.heap.pmm.pmmAllocateBlock
  .ok (addr, s.alloc { s.heap with pmm := pmm } (AllocState.hold s.live (.block addr)))

def pmmFreeBlock (ptr : Nat) : FsM Unit := modify fun s =>
  s.alloc { s.heap with pmm := s.heap.pmm.pmmFreeBlock ptr } (s.live.filter fun a => a.addr ≠ ptr)

/-- A store through an address the kernel may be given as null. -/
def setMem (f : Mem → Mem) : FsM Unit := modify fun s => { s with mem := f s.mem }

/-! ## Streams -/

/-- The state with one stream moved. -/
def Sys.setStream (s : Sys) (id : StreamId) (stream : DiskStream) : Sys :=
  { s with fat16Private := { s.fat16Private with stream := Function.update s.fat16Private.stream id stream } }

@[simp] theorem Sys.stream_setStream (s : Sys) (id : StreamId) (stream : DiskStream) :
    (s.setStream id stream).fat16Private.stream id = stream := by
  simp [Sys.setStream]

def streamerSeek (id : StreamId) (pos : Int) : FsM Int := do
  let s ← get
  let (res, stream) := diskStreamerSeek (s.fat16Private.stream id) pos
  set (s.setStream id stream)
  return res

def streamerRead (env : Env) (id : StreamId) (total : Nat) : FsM (Int × List Byte) := fun s => do
  let (res, out, stream) ← diskStreamerRead env (s.fat16Private.stream id) total
  return ((res, out), s.setStream id stream)

/-- The two states differ at most in where the streams are. -/
def SameButStreams (s s' : Sys) : Prop :=
  s' = { s with fat16Private := { s.fat16Private with stream := s'.fat16Private.stream } }

instance : Std.Refl SameButStreams := ⟨fun _ => rfl⟩

instance : IsTrans Sys SameButStreams where
  trans s s' s'' h1 h2 := by
    unfold SameButStreams at *
    rw [h2, h1]

theorem SameButStreams.heap {s s' : Sys} (h : SameButStreams s s') : s'.heap = s.heap := by rw [h]

theorem SameButStreams.live {s s' : Sys} (h : SameButStreams s s') : s'.live = s.live := by rw [h]

theorem SameButStreams.header {s s' : Sys} (h : SameButStreams s s') :
    s'.fat16Private.header = s.fat16Private.header := by rw [h]

theorem SameButStreams.fileDescriptors {s s' : Sys} (h : SameButStreams s s') :
    s'.fileDescriptors = s.fileDescriptors := by rw [h]

theorem sameButStreams_setStream (s : Sys) (id : StreamId) (stream : DiskStream) :
    SameButStreams s (s.setStream id stream) := rfl

theorem streamerSeek_apply (id : StreamId) (pos : Int) (s : Sys) :
    streamerSeek id pos s = .ok (0, s.setStream id ⟨uint32 pos⟩) := rfl

theorem seek_read_ok (env : Env) (id : StreamId) (pos : Int) (total : Nat) (s : Sys)
    (h : InBuffer (uint32 pos) total) :
    ∃ res s', 0 < res ∧ SameButStreams s s' ∧
      streamerRead env id total (s.setStream id ⟨uint32 pos⟩) = .ok ((res, bytesAt env (uint32 pos) total), s') := by
  obtain ⟨res, hres, e⟩ := diskStreamerRead_ok env (uint32_lt pos) h
  refine ⟨res, (s.setStream id ⟨uint32 pos⟩).setStream id ⟨(uint32 pos + total) % 2 ^ 32⟩, hres, ?_, ?_⟩
  · rfl
  · unfold streamerRead
    simp only [Sys.setStream, Function.update_self, e]
    rfl

theorem streamerRead_halts {env : Env} {e : Halt} (hover : ∀ pos index, env.overread pos index = .error e)
    (id : StreamId) (pos : Int) (total : Nat) (s : Sys) (h : ¬ InBuffer (uint32 pos) total) :
    streamerRead env id total (s.setStream id ⟨uint32 pos⟩) = .error e := by
  unfold streamerRead
  simp only [Sys.setStream, Function.update_self, diskStreamerRead_halts hover h]
  rfl

theorem of_streamerRead_ok {env : Env} {id : StreamId} {total : Nat} {s s' : Sys} {res : Int} {out : List Byte}
    (h : streamerRead env id total s = .ok ((res, out), s')) :
    0 < res ∧ out.length = total ∧ SameButStreams s s' := by
  unfold streamerRead at h
  cases hr : diskStreamerRead env (s.fat16Private.stream id) total with
  | error => rw [hr] at h; cases h
  | ok r =>
    obtain ⟨res', out', stream⟩ := r
    rw [hr] at h
    cases h
    obtain ⟨h1, h2, -⟩ := diskStreamerRead_length hr
    exact ⟨h1, h2, rfl⟩

end SimpleMicrokernel.Fs
