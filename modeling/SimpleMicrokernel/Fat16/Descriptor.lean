/-
Open files: `fat16_read`, `fat16_seek` and `fat16_stat` on a `struct fat_file_descriptor`. A
read is a loop of requests, one for each item, at offsets a size apart; the position in the
descriptor is where it starts and is not moved.
-/
import SimpleMicrokernel.Fat16.Read

namespace SimpleMicrokernel.Fat16

open Memory Disk Fs

/-- `enum FILE_SEEK_MODE`, with the values that name no mode. -/
inductive FileSeekMode where
  | seekSet
  | seekCur
  | seekEnd
  | other
deriving DecidableEq, Repr

/-- `struct file_stat`. -/
structure FileStat where
  flags : Nat
  filesize : BitVec 32
deriving DecidableEq, Repr

/-- `FAT_FILE_READ_ONLY` and `FILE_STAT_READ_ONLY`. -/
def fatFileReadOnly : BitVec 8 := 0x01
def fileStatReadOnly : Nat := 1

/-- `desc->item->item`, read as a file's item. -/
def fileItem (descriptor : FatFileDescriptor) : FsM Fat16DirectoryItem :=
  match descriptor.item.val with
  | .file (some item) => return item.val
  | .file none => throw .nullDeref
  | .directory _ => throw .typeConfusion

/-- The loop of `fat16_read` over the items left to read. -/
def readItems (env : Env) (startingCluster size : Nat) : Nat → Int → Nat → FsM Int
  | 0, _, _ => return 0
  | n + 1, offset, outPtr => do
    let res ← fat16ReadInternal env startingCluster offset (int32 size) outPtr
    if res < 0 then
      return -1
    readItems env startingCluster size n (int32 (offset + size)) (outPtr + size)

/-- `fread` asks for at least one item, so the item is read. -/
def fat16Read (env : Env) (descriptor : FatFileDescriptor) (size nmemb outPtr : Nat) : FsM Int := do
  let item ← fileItem descriptor
  let offset := int32 descriptor.pos.toNat
  let res ← readItems env (fat16GetFirstCluster item) size nmemb offset outPtr
  if res < 0 then
    return -1
  return int32 nmemb

/-- The result and the descriptor's new position. -/
def fat16Seek (descriptor : FatFileDescriptor) (offset : Nat) (seekMode : FileSeekMode) : FsM (Int × BitVec 32) :=
  match descriptor.item.val with
  | .directory _ => return (-1, descriptor.pos)
  | .file _ => do
    let ritem ← fileItem descriptor
    if offset ≥ ritem.filesize.toNat then
      return (-1, descriptor.pos)
    match seekMode with
    | .seekSet => return (0, BitVec.ofNat 32 offset)
    | .seekEnd => return (-1, descriptor.pos)
    | .seekCur => return (0, descriptor.pos + BitVec.ofNat 32 offset)
    | .other => return (-1, descriptor.pos)

/-- The result is 1, and what is written to `stat`, for a file. -/
def fat16Stat (descriptor : FatFileDescriptor) : FsM (Int × Option FileStat) :=
  match descriptor.item.val with
  | .directory _ => return (-1, none)
  | .file _ => do
    let ritem ← fileItem descriptor
    let flags := if ritem.itemAttribute &&& fatFileReadOnly ≠ 0 then fileStatReadOnly else 0
    return (1, some ⟨flags, ritem.filesize⟩)

/-! ## The items of a read -/

/-- Where item `i` of a read starts, as the `int` the loop keeps. -/
def itemOffset (pos size i : Nat) : Int := int32 ((pos + i * size : Nat) : Int)

/-- The bytes that a read of `n` items of `size` bytes from `pos` on leaves, item after item. -/
def itemsBytes (env : Env) (fat16Private : Fat16Private) (c pos size : Nat) : Nat → List Byte
  | 0 => []
  | n + 1 => requestBytes env fat16Private c (stepLength fat16Private size) (int32 pos) size ++
      itemsBytes env fat16Private c (pos + size) size n

theorem length_itemsBytes (env : Env) (fat16Private : Fat16Private) (c : Nat) {size : Nat} :
    ∀ {pos n : Nat}, (itemsBytes env fat16Private c pos size n).length = n * size
  | _, 0 => by simp [itemsBytes]
  | pos, n + 1 => by
    rw [itemsBytes, List.length_append, length_requestBytes, length_itemsBytes env fat16Private c, Nat.succ_mul,
      Nat.add_comm]

theorem itemsBytes_stream (env : Env) (fat16Private : Fat16Private) (stream : StreamId → DiskStream) :
    itemsBytes env { fat16Private with stream := stream } = itemsBytes env fat16Private := by
  funext c pos size n
  induction n generalizing pos with
  | zero => rfl
  | succ n ih =>
    rw [itemsBytes, itemsBytes, ih]
    rfl

theorem itemsBytes_overread (env : Env) (overread : Nat → Nat → Except Halt Byte) :
    itemsBytes { env with overread := overread } = itemsBytes env := by
  funext fat16Private c pos size n
  induction n generalizing pos with
  | zero => rfl
  | succ n ih =>
    rw [itemsBytes, itemsBytes, ih]
    rfl

section
variable {env : Env}

theorem int32_natCast_add (pos size : Nat) : int32 (int32 pos + size) = int32 ((pos + size : Nat) : Int) := by
  rw [int32_int32_add, Nat.cast_add]

theorem itemOffset_zero (pos size : Nat) : itemOffset pos size 0 = int32 pos := by
  unfold itemOffset
  simp

theorem itemOffset_succ (pos size i : Nat) : itemOffset (pos + size) size i = itemOffset pos size (i + 1) := by
  unfold itemOffset
  congr 2
  ring

/-- The loop leaves the bytes of its items when every request walks and starts where it may. -/
theorem readItems_ok (env : Env) {c size n : Nat} (hn : 0 < size) (hlt : size < 2 ^ 32) (pos outPtr : Nat) (s : Sys)
    (hsize : 0 < sizeOfClusterInBytes s.fat16Private)
    (hwalk : ∀ i < n, ∀ t < size, WalksTo env s.fat16Private c
      (stepOffset (stepLength s.fat16Private size) (itemOffset pos size i) t))
    (hbuf : ∀ i < n, InBuffer (uint32 (itemOffset pos size i)) size) :
    ∃ s', SameButStreams { s with mem := store s.mem outPtr (itemsBytes env s.fat16Private c pos size n) } s' ∧
      readItems env c size n (int32 pos) outPtr s = .ok (0, s') := by
  induction n generalizing pos outPtr s with
  | zero => exact ⟨s, rfl, rfl⟩
  | succ n ih =>
    have ho : int32 (int32 pos) = int32 pos := by simpa using int32_int32_add pos 0
    have hwalk0 := hwalk 0 (by omega)
    have hbuf0 := hbuf 0 (by omega)
    rw [itemOffset_zero] at hwalk0 hbuf0
    obtain ⟨s1, hsame1, e1⟩ := readRequest_ok hn hlt outPtr hsize ho hwalk0 hbuf0
    have hpriv : sizeOfClusterInBytes s1.fat16Private = sizeOfClusterInBytes s.fat16Private ∧
        WalksTo env s1.fat16Private = WalksTo env s.fat16Private ∧
        stepLength s1.fat16Private = stepLength s.fat16Private ∧
        itemsBytes env s1.fat16Private = itemsBytes env s.fat16Private := by
      rw [hsame1]; exact ⟨rfl, rfl, rfl, itemsBytes_stream ..⟩
    obtain ⟨s2, hsame2, e2⟩ := ih (pos + size) (outPtr + size) s1 (by omega)
      (fun i hi t ht => by
        rw [hpriv.2.1, hpriv.2.2.1, itemOffset_succ]
        exact hwalk (i + 1) (by omega) t ht)
      (fun i hi => by
        rw [itemOffset_succ]
        exact hbuf (i + 1) (by omega))
    refine ⟨s2, ?_, ?_⟩
    · have hmem : store s1.mem (outPtr + size) (itemsBytes env s.fat16Private c (pos + size) size n) =
          store s.mem outPtr (itemsBytes env s.fat16Private c pos size (n + 1)) := by
        have happ := store_append s.mem outPtr
          (requestBytes env s.fat16Private c (stepLength s.fat16Private size) (int32 pos) size)
          (itemsBytes env s.fat16Private c (pos + size) size n)
        rw [length_requestBytes] at happ
        rw [hsame1, itemsBytes]
        exact happ
      rw [hpriv.2.2.2, hmem] at hsame2
      unfold SameButStreams at *
      rw [hsame2, hsame1]
    · rw [readItems, Exec.bind_of_ok e1, if_neg (by decide), int32_natCast_add]
      exact e2

/-- A request that leaves a sector buffer which may not be read past stops the kernel. -/
theorem readItems_halts {e : Halt} (hover : ∀ pos index, env.overread pos index = .error e) {c size n : Nat}
    (hn : 0 < size) (hlt : size < 2 ^ 32) (pos outPtr : Nat) (s : Sys) (hsize : 0 < sizeOfClusterInBytes s.fat16Private)
    (hwalk : ∀ i < n, ∀ t < size, WalksTo env s.fat16Private c
      (stepOffset (stepLength s.fat16Private size) (itemOffset pos size i) t))
    (hbuf : ∃ i < n, ¬ InBuffer (uint32 (itemOffset pos size i)) size) :
    readItems env c size n (int32 pos) outPtr s = .error e := by
  induction n generalizing pos outPtr s with
  | zero => obtain ⟨i, hi, -⟩ := hbuf; omega
  | succ n ih =>
    have ho : int32 (int32 pos) = int32 pos := by simpa using int32_int32_add pos 0
    have hwalk0 := hwalk 0 (by omega)
    rw [itemOffset_zero] at hwalk0
    rw [readItems]
    by_cases hbuf0 : InBuffer (uint32 (int32 pos)) size
    · obtain ⟨s1, hsame1, e1⟩ := readRequest_ok hn hlt outPtr hsize ho hwalk0 hbuf0
      have hpriv : sizeOfClusterInBytes s1.fat16Private = sizeOfClusterInBytes s.fat16Private ∧
          WalksTo env s1.fat16Private = WalksTo env s.fat16Private ∧
          stepLength s1.fat16Private = stepLength s.fat16Private := by
        rw [hsame1]; exact ⟨rfl, rfl, rfl⟩
      rw [Exec.bind_of_ok e1, if_neg (by decide), int32_natCast_add]
      refine ih (pos + size) (outPtr + size) s1 (by omega) (fun i hi t ht => ?_) ?_
      · rw [hpriv.2.1, hpriv.2.2, itemOffset_succ]
        exact hwalk (i + 1) (by omega) t ht
      · obtain ⟨i, hi, hout⟩ := hbuf
        cases i with
        | zero => rw [itemOffset_zero] at hout; exact absurd hbuf0 hout
        | succ i => exact ⟨i, by omega, by rw [itemOffset_succ]; exact hout⟩
    · have hfirst : stepOffset (stepLength s.fat16Private size) (int32 pos) 0 = int32 pos := by
        unfold stepOffset
        rw [Nat.zero_div]
        simpa using ho
      have hw := hwalk0 0 hn
      rw [hfirst] at hw
      exact Exec.bind_of_error (readRequest_halts hover hlt outPtr hsize hw hbuf0)

end

end SimpleMicrokernel.Fat16
