/-
Directories: loading one into memory, finding a name in one, and resolving a path part by part.
The items made on the way are given back once the next part is found in them.
-/
import SimpleMicrokernel.Fat16.Read
import SimpleMicrokernel.Fs.Name

namespace SimpleMicrokernel.Fat16

open Memory Disk Fs

/-- `FAT_FILE_SUBDIRECTORY`. -/
def fatFileSubdirectory : BitVec 8 := 0x10

/-- `sizeof(struct fat16_directory_item)`. -/
def sizeofFat16DirectoryItem : Nat := 32

/-! ## Loading a directory -/

/-- The item at an address, its fields at their offsets. -/
def itemAt (mem : Mem) (a : Nat) : Fat16DirectoryItem :=
  ⟨mem (a + 11), uint16At mem (a + 20), uint16At mem (a + 26), uint32At mem (a + 28)⟩

/-- The loop of `fat16_get_total_items_for_directory`. The stream comes back to where it started
after `2^27` entries; a disk with no end marker among them is counted for ever. -/
def totalItemsLoop (env : Env) : Nat → Int → FsM Int
  | 0, _ => throw .hang
  | n + 1, i => do
    let (res, bytes) ← streamerRead env .directory sizeofFat16DirectoryItem
    if res ≤ 0 then
      return -1
    if bytes.head? = some 0x00 then
      return i
    if bytes.head? = some 0xE5 then
      totalItemsLoop env n i
    else
      totalItemsLoop env n (i + 1)

def fat16GetTotalItemsForDirectory (env : Env) (startSector : Nat) : FsM Int := do
  let _ ← streamerSeek .directory (fat16SectorsToAbosulute startSector)
  totalItemsLoop env (2 ^ 27) 0

def fat16FreeDirectory (directory : Option (Ptr Fat16Directory)) : FsM Unit := do
  match directory with
  | none => return
  | some d =>
    if d.val.item ≠ 0 then
      kfree d.val.item
    kfree d.addr

/-- A file whose item was not cloned gives back the null address. -/
def fat16FatItemFree (item : Ptr FatItem) : FsM Unit := do
  match item.val with
  | .directory directory => fat16FreeDirectory directory
  | .file i => kfree ((i.map Ptr.addr).getD 0)
  kfree item.addr

/-- `sizeof(struct fat16_directory)`, `sizeof(struct fat_item)`. -/
def sizeofFat16Directory : Nat := 16
def sizeofFatItem : Nat := 8

/-- `dirItem` is the address of the item in its directory's array. -/
def fat16LoadDirectory (env : Env) (dirItem : Nat) : FsM (Option (Ptr Fat16Directory)) := do
  if (itemAt (← get).mem dirItem).itemAttribute &&& fatFileSubdirectory = 0 then
    return none
  let directory ← kzalloc env sizeofFat16Directory
  if directory = 0 then
    return none
  let s ← get
  let cluster := fat16GetFirstCluster (itemAt s.mem dirItem)
  let clusterSector := fat16ClusterToSector s.fat16Private cluster
  let totalItems ← fat16GetTotalItemsForDirectory env (uint32 clusterSector)
  let directorySize := int32 (uint32 (totalItems * sizeofFat16DirectoryItem))
  let item ← kzalloc env (uint32 directorySize)
  if item = 0 then
    return none
  let res ← fat16ReadInternal env cluster 0x00 directorySize item
  let d : Ptr Fat16Directory := ⟨directory, ⟨item, totalItems, 0, 0⟩⟩
  if res < 0 then
    fat16FreeDirectory (some d)
    return none
  return some d

/-- The copy keeps the item as it was read; its bytes are not looked at again. -/
def fat16CloneDirectoryItem (env : Env) (item size : Nat) : FsM (Option (Ptr Fat16DirectoryItem)) := do
  if size < sizeofFat16DirectoryItem then
    return none
  let itemCopy ← kzalloc env size
  if itemCopy = 0 then
    return none
  return some ⟨itemCopy, itemAt (← get).mem item⟩

def fat16NewFatItemDirectoryItem (env : Env) (item : Nat) : FsM (Option (Ptr FatItem)) := do
  let fItem ← kzalloc env sizeofFatItem
  if fItem = 0 then
    return none
  if (itemAt (← get).mem item).itemAttribute &&& fatFileSubdirectory ≠ 0 then
    let directory ← fat16LoadDirectory env item
    return some ⟨fItem, .directory directory⟩
  else
    let item ← fat16CloneDirectoryItem env item sizeofFat16DirectoryItem
    return some ⟨fItem, .file item⟩

/-! ## Finding a name -/

/-- The loop of `fat16_find_item_in_directory`: `n` entries left, the next one `i`. Every match makes
an item and the last one is returned. -/
def findLoop (env : Env) (directory : Fat16Directory) (name : List Byte) :
    Nat → Nat → Option (Ptr FatItem) → FsM (Option (Ptr FatItem))
  | 0, _, fItem => return fItem
  | n + 1, i, fItem => do
    let item := directory.item + i * sizeofFat16DirectoryItem
    let tmpFilename ← (fat16GetRelativePathName (← get).mem item maxPathName : Except Halt (List Byte))
    let cmp ← (istrncmp tmpFilename name name.length : Except Halt Int)
    if cmp = 0 then
      let fItem ← fat16NewFatItemDirectoryItem env item
      findLoop env directory name n (i + 1) fItem
    else
      findLoop env directory name n (i + 1) fItem

/-- `directory` is a pointer, read for `total_entries` first. -/
def fat16FindItemInDirectory (env : Env) (directory : Option Fat16Directory) (name : List Byte) :
    FsM (Option (Ptr FatItem)) :=
  match directory with
  | none => throw .nullDeref
  | some d => findLoop env d name d.totalEntries.toNat 0 none

/-! ## Resolving a path -/

/-- The loop of `fat16_get_directory_entry` over the parts after the first. -/
def directoryEntryLoop (env : Env) : List (List Byte) → Option (Ptr FatItem) → FsM (Option (Ptr FatItem))
  | [], currentItem => return currentItem
  | part :: next, currentItem =>
    match currentItem with
    | none => throw .nullDeref
    | some item =>
      match item.val with
      | .file _ => return none
      | .directory directory => do
        let tmpItem ← fat16FindItemInDirectory env (directory.map Ptr.val) part
        fat16FatItemFree item
        directoryEntryLoop env next tmpItem

def fat16GetDirectoryEntry (env : Env) (part : List Byte) (next : List (List Byte)) : FsM (Option (Ptr FatItem)) := do
  let rootItem ← fat16FindItemInDirectory env (some (← get).fat16Private.rootDirectory) part
  if rootItem.isNone then
    return none
  directoryEntryLoop env next rootItem

end SimpleMicrokernel.Fat16
