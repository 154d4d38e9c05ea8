/-
Opening a file: `fat16_open`, and `fopen` with the mode it parses and the slot it takes. The path is
looked up twice; what the first lookup gave is only tested.
-/
import SimpleMicrokernel.Fat16.Frame
import SimpleMicrokernel.Fs.File
import SimpleMicrokernel.Fs.PathParser

namespace SimpleMicrokernel.Fs

open Memory Fat16

/-- `enum FILE_MODE`. -/
inductive FileMode where
  | fileModeRead
  | fileModeWrite
  | fileModeAppend
  | fileModeInvalid
deriving DecidableEq, Repr

/-- Every mode but `r` is taken for write, and `w` for append: `!x == 0` says that `x` is not zero. -/
def fileModeGetByString (str : List Byte) : Except Halt FileMode := do
  if (← istrncmp (str ++ [0]) [0x72] 1) = 0 then
    return .fileModeRead
  if (← istrncmp (str ++ [0]) [0x77] 1) ≠ 0 then
    return .fileModeWrite
  if (← istrncmp (str ++ [0]) [0x61] 1) ≠ 0 then
    return .fileModeAppend
  return .fileModeInvalid

/-- `sizeof(struct fat_file_descriptor)`, `sizeof(struct file_descriptor)`. -/
def sizeofFatFileDescriptor : Nat := 8
def sizeofFileDescriptor : Nat := 16

/-- `path_part` is never null. -/
def fat16Open (env : Env) (pathPart : List Byte) (next : List (List Byte)) (mode : FileMode) :
    FsM (Option (Ptr FatFileDescriptor)) := do
  if mode ≠ .fileModeRead then
    return none
  let descriptor ← kzalloc env sizeofFatFileDescriptor
  if descriptor = 0 then
    return none
  let _ ← fat16GetDirectoryEntry env pathPart next
  match ← fat16GetDirectoryEntry env pathPart next with
  | none => return none
  | some item => return some ⟨descriptor, ⟨item, 0⟩⟩

/-- The first free slot from 1 on takes a new descriptor, whose private data the caller gives. Without memory for one
the number and the private data go through null, the slot stays free, and its number is given all the same. -/
def fileNewDescriptor (env : Env) (privateData : Ptr FatFileDescriptor) : FsM (Option (Fin maxFileDescriptors)) := do
  let s ← get
  match Fin.find? fun i => 1 ≤ i.val ∧ (s.fileDescriptors i).isNone with
  | none => return none
  | some i =>
    let desc ← kzalloc env sizeofFileDescriptor
    if desc = 0 then
      nullStore env 0 (uint32Bytes (BitVec.ofNat 32 i.val))
      nullStore env 8 (uint32Bytes (BitVec.ofNat 32 privateData.addr))
      return some i
    else
      modify fun s => { s with fileDescriptors := Function.update s.fileDescriptors i (some ⟨desc, ⟨i, privateData⟩⟩) }
      return some i

/-- Drive 0 is the one disk there is. -/
def diskGet (index : Int) : Bool := index = 0

def fopen (env : Env) (filename mode : List Byte) : FsM Int := do
  match ← pathparserParse env filename with
  | none => return -1
  | some rootPath =>
    match rootPath.val.first.map fun part => part.val.part.val with
    | [] => return -1
    | pathPart :: next =>
      if !diskGet rootPath.val.drivePath then
        return -1
      if !(← get).filesystem then
        return -1
      let fMode ← (fileModeGetByString mode : Except Halt FileMode)
      if fMode = .fileModeInvalid then
        return -1
      match ← fat16Open env pathPart next fMode with
      | none => return -1
      | some desPrivateData =>
        match ← fileNewDescriptor env desPrivateData with
        | none => return -1
        | some index => return index

/-! ## What an open gives -/

section
variable {env : Env} {s s' : Sys}

/-- An open in the file system that gives something has allocated it and found its item, at its beginning. -/
theorem of_fat16Open {pathPart : List Byte} {next : List (List Byte)} {mode : FileMode} {des : Ptr FatFileDescriptor}
    (h : fat16Open env pathPart next mode s = .ok (some des, s')) :
    ∃ descriptor s1 e s2 item, kzalloc env sizeofFatFileDescriptor s = .ok (descriptor, s1) ∧ descriptor ≠ 0 ∧
      fat16GetDirectoryEntry env pathPart next s1 = .ok (e, s2) ∧
      fat16GetDirectoryEntry env pathPart next s2 = .ok (some item, s') ∧ des = ⟨descriptor, ⟨item, 0⟩⟩ := by
  have hnone : ∀ {t : Sys}, (pure none : FsM (Option (Ptr FatFileDescriptor))) t = .ok (some des, s') → False := by
    intro t ht
    obtain ⟨he, -⟩ := Exec.of_pure_ok ht
    cases he
  unfold fat16Open at h
  split at h
  · exact (hnone h).elim
  · obtain ⟨descriptor, s1, h1, h⟩ := Exec.of_bind_ok h
    split at h
    · exact (hnone h).elim
    · rename_i hdescriptor
      obtain ⟨e, s2, h2, h⟩ := Exec.of_bind_ok h
      obtain ⟨item, s3, h3, h⟩ := Exec.of_bind_ok h
      cases item with
      | none => exact (hnone h).elim
      | some item =>
        obtain ⟨he, rfl⟩ := Exec.of_pure_ok h
        cases he
        exact ⟨descriptor, s1, e, s2, item, h1, hdescriptor, h2, h3, rfl⟩

/-- The slot whose number is given was free. A new descriptor is put into it, or there was no memory for one and the
number went through null. -/
theorem of_fileNewDescriptor {privateData : Ptr FatFileDescriptor} {i : Fin maxFileDescriptors}
    (h : fileNewDescriptor env privateData s = .ok (some i, s')) : 1 ≤ i.val ∧ s.fileDescriptors i = none ∧
      ∃ addr s1, kzalloc env sizeofFileDescriptor s = .ok (addr, s1) ∧
        ((addr ≠ 0 ∧
            s' = { s1 with fileDescriptors := Function.update s1.fileDescriptors i (some ⟨addr, ⟨i, privateData⟩⟩) }) ∨
          (addr = 0 ∧ ∃ s2, nullStore env 0 (uint32Bytes (BitVec.ofNat 32 i.val)) s1 = .ok ((), s2) ∧
            nullStore env 8 (uint32Bytes (BitVec.ofNat 32 privateData.addr)) s2 = .ok ((), s'))) := by
  unfold fileNewDescriptor at h
  rw [Exec.bind_of_ok (Exec.get_apply s)] at h
  cases hfind : Fin.find? (fun i : Fin maxFileDescriptors => 1 ≤ i.val ∧ (s.fileDescriptors i).isNone) with
  | none =>
    rw [hfind] at h
    obtain ⟨he, -⟩ := Exec.of_pure_ok h
    cases he
  | some j =>
    rw [hfind] at h
    simp only at h
    obtain ⟨addr, s1, h1, h⟩ := Exec.of_bind_ok h
    obtain ⟨hpos, hfree⟩ := of_decide_eq_true (Fin.find?_eq_some_iff.1 hfind).1
    have hfree := Option.isNone_iff_eq_none.1 hfree
    split at h
    · rename_i haddr
      obtain ⟨⟨⟩, s2, h2, h⟩ := Exec.of_bind_ok h
      obtain ⟨⟨⟩, s3, h3, h⟩ := Exec.of_bind_ok h
      obtain ⟨he, rfl⟩ := Exec.of_pure_ok h
      cases he
      exact ⟨hpos, hfree, addr, s1, h1, .inr ⟨haddr, s2, h2, h3⟩⟩
    · rename_i haddr
      rw [Exec.bind_of_ok (Exec.modify_apply ..)] at h
      obtain ⟨he, rfl⟩ := Exec.of_pure_ok h
      cases he
      exact ⟨hpos, hfree, addr, s1, h1, .inl ⟨haddr, rfl⟩⟩

theorem sameFiles_fileNewDescriptor_null {privateData : Ptr FatFileDescriptor} {i : Fin maxFileDescriptors}
    {s1 s2 : Sys} (h1 : kzalloc env sizeofFileDescriptor s = .ok (0, s1))
    (h2 : nullStore env 0 (uint32Bytes (BitVec.ofNat 32 i.val)) s1 = .ok ((), s2))
    (h3 : nullStore env 8 (uint32Bytes (BitVec.ofNat 32 privateData.addr)) s2 = .ok ((), s')) : SameFiles s s' := by
  have f12 : SameFiles s1 s2 := sameFiles_nullStore _ _ _ _ _ _ h2
  exact IsTrans.trans _ _ _ (sameFiles_kzalloc env _ _ _ _ h1)
    (IsTrans.trans _ _ _ f12 (sameFiles_nullStore _ _ _ _ _ _ h3))

theorem of_fileNewDescriptor_some {privateData : Ptr FatFileDescriptor} {i : Fin maxFileDescriptors}
    (h : fileNewDescriptor env privateData s = .ok (some i, s')) : 1 ≤ i.val ∧ s.fileDescriptors i = none ∧
      ((∃ addr, s'.fileDescriptors = Function.update s.fileDescriptors i (some ⟨addr, ⟨i, privateData⟩⟩)) ∨
        SameFiles s s') := by
  obtain ⟨hpos, hfree, addr, s1, h1, ⟨-, rfl⟩ | ⟨rfl, s2, h2, h3⟩⟩ := of_fileNewDescriptor h
  · exact ⟨hpos, hfree, .inl ⟨addr, by rw [← (sameFiles_kzalloc env _ _ _ _ h1).fileDescriptors]⟩⟩
  · exact ⟨hpos, hfree, .inr (sameFiles_fileNewDescriptor_null h1 h2 h3)⟩

end

end SimpleMicrokernel.Fs
