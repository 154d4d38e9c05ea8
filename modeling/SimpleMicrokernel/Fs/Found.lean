/-
When an open succeeds: with room for a dozen blocks a file that is alone in the root directory is found
under its name and opened.
-/
import SimpleMicrokernel.Fs.Open
import SimpleMicrokernel.Fs.Paths

namespace SimpleMicrokernel.Fs

open Memory Fat16

section
variable {reserved size n m : Nat} {held : List Live} {env : Env} {s0 s s' : Sys}

/-! ## The path -/

theorem Fresh.pathparserGetPathPart {name : List Byte} (h : Fresh reserved size held (n + 2) s0 s) (env : Env)
    (hname : IsPart name) :
    ∃ part s', pathparserGetPathPart env name s = .ok ((some part, []), s') ∧ part.val.part.val = name ∧
      Fresh reserved size held n s0 s' := by
  obtain ⟨temp, s1, e1, htemp, h1, -⟩ := h.kzallocPage env (by decide : sizeofPathPart ≤ 4096)
  obtain ⟨cTemp, s2, e2, hcTemp, h2, -⟩ := h1.kzallocPage env (by decide : maxPath ≤ 4096)
  have hstart : StartsWith name name [] := ⟨(List.append_nil _).symm, hname.chars, .inl rfl⟩
  exact ⟨_, s2, hstart.getPathPart_of_blocks (List.ne_nil_of_length_pos hname.nonempty) hname.short e1 e2 htemp hcTemp,
    rfl, h2⟩

theorem Fresh.pathparserGetPathPart_end (h : Fresh reserved size held (n + 3) s0 s) (env : Env) :
    ∃ s', Fs.pathparserGetPathPart env [] s = .ok ((none, []), s') ∧ Fresh reserved size held n s0 s' := by
  obtain ⟨temp, s1, e1, htemp, h1, hl1⟩ := h.kzallocPage env (by decide : sizeofPathPart ≤ 4096)
  obtain ⟨cTemp, s2, e2, hcTemp, h2, hl2⟩ := h1.kzallocPage env (by decide : maxPath ≤ 4096)
  have hnew : ∀ a ∈ held, a.addr ≠ temp := fun a ha => (h1.ok.fresh hl1 a (h.live ha)).symm.addr_ne
  have hin : (⟨temp, sizeofPathPart, .kheap⟩ : Live) ∈ s2.live :=
    hl2 ▸ List.mem_cons_of_mem _ (hl1 ▸ List.mem_cons_self ..)
  obtain ⟨s3, e3, h3⟩ := h2.kfree hin (by decide) hnew
  refine ⟨s3, ?_, h3⟩
  have hcopy : copyPart cTemp [] 0 = .ok ([], []) := by
    rw [copyPart, if_neg fun h => absurd h.2 (by decide)]
  have hend : (do Fs.kfree temp; return (none, []) : FsM (Option (Ptr PathPart) × List Byte)) s2 =
    .ok ((none, []), s3) := by
    rw [Exec.bind_of_ok e3]
    rfl
  rw [pathparserGetPathPart_copied e1 e2 hcopy, finishPart, Exec.bind_of_ok (storePart_buffer hcTemp [] s2)]
  exact hend

/-- A path of one part on drive 0. -/
def onePart (name : List Byte) : List Byte := [0x30, 0x3A, 0x2F] ++ name

theorem pathparserGetDriveByPath_onePart {name : List Byte} (hname : IsPart name) :
    pathparserGetDriveByPath (onePart name) = (0, name) := by
  obtain ⟨c, cs, rfl⟩ : ∃ c cs, name = c :: cs := by
    cases name with
    | nil => exact absurd hname.nonempty (by decide)
    | cons c cs => exact ⟨c, cs, rfl⟩
  have hc := (hname.chars c (List.mem_cons_self ..)).2
  have hlen : ¬ strnlen (onePart (c :: cs)) maxPath ≤ 3 := by
    simp only [onePart, List.cons_append, List.nil_append, strnlen, if_neg hc]
    have h1 : (0x30 : Byte) ≠ 0 := by decide
    have h2 : (0x3A : Byte) ≠ 0 := by decide
    have h3 : (0x2F : Byte) ≠ 0 := by decide
    rw [if_neg h1, if_neg h2, if_neg h3]
    omega
  unfold pathparserGetDriveByPath pathparserPathValidFormat
  simp only [if_neg hlen]
  rfl

theorem Fresh.pathparserParse {name : List Byte} (h : Fresh reserved size held (n + 6) s0 s) (env : Env)
    (hname : IsPart name) :
    ∃ root s', pathparserParse env (onePart name) s = .ok (some root, s') ∧ root.val.drivePath = 0 ∧
      (root.val.first.map fun part => part.val.part.val) = [name] ∧ Fresh reserved size held n s0 s' := by
  obtain ⟨temp, s1, e1, htemp, h1, -⟩ := h.kzallocPage env (by decide : sizeofPathRoot ≤ 4096)
  obtain ⟨part, s2, e2, hpart, h2⟩ := h1.pathparserGetPathPart env hname
  obtain ⟨s3, e3, h3⟩ := h2.pathparserGetPathPart_end env
  refine ⟨⟨temp, ⟨0, [part]⟩⟩, s3, ?_, rfl, by rw [List.map_singleton, hpart], h3⟩
  have hroot : pathparserCreatePathRoot env (onePart name) s = .ok ((temp, 0, name), s1) := by
    unfold pathparserCreatePathRoot
    rw [Exec.bind_of_ok e1, pathparserGetDriveByPath_onePart hname]
    simp only [if_neg htemp]
    rfl
  have hend : ∀ m, createPathPartLoop env (m + 1) [] s2 = .ok (([], []), s3) := by
    intro m
    rw [createPathPartLoop, Exec.bind_of_ok e3]
    rfl
  have hparts : pathparserCreatePathPart env name s1 = .ok (([part], []), s3) := by
    obtain ⟨m, hm⟩ : ∃ m, name.length = m + 1 := ⟨name.length - 1, by have := hname.nonempty; omega⟩
    unfold pathparserCreatePathPart
    rw [hm, createPathPartLoop, Exec.bind_of_ok e2]
    simp only
    rw [Exec.bind_of_ok (hend m)]
    rfl
  unfold Fs.pathparserParse
  rw [Exec.bind_of_ok hroot]
  simp only
  rw [Exec.bind_of_ok hparts]
  exact linkFirst_root htemp 0 [part] s3

/-! ## The file -/

/-- The root directory, whose array is `array`, has one entry, which is a file with this name and item. -/
structure OneFile (name : List Byte) (item : Fat16DirectoryItem) (array : Live) (s : Sys) : Prop where
  filesystem : s.filesystem = true
  entries : s.fat16Private.rootDirectory.totalEntries = 1
  address : s.fat16Private.rootDirectory.item = array.addr
  named : ∀ mem : Mem, (∀ x, array.Covers x → mem x = s.mem x) →
    ∃ tmp, fat16GetRelativePathName mem array.addr maxPathName = .ok tmp ∧ istrncmp tmp name name.length = .ok 0
  holds : ∀ mem : Mem, (∀ x, array.Covers x → mem x = s.mem x) → itemAt mem array.addr = item
  file : item.itemAttribute &&& fatFileSubdirectory = 0

variable {name : List Byte} {item : Fat16DirectoryItem} {array : Live}

theorem Fresh.fat16NewFatItemDirectoryItem (h : Fresh reserved size held (n + 2) s0 s) (env : Env)
    (hone : OneFile name item array s0) (harray : array ∈ held) :
    ∃ addr copy s', fat16NewFatItemDirectoryItem env array.addr s = .ok (some ⟨addr, .file (some ⟨copy, item⟩)⟩, s') ∧
      Fresh reserved size held n s0 s' := by
  obtain ⟨addr, s1, e1, haddr, h1, -⟩ := h.kzallocPage env (by decide : sizeofFatItem ≤ 4096)
  obtain ⟨copy, s2, e2, hcopy, h2, -⟩ := h1.kzallocPage env (by decide : sizeofFat16DirectoryItem ≤ 4096)
  have hitem1 := hone.holds s1.mem (h1.mem array harray)
  have hclone : fat16CloneDirectoryItem env array.addr sizeofFat16DirectoryItem s1 = .ok (some ⟨copy, item⟩, s2) := by
    unfold fat16CloneDirectoryItem
    rw [if_neg (by decide), Exec.bind_of_ok e2, if_neg hcopy, Exec.bind_of_ok (Exec.get_apply s2),
      hone.holds s2.mem (h2.mem array harray)]
    rfl
  refine ⟨addr, copy, s2, ?_, h2⟩
  unfold Fat16.fat16NewFatItemDirectoryItem
  rw [Exec.bind_of_ok e1, if_neg haddr, Exec.bind_of_ok (Exec.get_apply s1), hitem1, if_neg (not_not.2 hone.file),
    Exec.bind_of_ok hclone]
  rfl

theorem Fresh.fat16GetDirectoryEntry (h : Fresh reserved size held (n + 2) s0 s) (env : Env)
    (hone : OneFile name item array s0) (harray : array ∈ held) :
    ∃ addr copy s', fat16GetDirectoryEntry env name [] s = .ok (some ⟨addr, .file (some ⟨copy, item⟩)⟩, s') ∧
      Fresh reserved size held n s0 s' := by
  obtain ⟨addr, copy, s', e, h'⟩ := h.fat16NewFatItemDirectoryItem env hone harray
  obtain ⟨tmp, hname, hcmp⟩ := hone.named s.mem (h.mem array harray)
  have htmp : (liftM (fat16GetRelativePathName s.mem array.addr maxPathName) : FsM (List Byte)) s = .ok (tmp, s) := by
    rw [hname]
    rfl
  have hcmp : (liftM (istrncmp tmp name name.length) : FsM Int) s = .ok (0, s) := by
    rw [hcmp]
    rfl
  have hroot : s.fat16Private.rootDirectory = s0.fat16Private.rootDirectory := by rw [h.files.fat16Private]
  have hfind : fat16FindItemInDirectory env (some s.fat16Private.rootDirectory) name s =
      .ok (some ⟨addr, .file (some ⟨copy, item⟩)⟩, s') := by
    unfold fat16FindItemInDirectory
    simp only [hroot, hone.entries]
    show findLoop env _ name 1 0 none s = _
    rw [findLoop, Exec.bind_of_ok (Exec.get_apply s), hone.address, Nat.zero_mul, Nat.add_zero]
    rw [Exec.bind_of_ok htmp, Exec.bind_of_ok hcmp, if_pos rfl]
    exact Exec.bind_of_ok e
  refine ⟨addr, copy, s', ?_, h'⟩
  unfold Fat16.fat16GetDirectoryEntry
  rw [Exec.bind_of_ok (Exec.get_apply s), Exec.bind_of_ok hfind]
  rfl

theorem Fresh.fat16Open (h : Fresh reserved size held (n + 5) s0 s) (env : Env) (hone : OneFile name item array s0)
    (harray : array ∈ held) :
    ∃ descriptor addr copy s', fat16Open env name [] .fileModeRead s =
      .ok (some ⟨descriptor, ⟨⟨addr, .file (some ⟨copy, item⟩)⟩, 0⟩⟩, s') ∧ Fresh reserved size held n s0 s' := by
  obtain ⟨descriptor, s1, e1, hdes, h1, -⟩ := h.kzallocPage env (by decide : sizeofFatFileDescriptor ≤ 4096)
  obtain ⟨_, _, s2, e2, h2⟩ := h1.fat16GetDirectoryEntry env hone harray
  obtain ⟨addr, copy, s3, e3, h3⟩ := h2.fat16GetDirectoryEntry env hone harray
  refine ⟨descriptor, addr, copy, s3, ?_, h3⟩
  unfold Fs.fat16Open
  rw [if_neg (by decide), Exec.bind_of_ok e1, if_neg hdes, Exec.bind_of_ok e2, Exec.bind_of_ok e3]
  rfl

/-- The state with a new descriptor in a slot. -/
def Sys.withDescriptor (s : Sys) (i : Fin maxFileDescriptors) (desc : Ptr FileDescriptor) : Sys :=
  { s with fileDescriptors := Function.update s.fileDescriptors i (some desc) }

/-- A file alone in the root directory is opened under its name, in the first slot that is free. -/
theorem Fresh.fopen (h : Fresh reserved size held (n + 12) s0 s) (env : Env) (hname : IsPart name)
    (hone : OneFile name item array s0) (harray : array ∈ held) {i : Fin maxFileDescriptors}
    (hfree : Fin.find? (fun i : Fin maxFileDescriptors => 1 ≤ i.val ∧ (s0.fileDescriptors i).isNone) = some i) :
    ∃ desc s', fopen env (onePart name) [0x72] s = .ok ((i.val : Int), s') ∧
      Fresh reserved size held n (s0.withDescriptor i desc) s' ∧ HoldsFile s' i item 0 := by
  obtain ⟨root, s1, e1, hdrive, hparts, h1⟩ := h.pathparserParse env hname
  obtain ⟨descriptor, addr, copy, s2, e2, h2⟩ := h1.fat16Open env hone harray
  obtain ⟨desc, s3, e3, hdesc, h3, -⟩ := h2.kzallocPage env (by decide : sizeofFileDescriptor ≤ 4096)
  have hslots : s2.fileDescriptors = s0.fileDescriptors := h2.files.fileDescriptors
  refine ⟨⟨desc, ⟨i, descriptor, ⟨addr, .file (some ⟨copy, item⟩)⟩, 0⟩⟩, s3.withDescriptor i
    ⟨desc, ⟨i, descriptor, ⟨addr, .file (some ⟨copy, item⟩)⟩, 0⟩⟩, ?_, ?_, ?_⟩
  · have hnew : fileNewDescriptor env ⟨descriptor, ⟨⟨addr, .file (some ⟨copy, item⟩)⟩, 0⟩⟩ s2 =
      .ok (some i, s3.withDescriptor i
        ⟨desc, ⟨i, descriptor, ⟨addr, .file (some ⟨copy, item⟩)⟩, 0⟩⟩) := by
      unfold fileNewDescriptor
      rw [Exec.bind_of_ok (Exec.get_apply s2), hslots, hfree]
      simp only
      rw [Exec.bind_of_ok e3, if_neg hdesc, Exec.bind_of_ok (Exec.modify_apply ..)]
      rfl
    have hmode : (liftM (fileModeGetByString [0x72]) : FsM FileMode) s1 = .ok (.fileModeRead, s1) := rfl
    have hfs : s1.filesystem = true := h1.files.filesystem.trans hone.filesystem
    unfold Fs.fopen
    rw [Exec.bind_of_ok e1]
    simp only [hparts]
    rw [hdrive, if_neg (by decide), Exec.bind_of_ok (Exec.get_apply s1), hfs, if_neg (by decide)]
    rw [Exec.bind_of_ok hmode, if_neg (by decide), Exec.bind_of_ok e2]
    exact Exec.bind_of_ok hnew
  · exact ⟨h3.ok, h3.room, h3.live, h3.mem, ⟨h3.ends.live, h3.ends.mem⟩, h3.files.filesystem, h3.files.fat16Private,
      congrArg (Function.update · i _) h3.files.fileDescriptors⟩
  · exact ⟨copy, _, Function.update_self .., rfl, rfl⟩

end

end SimpleMicrokernel.Fs
