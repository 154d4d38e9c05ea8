/-
What an open leaves behind. `pathparser_create_path_root` allocates the root of the path first, and
nothing gives it back: whatever `fopen` returns, one block more is held, and it is not one of
those the descriptor is made of.
-/
import SimpleMicrokernel.Fs.Frame

namespace SimpleMicrokernel.Fs

open Memory Fat16

/-- What an open descriptor is made of: itself, its private data and the item. -/
def descriptorAddrs : Option (Ptr FileDescriptor) → List Nat
  | none => []
  | some desc => desc.addr :: desc.val.privateData.addr :: itemAddrs desc.val.privateData.val.item

/-- What an open may leave of its allocations: nothing when it failed, and what its descriptor is made
of when it did not. -/
structure KeepsNeeded (s s' : Sys) (fd : Int) : Prop where
  failed : fd = -1 → s'.fileDescriptors = s.fileDescriptors ∧ s'.heap = s.heap
  opened : ∀ i : Fin maxFileDescriptors, fd = i.val → ∀ a ∈ s'.live, a ∉ s.live →
    a.addr ∈ descriptorAddrs (s'.fileDescriptors i)

/-- An allocation is held after an open and was not before, its block was not marked, and the descriptor
is not made of it. -/
def KeepsMore (s s' : Sys) (fd : Int) : Prop :=
  ∃ root : Live, root ∉ s.live ∧ root ∈ s'.live ∧ s.heap.pmm.marked (root.addr / pmmBlockSize) = false ∧
    s'.heap.pmm.marked (root.addr / pmmBlockSize) = true ∧
    ∀ i : Fin maxFileDescriptors, fd = i.val → root.addr ∉ descriptorAddrs (s'.fileDescriptors i)

section
variable {reserved size : Nat} {held : List Live} {env : Env} {s s' : Sys}

theorem KeepsMore.not_needed {fd : Int} (h : KeepsMore s s' fd)
    (hfd : fd = -1 ∨ ∃ i : Fin maxFileDescriptors, fd = i.val) :
    ¬ KeepsNeeded s s' fd := by
  obtain ⟨root, hnew, hroot, hclear, hmarked, hout⟩ := h
  intro hkeeps
  rcases hfd with hfd | ⟨i, hfd⟩
  · rw [(hkeeps.failed hfd).2, hclear] at hmarked
    cases hmarked
  · exact hout i hfd (hkeeps.opened i hfd root hroot hnew)

/-! ## The volume -/

/-- The file system, what is mounted and the open files are as they were; the streams, the allocator
and memory may have changed. -/
structure SameVolume (s s' : Sys) : Prop where
  filesystem : s'.filesystem = s.filesystem
  header : s'.fat16Private.header = s.fat16Private.header
  rootDirectory : s'.fat16Private.rootDirectory = s.fat16Private.rootDirectory
  fileDescriptors : s'.fileDescriptors = s.fileDescriptors

instance : Std.Refl SameVolume := ⟨fun _ => ⟨rfl, rfl, rfl, rfl⟩⟩

instance : IsTrans Sys SameVolume where
  trans _ _ _ h1 h2 := ⟨h2.1.trans h1.1, h2.2.trans h1.2, h2.3.trans h1.3, h2.4.trans h1.4⟩

theorem SameFiles.volume (h : SameFiles s s') : SameVolume s s' :=
  ⟨h.filesystem, by rw [h.fat16Private], by rw [h.fat16Private], h.fileDescriptors⟩

theorem SameButStreams.volume (h : SameButStreams s s') : SameVolume s s' := by
  rw [h]
  exact ⟨rfl, rfl, rfl, rfl⟩

theorem WritesIn.volume {lo n : Nat} (h : WritesIn lo n s s') : SameVolume s s' := by
  have hsame : SameVolume { s with mem := s'.mem } s' := SameButStreams.volume h.1
  exact ⟨hsame.filesystem, hsame.header, hsame.rootDirectory, hsame.fileDescriptors⟩

theorem sameVolume_kzalloc (env : Env) (n : Nat) : Exec.Keeps SameVolume (kzalloc env n) :=
  fun _ _ _ h => (sameFiles_kzalloc env n _ _ _ h).volume

theorem sameVolume_kfree (addr : Nat) : Exec.Keeps SameVolume (kfree addr) :=
  Exec.keeps_modify fun _ => ⟨rfl, rfl, rfl, rfl⟩

theorem sameVolume_fat16FreeDirectory (directory : Option (Ptr Fat16Directory)) :
    Exec.Keeps SameVolume (fat16FreeDirectory directory) := by
  unfold fat16FreeDirectory
  cases directory with
  | none => exact Exec.keeps_pure _
  | some d =>
    refine Exec.keeps_ite ?_ (sameVolume_kfree _)
    exact Exec.keeps_bind (sameVolume_kfree _) fun _ => sameVolume_kfree _

theorem sameVolume_fat16FatItemFree (item : Ptr FatItem) : Exec.Keeps SameVolume (fat16FatItemFree item) := by
  unfold fat16FatItemFree
  cases item.val with
  | directory directory => exact Exec.keeps_bind (sameVolume_fat16FreeDirectory _) fun _ => sameVolume_kfree _
  | file i => exact Exec.keeps_bind (sameVolume_kfree _) fun _ => sameVolume_kfree _

theorem sameVolume_fat16LoadDirectory (env : Env) (dirItem : Nat) :
    Exec.Keeps SameVolume (fat16LoadDirectory env dirItem) := by
  unfold fat16LoadDirectory
  refine Exec.keeps_bind Exec.keeps_get fun s => Exec.keeps_ite (Exec.keeps_pure _) ?_
  refine Exec.keeps_bind (sameVolume_kzalloc _ _) fun directory => Exec.keeps_ite (Exec.keeps_pure _) ?_
  refine Exec.keeps_bind Exec.keeps_get fun s => ?_
  refine Exec.keeps_bind (fun _ _ _ h => (keeps_fat16GetTotalItemsForDirectory _ _ _ _ _ h).volume) fun totalItems => ?_
  refine Exec.keeps_bind (sameVolume_kzalloc _ _) fun item => Exec.keeps_ite (Exec.keeps_pure _) ?_
  have hread : Exec.Keeps SameVolume (fat16ReadInternal env (fat16GetFirstCluster (itemAt s.mem dirItem)) 0x00
      (int32 (uint32 (totalItems * sizeofFat16DirectoryItem))) item) := fun _ _ _ h =>
    WritesIn.volume (readInternalFromStream_writesIn (Int.lt_of_lt_of_le (int32_bounds _).2 (by decide)) h)
  refine Exec.keeps_bind hread fun res => Exec.keeps_ite ?_ (Exec.keeps_pure _)
  exact Exec.keeps_bind (sameVolume_fat16FreeDirectory _) fun _ => Exec.keeps_pure _

theorem sameVolume_fat16CloneDirectoryItem (env : Env) (item n : Nat) :
    Exec.Keeps SameVolume (fat16CloneDirectoryItem env item n) := by
  unfold fat16CloneDirectoryItem
  refine Exec.keeps_ite (Exec.keeps_pure _) ?_
  refine Exec.keeps_bind (sameVolume_kzalloc _ _) fun itemCopy => Exec.keeps_ite (Exec.keeps_pure _) ?_
  exact Exec.keeps_bind Exec.keeps_get fun s => Exec.keeps_pure _

theorem sameVolume_fat16NewFatItemDirectoryItem (env : Env) (item : Nat) :
    Exec.Keeps SameVolume (fat16NewFatItemDirectoryItem env item) := by
  unfold fat16NewFatItemDirectoryItem
  refine Exec.keeps_bind (sameVolume_kzalloc _ _) fun fItem => Exec.keeps_ite (Exec.keeps_pure _) ?_
  refine Exec.keeps_bind Exec.keeps_get fun s => Exec.keeps_ite ?_ ?_
  · exact Exec.keeps_bind (sameVolume_fat16LoadDirectory _ _) fun _ => Exec.keeps_pure _
  · exact Exec.keeps_bind (sameVolume_fat16CloneDirectoryItem _ _ _) fun _ => Exec.keeps_pure _

theorem sameVolume_findLoop (env : Env) (directory : Fat16Directory) (name : List Byte) :
    ∀ (n i : Nat) (fItem : Option (Ptr FatItem)),
    Exec.Keeps SameVolume (findLoop env directory name n i fItem)
  | 0, _, _ => Exec.keeps_pure _
  | n + 1, i, fItem => by
    rw [findLoop]
    refine Exec.keeps_bind Exec.keeps_get fun s => Exec.keeps_bind (Exec.keeps_lift _) fun tmp => ?_
    refine Exec.keeps_bind (Exec.keeps_lift _) fun cmp =>
      Exec.keeps_ite ?_ (sameVolume_findLoop env directory name n _ _)
    exact Exec.keeps_bind (sameVolume_fat16NewFatItemDirectoryItem _ _) fun _ =>
      sameVolume_findLoop env directory name n _ _

theorem sameVolume_fat16FindItemInDirectory (env : Env) (directory : Option Fat16Directory) (name : List Byte) :
    Exec.Keeps SameVolume (fat16FindItemInDirectory env directory name) := by
  unfold fat16FindItemInDirectory
  cases directory with
  | none => exact Exec.keeps_throw _
  | some d => exact sameVolume_findLoop _ _ _ _ _ _

theorem sameVolume_directoryEntryLoop (env : Env) : ∀ (next : List (List Byte)) (item : Option (Ptr FatItem)),
    Exec.Keeps SameVolume (directoryEntryLoop env next item)
  | [], _ => Exec.keeps_pure _
  | _ :: _, none => Exec.keeps_throw _
  | part :: next, some item => by
    rw [directoryEntryLoop]
    split
    · exact Exec.keeps_pure _
    · refine Exec.keeps_bind (sameVolume_fat16FindItemInDirectory _ _ _) fun tmpItem => ?_
      exact Exec.keeps_bind (sameVolume_fat16FatItemFree _) fun _ => sameVolume_directoryEntryLoop env next _

theorem sameVolume_fat16GetDirectoryEntry (env : Env) (part : List Byte) (next : List (List Byte)) :
    Exec.Keeps SameVolume (fat16GetDirectoryEntry env part next) := by
  unfold fat16GetDirectoryEntry
  refine Exec.keeps_bind Exec.keeps_get fun s => ?_
  refine Exec.keeps_bind (sameVolume_fat16FindItemInDirectory _ _ _) fun rootItem => ?_
  exact Exec.keeps_ite (Exec.keeps_pure _) (sameVolume_directoryEntryLoop _ _ _)

theorem sameVolume_fat16Open (env : Env) (part : List Byte) (next : List (List Byte)) (mode : FileMode) :
    Exec.Keeps SameVolume (fat16Open env part next mode) := by
  unfold fat16Open
  refine Exec.keeps_ite (Exec.keeps_pure _) ?_
  refine Exec.keeps_bind (sameVolume_kzalloc _ _) fun descriptor => Exec.keeps_ite (Exec.keeps_pure _) ?_
  refine Exec.keeps_bind (sameVolume_fat16GetDirectoryEntry _ _ _) fun fItem => ?_
  refine Exec.keeps_bind (sameVolume_fat16GetDirectoryEntry _ _ _) fun item => ?_
  cases item with
  | none => exact Exec.keeps_pure _
  | some item => exact Exec.keeps_pure _

theorem sameVolume_nullStore (env : Env) (a : Nat) (bytes : List Byte) :
    Exec.Keeps SameVolume (nullStore env a bytes) :=
  fun _ _ _ h => (sameFiles_nullStore env a bytes _ _ _ h).volume

theorem sameVolume_pathparserGetPathPart (env : Env) (path : List Byte) :
    Exec.Keeps SameVolume (pathparserGetPathPart env path) := by
  unfold pathparserGetPathPart storePart
  refine Exec.keeps_bind (sameVolume_kzalloc _ _) fun temp => Exec.keeps_bind (sameVolume_kzalloc _ _) fun cTemp => ?_
  refine Exec.keeps_bind (Exec.keeps_lift _) fun p => ?_
  refine Exec.keeps_bind (Exec.keeps_ite (sameVolume_nullStore _ _ _) (Exec.keeps_pure _)) fun _ => ?_
  refine Exec.keeps_ite ?_ (Exec.keeps_ite ?_ (Exec.keeps_pure _))
  · exact Exec.keeps_bind (sameVolume_kfree _) fun _ => Exec.keeps_pure _
  · exact Exec.keeps_bind (sameVolume_nullStore _ _ _) fun _ => Exec.keeps_pure _

theorem sameVolume_createPathPartLoop (env : Env) :
    ∀ (n : Nat) (path : List Byte), Exec.Keeps SameVolume (createPathPartLoop env n path)
  | 0, _ => Exec.keeps_throw _
  | n + 1, path => by
    rw [createPathPartLoop]
    refine Exec.keeps_bind (sameVolume_pathparserGetPathPart _ _) fun p => ?_
    obtain ⟨part, rest⟩ := p
    cases part with
    | none => exact Exec.keeps_pure _
    | some part => exact Exec.keeps_bind (sameVolume_createPathPartLoop env n rest) fun _ => Exec.keeps_pure _

theorem sameVolume_pathparserParse (env : Env) (path : List Byte) :
    Exec.Keeps SameVolume (pathparserParse env path) := by
  unfold pathparserParse pathparserCreatePathRoot linkFirst
  refine Exec.keeps_bind ?_ fun p => Exec.keeps_bind (sameVolume_createPathPartLoop _ _ _) fun r => ?_
  · refine Exec.keeps_bind (sameVolume_kzalloc _ _) fun temp => Exec.keeps_ite ?_ (Exec.keeps_pure _)
    exact Exec.keeps_bind (sameVolume_nullStore _ _ _) fun _ => Exec.keeps_pure _
  · refine Exec.keeps_ite ?_ (Exec.keeps_pure _)
    exact Exec.keeps_bind (sameVolume_nullStore _ _ _) fun _ => Exec.keeps_pure _

/-! ## Marks -/

theorem marked_of_live (hok : s.Ok reserved size) {a : Live} (ha : a ∈ s.live) :
    s.heap.pmm.marked (a.addr / pmmBlockSize) = true := by
  obtain ⟨L, hlive, h⟩ := hok
  have ha : a ∈ L.live := hlive ▸ ha
  exact h.held _ ⟨a, ha, Ledger.start_mem ha⟩

/-- A block is allocated where none was marked. -/
theorem marked_of_kzalloc (hok : s.Ok reserved size) {n p : Nat} (hn : n ≤ 4096) (h : kzalloc env n s = .ok (p, s'))
    (hp : p ≠ 0) :
    s.heap.pmm.marked (p / pmmBlockSize) = false := by
  obtain ⟨L, -, hheap⟩ := hok
  obtain ⟨-, -, hp', -⟩ := of_kzalloc_ok h
  rw [Heap.kmallac_of_le _ hn] at hp'
  rcases s.heap.pmm.pmmAllocateBlock_cases with ⟨e, -⟩ | ⟨i, -, -, hlt, hclear, -, e⟩
  · rw [e] at hp'
    exact absurd hp' hp
  · rw [e] at hp'
    have hsize := hheap.memorySize
    have hle := hheap.sizeHi
    have hi : p / pmmBlockSize = i := by
      rw [hp']
      unfold pmmBlockSize
      simp only
      omega
    rw [hi]
    exact hclear

/-! ## What an open goes through -/

theorem of_fileNewDescriptor_none {privateData : Ptr FatFileDescriptor}
    (h : fileNewDescriptor env privateData s = .ok (none, s')) :
    SameVolume s s' := by
  unfold fileNewDescriptor at h
  rw [Exec.bind_of_ok (Exec.get_apply s)] at h
  cases hfind : Fin.find? (fun i : Fin maxFileDescriptors => 1 ≤ i.val ∧ (s.fileDescriptors i).isNone) with
  | none =>
    rw [hfind] at h
    obtain ⟨-, rfl⟩ := Exec.of_pure_ok h
    exact refl s
  | some j =>
    rw [hfind] at h
    simp only at h
    obtain ⟨addr, s1, h1, h⟩ := Exec.of_bind_ok h
    split at h
    · obtain ⟨_, s2, -, h⟩ := Exec.of_bind_ok h
      obtain ⟨_, s3, -, h⟩ := Exec.of_bind_ok h
      obtain ⟨he, -⟩ := Exec.of_pure_ok h
      cases he
    · rw [Exec.bind_of_ok (Exec.modify_apply ..)] at h
      obtain ⟨he, -⟩ := Exec.of_pure_ok h
      cases he

/-- A path that was parsed had a block asked for its root, and what follows frames what is held. -/
theorem of_pathparserParse {path : List Byte} {root : Option (Ptr PathRoot)}
    (h : pathparserParse env path s = .ok (root, s')) :
    ∃ p s1, kzalloc env sizeofPathRoot s = .ok (p, s1) ∧ ∀ held, FramesSys reserved size False held s1 s' := by
  unfold pathparserParse pathparserCreatePathRoot at h
  obtain ⟨⟨root, drivePath, rest⟩, s1, h1, h⟩ := Exec.of_bind_ok h
  obtain ⟨p, s2, h2, h1⟩ := Exec.of_bind_ok h1
  obtain ⟨⟨first, left⟩, s3, h3, h⟩ := Exec.of_bind_ok h
  refine ⟨p, s2, h2, fun held => ?_⟩
  have f1 : FramesSys reserved size False held s2 s1 := by
    simp only at h1
    split at h1
    · obtain ⟨_, s4, h4, h1⟩ := Exec.of_bind_ok h1
      obtain ⟨-, rfl⟩ := Exec.of_pure_ok h1
      exact framed_nullStore (fun hf => hf.elim) _ _ _ _ _ h4
    · obtain ⟨-, rfl⟩ := Exec.of_pure_ok h1
      exact refl s2
  have f3 : FramesSys reserved size False held s1 s3 := framed_createPathPartLoop (fun hf => hf.elim) _ _ _ _ _ h3
  have f4 : FramesSys reserved size False held s3 s' := framed_linkFirst (fun hf => hf.elim) _ _ _ _ _ _ h
  exact f1.trans' (f3.trans' f4)

/-- What an open that returns went through: the path, and, if it opened, the item and the slot. -/
theorem of_fopen {filename mode : List Byte} {fd : Int} (h : fopen env filename mode s = .ok (fd, s')) :
    ∃ root s1, pathparserParse env filename s = .ok (root, s1) ∧
      ((fd = -1 ∧ (root = none → s' = s1) ∧ SameVolume s1 s' ∧ ∀ held, FramesSys reserved size False held s1 s') ∨
        ∃ part next fMode des s2 i, root.isSome ∧ fat16Open env part next fMode s1 = .ok (some des, s2) ∧
          fileNewDescriptor env des s2 = .ok (some i, s') ∧ fd = i.val) := by
  unfold fopen at h
  obtain ⟨root, s1, h1, h⟩ := Exec.of_bind_ok h
  refine ⟨root, s1, h1, ?_⟩
  cases root with
  | none =>
    obtain ⟨rfl, rfl⟩ := Exec.of_pure_ok h
    exact .inl ⟨rfl, fun _ => rfl, refl s1, fun held => refl s1⟩
  | some root =>
  have hfail : ∀ {t : Sys}, SameVolume s1 t → (∀ held, FramesSys reserved size False held s1 t) →
      (pure (-1) : FsM Int) t = .ok (fd, s') → fd = -1 ∧ (some root = none → s' = s1) ∧ SameVolume s1 s' ∧
        ∀ held, FramesSys reserved size False held s1 s' := by
    intro t hv hf ht
    obtain ⟨rfl, rfl⟩ := Exec.of_pure_ok ht
    exact ⟨rfl, nofun, hv, hf⟩
  have hsame : (pure (-1) : FsM Int) s1 = .ok (fd, s') → _ := hfail (refl s1) fun held => refl s1
  simp only at h
  cases hparts : root.val.first.map fun part => part.val.part.val with
  | nil =>
    rw [hparts] at h
    exact .inl (hsame h)
  | cons part next =>
    rw [hparts] at h
    simp only at h
    split at h
    · exact .inl (hsame h)
    · rw [Exec.bind_of_ok (Exec.get_apply _)] at h
      split at h
      · exact .inl (hsame h)
      · obtain ⟨fMode, s2, h2, h⟩ := Exec.of_bind_ok h
        obtain ⟨-, rfl⟩ := Exec.of_lift_ok h2
        split at h
        · exact .inl (hsame h)
        · obtain ⟨des, s3, h3, h⟩ := Exec.of_bind_ok h
          have f3 : ∀ held, FramesSys reserved size False held s1 s3 := fun held =>
            framed_fat16Open (fun hf => hf.elim) _ _ _ _ _ _ h3
          have v3 : SameVolume s1 s3 := sameVolume_fat16Open _ _ _ _ _ _ _ h3
          cases des with
          | none => exact .inl (hfail v3 f3 h)
          | some des =>
            obtain ⟨index, s4, h4, h⟩ := Exec.of_bind_ok h
            have f4 : ∀ held, FramesSys reserved size False held s3 s4 := fun held =>
              framed_fileNewDescriptor (fun hf => hf.elim) _ _ _ _ h4
            cases index with
            | none =>
              have v4 : SameVolume s3 s4 := of_fileNewDescriptor_none h4
              exact .inl (hfail (IsTrans.trans _ _ _ v3 v4) (fun held => (f3 held).trans' (f4 held)) h)
            | some index =>
              obtain ⟨rfl, rfl⟩ := Exec.of_pure_ok h
              exact .inr ⟨_, _, fMode, des, s3, index, rfl, h3, h4, rfl⟩

/-- An open fails, or gives the number of a slot that was free. It leaves the slots as they were, or puts a descriptor
that stands at the beginning of its file into the one whose number it gives. -/
theorem fopen_slots {filename mode : List Byte} {fd : Int} (h : fopen env filename mode s = .ok (fd, s')) :
    (fd = -1 ∧ SameVolume s s') ∨ ∃ i : Fin maxFileDescriptors, fd = i.val ∧ 1 ≤ i.val ∧ s.fileDescriptors i = none ∧
      (SameVolume s s' ∨ ∃ desc : Ptr FileDescriptor, desc.val.privateData.val.pos = 0 ∧
        s'.fileDescriptors = Function.update s.fileDescriptors i (some desc)) := by
  obtain ⟨root, s1, h1, hrest⟩ := @of_fopen 0 0 env s s' filename mode fd h
  have v1 : SameVolume s s1 := sameVolume_pathparserParse _ _ _ _ _ h1
  rcases hrest with ⟨rfl, -, v2, -⟩ | ⟨part, next, fMode, des, s2, i, -, h2, h3, rfl⟩
  · exact .inl ⟨rfl, IsTrans.trans _ _ _ v1 v2⟩
  · have v2 : SameVolume s s2 := IsTrans.trans _ _ _ v1 (sameVolume_fat16Open _ _ _ _ _ _ _ h2)
    obtain ⟨descriptor, s3, e, s4, item, -, -, -, -, rfl⟩ := of_fat16Open h2
    obtain ⟨hpos, hfree, ⟨addr, hslots⟩ | hsame⟩ := of_fileNewDescriptor_some h3
    · rw [v2.fileDescriptors] at hfree hslots
      exact .inr ⟨i, rfl, hpos, hfree, .inr ⟨_, rfl, hslots⟩⟩
    · rw [v2.fileDescriptors] at hfree
      exact .inr ⟨i, rfl, hpos, hfree, .inl (IsTrans.trans _ _ _ v2 hsame.volume)⟩

theorem fopen_pos {filename mode : List Byte} {i : Fin maxFileDescriptors} {desc : Ptr FileDescriptor}
    (h : fopen env filename mode s = .ok ((i.val : Int), s')) (hdesc : s'.fileDescriptors i = some desc) :
    desc.val.privateData.val.pos = 0 := by
  rcases fopen_slots h with ⟨hfd, -⟩ | ⟨j, hj, -, hnone, hslots⟩
  · omega
  · obtain rfl : i = j := Fin.ext (by exact_mod_cast hj)
    rcases hslots with hsame | ⟨desc', hpos, hslots⟩
    · rw [hsame.fileDescriptors, hnone] at hdesc
      cases hdesc
    · rw [hslots, Function.update_self] at hdesc
      cases hdesc
      exact hpos

/-! ## What is apart from what was held -/

theorem fat16Open_apart {part : List Byte} {next : List (List Byte)} {mode : FileMode} {des : Ptr FatFileDescriptor}
    (h : fat16Open env part next mode s = .ok (some des, s')) (hok : s.Ok reserved size) (hheld : held ⊆ s.live) :
    ∀ b ∈ held, b.addr ≠ des.addr ∧ b.addr ∉ itemAddrs des.val.item := by
  obtain ⟨descriptor, s1, e, s2, item, h1, hdes, h2, h3, rfl⟩ := of_fat16Open h
  have z1 : FramesSys reserved size False held s s1 ∧ _ := kzalloc_spec (fun hf => hf.elim) h1
  obtain ⟨hok1, hheld1, -⟩ := z1.1 hok hheld
  have o1 := owns_kzalloc hok1 hheld (z1.2 hok hdes)
  have f2 : FramesSys reserved size False held s1 s2 :=
    framed_of_makes (makes_fat16GetDirectoryEntry (fun hf => hf.elim) _ _) _ _ _ h2
  obtain ⟨hok2, hheld2, -⟩ := f2 hok1 hheld1
  obtain ⟨-, hown⟩ := makes_fat16GetDirectoryEntry (False.elim : False → FillsBelow env reserved) _ _ held _ _ _ h3
  obtain ⟨own, o3⟩ := hown hok2 hheld2 item rfl
  refine fun b hb => ⟨o1.out _ (List.mem_singleton_self _) b hb, fun hin => ?_⟩
  rw [← o3.made] at hin
  obtain ⟨a, ha, he⟩ := List.mem_map.1 hin
  exact o3.out a ha b hb he.symm

/-- A root that was allocated outlives the open. -/
theorem fopen_root (hok : s.Ok reserved size) (h0 : ¬ s.heap.pmm.Spent) {filename mode : List Byte} {fd : Int}
    (h : fopen env filename mode s = .ok (fd, s')) : (fd = -1 ∨ ∃ i : Fin maxFileDescriptors, fd = i.val) ∧
    KeepsMore s s' fd := by
  obtain ⟨path, s1, h1, hrest⟩ := of_fopen h
  obtain ⟨p, s0, ha, hparsed⟩ := of_pathparserParse h1
  have hp : p ≠ 0 := by
    rw [(of_kzalloc_page (by decide) ha).1]
    exact fun he => h0 ((Pmm.pmmAllocateBlock_eq_zero_iff hok.memoryLe).1 he)
  have z0 : FramesSys reserved size False s.live s s0 ∧ _ := kzalloc_spec (fun hf => hf.elim) ha
  have hlive0 := z0.2 hok hp
  obtain ⟨hok0, -, -⟩ := z0.1 hok (List.Subset.refl _)
  obtain ⟨hok1, hroot1, -⟩ := hparsed [⟨p, sizeofPathRoot, .kheap⟩] hok0 (by rw [hlive0]; simp)
  have hnew : (⟨p, sizeofPathRoot, .kheap⟩ : Live) ∉ s.live := fun hin => (hok0.fresh hlive0 _ hin).addr_ne rfl
  have hclear := marked_of_kzalloc hok (by decide : sizeofPathRoot ≤ 4096) ha hp
  rcases hrest with ⟨rfl, -, -, hframes⟩ | ⟨part, next, fMode, des, s2, i, -, h2, h3, rfl⟩
  · obtain ⟨hok', hroot', -⟩ := hframes _ hok1 hroot1
    have hroot' := hroot' (List.mem_singleton_self _)
    refine ⟨.inl rfl, ⟨p, sizeofPathRoot, .kheap⟩, hnew, hroot', hclear, marked_of_live hok' hroot', fun i hi => ?_⟩
    omega
  · obtain ⟨hdes, hitem⟩ := fat16Open_apart h2 hok1 hroot1 _ (List.mem_singleton_self _)
    have f2 : FramesSys reserved size False [⟨p, sizeofPathRoot, .kheap⟩] s1 s2 :=
      framed_fat16Open (fun hf => hf.elim) _ _ _ _ _ _ h2
    obtain ⟨hok2, hroot2, -⟩ := f2 hok1 hroot1
    have f3 : FramesSys reserved size False [⟨p, sizeofPathRoot, .kheap⟩] s2 s' :=
      framed_fileNewDescriptor (fun hf => hf.elim) _ _ _ _ h3
    obtain ⟨hok3, hroot3, -⟩ := f3 hok2 hroot2
    have hroot3 := hroot3 (List.mem_singleton_self _)
    refine ⟨.inr ⟨i, rfl⟩, ⟨p, sizeofPathRoot, .kheap⟩, hnew, hroot3, hclear, marked_of_live hok3 hroot3,
      fun j hj => ?_⟩
    obtain rfl : i = j := Fin.ext (by exact_mod_cast hj)
    have v2 : SameVolume s1 s2 := sameVolume_fat16Open _ _ _ _ _ _ _ h2
    obtain ⟨-, hfree, addr, s3, h4, ⟨haddr, rfl⟩ | ⟨rfl, s4, h5, h6⟩⟩ := of_fileNewDescriptor h3
    · have z3 : FramesSys reserved size False [⟨p, sizeofPathRoot, .kheap⟩] s2 s3 ∧ _ :=
        kzalloc_spec (fun hf => hf.elim) h4
      have o3 := owns_kzalloc (z3.1 hok2 hroot2).1 hroot2 (z3.2 hok2 haddr)
      have hne := o3.out _ (List.mem_singleton_self _) _ (List.mem_singleton_self _)
      simp only [Function.update_self, descriptorAddrs, List.mem_cons, not_or]
      exact ⟨hne, hdes, hitem⟩
    · rw [(sameFiles_fileNewDescriptor_null h4 h5 h6).fileDescriptors, hfree]
      exact List.not_mem_nil

/-! ## With no block to hand out -/

/-- The path names nothing: its first component is empty. -/
def NamesNothing (path : List Byte) : Prop :=
  charAt (pathparserGetDriveByPath path).2 0 = 0x2F ∨ charAt (pathparserGetDriveByPath path).2 0 = 0

instance (path : List Byte) : Decidable (NamesNothing path) := inferInstanceAs (Decidable (_ ∨ _))

theorem of_copyPart_null {path part rest : List Byte} {i : Nat} (h : copyPart 0 path i = .ok (part, rest)) :
    part.length = 0 ↔ charAt path 0 = 0x2F ∨ charAt path 0 = 0 := by
  cases path with
  | nil =>
    rw [copyPart, if_neg fun h => h.1 rfl] at h
    cases h
    exact iff_of_true rfl (.inr rfl)
  | cons c cs =>
    rw [copyPart, if_neg fun h => h.1 rfl] at h
    simp only at h
    have hchar : charAt (c :: cs) 0 = c := rfl
    rw [hchar]
    split at h
    · rename_i hc
      cases hrest : copyPart 0 cs (i + 1) with
      | error e =>
        rw [hrest] at h
        cases h
      | ok r =>
        rw [hrest] at h
        cases h
        exact iff_of_false (Nat.succ_ne_zero _) (not_or.2 hc)
    · rename_i hc
      cases h
      exact iff_of_true rfl (Decidable.not_and_iff_not_or_not.1 hc |>.imp not_not.1 not_not.1)

theorem heap_kfree {p : Nat} {u : Unit} (h : kfree p s = .ok (u, s')) : s'.heap = s.heap.kfree p := by
  cases h
  rfl

theorem of_kzalloc_null (hsize : s.heap.pmm.pmmSystemMemorySize ≤ 2 ^ 20)
    (h0 : s.heap.pmm.pmmAllocateBlock.1 = 0) {m p : Nat} (hm : m ≤ 4096) (h : kzalloc env m s = .ok (p, s')) :
    p = 0 ∧ s'.heap = s.heap := by
  have hk := s.heap.kmallac_of_le hm
  rw [Pmm.pmmAllocateBlock_null hsize h0, h0] at hk
  obtain ⟨mem, rfl, rfl, -, -⟩ := of_kzalloc_ok h
  rw [hk]
  exact ⟨rfl, rfl⟩

theorem of_getPathPart_null (hsize : s.heap.pmm.pmmSystemMemorySize ≤ 2 ^ 20) (h0 : s.heap.pmm.pmmAllocateBlock.1 = 0)
    {path left : List Byte} {o : Option (Ptr PathPart)} (h : pathparserGetPathPart env path s = .ok ((o, left), s')) :
    o = none ∧ s'.heap = if charAt path 0 = 0x2F ∨ charAt path 0 = 0 then s.heap.kfree 0 else s.heap := by
  unfold pathparserGetPathPart at h
  obtain ⟨temp, s1, h1, h⟩ := Exec.of_bind_ok h
  obtain ⟨rfl, e1⟩ := of_kzalloc_null hsize h0 (by decide) h1
  rw [← e1] at hsize h0 ⊢
  obtain ⟨cTemp, s2, h2, h⟩ := Exec.of_bind_ok h
  obtain ⟨rfl, e2⟩ := of_kzalloc_null hsize h0 (by decide) h2
  rw [← e2]
  obtain ⟨⟨part, rest⟩, s3, h3, h⟩ := Exec.of_bind_ok h
  obtain ⟨hcopy, rfl⟩ := Exec.of_lift_ok h3
  have hempty := of_copyPart_null hcopy
  obtain ⟨_, s4, h4, h⟩ := Exec.of_bind_ok h
  obtain ⟨mem, -, rfl⟩ := of_nullStore_ok h4
  simp only at h
  split at h
  · rename_i hpart
    obtain ⟨_, s5, h5, h⟩ := Exec.of_bind_ok h
    obtain ⟨he, rfl⟩ := Exec.of_pure_ok h
    cases he
    rw [if_pos (hempty.1 hpart)]
    exact ⟨rfl, heap_kfree (s := { s2 with mem := mem }) h5⟩
  · rename_i hpart
    simp only [if_pos] at h
    obtain ⟨_, s5, h5, h⟩ := Exec.of_bind_ok h
    obtain ⟨mem', -, rfl⟩ := of_nullStore_ok h5
    obtain ⟨he, rfl⟩ := Exec.of_pure_ok h
    cases he
    rw [if_neg fun hpath => hpart (hempty.2 hpath)]
    exact ⟨rfl, rfl⟩

/-- With no block to hand out a path has no root, and only a null address given back can change the tables. -/
theorem of_pathparserParse_null (hsize : s.heap.pmm.pmmSystemMemorySize ≤ 2 ^ 20)
    (h0 : s.heap.pmm.pmmAllocateBlock.1 = 0) {path : List Byte} {root : Option (Ptr PathRoot)}
    (h : pathparserParse env path s = .ok (root, s')) :
    root = none ∧ s'.heap = if NamesNothing path then s.heap.kfree 0 else s.heap := by
  unfold pathparserParse pathparserCreatePathRoot at h
  obtain ⟨⟨addr, drivePath, rest⟩, s2, h2, h⟩ := Exec.of_bind_ok h
  obtain ⟨p, s1, h1, h2⟩ := Exec.of_bind_ok h2
  obtain ⟨rfl, e1⟩ := of_kzalloc_null hsize h0 (by decide) h1
  rw [← e1] at hsize h0 ⊢
  simp only [if_pos] at h2
  obtain ⟨_, s3, h3, h2⟩ := Exec.of_bind_ok h2
  obtain ⟨mem, -, rfl⟩ := of_nullStore_ok h3
  obtain ⟨he, rfl⟩ := Exec.of_pure_ok h2
  cases he
  obtain ⟨⟨first, left⟩, s4, h4, h⟩ := Exec.of_bind_ok h
  unfold pathparserCreatePathPart at h4
  rw [createPathPartLoop] at h4
  obtain ⟨⟨o, rest⟩, s5, h5, h4⟩ := Exec.of_bind_ok h4
  obtain ⟨rfl, e5⟩ := of_getPathPart_null (s := { s1 with mem := mem }) hsize h0 h5
  obtain ⟨he, rfl⟩ := Exec.of_pure_ok h4
  cases he
  unfold linkFirst at h
  simp only [if_pos] at h
  obtain ⟨_, s6, h6, h⟩ := Exec.of_bind_ok h
  obtain ⟨mem', -, rfl⟩ := of_nullStore_ok h6
  obtain ⟨rfl, rfl⟩ := Exec.of_pure_ok h
  exact ⟨rfl, e5⟩

theorem of_fopen_null (hok : s.Ok reserved size) (h0 : s.heap.pmm.Spent) {filename mode : List Byte} {fd : Int}
    (h : fopen env filename mode s = .ok (fd, s')) :
    fd = -1 ∧ SameVolume s s' ∧ s'.heap = if NamesNothing filename then s.heap.kfree 0 else s.heap := by
  obtain ⟨root, s1, h1, hrest⟩ := @of_fopen 0 0 env s s' filename mode fd h
  have v1 : SameVolume s s1 := sameVolume_pathparserParse _ _ _ _ _ h1
  obtain ⟨rfl, hheap⟩ := of_pathparserParse_null hok.memoryLe ((Pmm.pmmAllocateBlock_eq_zero_iff hok.memoryLe).2 h0) h1
  rcases hrest with ⟨rfl, hstate, -, -⟩ | ⟨part, next, fMode, des, s2, i, hroot, -⟩
  · obtain rfl := hstate rfl
    exact ⟨rfl, v1, hheap⟩
  · cases hroot

end

end SimpleMicrokernel.Fs
