/-
Write isolation. The invariant says what every task holds: an address space, an image and a stack of
its own, and a map that lets user code write to these two only. A load adds a task with memory
nobody held; a tick changes no memory; a system call leaves all memory held as it was; and user code
stores only where its map lets it.
-/
import SimpleMicrokernel.Kernel.Handlers
import SimpleMicrokernel.Kernel.Start
import SimpleMicrokernel.Task.CopyString

namespace SimpleMicrokernel.Tasking

open Memory Fs Fat16 Paging

/-! ## The tables -/

/-- The allocator's tables are right, with the blocks `kernel_main` gives. -/
abbrev TablesOk (s : Sys) : Prop := s.Ok kernelBlocks systemBlocks

section
variable {env : Env} {k k' : Kernel}

theorem tablesOk_startPaging {mem : Mem} (h : startPaging env (initial mem) = .ok (⟨⟩, k)) :
    TablesOk k.toSys ∧ k.kernelChunk ≠ 0 ∧ ∃ s s', TablesOk s ∧ pagingNew4gb kernelFlags s = .ok (k.kernelChunk, s') ∧
      k = { (initial mem).withSys s' with
        kernelChunk := k.kernelChunk, currentDirectory := directoryEntry s'.mem k.kernelChunk } := by
  have hsize : systemBlocks ≤ 2 ^ 20 := by decide
  have hok : TablesOk (initial mem).toSys := @AllocState.ok_init kernelBlocks systemBlocks hsize mem
  unfold startPaging at h
  obtain ⟨_, k1, h1, h⟩ := Exec.of_bind_ok h
  obtain ⟨s1, hs1, rfl⟩ := of_onSys_ok h1
  unfold diskSearchInit at hs1
  obtain ⟨res, s0, hs0, hs1⟩ := Exec.of_bind_ok hs1
  rw [Exec.modify_apply] at hs1
  cases hs1
  have hok1 : TablesOk s0 := ok_fat16Resolve hs0 hok
  obtain ⟨chunk, k2, h2, h⟩ := Exec.of_bind_ok h
  obtain ⟨s2, hs2, rfl⟩ := of_onSys_ok h2
  split at h
  · rw [Exec.throw_apply] at h
    cases h
  · rename_i hchunk
    rw [Exec.modify_apply] at h
    cases h
    have f2 : FramesSys kernelBlocks systemBlocks False [] _ s2 := framed_pagingNew4gb _ _ _ _ hs2
    exact ⟨(f2 hok1 (List.nil_subset _)).1, hchunk, { s0 with filesystem := decide (res = 0) }, s2, hok1, hs2, rfl⟩

end

/-! ## The invariant -/

/-- What a task holds. -/
structure Owned (k : Kernel) (t : Nat) (task : Task) (p : Process) : Prop where
  owner : p.task = t
  taskLive : ⟨t, sizeofTask, .kheap⟩ ∈ k.live
  image : p.image ∈ k.live
  stack : p.stackLive ∈ k.live
  space : IsSpace k.mem k.live task.pageDirectory
  writes : ∀ q < 2 ^ 20, UserWriteable (pageEntry k.mem task.pageDirectory q) →
    p.image.Covers (frameOf (pageEntry k.mem task.pageDirectory q)) ∨
      p.stackLive.Covers (frameOf (pageEntry k.mem task.pageDirectory q))

/-- The memory of a process. -/
def Process.memory (p : Process) : List Live := [p.image, p.stackLive]

structure Inv (k : Kernel) : Prop where
  ok : TablesOk k.toSys
  kernelSpace : IsSpace k.mem k.live k.kernelChunk
  /-- The kernel's directory takes every page to itself. -/
  kernelMap : ∀ q < 2 ^ 20, pageEntry k.mem k.kernelChunk q = BitVec.ofNat 32 (q * 4096) ||| kernelFlags.setWidth 32
  owns : ∀ t task, k.tasks t = some task → ∃ p, k.procs task.process = some p ∧ Owned k t task p
  procLive : ∀ a p, k.procs a = some p → ⟨a, sizeofProcess, .kheap⟩ ∈ k.live
  apart : ∀ t u task task' p p', k.tasks t = some task → k.tasks u = some task' → k.procs task.process = some p →
    k.procs task'.process = some p' → t ≠ u → ∀ a ∈ p.memory, a ∉ p'.memory

section
variable {env : Env} {k k' : Kernel}

theorem IsSpace.keep {mem mem' : Mem} {live live' : List Live} {chunk : Nat} (h : IsSpace mem live chunk)
    (hlive : live ⊆ live') (hmem : ∀ a ∈ live, a.owner = .pmm → ∀ x, a.Covers x → mem' x = mem x) :
    IsSpace mem' live' chunk ∧ spaceBlocks mem' chunk = spaceBlocks mem chunk ∧
      ∀ q < 2 ^ 20, pageEntry mem' chunk q = pageEntry mem chunk q := by
  refine h.blocks.congr (fun a ha => hlive (List.mem_filter.1 ha).1) fun a ha => ?_
  obtain ⟨ha, howner⟩ := List.mem_filter.1 ha
  exact hmem a ha (by simpa using howner)

theorem Owned.keep {t : Nat} {task task' : Task} {p : Process} (h : Owned k t task p) (hlive : k.live ⊆ k'.live)
    (hmem : ∀ a ∈ k.live, a.owner = .pmm → ∀ x, a.Covers x → k'.mem x = k.mem x)
    (hspace : task'.pageDirectory = task.pageDirectory) : Owned k' t task' p := by
  obtain ⟨hsp, -, hentry⟩ := IsSpace.keep h.space hlive hmem
  refine ⟨h.owner, hlive h.taskLive, hlive h.image, hlive h.stack, ?_, fun q hq => ?_⟩
  · rw [hspace]
    exact hsp
  · rw [hspace, hentry q hq]
    exact h.writes q hq

/-- What keeps the tasks up to their registers, and the blocks of all address spaces. -/
structure KeepsSpaces (k k' : Kernel) : Prop where
  kept : Kept Any k k'
  ok : TablesOk k'.toSys
  live : k.live ⊆ k'.live
  mem : ∀ a ∈ k.live, a.owner = .pmm → ∀ x, a.Covers x → k'.mem x = k.mem x

theorem Inv.keep (h : Inv k) (hk : KeepsSpaces k k') : Inv k' := by
  obtain ⟨hsp, -, hentry⟩ := IsSpace.keep h.kernelSpace hk.live hk.mem
  refine ⟨hk.ok, ?_, ?_, fun t task' ht' => ?_, fun a p ha => ?_, fun t u task task' p p' ht' hu' hp hp' => ?_⟩
  · rw [hk.kept.chunk]
    exact hsp
  · intro q hq
    rw [hk.kept.chunk, hentry q hq]
    exact h.kernelMap q hq
  · obtain ⟨task, ht, e⟩ := hk.kept.of_some ht'
    obtain ⟨p, hp, ho⟩ := h.owns t task ht
    rw [e]
    exact ⟨p, by rw [hk.kept.procs]; exact hp, ho.keep hk.live hk.mem rfl⟩
  · rw [hk.kept.procs] at ha
    exact hk.live (h.procLive a p ha)
  · obtain ⟨task0, ht, e⟩ := hk.kept.of_some ht'
    obtain ⟨task0', hu, e'⟩ := hk.kept.of_some hu'
    rw [hk.kept.procs, e] at hp
    rw [hk.kept.procs, e'] at hp'
    exact h.apart t u task0 task0' p p' ht hu hp hp'

theorem keepsSpaces_of_frames (hok : TablesOk k.toSys) (hkept : Kept Any k k')
    (f : FramesSys kernelBlocks systemBlocks True k.live k.toSys k'.toSys) : KeepsSpaces k k' := by
  obtain ⟨hok', hlive, hmem⟩ := f hok (List.Subset.refl _)
  exact ⟨hkept, hok', hlive, fun a ha _ => hmem trivial a ha⟩

theorem keepsSpaces_of_same (hok : TablesOk k.toSys) (h : Kept Eq k k') : KeepsSpaces k k' :=
  keepsSpaces_of_frames hok { h with sys := trivial } (framesSys_of_eq (by rw [h.sys]))

theorem Under.kept {reserved size : Nat} {keep : Prop} {held : List Live} (h : Under reserved size keep held k k') :
    Kept Any k k' := by
  rw [h.2]
  exact kept_of_eq trivial rfl rfl rfl rfl rfl rfl

/-! ## One step -/

theorem inv_start {mem : Mem} (h : startPaging env (initial mem) = .ok (⟨⟩, k)) : Inv k := by
  obtain ⟨hok, hchunk, s, s', hs, hnew, e⟩ := tablesOk_startPaging h
  have hspec : FramesSys kernelBlocks systemBlocks False [] s s' ∧ _ := pagingNew4gb_spec hnew hs (List.nil_subset _)
  obtain ⟨-, hspace⟩ := hspec
  obtain ⟨hspace, -, hmap, -⟩ := hspace hchunk
  have hsys : k.toSys = s' := by rw [e]; rfl
  have hnone : k.tasks = fun _ => none := by rw [e]; rfl
  have hprocs : k.procs = fun _ => none := by rw [e]; rfl
  refine ⟨hok, ?_, ?_, fun t task ht => ?_, fun a p ha => ?_, fun t u task task' p p' ht => ?_⟩
  · rw [hsys]; exact hspace
  · rw [hsys]; exact hmap
  · rw [hnone] at ht; cases ht
  · rw [hprocs] at ha; cases ha
  · rw [hnone] at ht; cases ht

/-- What a load that succeeded adds: nothing held is touched, and the new task holds memory that was
not held before. -/
theorem Loaded.owned {filename : List Byte} {slot : Fin maxProcesses} {process ptr stack task chunk : Nat}
    {sz : BitVec 32} {s1 s2 s3 s4 s5 : Sys} {k5 : Kernel} {keep : Prop} (hkeep : keep → FillsBelow env kernelBlocks)
    (hok : TablesOk k.toSys)
    (h : Loaded env filename slot k k' process ptr stack task chunk sz s1 s2 s3 s4 s5 k5) :
    FramesSys kernelBlocks systemBlocks keep k.live k.toSys k'.toSys ∧
      (⟨process, sizeofProcess, .kheap⟩ ∈ k'.live ∧ ∀ a ∈ k.live, a.addr ≠ process) ∧ (∀ a ∈ k.live, a.addr ≠ task) ∧
      (∀ a ∈ (newProcess filename slot task ptr stack sz).memory, ∀ b ∈ k.live, b.addr ≠ a.addr) ∧
      ∀ t, t.pageDirectory = chunk → Owned k' task t (newProcess filename slot task ptr stack sz) := by
  have z1 : FramesSys kernelBlocks systemBlocks keep k.live k.toSys s1 ∧ _ :=
    kzalloc_spec (fun _ => .inr h.processNe) h.processAlloc
  obtain ⟨hok1, hheld1, -⟩ := z1.1 hok (List.Subset.refl _)
  have hlive1 := z1.2 hok h.processNe
  have hbinary : FramesSys kernelBlocks systemBlocks keep s1.live s1 s2 ∧ _ :=
    processLoadBinary_spec hkeep h.imageAlloc
  obtain ⟨f2, himage⟩ := hbinary
  obtain ⟨himage, hnew2⟩ := himage hok1 (List.Subset.refl _) _ rfl
  obtain ⟨hok2, hheld2, -⟩ := f2 hok1 (List.Subset.refl _)
  have hrest : FramesSys kernelBlocks systemBlocks True s2.live s2 k'.toSys ∧ _ :=
    h.rest (by decide) hok2 himage (List.Subset.refl _)
  obtain ⟨f3, hok3, ⟨hstackLive, hstackNew⟩, ⟨htaskLive, htaskNew⟩, hspace, hmap, -⟩ := hrest
  obtain ⟨-, hheld3, -⟩ := f3 hok2 (List.Subset.refl _)
  have himage3 : (newProcess filename slot task ptr stack sz).image ∈ k'.live := hheld3 himage
  have hsub : k.live ⊆ s2.live := List.Subset.trans hheld1 hheld2
  have f13 : FramesSys kernelBlocks systemBlocks keep k.live k.toSys k'.toSys :=
    z1.1.trans' ((AllocState.Frames.mono f2 hheld1 fun _ => List.Subset.refl _).trans'
      (AllocState.Frames.imp (AllocState.Frames.mono f3 hsub fun _ => List.Subset.refl _) fun _ => trivial))
  refine ⟨f13, ⟨hheld3 (hheld2 (hlive1 ▸ List.mem_cons_self ..)), fun b hb => (hok1.fresh hlive1 b hb).symm.addr_ne⟩,
    fun b hb => htaskNew b (hsub hb), fun a ha b hb => ?_, fun t ht => ⟨rfl, htaskLive, himage3, hstackLive, ?_, ?_⟩⟩
  · rcases List.mem_cons.1 ha with rfl | ha
    · exact hnew2 b (hheld1 hb)
    · rw [List.mem_singleton.1 ha]
      exact hstackNew b (hsub hb)
  · rw [ht]; exact hspace
  · intro q hq hw
    rw [ht, hmap q hq] at hw ⊢
    have bptr : ptr % 4096 = 0 ∧ ptr ≠ 0 ∧ 25000 * 4096 ≤ ptr ∧ ptr + blockCount sz.toNat * 4096 ≤ 250000 * 4096 ∧ _ :=
      hok3.bounds himage3
    have bstack : stack % 4096 = 0 ∧ stack ≠ 0 ∧ 25000 * 4096 ≤ stack ∧
        stack + blockCount userProgramStackSize * 4096 ≤ 250000 * 4096 ∧ _ := hok3.bounds hstackLive
    have hpages := pages_le_blockCount sz.toNat
    have hcount : blockCount userProgramStackSize = 4 := by decide
    rw [hcount] at bstack
    exact processMap_userWriteable (by show ptr / 4096 + pages sz.toNat < 2 ^ 20; omega)
      (by show stack / 4096 + 4 < 2 ^ 20; omega) hw

section
variable {filename : List Byte} {slot : Fin maxProcesses} {process ptr stack task chunk : Nat} {sz : BitVec 32}
  {s1 s2 s3 s4 s5 : Sys} {k5 : Kernel}

theorem Loaded.image (hok : TablesOk k.toSys)
    (h : Loaded env filename slot k k' process ptr stack task chunk sz s1 s2 s3 s4 s5 k5) :
    TablesOk s2 ∧ (⟨ptr, sz.toNat, .kheap⟩ : Live) ∈ s2.live := by
  have z1 : FramesSys kernelBlocks systemBlocks False [] k.toSys s1 ∧ _ := kzalloc_spec False.elim h.processAlloc
  obtain ⟨hok1, -, -⟩ := z1.1 hok (List.nil_subset _)
  have hbinary : FramesSys kernelBlocks systemBlocks False [] s1 s2 ∧ _ :=
    processLoadBinary_spec False.elim h.imageAlloc
  obtain ⟨himage, -⟩ := hbinary.2 hok1 (List.nil_subset _) _ rfl
  obtain ⟨hok2, -, -⟩ := hbinary.1 hok1 (List.nil_subset _)
  exact ⟨hok2, himage⟩

/-- The directory of a new task is the map of its process on top of the identity. -/
theorem Loaded.maps (hok : TablesOk k.toSys)
    (h : Loaded env filename slot k k' process ptr stack task chunk sz s1 s2 s3 s4 s5 k5) :
    k'.procs process = some (newProcess filename slot task ptr stack sz) ∧
      (∃ t, k'.tasks task = some t ∧ t.pageDirectory = chunk ∧ t.process = process) ∧
      (ptr % 4096 = 0 ∧ 25000 * 4096 ≤ ptr ∧ ptr + blockCount sz.toNat * 4096 ≤ 250000 * 4096) ∧
      IsSpace k'.mem k'.live chunk ∧
      (∀ q < 2 ^ 20, pageEntry k'.mem chunk q = processMap (newProcess filename slot task ptr stack sz) identityMap q) ∧
      ∀ i < 1024, directoryFlags k'.mem chunk i = 7#32 := by
  obtain ⟨hok2, himage⟩ := h.image hok
  have hrest : FramesSys kernelBlocks systemBlocks True [] s2 k'.toSys ∧ _ :=
    h.rest (by decide) hok2 himage (List.nil_subset _)
  obtain ⟨-, -, -, -, hspace', hmap, hflags⟩ := hrest
  have bptr : ptr % 4096 = 0 ∧ ptr ≠ 0 ∧ 25000 * 4096 ≤ ptr ∧ ptr + blockCount sz.toNat * 4096 ≤ 250000 * 4096 ∧ _ :=
    hok2.bounds himage
  obtain ⟨t, ht, hspace, hprocess⟩ := h.link.at
  refine ⟨?_, ⟨t, ?_, hspace, hprocess⟩, ⟨bptr.1, bptr.2.2.1, bptr.2.2.2.1⟩, hspace', hmap, hflags⟩
  · rw [h.result]
    exact Function.update_self ..
  · rw [h.result]
    exact ht

end

/-- A new task besides the tasks there were. -/
theorem inv_loaded {filename : List Byte} {slot : Fin maxProcesses} {process ptr stack task chunk : Nat}
    {sz : BitVec 32} {s1 s2 s3 s4 s5 : Sys} {k5 : Kernel} (hfill : FillsBelow env kernelBlocks) (hi : Inv k)
    (h : Loaded env filename slot k k' process ptr stack task chunk sz s1 s2 s3 s4 s5 k5) : Inv k' := by
  have howned : FramesSys kernelBlocks systemBlocks True k.live k.toSys k'.toSys ∧ _ := h.owned (fun _ => hfill) hi.ok
  obtain ⟨f, ⟨hprocLive, hprocNew⟩, htaskNew, hmemNew, howned⟩ := howned
  obtain ⟨hok, hlive, hmem⟩ := f hi.ok (List.Subset.refl _)
  have hmem : ∀ a ∈ k.live, a.owner = .pmm → ∀ x, a.Covers x → k'.mem x = k.mem x := fun a ha _ => hmem trivial a ha
  obtain ⟨hsp, -, hentry⟩ := IsSpace.keep hi.kernelSpace hlive hmem
  have hlink := h.link.rest
  have htasks : k'.tasks = k5.tasks := by rw [h.result]; rfl
  have hprocs : k'.procs = Function.update k.procs process (some (newProcess filename slot task ptr stack sz)) := by
    rw [h.result]
  have hchunk : k'.kernelChunk = k.kernelChunk := by
    rw [h.result]
    exact hlink.2.2.2.1
  -- the tasks are the new one and the old ones
  have hsplit : ∀ {t u'}, k'.tasks t = some u' → (t = task ∧ u'.pageDirectory = chunk ∧ u'.process = process) ∨
      (∃ u, k.tasks t = some u ∧ u'.pageDirectory = u.pageDirectory ∧ u'.process = u.process ∧ u.process ≠ process ∧
        t ≠ task) := by
    intro t u' ht
    rw [htasks] at ht
    by_cases he : t = task
    · subst he
      obtain ⟨t', ht', hs1, hs2⟩ := h.link.at
      rw [ht'] at ht
      cases ht
      exact .inl ⟨rfl, hs1, hs2⟩
    · obtain ⟨u, hu, hs1, hs2⟩ := h.link.of_ne he ht
      have hu : k.tasks t = some u := hu
      obtain ⟨p, hp, -⟩ := hi.owns t u hu
      exact .inr ⟨u, hu, hs1, hs2, hprocNew _ (hi.procLive _ _ hp), he⟩
  have hnew : ∀ {u' : Task} {p}, u'.process = process → k'.procs u'.process = some p →
    p = newProcess filename slot task ptr stack sz := by
    intro u' p hu hp
    rw [hu, hprocs, Function.update_self] at hp
    exact (Option.some.inj hp).symm
  have hold : ∀ {u u' : Task} {p}, u'.process = u.process → u.process ≠ process → k'.procs u'.process = some p →
      k.procs u.process = some p := by
    intro u u' p hu hne hp
    rwa [hu, hprocs, Function.update_of_ne hne] at hp
  have hmemory : ∀ {t u p}, k.tasks t = some u → k.procs u.process = some p → ∀ a ∈ p.memory, a ∈ k.live := by
    intro t u p ht hp a ha
    obtain ⟨p', hp', ho⟩ := hi.owns t u ht
    rw [hp] at hp'
    cases hp'
    rcases List.mem_cons.1 ha with rfl | ha
    · exact ho.image
    · rw [List.mem_singleton.1 ha]
      exact ho.stack
  refine ⟨hok, ?_, ?_, fun t u' ht => ?_, fun a p ha => ?_, fun t u v v' p p' ht hu hp hp' hne a ha ha' => ?_⟩
  · rw [hchunk]; exact hsp
  · intro q hq
    rw [hchunk, hentry q hq]
    exact hi.kernelMap q hq
  · rcases hsplit ht with ⟨rfl, hd, hpr⟩ | ⟨u, hu, hd, hpr, hne, -⟩
    · refine ⟨_, ?_, howned u' hd⟩
      rw [hpr, hprocs, Function.update_self]
    · obtain ⟨p, hp, ho⟩ := hi.owns t u hu
      refine ⟨p, ?_, ho.keep hlive hmem hd⟩
      rw [hpr, hprocs, Function.update_of_ne hne]
      exact hp
  · rw [hprocs] at ha
    by_cases he : a = process
    · rw [he]; exact hprocLive
    · rw [Function.update_of_ne he] at ha
      exact hlive (hi.procLive a p ha)
  · rcases hsplit ht with ⟨rfl, -, hpr⟩ | ⟨v0, hv0, -, hpr, hnp, -⟩
    · rcases hsplit hu with ⟨rfl, -, -⟩ | ⟨w0, hw0, -, hpr', hnp', -⟩
      · exact hne rfl
      · rw [hnew hpr hp] at ha
        exact hmemNew a ha a (hmemory hw0 (hold hpr' hnp' hp') a ha') rfl
    · rcases hsplit hu with ⟨rfl, -, hpr'⟩ | ⟨w0, hw0, -, hpr', hnp', -⟩
      · rw [hnew hpr' hp'] at ha'
        exact hmemNew a ha' a (hmemory hv0 (hold hpr hnp hp) a ha) rfl
      · exact hi.apart t u v0 w0 p p' hv0 hw0 (hold hpr hnp hp) (hold hpr' hnp' hp') hne a ha ha'

/-- A load that succeeded, or one that changed memory and the tables at most. -/
theorem of_processLoad_ok (reserved size : Nat) (keep : Prop) (held : List Live)
    (hkeep : keep → FillsBelow env reserved) {filename : List Byte} {r : Int × Option Nat}
    (h : processLoad env filename k = .ok (r, k')) :
    (r = (-1, none) ∧ Under reserved size keep held k k') ∨
    ∃ slot process ptr stack task chunk sz s1 s2 s3 s4 s5 k5, r = ((slot.val : Int), some process) ∧
      processGetFreeSlot k.processes = some slot ∧
      Loaded env filename slot k k' process ptr stack task chunk sz s1 s2 s3 s4 s5 k5 := by
  unfold processLoad at h
  rw [Exec.bind_of_ok (Exec.get_apply k)] at h
  cases hslot : processGetFreeSlot k.processes with
  | none =>
    rw [hslot] at h
    obtain ⟨rfl, rfl⟩ := Exec.of_pure_ok h
    exact .inl ⟨rfl, refl k⟩
  | some slot =>
    rw [hslot] at h
    obtain ⟨p, k1, h1, h⟩ := Exec.of_bind_ok h
    rcases of_processLoadForSlot_ok reserved size held hkeep h1 with
      ⟨rfl, hu⟩ | ⟨process, ptr, stack, task, chunk, sz, s1, s2, s3, s4, s5, k5, rfl, hl⟩
    · obtain ⟨rfl, rfl⟩ := Exec.of_pure_ok h
      exact .inl ⟨rfl, hu⟩
    · obtain ⟨rfl, rfl⟩ := Exec.of_pure_ok h
      exact .inr ⟨slot, process, ptr, stack, task, chunk, sz, s1, s2, s3, s4, s5, k5, rfl, rfl, hl⟩

theorem frames_isr80hHandleCommand (hfill : FillsBelow env kernelBlocks) (hi : Inv k) {command : Int} {r : Nat}
    (h : isr80hHandleCommand env command k = .ok (r, k')) :
    FramesSys kernelBlocks systemBlocks True k.live k.toSys k'.toSys := by
  rcases of_isr80hHandleCommand_ok h with rfl | ⟨-, t, res, ht, hcopy⟩
  · exact AllocState.Frames.rfl' _
  · obtain ⟨p, -, ho⟩ := hi.owns _ _ ht
    exact frames_copyStringFromTask hfill hi.ok ho.space (by decide) (by decide) hcopy

theorem keepsSpaces_call (hfill : FillsBelow env kernelBlocks) (hi : Inv k) {command : Int}
    {frame : InterruptFrame} {r : Nat} (h : isr80hHandler env command frame k = .ok (r, k')) : KeepsSpaces k k' := by
  have hkept := keeps_isr80hHandler env command frame _ _ _ h
  obtain ⟨t, k2, t', ht, -, hcommand, -, rfl⟩ := of_isr80hHandler_ok h
  have hi1 : Inv (k.entered t frame) := hi.keep (keepsSpaces_of_same hi.ok (kept_save ht frame _))
  have f := frames_isr80hHandleCommand hfill hi1 hcommand
  exact keepsSpaces_of_frames hi.ok hkept f

theorem userWriteable_of_userWrite {entry : BitVec 32} (h : entry &&& userWrite = userWrite) : UserWriteable entry := by
  have hsub : pteWriteable ||| pteAccessFromAll = userWrite &&& (pteWriteable ||| pteAccessFromAll) := by decide
  unfold UserWriteable
  calc entry &&& (pteWriteable ||| pteAccessFromAll)
      = entry &&& userWrite &&& (pteWriteable ||| pteAccessFromAll) := by rw [BitVec.and_assoc, ← hsub]
    _ = pteWriteable ||| pteAccessFromAll := by rw [h, ← hsub]

/-- User code stores in the image and the stack of the current process. -/
theorem keepsSpaces_store (hi : Inv k) (hruns : UserRuns k) {virt : BitVec 32} {c : Byte}
    (h : userStore virt c k = .ok (⟨⟩, k')) :
    KeepsSpaces k k' := by
  obtain ⟨task, ht, hdir⟩ := hruns
  unfold userStore at h
  rw [Exec.bind_of_ok (Exec.get_apply k)] at h
  obtain ⟨mem, k1, h1, h⟩ := Exec.of_bind_ok h
  obtain ⟨hstore, rfl⟩ := Exec.of_lift_ok h1
  obtain ⟨s, hs, rfl⟩ := of_onSys_ok h
  rw [setMem_apply] at hs
  cases hs
  rw [hdir] at hstore
  obtain ⟨haccess, rfl⟩ := of_storeByte hstore
  obtain ⟨p, hp, ho⟩ := hi.owns _ _ ht
  have hlt := virt.isLt
  generalize hframe : frameOf (pageEntry k.mem task.pageDirectory (virt.toNat / 4096)) = frame
  have halign : frame % 4096 = 0 := by
    rw [← hframe, frameOf_eq]
    omega
  -- the page stored to belongs to an allocation of the heap, the address spaces to the page allocator
  obtain ⟨a, ha, howner, hcover⟩ : ∃ a ∈ k.live, a.owner = .kheap ∧ a.Covers (frame + virt.toNat % 4096) := by
    have hsame : ∀ {a : Live}, a.Covers frame → a.Covers (frame + virt.toNat % 4096) := by
      intro a ha
      rw [Live.covers_def] at ha ⊢
      unfold pmmBlockSize at *
      omega
    have hw := ho.writes (virt.toNat / 4096) (by omega) (userWriteable_of_userWrite haccess)
    rw [hframe] at hw
    rcases hw with hw | hw
    · exact ⟨p.image, ho.image, rfl, hsame hw⟩
    · exact ⟨p.stackLive, ho.stack, rfl, hsame hw⟩
  have hkept : Kept Any k (k.withSys { k.toSys with mem := Function.update k.mem (frame + virt.toNat % 4096) c }) :=
    kept_of_eq trivial rfl rfl rfl rfl rfl rfl
  have hok : TablesOk k.toSys := hi.ok
  refine ⟨hkept, hok.withMem _, List.Subset.refl _, fun b hb hpmm x hx => ?_⟩
  refine Function.update_of_ne (fun he => ?_) _ _
  have hne : a ≠ b := fun he => by
    rw [he, hpmm] at howner
    cases howner
  exact (hok.apart ha hb hne).not_covers hcover (he ▸ hx)

/-- A step keeps the address spaces there are, or makes one more. -/
theorem step_spaces (hfill : FillsBelow env kernelBlocks) (hi : Inv k) (h : Step env k k') : KeepsSpaces k k' ∨
    ∃ filename slot process ptr stack task chunk sz s1 s2 s3 s4 s5 k5,
      Loaded env filename slot k k' process ptr stack task chunk sz s1 s2 s3 s4 s5 k5 := by
  cases h with
  | load filename r h =>
    rcases of_processLoad_ok kernelBlocks systemBlocks True k.live (fun _ => hfill) h with
      ⟨-, hu⟩ | ⟨slot, process, ptr, stack, task, chunk, sz, s1, s2, s3, s4, s5, k5, -, -, hl⟩
    · exact .inl (keepsSpaces_of_frames hi.ok hu.kept hu.1)
    · exact .inr ⟨filename, slot, process, ptr, stack, task, chunk, sz, s1, s2, s3, s4, s5, k5, hl⟩
  | run r h => exact .inl (keepsSpaces_of_same hi.ok (keeps_taskRunFirstEverTask _ _ _ h))
  | tick frame r _ h => exact .inl (keepsSpaces_of_same hi.ok (keeps_isr0x20Handler frame _ _ _ h))
  | call command frame r _ h => exact .inl (keepsSpaces_call hfill hi h)
  | store virt c hruns h => exact .inl (keepsSpaces_store hi hruns h)

theorem step_inv (hfill : FillsBelow env kernelBlocks) (hi : Inv k) (h : Step env k k') : Inv k' := by
  rcases step_spaces hfill hi h with hk | ⟨_, _, _, _, _, _, _, _, _, _, _, _, _, _, hl⟩
  · exact hi.keep hk
  · exact inv_loaded hfill hi hl

theorem reachable_inv (hfill : FillsBelow env kernelBlocks) (h : Reachable env k) : Inv k := by
  induction h with
  | start h => exact inv_start h
  | step _ hs ih => exact step_inv hfill ih hs

theorem space_apart {mem : Mem} {chunk : Nat} (hi : Inv k) (hspace : IsSpace mem k.live chunk) {a : Live}
    (ha : a ∈ k.live) (howner : a.owner = .kheap) {x : Nat} (hx : a.Covers x) :
    ∀ b ∈ spaceBlocks mem chunk, ¬ (Live.block b).Covers x := by
  intro b hb
  have hok : TablesOk k.toSys := hi.ok
  have hne : a ≠ Live.block b := fun he => by
    rw [he] at howner
    cases howner
  exact (hok.apart ha (hspace.live b hb) hne).not_covers hx

/-! ## Isolation -/

/-- In every state user code can run in, a page that the directory of a task lets user code write lies
in the image or the stack of the task's own process. So it lies in no other allocation, in no memory
of another process, in no page table or directory, and past the blocks reserved. -/
theorem write_isolation (hfill : NoFill env) (h : Reachable env k) {t : Nat} {task : Task} (ht : k.tasks t = some task)
    {virt : Nat} (hlt : virt < 2 ^ 32) (halign : virt % 4096 = 0)
    (hw : UserWriteable (pagingGet k.mem (directoryEntry k.mem task.pageDirectory) virt)) :
    ∃ p frame, k.procs task.process = some p ∧ p.task = t ∧
      frame = frameOf (pagingGet k.mem (directoryEntry k.mem task.pageDirectory) virt) ∧
      ((p.image ∈ k.live ∧ p.image.Covers frame) ∨ (p.stackLive ∈ k.live ∧ p.stackLive.Covers frame)) ∧
      (∀ a ∈ k.live, a.Covers frame → a ∈ p.memory) ∧
      (∀ u task' p', k.tasks u = some task' → k.procs task'.process = some p' → u ≠ t →
        ∀ a ∈ p'.memory, ¬ a.Covers frame) ∧
      (∀ u task', k.tasks u = some task' → ∀ b ∈ spaceBlocks k.mem task'.pageDirectory, ¬ (Live.block b).Covers frame) ∧
      (∀ b ∈ spaceBlocks k.mem k.kernelChunk, ¬ (Live.block b).Covers frame) ∧
      kernelBlocks * pmmBlockSize ≤ frame := by
  have hi := reachable_inv (hfill.below kernelBlocks) h
  have hok : TablesOk k.toSys := hi.ok
  obtain ⟨p, hp, ho⟩ := hi.owns t task ht
  rw [pagingGet_eq _ _ halign] at hw ⊢
  have hcovers := ho.writes (virt / 4096) (by omega) hw
  generalize frameOf (pageEntry k.mem task.pageDirectory (virt / 4096)) = frame at hcovers
  obtain ⟨a, hmemory, ha, howner, hcover⟩ : ∃ a ∈ p.memory, a ∈ k.live ∧ a.owner = .kheap ∧ a.Covers frame := by
    rcases hcovers with hc | hc
    · exact ⟨_, List.mem_cons_self .., ho.image, rfl, hc⟩
    · exact ⟨_, List.mem_cons_of_mem _ (List.mem_cons_self ..), ho.stack, rfl, hc⟩
  have honly : ∀ b ∈ k.live, b.Covers frame → b = a := by
    intro b hb hc
    by_contra hne
    exact (hok.apart hb ha hne).not_covers hc hcover
  refine ⟨p, frame, hp, ho.owner, rfl, hcovers.imp (⟨ho.image, ·⟩) (⟨ho.stack, ·⟩), fun b hb hc => ?_,
    fun u task' p' hu hp' hne b hb hc => ?_, fun u task' hu => ?_, ?_, ?_⟩
  · rw [honly b hb hc]
    exact hmemory
  · obtain ⟨p'', hp'', ho'⟩ := hi.owns u task' hu
    rw [hp'] at hp''
    cases hp''
    have hlive : b ∈ k.live := by
      rcases List.mem_cons.1 hb with rfl | hb
      · exact ho'.image
      · rw [List.mem_singleton.1 hb]
        exact ho'.stack
    rw [honly b hlive hc] at hb
    exact hi.apart t u task task' p p' ht hu hp hp' hne.symm a hmemory hb
  · obtain ⟨p', -, ho'⟩ := hi.owns u task' hu
    exact space_apart hi ho'.space ha howner hcover
  · exact space_apart hi hi.kernelSpace ha howner hcover
  · obtain ⟨h1, -, h3, -⟩ := hok.bounds ha
    have hle := ((Live.covers_iff h1).1 hcover).1
    exact Nat.le_trans h3 hle

end

/-- The first page of a program: user code writes to it, and it is no kernel memory. -/
theorem program_page_isolated : ∃ k t task p frame, Reachable programDisk k ∧ k.tasks t = some task ∧
    k.procs task.process = some p ∧
    UserWriteable (pagingGet k.mem (directoryEntry k.mem task.pageDirectory) programVirtualAddress) ∧
    frame = frameOf (pagingGet k.mem (directoryEntry k.mem task.pageDirectory) programVirtualAddress) ∧
    kernelBlocks * pmmBlockSize ≤ frame := by
  obtain ⟨k, process, k', -, -, -, hstart, hstarted, hload, -⟩ := program_loads
  rcases of_processLoad_ok kernelBlocks systemBlocks False [] False.elim hload with
    ⟨he, -⟩ | ⟨slot, process, ptr, stack, task, chunk, sz, s1, s2, s3, s4, s5, k5, -, -, h⟩
  · cases he
  obtain ⟨item, t1, t2, fd, pos, res, rfl, hb⟩ := of_processLoadBinary_ok h.imageAlloc
  obtain ⟨-, ⟨t, ht, rfl, -⟩, -, -, hmap, -⟩ := h.maps hstarted.ok
  have hreach : Reachable programDisk k' := .step (.start hstart) (.load _ _ hload)
  have hw : UserWriteable (pagingGet k'.mem (directoryEntry k'.mem t.pageDirectory) programVirtualAddress) := by
    have hpages : 1 ≤ pages item.filesize.toNat := by
      have hn := hb.nonempty
      unfold pages
      omega
    rw [pagingGet_eq _ _ (by decide), show programVirtualAddress / 4096 = 1024 by decide, hmap _ (by decide)]
    exact processMap_writeable (Nat.le_refl _) (Nat.lt_add_of_pos_right hpages)
  obtain ⟨p, frame, hp, -, hframe, -, -, -, -, -, hlow⟩ :=
    write_isolation noFill_programDisk hreach ht (by decide) (by decide) hw
  exact ⟨k', task, t, p, frame, hreach, ht, hp, hw, hframe, hlow⟩

end SimpleMicrokernel.Tasking
