/-
What loading a process does: which computations a call that succeeded went through, and what it
frames whether it succeeded or not.
-/
import SimpleMicrokernel.Task.Process

namespace SimpleMicrokernel.Tasking

open Memory Fs Fat16 Paging

section
variable {reserved size : Nat} {keep : Prop} {held : List Live} {env : Env} {s s' : Sys} {k k' : Kernel}
  {filename : List Byte}

/-! ## The image -/

theorem of_fstat {fd res : Int} {fStat : FileStat} (h : fstat fd s = .ok ((res, some fStat), s')) :
    s = s' ∧ ∃ (i : Fin maxFileDescriptors) (item : Fat16DirectoryItem) (pos : BitVec 32), fd = i.val ∧ 1 ≤ i.val ∧
      HoldsFile s i item pos ∧ fStat.filesize = item.filesize := by
  unfold fstat fileGetDescriptor at h
  obtain ⟨desc, s1, h1, h⟩ := Exec.of_bind_ok h
  rw [Exec.bind_of_ok (Exec.get_apply s)] at h1
  split at h1
  · rename_i hfd
    obtain ⟨hdesc, rfl⟩ := Exec.of_pure_ok h1
    cases desc with
    | none =>
      obtain ⟨he, -⟩ := Exec.of_pure_ok h
      cases he
    | some desc =>
      simp only [fat16Stat] at h
      cases hv : desc.val.privateData.val.item.val with
      | directory d =>
        rw [hv] at h
        obtain ⟨he, -⟩ := Exec.of_pure_ok h
        cases he
      | file i =>
        rw [hv] at h
        obtain ⟨item, s2, h2, h⟩ := Exec.of_bind_ok h
        obtain ⟨rfl, addr, haddr⟩ := of_fileItem h2
        obtain ⟨he, rfl⟩ := Exec.of_pure_ok h
        cases he
        exact ⟨rfl, ⟨fd.toNat, by omega⟩, item, _, by simp; omega, by simp; omega, ⟨addr, desc, hdesc, haddr, rfl⟩, rfl⟩
  · obtain ⟨rfl, -⟩ := Exec.of_pure_ok h1
    obtain ⟨he, -⟩ := Exec.of_pure_ok h
    cases he

theorem fstat_state {fd : Int} {r : Int × Option FileStat} (h : fstat fd s = .ok (r, s')) : s = s' := by
  obtain ⟨res, fStat⟩ := r
  cases fStat with
  | some fStat => exact (of_fstat h).1
  | none =>
    unfold fstat at h
    obtain ⟨desc, s1, h1, h⟩ := Exec.of_bind_ok h
    obtain rfl := of_fileGetDescriptor h1
    cases desc with
    | none => exact (Exec.of_pure_ok h).2
    | some desc =>
      simp only [fat16Stat] at h
      cases hv : desc.val.privateData.val.item.val with
      | directory d =>
        rw [hv] at h
        exact (Exec.of_pure_ok h).2
      | file i =>
        rw [hv] at h
        obtain ⟨item, s2, h2, h⟩ := Exec.of_bind_ok h
        obtain ⟨rfl, -⟩ := of_fileItem h2
        exact (Exec.of_pure_ok h).2

/-- A load of the image that succeeded: the file that was opened, the memory that was allocated for
it, and the read into that. -/
structure BinaryLoaded (env : Env) (filename : List Byte) (s : Sys) (ptr : Nat) (item : Fat16DirectoryItem)
    (s1 s2 s' : Sys) (fd : Fin maxFileDescriptors) (pos : BitVec 32) (res : Int) : Prop where
  opened : fopen env filename [0x72] s = .ok ((fd.val : Int), s1)
  slot : 1 ≤ fd.val
  holds : HoldsFile s1 fd item pos
  allocated : kzalloc env item.filesize.toNat s1 = .ok (ptr, s2)
  nonnull : ptr ≠ 0
  read : fread env ptr item.filesize.toNat 1 fd.val s2 = .ok (res, s')
  positive : 0 < res

theorem of_processLoadBinary_ok {ptr : Nat} {sz : BitVec 32}
    (h : processLoadBinary env filename s = .ok (some (ptr, sz), s')) :
    ∃ item s1 s2 fd pos res, sz = item.filesize ∧ BinaryLoaded env filename s ptr item s1 s2 s' fd pos res := by
  unfold processLoadBinary at h
  obtain ⟨fd, s1, h1, h⟩ := Exec.of_bind_ok h
  split at h
  · obtain ⟨he, -⟩ := Exec.of_pure_ok h
    cases he
  · rename_i hfd
    obtain ⟨⟨res, fStat⟩, s2, h2, h⟩ := Exec.of_bind_ok h
    cases fStat with
    | none =>
      obtain ⟨he, -⟩ := Exec.of_pure_ok h
      cases he
    | some fStat =>
      obtain ⟨rfl, i, item, pos, rfl, hi, hholds, hsize⟩ := of_fstat h2
      simp only [hsize] at h
      split at h
      · obtain ⟨he, -⟩ := Exec.of_pure_ok h
        cases he
      · obtain ⟨p, s3, h3, h⟩ := Exec.of_bind_ok h
        split at h
        · obtain ⟨he, -⟩ := Exec.of_pure_ok h
          cases he
        · rename_i hp
          obtain ⟨r, s4, h4, h⟩ := Exec.of_bind_ok h
          split at h
          · obtain ⟨he, -⟩ := Exec.of_pure_ok h
            cases he
          · rename_i hr
            obtain ⟨he, rfl⟩ := Exec.of_pure_ok h
            cases he
            exact ⟨item, s1, s3, i, pos, r, rfl, h1, hi, hholds, h3, hp, h4, by omega⟩

theorem BinaryLoaded.nonempty {ptr : Nat} {item : Fat16DirectoryItem} {s1 s2 : Sys} {fd : Fin maxFileDescriptors}
    {pos : BitVec 32} {res : Int} (h : BinaryLoaded env filename s ptr item s1 s2 s' fd pos res) :
    1 ≤ item.filesize.toNat := by
  by_contra h0
  have hread := h.read
  unfold fread at hread
  rw [if_pos (.inl (by omega))] at hread
  obtain ⟨rfl, -⟩ := Exec.of_pure_ok hread
  exact absurd h.positive (by decide)

theorem frames_read (reserved size : Nat) (keep : Prop) (held : List Live) {n p : Nat} {fd res : Int} {s1 s2 : Sys}
    (hn : n < 2 ^ 32) (h1 : kzalloc env n s = .ok (p, s1)) (hp : p ≠ 0) (h2 : fread env p n 1 fd s1 = .ok (res, s2)) :
    FramesSys reserved size keep held s s2 ∧
      (s.Ok reserved size → held ⊆ s.live → (⟨p, n, .kheap⟩ : Live) ∈ s2.live ∧ ∀ b ∈ held, b.addr ≠ p) := by
  have z1 : ∀ held, FramesSys reserved size keep held s s1 ∧ _ := fun held => kzalloc_spec (fun _ => .inr hp) h1
  have hw := fread_writesIn hn h2
  rw [Nat.mul_one] at hw
  have hout : s.Ok reserved size → held ⊆ s.live → (⟨p, n, .kheap⟩ : Live) ∈ s1.live ∧ ∀ b ∈ held, b.addr ≠ p := by
    intro hok hheld
    have hlive := (z1 held).2 hok hp
    have o1 := owns_kzalloc ((z1 held).1 hok hheld).1 hheld hlive
    exact ⟨hlive ▸ List.mem_cons_self .., fun b hb => o1.out _ (List.mem_singleton.2 rfl) b hb⟩
  refine ⟨fun hok hheld => ?_, fun hok hheld => ?_⟩
  · obtain ⟨hin, hne⟩ := hout hok hheld
    exact ((z1 held).1.trans' (hw.frames (fun _ => hin) hne)) hok hheld
  · obtain ⟨hin, hne⟩ := hout hok hheld
    refine ⟨?_, hne⟩
    have hlive : s2.live = s1.live := by rw [hw.1]
    rw [hlive]
    exact hin

/-- A load of the image frames what is held, and the image is held after it. -/
theorem processLoadBinary_spec (hkeep : keep → FillsBelow env reserved) {r : Option (Nat × BitVec 32)}
    (h : processLoadBinary env filename s = .ok (r, s')) : FramesSys reserved size keep held s s' ∧
      (s.Ok reserved size → held ⊆ s.live → ∀ p ∈ r, (⟨p.1, p.2.toNat, .kheap⟩ : Live) ∈ s'.live ∧
        ∀ b ∈ held, b.addr ≠ p.1) := by
  unfold processLoadBinary at h
  obtain ⟨fd, s1, h1, h⟩ := Exec.of_bind_ok h
  have f1 : FramesSys reserved size keep held s s1 := framed_fopen hkeep filename [0x72] _ _ _ h1
  have hnone : ∀ {s2 : Sys}, FramesSys reserved size keep held s s2 →
    (pure none : FsM (Option (Nat × BitVec 32))) s2 = .ok (r, s') →
      FramesSys reserved size keep held s s' ∧ (s.Ok reserved size → held ⊆ s.live → ∀ p ∈ r,
        (⟨p.1, p.2.toNat, .kheap⟩ : Live) ∈ s'.live ∧ ∀ b ∈ held, b.addr ≠ p.1) := by
    intro s2 hf hr
    obtain ⟨rfl, rfl⟩ := Exec.of_pure_ok hr
    exact ⟨hf, by simp⟩
  split at h
  · exact hnone f1 h
  · obtain ⟨⟨res, fStat⟩, s2, h2, h⟩ := Exec.of_bind_ok h
    obtain rfl := fstat_state h2
    cases fStat with
    | none => exact hnone f1 h
    | some fStat =>
      simp only at h
      split at h
      · exact hnone f1 h
      · obtain ⟨p, s3, h3, h⟩ := Exec.of_bind_ok h
        split at h
        · exact hnone (f1.trans' (framed_kzalloc hkeep _ _ _ _ h3)) h
        · rename_i hp
          obtain ⟨n, s4, h4, h⟩ := Exec.of_bind_ok h
          obtain ⟨f2, hin⟩ := frames_read reserved size keep held
            fStat.filesize.isLt h3 hp h4
          split at h
          · exact hnone (f1.trans' f2) h
          · obtain ⟨rfl, rfl⟩ := Exec.of_pure_ok h
            refine ⟨f1.trans' f2, fun hok hheld q hq => ?_⟩
            cases hq
            obtain ⟨hok1, hheld1, -⟩ := f1 hok hheld
            exact hin hok1 hheld1

/-! ## The task -/

theorem framed_pagingNew4gb (flags : BitVec 8) : Framed reserved size keep held (pagingNew4gb flags) :=
  fun _ _ _ h hok hheld => (pagingNew4gb_spec h hok hheld).1 hok hheld

theorem framed_taskInit (process : Nat) : Framed reserved size keep held (taskInit process) := by
  unfold taskInit
  refine Exec.keeps_bind (framed_pagingNew4gb _) fun pageDirectory => ?_
  exact Exec.keeps_ite (Exec.keeps_pure _) (Exec.keeps_pure _)

theorem of_taskInit_some {process : Nat} {t : Task} (h : taskInit process s = .ok (some t, s')) :
    ∃ chunk, pagingNew4gb taskFlags s = .ok (chunk, s') ∧ chunk ≠ 0 ∧ t = ⟨chunk, initialRegisters, process, 0, 0⟩ := by
  unfold taskInit at h
  obtain ⟨chunk, s1, h1, h⟩ := Exec.of_bind_ok h
  split at h
  · obtain ⟨he, -⟩ := Exec.of_pure_ok h
    cases he
  · rename_i hc
    obtain ⟨he, rfl⟩ := Exec.of_pure_ok h
    cases he
    exact ⟨chunk, h1, hc, rfl⟩

/-- The list of tasks with one more at its tail. -/
def Kernel.linkTask (k : Kernel) (task : Nat) (t : Task) (k' : Kernel) : Prop :=
  (k.taskHead = 0 ∧
    k' = { k with
      tasks := Function.update k.tasks task (some t), taskHead := task, taskTail := task, currentTask := task }) ∨
  (k.taskHead ≠ 0 ∧ ∃ tail, k.tasks k.taskTail = some tail ∧
    k' = { k with
      tasks := Function.update (Function.update k.tasks k.taskTail (some { tail with next := task })) task
        (some { t with prev := k.taskTail })
      taskTail := task })

/-- The same address space and the same process. -/
def Task.SameSpace (t t' : Task) : Prop := t'.pageDirectory = t.pageDirectory ∧ t'.process = t.process

theorem Kernel.linkTask.at {task : Nat} {t : Task} (h : k.linkTask task t k') :
    ∃ t', k'.tasks task = some t' ∧ t.SameSpace t' := by
  rcases h with ⟨-, rfl⟩ | ⟨-, tail, -, rfl⟩
  · exact ⟨t, Function.update_self .., rfl, rfl⟩
  · exact ⟨{ t with prev := k.taskTail }, Function.update_self .., rfl, rfl⟩

theorem Kernel.linkTask.of_ne {task : Nat} {t : Task} (h : k.linkTask task t k') {a : Nat} (ha : a ≠ task) {u' : Task}
    (hu : k'.tasks a = some u') : ∃ u, k.tasks a = some u ∧ u.SameSpace u' := by
  rcases h with ⟨-, rfl⟩ | ⟨-, tail, htail, rfl⟩
  · have hu : Function.update k.tasks task (some t) a = some u' := hu
    rw [Function.update_of_ne ha] at hu
    exact ⟨u', hu, rfl, rfl⟩
  · have hu : Function.update (Function.update k.tasks k.taskTail (some { tail with next := task })) task
        (some { t with prev := k.taskTail }) a = some u' := hu
    rw [Function.update_of_ne ha] at hu
    by_cases htl : a = k.taskTail
    · subst htl
      rw [Function.update_self] at hu
      cases hu
      exact ⟨tail, htail, rfl, rfl⟩
    · rw [Function.update_of_ne htl] at hu
      exact ⟨u', hu, rfl, rfl⟩

theorem Kernel.linkTask.rest {task : Nat} {t : Task} (h : k.linkTask task t k') : k'.toSys = k.toSys ∧
    k'.procs = k.procs ∧ k'.processes = k.processes ∧ k'.kernelChunk = k.kernelChunk ∧
    k'.currentDirectory = k.currentDirectory := by
  rcases h with ⟨-, rfl⟩ | ⟨-, tail, -, rfl⟩
  · exact ⟨rfl, rfl, rfl, rfl, rfl⟩
  · exact ⟨rfl, rfl, rfl, rfl, rfl⟩

/-- The memory under the kernel changes and frames what is held; nothing else changes. -/
def Under (reserved size : Nat) (keep : Prop) (held : List Live) (k k' : Kernel) : Prop :=
  FramesSys reserved size keep held k.toSys k'.toSys ∧ k' = k.withSys k'.toSys

instance : Std.Refl (Under reserved size keep held) := ⟨fun _ => ⟨AllocState.Frames.rfl' _, rfl⟩⟩

instance : IsTrans Kernel (Under reserved size keep held) where
  trans _ _ _ h1 h2 := by
    refine ⟨AllocState.Frames.trans' h1.1 h2.1, ?_⟩
    rw [h2.2, h1.2]
    rfl

theorem under_onSys {α : Type} {x : FsM α} (hx : Framed reserved size keep held x) :
    Exec.Keeps (Under reserved size keep held) (onSys x) := by
  intro k a k' h
  obtain ⟨s, hs, rfl⟩ := of_onSys_ok h
  exact ⟨hx _ _ _ hs, rfl⟩

/-- A task is made and linked in, or what it took stays allocated and nothing else changes. -/
theorem of_taskNew_ok (hkeep : Framed reserved size keep held (kzalloc env sizeofTask)) {process task : Nat}
    (h : taskNew env process k = .ok (task, k')) :
    (task = 0 ∧ Under reserved size keep held k k') ∨
    (task ≠ 0 ∧ ∃ s1 s2 chunk, kzalloc env sizeofTask k.toSys = .ok (task, s1) ∧
      pagingNew4gb taskFlags s1 = .ok (chunk, s2) ∧ chunk ≠ 0 ∧
      (k.withSys s2).linkTask task ⟨chunk, initialRegisters, process, 0, 0⟩ k') := by
  unfold taskNew at h
  obtain ⟨p, k1, h1, h⟩ := Exec.of_bind_ok h
  have u1 : Under reserved size keep held k k1 := under_onSys hkeep _ _ _ h1
  obtain ⟨s1, hs1, rfl⟩ := of_onSys_ok h1
  split at h
  · obtain ⟨rfl, rfl⟩ := Exec.of_pure_ok h
    exact .inl ⟨rfl, u1⟩
  · rename_i hp
    obtain ⟨t, k2, h2, h⟩ := Exec.of_bind_ok h
    have u2 : Under reserved size keep held (k.withSys s1) k2 := under_onSys (framed_taskInit _) _ _ _ h2
    obtain ⟨s2, hs2, rfl⟩ := of_onSys_ok h2
    cases t with
    | none =>
      obtain ⟨rfl, rfl⟩ := Exec.of_pure_ok h
      exact .inl ⟨rfl, IsTrans.trans _ _ _ u1 u2⟩
    | some t =>
      obtain ⟨chunk, hchunk, hc, rfl⟩ := of_taskInit_some hs2
      simp only at h
      rw [Exec.bind_of_ok (Exec.get_apply _)] at h
      refine .inr ?_
      split at h
      · rename_i hhead
        rw [Exec.bind_of_ok (Exec.set_apply ..)] at h
        obtain ⟨rfl, rfl⟩ := Exec.of_pure_ok h
        exact ⟨hp, s1, s2, chunk, hs1, hchunk, hc, .inl ⟨hhead, rfl⟩⟩
      · rename_i hhead
        cases htail : ((k.withSys s1).withSys s2).tasks ((k.withSys s1).withSys s2).taskTail with
        | none =>
          rw [htail] at h
          cases h
        | some tail =>
          rw [htail] at h
          simp only at h
          rw [Exec.bind_of_ok (Exec.set_apply ..)] at h
          obtain ⟨rfl, rfl⟩ := Exec.of_pure_ok h
          exact ⟨hp, s1, s2, chunk, hs1, hchunk, hc, .inr ⟨hhead, tail, htail, rfl⟩⟩

/-! ## The process -/

/-- The process a load makes. -/
def newProcess (filename : List Byte) (slot : Fin maxProcesses) (task ptr stack : Nat) (sz : BitVec 32) : Process :=
  ⟨BitVec.ofNat 16 slot, filename.take (maxPath - 1), task, ptr, stack, sz⟩

/-- A load that succeeded: what was allocated for it, the image, the stack and the task in this
order, and the maps of both. -/
structure Loaded (env : Env) (filename : List Byte) (slot : Fin maxProcesses) (k k' : Kernel)
    (process ptr stack task chunk : Nat) (sz : BitVec 32) (s1 s2 s3 s4 s5 : Sys) (k5 : Kernel) : Prop where
  free : k.processes slot = 0
  processAlloc : kzalloc env sizeofProcess k.toSys = .ok (process, s1)
  processNe : process ≠ 0
  imageAlloc : processLoadBinary env filename s1 = .ok (some (ptr, sz), s2)
  stackAlloc : kzalloc env userProgramStackSize s2 = .ok (stack, s3)
  stackNe : stack ≠ 0
  taskAlloc : kzalloc env sizeofTask s3 = .ok (task, s4)
  taskNe : task ≠ 0
  spaceAlloc : pagingNew4gb taskFlags s4 = .ok (chunk, s5)
  chunkNe : chunk ≠ 0
  link : (k.withSys s5).linkTask task ⟨chunk, initialRegisters, process, 0, 0⟩ k5
  result : k' = { k5.withSys { s5 with mem := processMapMemory s5.mem chunk (newProcess filename slot task ptr
    stack sz) } with
    procs := Function.update k.procs process (some (newProcess filename slot task ptr stack sz))
    processes := Function.update k.processes slot process }

/-- A load for a slot succeeds as a whole or changes nothing but memory. -/
theorem of_processLoadForSlot_ok (reserved size : Nat) (held : List Live)
    (hkeep : keep → FillsBelow env reserved) {slot : Fin maxProcesses} {r : Option Nat}
    (h : processLoadForSlot env filename slot k = .ok (r, k')) :
    (r = none ∧ Under reserved size keep held k k') ∨
    (∃ process ptr stack task chunk sz s1 s2 s3 s4 s5 k5, r = some process ∧
      Loaded env filename slot k k' process ptr stack task chunk sz s1 s2 s3 s4 s5 k5) := by
  have hnone : ∀ {k1 : Kernel}, Under reserved size keep held k k1 → (pure none : KM (Option Nat)) k1 = .ok (r, k') →
      r = none ∧ Under reserved size keep held k k' := by
    intro k1 hu hr
    obtain ⟨rfl, rfl⟩ := Exec.of_pure_ok hr
    exact ⟨rfl, hu⟩
  unfold processLoadForSlot at h
  rw [Exec.bind_of_ok (Exec.get_apply k)] at h
  split at h
  · exact .inl (hnone (refl k) h)
  · rename_i hfree
    obtain ⟨process, k1, h1, h⟩ := Exec.of_bind_ok h
    have u1 : Under reserved size keep held k k1 := under_onSys (framed_kzalloc hkeep _) _ _ _ h1
    obtain ⟨s1, hs1, rfl⟩ := of_onSys_ok h1
    split at h
    · exact .inl (hnone u1 h)
    · rename_i hprocess
      obtain ⟨b, k2, h2, h⟩ := Exec.of_bind_ok h
      have u2 : Under reserved size keep held (k.withSys s1) k2 :=
        under_onSys (fun _ _ _ hb => (processLoadBinary_spec hkeep hb).1) _ _ _ h2
      obtain ⟨s2, hs2, rfl⟩ := of_onSys_ok h2
      cases b with
      | none => exact .inl (hnone (IsTrans.trans _ _ _ u1 u2) h)
      | some b =>
        obtain ⟨ptr, sz⟩ := b
        obtain ⟨stack, k3, h3, h⟩ := Exec.of_bind_ok h
        have u3 : Under reserved size keep held ((k.withSys s1).withSys s2) k3 :=
          under_onSys (framed_kzalloc hkeep _) _ _ _ h3
        obtain ⟨s3, hs3, rfl⟩ := of_onSys_ok h3
        have u13 := IsTrans.trans _ _ _ (IsTrans.trans _ _ _ u1 u2) u3
        split at h
        · exact .inl (hnone u13 h)
        · rename_i hstack
          obtain ⟨task, k4, h4, h⟩ := Exec.of_bind_ok h
          have hfill : Framed reserved size keep held (kzalloc env sizeofTask) := framed_kzalloc hkeep _
          rcases of_taskNew_ok hfill h4 with
            ⟨rfl, u4⟩ | ⟨htask, s4, s5, chunk, hs4, hs5, hchunk, hlink⟩
          · rw [if_pos rfl] at h
            exact .inl (hnone (IsTrans.trans _ _ _ u13 u4) h)
          · rw [if_neg htask] at h
            obtain ⟨t, ht, hspace, -⟩ := hlink.at
            have hspace : t.pageDirectory = chunk := hspace
            have hrest : k4.toSys = s5 ∧ k4.procs = k.procs ∧ k4.processes = k.processes ∧ _ := hlink.rest
            obtain ⟨hsys, hprocs, hprocesses, -⟩ := hrest
            have htaskAt : taskAt task k4 = .ok (t, k4) := by
              unfold taskAt
              rw [Exec.bind_of_ok (Exec.get_apply k4), ht]
              rfl
            rw [Exec.bind_of_ok htaskAt] at h
            obtain ⟨_, k6, h6, h⟩ := Exec.of_bind_ok h
            obtain ⟨s6, hs6, rfl⟩ := of_onSys_ok h6
            rw [setMem_apply] at hs6
            rw [Exec.bind_of_ok (Exec.modify_apply ..)] at h
            obtain ⟨rfl, rfl⟩ := Exec.of_pure_ok h
            refine .inr ⟨process, ptr, stack, task, chunk, sz, s1, s2, s3, s4, s5, k4, rfl, hfree |> not_not.1,
              hs1, hprocess, hs2,
              hs3, hstack, hs4, htask, hs5, hchunk, hlink, ?_⟩
            cases hs6
            rw [← hprocs, ← hprocesses, ← hsys, ← hspace]
            rfl

end

end SimpleMicrokernel.Tasking
