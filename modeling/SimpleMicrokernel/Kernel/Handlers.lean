/-
What the handlers of the interrupts do to the tasks and to memory: a tick saves registers and moves
on to the next task; a system call saves registers and, for a write, takes a page and leaves all
other memory as it was.
-/
import SimpleMicrokernel.Kernel.Kernel
import SimpleMicrokernel.Task.Map

namespace SimpleMicrokernel.Tasking

open Memory Fs Fat16 Paging

/-! ## The tasks -/

/-- The tasks differ at most in their registers; processes, the ends of the list and the kernel's
directory are the same; the state under the kernel moves along `R`. -/
structure Kept (R : Sys → Sys → Prop) (k k' : Kernel) : Prop where
  sys : R k.toSys k'.toSys
  tasks : ∃ regs : Nat → Registers, ∀ a, k'.tasks a = (k.tasks a).map fun t => { t with registers := regs a }
  procs : k'.procs = k.procs
  processes : k'.processes = k.processes
  head : k'.taskHead = k.taskHead
  tail : k'.taskTail = k.taskTail
  chunk : k'.kernelChunk = k.kernelChunk

section
variable {R : Sys → Sys → Prop}

theorem kept_of_eq {k k' : Kernel} (hsys : R k.toSys k'.toSys) (htasks : k'.tasks = k.tasks)
    (hprocs : k'.procs = k.procs) (hprocesses : k'.processes = k.processes) (hhead : k'.taskHead = k.taskHead)
    (htail : k'.taskTail = k.taskTail)
    (hchunk : k'.kernelChunk = k.kernelChunk) : Kept R k k' := by
  refine ⟨hsys, ⟨fun a => ((k.tasks a).map Task.registers).getD initialRegisters, fun a => ?_⟩, hprocs, hprocesses,
    hhead, htail, hchunk⟩
  rw [htasks]
  show k.tasks a = (k.tasks a).map fun t =>
    { t with registers := ((k.tasks a).map Task.registers).getD initialRegisters }
  cases k.tasks a with
  | none => rfl
  | some t => rfl

instance [Std.Refl R] : Std.Refl (Kept R) := ⟨fun _ => kept_of_eq (refl _) rfl rfl rfl rfl rfl rfl⟩

instance [IsTrans Sys R] : IsTrans Kernel (Kept R) where
  trans k k' k'' h1 h2 := by
    obtain ⟨s1, ⟨r1, e1⟩, p1, q1, a1, b1, c1⟩ := h1
    obtain ⟨s2, ⟨r2, e2⟩, p2, q2, a2, b2, c2⟩ := h2
    refine ⟨IsTrans.trans _ _ _ s1 s2, ⟨r2, fun a => ?_⟩, p2.trans p1, q2.trans q1, a2.trans a1, b2.trans b1,
      c2.trans c1⟩
    rw [e2, e1]
    cases k.tasks a with
    | none => rfl
    | some t => rfl

theorem Kept.of_some {k k' : Kernel} (h : Kept R k k') {a : Nat} {t' : Task} (ht : k'.tasks a = some t') :
    ∃ t, k.tasks a = some t ∧ t' = { t with registers := t'.registers } := by
  obtain ⟨regs, e⟩ := h.tasks
  rw [e] at ht
  cases hk : k.tasks a with
  | none => rw [hk] at ht; cases ht
  | some t =>
    rw [hk] at ht
    cases ht
    exact ⟨t, rfl, rfl⟩

theorem keeps_onSys {α : Type} {x : FsM α} (hx : Exec.Keeps R x) : Exec.Keeps (Kept R) (onSys x) := by
  intro k a k' h
  obtain ⟨s, hs, rfl⟩ := of_onSys_ok h
  exact kept_of_eq (hx _ _ _ hs) rfl rfl rfl rfl rfl rfl

variable [Std.Refl R]

theorem keeps_pagingSwitch (directory : Nat) : Exec.Keeps (Kept R) (pagingSwitch directory) :=
  Exec.keeps_modify fun _ => kept_of_eq (refl _) rfl rfl rfl rfl rfl rfl

theorem of_taskAt_ok {task : Nat} {k k' : Kernel} {t : Task} (h : taskAt task k = .ok (t, k')) : k.tasks task = some t ∧
    k = k' := by
  unfold taskAt at h
  rw [Exec.bind_of_ok (Exec.get_apply k)] at h
  cases ht : k.tasks task with
  | none =>
    rw [ht] at h
    cases h
  | some u =>
    rw [ht] at h
    obtain ⟨rfl, rfl⟩ := Exec.of_pure_ok h
    exact ⟨rfl, rfl⟩

theorem of_taskCurrentSaveState {frame : InterruptFrame} {k k' : Kernel} {u : Unit}
    (h : taskCurrentSaveState frame k = .ok (u, k')) : ∃ t, k.tasks k.currentTask = some t ∧ k.currentTask ≠ 0 ∧
      k' = { k with tasks := Function.update k.tasks k.currentTask (some (taskSaveState t frame)) } := by
  unfold taskCurrentSaveState at h
  rw [Exec.bind_of_ok (Exec.get_apply k)] at h
  split at h
  · rw [Exec.throw_apply] at h
    cases h
  · rename_i hcurrent
    obtain ⟨t, k1, h1, h⟩ := Exec.of_bind_ok h
    obtain ⟨ht, rfl⟩ := of_taskAt_ok h1
    rw [Exec.set_apply] at h
    cases h
    exact ⟨t, ht, hcurrent, rfl⟩

theorem of_taskSwitch_ok {task : Nat} {k k' : Kernel} {u : Unit} (h : taskSwitch task k = .ok (u, k')) :
    ∃ t, k.tasks task = some t ∧
    k' = { k with currentTask := task, currentDirectory := directoryEntry k.mem t.pageDirectory } := by
  unfold taskSwitch at h
  rw [Exec.bind_of_ok (Exec.modify_apply ..)] at h
  obtain ⟨t, k1, h1, h⟩ := Exec.of_bind_ok h
  obtain ⟨ht, rfl⟩ := of_taskAt_ok h1
  rw [Exec.bind_of_ok (Exec.get_apply _)] at h
  unfold pagingSwitch at h
  rw [Exec.modify_apply] at h
  cases h
  exact ⟨t, ht, rfl⟩

theorem of_taskRunFirstEverTask_ok {k k' : Kernel} {r : Registers} (h : taskRunFirstEverTask k = .ok (r, k')) :
    ∃ t, k.tasks k.taskHead = some t ∧
      k' = { k with currentTask := k.taskHead, currentDirectory := directoryEntry k.mem t.pageDirectory } := by
  unfold taskRunFirstEverTask at h
  rw [Exec.bind_of_ok (Exec.get_apply k)] at h
  split at h
  · rw [Exec.throw_apply] at h
    cases h
  · obtain ⟨_, k1, h1, h⟩ := Exec.of_bind_ok h
    obtain ⟨t, ht, rfl⟩ := of_taskSwitch_ok h1
    obtain ⟨u, k2, h2, h⟩ := Exec.of_bind_ok h
    obtain ⟨-, rfl⟩ := of_taskAt_ok h2
    obtain ⟨-, rfl⟩ := Exec.of_pure_ok h
    exact ⟨t, ht, rfl⟩

/-- The state in which a handler has switched to the kernel's directory and saved the registers. -/
def Kernel.entered (k : Kernel) (t : Task) (frame : InterruptFrame) : Kernel :=
  { k with
    currentDirectory := directoryEntry k.mem k.kernelChunk
    tasks := Function.update k.tasks k.currentTask (some (taskSaveState t frame)) }

theorem taskCurrentSaveState_entered {k : Kernel} {t : Task} (ht : k.tasks k.currentTask = some t)
    (hne : k.currentTask ≠ 0) (frame : InterruptFrame) :
    taskCurrentSaveState frame { k with currentDirectory := directoryEntry k.mem k.kernelChunk } =
      .ok ((), k.entered t frame) := by
  have hat : taskAt k.currentTask { k with currentDirectory := directoryEntry k.mem k.kernelChunk } = .ok (t, _) :=
    taskAt_of ht
  unfold taskCurrentSaveState
  rw [Exec.bind_of_ok (Exec.get_apply _), if_neg hne]
  exact Exec.bind_of_ok hat

theorem of_isr0x20Handler_ok {frame : InterruptFrame} {k k' : Kernel} {r : Registers}
    (h : isr0x20Handler frame k = .ok (r, k')) : ∃ t, k.tasks k.currentTask = some t ∧ k.currentTask ≠ 0 ∧
      scheduleNextTask (k.entered t frame) = .ok (r, k') := by
  unfold isr0x20Handler kernelPage at h
  rw [bind_assoc, Exec.bind_of_ok (Exec.get_apply k)] at h
  obtain ⟨_, k1, h1, h⟩ := Exec.of_bind_ok h
  unfold pagingSwitch at h1
  rw [Exec.modify_apply] at h1
  cases h1
  obtain ⟨_, k2, h2, h⟩ := Exec.of_bind_ok h
  obtain ⟨t, ht, hne, rfl⟩ := of_taskCurrentSaveState h2
  exact ⟨t, ht, hne, h⟩

/-- A call goes in, runs its command and comes back to the current task. -/
theorem of_isr80hHandler_ok {env : Env} {command : Int} {frame : InterruptFrame} {k k' : Kernel} {r : Nat}
    (h : isr80hHandler env command frame k = .ok (r, k')) : ∃ t k2 t', k.tasks k.currentTask = some t ∧
    k.currentTask ≠ 0 ∧
      isr80hHandleCommand env command (k.entered t frame) = .ok (r, k2) ∧ k2.tasks k2.currentTask = some t' ∧
      k' = { k2 with currentDirectory := directoryEntry k2.mem t'.pageDirectory } := by
  unfold isr80hHandler kernelPage at h
  rw [bind_assoc, Exec.bind_of_ok (Exec.get_apply k)] at h
  obtain ⟨_, k1, h1, h⟩ := Exec.of_bind_ok h
  unfold pagingSwitch at h1
  rw [Exec.modify_apply] at h1
  cases h1
  obtain ⟨_, k2, h2, h⟩ := Exec.of_bind_ok h
  obtain ⟨t, ht, hne, rfl⟩ := of_taskCurrentSaveState h2
  obtain ⟨res, k3, h3, h⟩ := Exec.of_bind_ok h
  obtain ⟨_, k4, h4, h⟩ := Exec.of_bind_ok h
  obtain ⟨rfl, rfl⟩ := Exec.of_pure_ok h
  unfold taskPage at h4
  rw [Exec.bind_of_ok (Exec.get_apply _)] at h4
  obtain ⟨t', ht', rfl⟩ := of_taskSwitch_ok h4
  exact ⟨t, k3, t', ht, hne, h3, ht', rfl⟩

/-- Only the write of a string does anything. -/
theorem of_isr80hHandleCommand_ok {env : Env} {command : Int} {k k' : Kernel} {r : Nat}
    (h : isr80hHandleCommand env command k = .ok (r, k')) : k = k' ∨
      (command = systemCommand4SysWrite ∧ ∃ t res, k.tasks k.currentTask = some t ∧
        copyStringFromTask env t t.registers.ebx.toNat 512 k = .ok (res, k')) := by
  unfold isr80hHandleCommand at h
  split at h
  · exact .inl (Exec.of_pure_ok h).2
  · split at h
    · cases h
    · split at h
      · rename_i hcommand
        unfold isr80hCommand4SysWrite at h
        rw [Exec.bind_of_ok (Exec.get_apply k)] at h
        obtain ⟨t, k1, h1, h⟩ := Exec.of_bind_ok h
        obtain ⟨ht, rfl⟩ := of_taskAt_ok h1
        obtain ⟨res, k2, h2, h⟩ := Exec.of_bind_ok h
        obtain ⟨-, rfl⟩ := Exec.of_pure_ok h
        exact .inr ⟨hcommand, t, res, ht, h2⟩
      · exact .inl (Exec.of_pure_ok h).2

theorem kept_save {k : Kernel} {task : Nat} {t : Task} (ht : k.tasks task = some t) (frame : InterruptFrame)
    (directory : Nat) :
    Kept R k { k with
      tasks := Function.update k.tasks task (some (taskSaveState t frame))
      currentDirectory := directory } := by
  refine ⟨refl _, ⟨fun a => if a = task then (taskSaveState t frame).registers
    else ((k.tasks a).map Task.registers).getD initialRegisters, fun a => ?_⟩, rfl, rfl, rfl, rfl, rfl⟩
  by_cases ha : a = task
  · subst ha
    simp only [Function.update_self, ht, if_pos, Option.map_some]
    rfl
  · simp only [Function.update_of_ne ha, if_neg ha]
    cases k.tasks a with
    | none => rfl
    | some t => rfl

theorem keeps_taskCurrentSaveState (frame : InterruptFrame) : Exec.Keeps (Kept R) (taskCurrentSaveState frame) := by
  intro k u k' h
  obtain ⟨t, ht, -, rfl⟩ := of_taskCurrentSaveState h
  exact kept_save ht frame k.currentDirectory

variable [IsTrans Sys R]

theorem keeps_taskAt (task : Nat) : Exec.Keeps (Kept R) (taskAt task) := by
  unfold taskAt
  refine Exec.keeps_bind Exec.keeps_get fun k => ?_
  split
  · exact Exec.keeps_throw _
  · exact Exec.keeps_pure _

theorem keeps_kernelPage : Exec.Keeps (Kept R) kernelPage := by
  unfold kernelPage
  exact Exec.keeps_bind Exec.keeps_get fun k => keeps_pagingSwitch _

theorem keeps_taskSwitch (task : Nat) : Exec.Keeps (Kept R) (taskSwitch task) := by
  unfold taskSwitch
  refine Exec.keeps_bind (Exec.keeps_modify fun _ => kept_of_eq (refl _) rfl rfl rfl rfl rfl rfl) fun _ => ?_
  refine Exec.keeps_bind (keeps_taskAt _) fun t => ?_
  exact Exec.keeps_bind Exec.keeps_get fun k => keeps_pagingSwitch _

theorem keeps_taskPage : Exec.Keeps (Kept R) taskPage := by
  unfold taskPage
  exact Exec.keeps_bind Exec.keeps_get fun k => keeps_taskSwitch _

theorem keeps_taskGetNext : Exec.Keeps (Kept R) taskGetNext := by
  unfold taskGetNext
  refine Exec.keeps_bind Exec.keeps_get fun k => Exec.keeps_bind (keeps_taskAt _) fun t => ?_
  exact Exec.keeps_ite (Exec.keeps_pure _) (Exec.keeps_pure _)

theorem keeps_scheduleNextTask : Exec.Keeps (Kept R) scheduleNextTask := by
  unfold scheduleNextTask
  refine Exec.keeps_bind keeps_taskGetNext fun newTask => Exec.keeps_bind (keeps_taskSwitch _) fun _ => ?_
  exact Exec.keeps_bind (keeps_taskAt _) fun t => Exec.keeps_pure _

theorem keeps_isr0x20Handler (frame : InterruptFrame) : Exec.Keeps (Kept R) (isr0x20Handler frame) := by
  unfold isr0x20Handler
  exact Exec.keeps_bind keeps_kernelPage fun _ =>
    Exec.keeps_bind (keeps_taskCurrentSaveState frame) fun _ => keeps_scheduleNextTask

theorem keeps_taskRunFirstEverTask : Exec.Keeps (Kept R) taskRunFirstEverTask := by
  unfold taskRunFirstEverTask
  refine Exec.keeps_bind Exec.keeps_get fun k => Exec.keeps_ite (Exec.keeps_throw _) ?_
  refine Exec.keeps_bind (keeps_taskSwitch _) fun _ => ?_
  exact Exec.keeps_bind (keeps_taskAt _) fun t => Exec.keeps_pure _

end

/-- Any two states. -/
def Any (_ _ : Sys) : Prop := True

instance : Std.Refl Any := ⟨fun _ => trivial⟩
instance : IsTrans Sys Any := ⟨fun _ _ _ _ _ => trivial⟩

theorem keeps_any {α : Type} (x : FsM α) : Exec.Keeps (Kept Any) (onSys x) := keeps_onSys fun _ _ _ _ => trivial

theorem keeps_copyStringToPage (env : Env) (meanwhile : Meanwhile) (task : Task) (virt max : Nat) :
    Exec.Keeps (Kept Any) (copyStringToPage env meanwhile task virt max) := by
  unfold copyStringToPage
  refine Exec.keeps_ite (Exec.keeps_pure _) ?_
  refine Exec.keeps_bind (keeps_any _) fun tmp => Exec.keeps_ite (Exec.keeps_pure _) ?_
  refine Exec.keeps_bind Exec.keeps_get fun k => Exec.keeps_bind (keeps_any _) fun _ => ?_
  refine Exec.keeps_bind (keeps_pagingSwitch _) fun _ => Exec.keeps_bind (keeps_any _) fun _ => ?_
  refine Exec.keeps_bind Exec.keeps_get fun k => Exec.keeps_bind (Exec.keeps_lift _) fun mem => ?_
  refine Exec.keeps_bind (keeps_any _) fun _ => Exec.keeps_bind keeps_kernelPage fun _ => ?_
  refine Exec.keeps_bind (keeps_any _) fun _ => Exec.keeps_bind Exec.keeps_get fun k => ?_
  refine Exec.keeps_bind (keeps_any _) fun _ => Exec.keeps_ite ?_ (Exec.keeps_pure _)
  exact Exec.keeps_bind (keeps_any _) fun _ => Exec.keeps_pure _

theorem keeps_copyStringFromTask (env : Env) (task : Task) (virt max : Nat) :
    Exec.Keeps (Kept Any) (copyStringFromTask env task virt max) := by
  unfold copyStringFromTask
  refine Exec.keeps_bind (keeps_copyStringToPage _ _ _ _ _) fun copied => ?_
  cases copied with
  | none => exact Exec.keeps_pure _
  | some tmp => exact Exec.keeps_bind Exec.keeps_get fun k => Exec.keeps_pure _

theorem keeps_isr80hHandleCommand (env : Env) (command : Int) :
    Exec.Keeps (Kept Any) (isr80hHandleCommand env command) := by
  unfold isr80hHandleCommand isr80hCommand0Sum isr80hCommand4SysWrite
  refine Exec.keeps_ite (Exec.keeps_pure _)
    (Exec.keeps_ite (Exec.keeps_throw _) (Exec.keeps_ite ?_ (Exec.keeps_pure _)))
  refine Exec.keeps_bind Exec.keeps_get fun k => Exec.keeps_bind (keeps_taskAt _) fun t => ?_
  exact Exec.keeps_bind (keeps_copyStringFromTask _ _ _ _) fun _ => Exec.keeps_pure _

theorem keeps_isr80hHandler (env : Env) (command : Int) (frame : InterruptFrame) :
    Exec.Keeps (Kept Any) (isr80hHandler env command frame) := by
  unfold isr80hHandler
  refine Exec.keeps_bind keeps_kernelPage fun _ => Exec.keeps_bind (keeps_taskCurrentSaveState frame) fun _ => ?_
  refine Exec.keeps_bind (keeps_isr80hHandleCommand env command) fun _ => ?_
  exact Exec.keeps_bind keeps_taskPage fun _ => Exec.keeps_pure _

end SimpleMicrokernel.Tasking
