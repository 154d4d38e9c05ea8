/-
Preemption. A tick saves the registers the processor and the wrapper pushed for the task that ran; nothing
that runs until this task is picked again touches them; and `task_return` is given them then.
-/
import SimpleMicrokernel.Kernel.Spaces
import SimpleMicrokernel.Task.Asm
import SimpleMicrokernel.Task.Image

namespace SimpleMicrokernel.Tasking

open Memory Fs Fat16 Paging

/-! ## A task that waits -/

/-- `task->registers`. -/
def Kernel.registers (k : Kernel) (a : Nat) : Option Registers := (k.tasks a).map Task.registers

/-- Other tasks run, for any number of steps. -/
inductive Waits (env : Env) (a : Nat) : Kernel → Kernel → Prop where
  | here (k : Kernel) : Waits env a k k
  | step {k k1 k' : Kernel} : k.currentTask ≠ a → Step env k k1 → Waits env a k1 k' → Waits env a k k'

/-- A tick with this frame stops the current task, and `task_return` is given `r` when the scheduler next picks
this task: at once, or at the first tick to do so after others have run. -/
def Resumes (env : Env) (k : Kernel) (frame : InterruptFrame) (r : Registers) (k' : Kernel) : Prop :=
  ∃ r1 k1, isr0x20Handler frame k = .ok (r1, k1) ∧ ((k1.currentTask = k.currentTask ∧ r = r1 ∧ k' = k1) ∨
    ∃ k2 frame2, Waits env k.currentTask k1 k2 ∧ k2.currentTask ≠ k.currentTask ∧ UserRuns k2 ∧
      isr0x20Handler frame2 k2 = .ok (r, k') ∧ k'.currentTask = k.currentTask)

section
variable {env : Env} {k k' : Kernel} {a : Nat} {r : Registers}

theorem registers_congr (h : k'.tasks a = k.tasks a) : k'.registers a = k.registers a := by
  unfold Kernel.registers
  rw [h]

theorem Kernel.linkTask.registers {task : Nat} {t : Task} (h : k.linkTask task t k') (ha : a ≠ task) :
    k'.registers a = k.registers a := by
  unfold Kernel.registers
  rcases h with ⟨-, rfl⟩ | ⟨-, tail, htail, rfl⟩
  · simp only [Function.update_of_ne ha]
  · simp only [Function.update_of_ne ha]
    by_cases htl : a = k.taskTail
    · subst htl
      rw [Function.update_self, htail]
      rfl
    · rw [Function.update_of_ne htl]

theorem Agrees.live (hi : Agrees k) (ha : (k.tasks a).isSome) : ⟨a, sizeofTask, .kheap⟩ ∈ k.live := by
  obtain ⟨i, p, hne, hp, rfl⟩ := mem_processTasks.1 (hi.list.only a ha)
  obtain ⟨p', t, hin, -, htask⟩ := hi.slots i hne
  rw [hin.proc] at hp
  cases hp
  exact htask

theorem registers_load (hi : Agrees k) (hr : k.registers a = some r) {filename : List Byte} {res : Int × Option Nat}
    (h : processLoad env filename k = .ok (res, k')) : k'.registers a = k.registers a := by
  rcases of_processLoad_ok kernelBlocks systemBlocks False k.live False.elim h with
    ⟨-, hu⟩ | ⟨slot, process, ptr, stack, task, chunk, sz, s1, s2, s3, s4, s5, k5, -, -, hl⟩
  · rw [hu.2]
    rfl
  · have howned : FramesSys kernelBlocks systemBlocks False k.live k.toSys k'.toSys ∧ _ := hl.owned False.elim hi.ok
    obtain ⟨-, -, htaskNew, -⟩ := howned
    have ha : a ≠ task := by
      obtain ⟨t, ht, -⟩ := Option.map_eq_some_iff.1 hr
      exact htaskNew _ (hi.live (by rw [ht]; rfl))
    have htasks : k'.tasks = k5.tasks := by
      rw [hl.result]
      rfl
    rw [registers_congr (k := k5) (congrFun htasks a), hl.link.registers ha]
    rfl

theorem registers_save (ha : k.currentTask ≠ a) {t : Task} {frame : InterruptFrame}
    (h : k'.tasks = Function.update k.tasks k.currentTask (some (taskSaveState t frame))) :
    k'.registers a = k.registers a := by
  refine registers_congr ?_
  rw [h, Function.update_of_ne ha.symm]

theorem registers_call (hi : Agrees k) (ha : k.currentTask ≠ a) {command : Int} {frame : InterruptFrame} {res : Nat}
    (h : isr80hHandler env command frame k = .ok (res, k')) : k'.registers a = k.registers a := by
  obtain ⟨t, k2, t', ht, -, hcommand, -, rfl⟩ := of_isr80hHandler_ok h
  have htasks : k2.tasks = (k.entered t frame).tasks := by
    rcases of_isr80hHandleCommand_ok hcommand with rfl | ⟨-, u, res, -, hcopy⟩
    · rfl
    · have hok : TablesOk (k.entered t frame).toSys := hi.ok
      obtain ⟨tmp, s1, -, ⟨-, -, rfl⟩ | ⟨-, m2, m3, -, -, -, rfl⟩⟩ := of_copyStringFromTask_ok hok (by decide) hcopy
      · rfl
      · rfl
  exact registers_save ha htasks

/-- A step in which another task runs leaves the registers saved for a task as they are. -/
theorem step_registers (hi : Agrees k) (ha : k.currentTask ≠ a) (hr : k.registers a = some r) (h : Step env k k') :
    k'.registers a = some r := by
  rw [← hr]
  cases h with
  | load filename res h => exact registers_load hi hr h
  | run res h =>
    obtain ⟨t, -, rfl⟩ := of_taskRunFirstEverTask_ok h
    rfl
  | tick frame res _ h =>
    obtain ⟨t, u, -, -, htasks, -⟩ := hi.tick h
    exact registers_save ha htasks
  | call command frame res _ h => exact registers_call hi ha h
  | store virt c _ h =>
    unfold userStore at h
    rw [Exec.bind_of_ok (Exec.get_apply k)] at h
    obtain ⟨mem, k1, h1, h⟩ := Exec.of_bind_ok h
    obtain ⟨-, rfl⟩ := Exec.of_lift_ok h1
    obtain ⟨s, -, rfl⟩ := of_onSys_ok h
    rfl

theorem waits_registers (hi : Agrees k) (hr : k.registers a = some r) (h : Waits env a k k') :
    Agrees k' ∧ k'.registers a = some r := by
  induction h with
  | here k => exact ⟨hi, hr⟩
  | step hne hs _ ih => exact ih (step_agrees hi hs) (step_registers hi hne hr hs)

/-- What the scheduler gives to `task_return` is what the frame held when the task was stopped. -/
theorem resumes_registers (hi : Agrees k) {u : Registers} (h : Resumes env k (stoppedFrame u) r k') : r = u := by
  obtain ⟨r1, k1, htick, h⟩ := h
  obtain ⟨t, t1, -, -, htasks, ht1, rfl⟩ := hi.tick htick
  have hsaved : k1.registers k.currentTask = some u := by
    unfold Kernel.registers
    rw [htasks, Function.update_self]
    rfl
  rcases h with ⟨hc, rfl, -⟩ | ⟨k2, frame2, hwaits, hne, -, htick2, hc⟩
  · rw [hc] at ht1
    unfold Kernel.registers at hsaved
    rw [ht1] at hsaved
    exact Option.some.inj hsaved
  · obtain ⟨hi2, hr2⟩ := waits_registers (agrees_tick hi htick) hsaved hwaits
    obtain ⟨t2, t3, -, -, htasks2, ht3, rfl⟩ := hi2.tick htick2
    have hr3 : k'.registers k.currentTask = some u := (registers_save hne htasks2).trans hr2
    rw [hc] at ht3
    unfold Kernel.registers at hr3
    rw [ht3] at hr3
    exact Option.some.inj hr3

end

/-! ## Stopping and resuming -/

/-- A directory takes these addresses to themselves. -/
def MapsOwn (mem : Mem) (directory lo hi : Nat) : Prop :=
    ∀ x, lo ≤ x → x < hi → translate mem directory supervisor x = some x

/-- The processor goes through this directory. -/
def Machine.Over (m : Machine) (mem : Mem) (directory : Nat) : Prop :=
  ∀ x addr, translate mem directory supervisor x = some addr → m.page x = addr

/-- The timer stops user code that has the registers `u` on `m0`, and `isr_0x20_handler` runs on `m1`, in the
kernel's directory. -/
structure Stops (k : Kernel) (u : Registers) (m0 m1 : Machine) : Prop where
  runs : UserRuns k
  user : m0.Over k.mem k.currentDirectory
  kernel : m1.Over k.mem (directoryEntry k.mem k.kernelChunk)
  esp : m1.esp = (isr0x20Wrapper (m0.interrupt u)).esp
  mem : m1.mem = (isr0x20Wrapper (m0.interrupt u)).mem

/-- The frame the handler is given. -/
def Machine.handlerFrame (m : Machine) : InterruptFrame := m.frameAt (m.word m.esp)

/-- `task_return(&task->registers)`, on the stack of the kernel. -/
structure Enters (k : Kernel) (task : Nat) (r : Registers) (m : Machine) (n : Nat) : Prop where
  loaded : m.Over k.mem k.currentDirectory
  esp : m.esp = BitVec.ofNat 32 (n + 32)
  stack : n + 40 ≤ esp0
  argument : m.word (m.esp + 4) = BitVec.ofNat 32 (task + 4)
  registers : m.registersAt (BitVec.ofNat 32 (task + 4)) = r

section
variable {env : Env} {k k' : Kernel} {u r : Registers} {m m0 m1 : Machine} {directory lo hi n : Nat}

theorem Machine.Over.own {mem : Mem} (h : m.Over mem directory) (hmaps : MapsOwn mem directory lo hi) : m.Own lo hi :=
  fun x h1 h2 => h x x (hmaps x h1 h2)

/-- The registers user code goes on with. -/
theorem resumed_registers (hreach : Reachable env k) (hs : Stops k u m0 m1) (hr : Resumes env k m1.handlerFrame r k')
    (he : Enters k' k.currentTask r m n) (huser : MapsOwn k.mem k.currentDirectory (esp0 - 56) esp0)
    (hkernel : MapsOwn k.mem (directoryEntry k.mem k.kernelChunk) (esp0 - 56) esp0)
    (hstack : MapsOwn k'.mem k'.currentDirectory n (n + 40))
    (htask : MapsOwn k'.mem k'.currentDirectory (k.currentTask + 4) (k.currentTask + 52)) (ret : BitVec 32) :
    iretd (taskReturn ret m) = { u with ebp := m.esp, flags := m.eflags ||| 0x200 } := by
  have hi := reachable_agrees hreach
  have hok : TablesOk k.toSys := hi.ok
  have hframe : m1.handlerFrame = stoppedFrame u :=
    frameAt_wrapper (hs.user.own huser) (hs.kernel.own hkernel) hs.esp hs.mem
  rw [hframe] at hr
  obtain rfl := resumes_registers hi hr
  obtain ⟨t, ht, -⟩ := hs.runs
  have hlow : 25000 * 4096 ≤ k.currentTask := (hok.bounds (hi.live (by rw [ht]; rfl))).2.2.1
  have hend : k.currentTask + 1 * 4096 ≤ 250000 * 4096 := (hok.bounds (hi.live (by rw [ht]; rfl))).2.2.2.1
  have hn := he.stack
  unfold esp0 at hn
  exact iretd_taskReturn ret ⟨he.esp, by omega, he.loaded.own hstack, he.argument,
    ⟨by omega, he.loaded.own htask, .inr (by omega)⟩, he.registers⟩

/-- A task that the timer stopped goes on with the registers it had exactly when its `ebp` is the address of the
kernel's stack that `task_return` is entered with, and its flags are the kernel's there with `IF` set. -/
theorem preempted_resumes_iff (hreach : Reachable env k) (hs : Stops k u m0 m1)
    (hr : Resumes env k m1.handlerFrame r k') (he : Enters k' k.currentTask r m n)
    (huser : MapsOwn k.mem k.currentDirectory (esp0 - 56) esp0)
    (hkernel : MapsOwn k.mem (directoryEntry k.mem k.kernelChunk) (esp0 - 56) esp0)
    (hstack : MapsOwn k'.mem k'.currentDirectory n (n + 40))
    (htask : MapsOwn k'.mem k'.currentDirectory (k.currentTask + 4) (k.currentTask + 52)) (ret : BitVec 32) :
    iretd (taskReturn ret m) = u ↔ u.ebp = m.esp ∧ u.flags = m.eflags ||| 0x200 := by
  rw [resumed_registers hreach hs hr he huser hkernel hstack htask ret]
  constructor
  · intro h
    exact ⟨(congrArg Registers.ebp h).symm, (congrArg Registers.flags h).symm⟩
  · rintro ⟨hebp, hflags⟩
    rw [← hebp, ← hflags]

end

/-! ## A program that runs alone -/

section
variable {env : Env} {item : Fat16DirectoryItem} {k : Kernel} {t : Task}

/-- The only task runs, and the directories map what an interrupt and a return go through to itself. -/
structure Alone (env : Env) (k : Kernel) (t : Task) : Prop where
  reachable : Reachable env k
  current : k.tasks k.currentTask = some t
  nonnull : k.currentTask ≠ 0
  head : k.taskHead = k.currentTask
  last : t.next = 0
  loaded : k.currentDirectory = directoryEntry k.mem t.pageDirectory
  low : 25000 * 4096 ≤ k.currentTask ∧ k.currentTask + 4096 ≤ 250000 * 4096
  user : MapsOwn k.mem k.currentDirectory (esp0 - pagingPageSize) esp0
  kernel : MapsOwn k.mem (directoryEntry k.mem k.kernelChunk) (esp0 - pagingPageSize) esp0
  task : MapsOwn k.mem k.currentDirectory k.currentTask (k.currentTask + 4096)

theorem taskRunFirstEverTask_of (hcurrent : k.currentTask ≠ 0) (ht : k.tasks k.taskHead = some t) :
    taskRunFirstEverTask k = .ok (t.registers,
      { k with currentTask := k.taskHead, currentDirectory := directoryEntry k.mem t.pageDirectory }) := by
  have ht' : Kernel.tasks
      { k with currentTask := k.taskHead, currentDirectory := directoryEntry k.mem t.pageDirectory } k.taskHead =
      some t := ht
  unfold taskRunFirstEverTask
  rw [Exec.bind_of_ok (Exec.get_apply k), if_neg hcurrent, Exec.bind_of_ok (taskSwitch_of ht),
    Exec.bind_of_ok (taskAt_of ht')]
  rfl

theorem kernel_mapsOwn {mem : Mem} {k' : Kernel} (hstart : startPaging env (initial mem) = .ok (⟨⟩, k))
    (hchunk : k'.kernelChunk = k.kernelChunk) (f : FramesSys kernelBlocks systemBlocks True k.live k.toSys k'.toSys)
    {lo hi : Nat} (hhi : hi ≤ 2 ^ 32) : MapsOwn k'.mem (directoryEntry k'.mem k'.kernelChunk) lo hi := by
  have hi := inv_start hstart
  obtain ⟨-, hlive, hmem⟩ := f hi.ok (List.Subset.refl _)
  have hmap : HasMap k'.mem k.kernelChunk kernelMap :=
    (mapped_start hstart).kernel.keep hi.kernelSpace hlive fun a ha _ => hmem trivial a ha
  intro x h1 h2
  rw [hchunk]
  exact translate_self (kernelFlags.setWidth 32) (hmap.entries _ (by omega)) (by decide) (by decide) hmap.flags
    (by decide) (by omega)

theorem Loaded.first {filename : List Byte} {slot : Fin maxProcesses} {process ptr stack task chunk : Nat}
    {sz : BitVec 32} {s1 s2 s3 s4 s5 : Sys} {k' k5 : Kernel} (hhead : k.taskHead = 0)
    (h : Loaded env filename slot k k' process ptr stack task chunk sz s1 s2 s3 s4 s5 k5) :
    k'.tasks = Function.update k.tasks task (some ⟨chunk, initialRegisters, process, 0, 0⟩) ∧ k'.taskHead = task ∧
      k'.currentTask = task ∧ k'.kernelChunk = k.kernelChunk := by
  rw [h.result]
  rcases h.link with ⟨-, rfl⟩ | ⟨hne, -⟩
  · exact ⟨rfl, rfl, rfl, rfl⟩
  · exact absurd hhead hne

theorem OneProgram.alone (ho : OneProgram env item) (hfill : NoFill env) (hsize : item.filesize.toNat ≤ 0x1FF000) :
    ∃ k t, Alone env k t := by
  obtain ⟨k, process, k', slot, ptr, stack, task, chunk, s1, s2, s3, s4, s5, k5, hstart, hstarted, hload, h, -⟩ :=
    ho.loaded
  obtain ⟨-, -, ⟨-, hlow, hend⟩, -, hmap, hflags⟩ := h.maps hstarted.ok
  have hpages : pages item.filesize.toNat ≤ 511 := by
    unfold pages
    omega
  have howned : FramesSys kernelBlocks systemBlocks True k.live k.toSys k'.toSys ∧ _ :=
    h.owned (fun _ => hfill.below kernelBlocks) hstarted.ok
  obtain ⟨f, -, -, -, howned⟩ := howned
  have hok' : TablesOk k'.toSys := (f hstarted.ok (List.Subset.refl _)).1
  have hbounds := hok'.bounds (howned ⟨chunk, initialRegisters, process, 0, 0⟩ rfl).taskLive
  have hlow' : 25000 * 4096 ≤ task := hbounds.2.2.1
  have hend' : task + 1 * 4096 ≤ 250000 * 4096 := hbounds.2.2.2.1
  -- the list was empty
  obtain ⟨htasks, hhead, hcurrent, hchunk⟩ := h.first hstarted.taskHead
  have htasks : k'.tasks task = some ⟨chunk, initialRegisters, process, 0, 0⟩ := by
    rw [htasks]
    exact Function.update_self ..
  have hrun := taskRunFirstEverTask_of (k := k') (by rw [hcurrent]; exact h.taskNe) (by rw [hhead]; exact htasks)
  refine ⟨_, _, .step (.step (.start hstart) (.load _ _ hload)) (.run _ hrun), ?_, ?_, rfl, rfl, rfl, ?_, ?_, ?_, ?_⟩
  · show k'.tasks k'.taskHead = _
    rw [hhead]
    exact htasks
  · show k'.taskHead ≠ 0
    rw [hhead]
    exact h.taskNe
  · show 25000 * 4096 ≤ k'.taskHead ∧ k'.taskHead + 4096 ≤ 250000 * 4096
    rw [hhead]
    exact ⟨hlow', hend'⟩
  · intro x h1 h2
    unfold esp0 pagingPageSize at h1
    unfold esp0 at h2
    exact translate_out hmap hflags (by omega) (.inr (by show 1024 + pages item.filesize.toNat ≤ _; omega))
  · exact kernel_mapsOwn hstart hchunk f (by decide)
  · show MapsOwn k'.mem _ k'.taskHead (k'.taskHead + 4096)
    rw [hhead]
    intro x h1 h2
    exact translate_out hmap hflags (by omega) (.inr (by show 1024 + pages item.filesize.toNat ≤ _; omega))

/-- A tick comes back to the only task. -/
theorem Alone.tick (h : Alone env k t) (frame : InterruptFrame) :
    ∃ k', isr0x20Handler frame k = .ok ((taskSaveState t frame).registers, k') ∧ k'.currentTask = k.currentTask ∧
    k'.mem = k.mem ∧
      k'.currentDirectory = k.currentDirectory := by
  have hsaved : (k.entered t frame).tasks (k.entered t frame).currentTask = some (taskSaveState t frame) :=
    Function.update_self ..
  have hnext : taskGetNext (k.entered t frame) = .ok (k.currentTask, k.entered t frame) := by
    rw [taskGetNext_of hsaved, if_pos (show (taskSaveState t frame).next = 0 from h.last)]
    exact congrArg (fun a => Except.ok (a, k.entered t frame)) h.head
  have hswitch : taskSwitch k.currentTask (k.entered t frame) = .ok (⟨⟩, { k.entered t frame with
      currentDirectory := directoryEntry k.mem t.pageDirectory }) := taskSwitch_of (t := taskSaveState t frame) hsaved
  have hat : taskAt k.currentTask { k.entered t frame with currentDirectory := directoryEntry k.mem t.pageDirectory } =
      .ok (taskSaveState t frame, _) := taskAt_of hsaved
  refine ⟨{ k.entered t frame with currentDirectory := directoryEntry k.mem t.pageDirectory }, ?_, rfl, rfl,
    h.loaded.symm⟩
  unfold isr0x20Handler kernelPage pagingSwitch
  rw [bind_assoc, Exec.bind_of_ok (Exec.get_apply k), Exec.bind_of_ok (Exec.modify_apply ..),
    Exec.bind_of_ok (taskCurrentSaveState_entered h.current h.nonnull frame)]
  unfold scheduleNextTask
  rw [Exec.bind_of_ok hnext, Exec.bind_of_ok hswitch, Exec.bind_of_ok hat]
  rfl

/-- The processor going through a directory; what it does not map is itself. -/
def through (mem : Mem) (directory : Nat) (x : Nat) : Nat := (translate mem directory supervisor x).getD x

theorem over_through {m : Machine} {mem : Mem} {directory : Nat} (h : m.page = through mem directory) :
    m.Over mem directory := by
  intro x addr hx
  rw [h, through, hx]
  rfl

/-- The only task is stopped with any registers, and `task_return` is called for it. -/
theorem Alone.resumes (h : Alone env k t) (u : Registers) :
    ∃ m0 m1 r k' m, Stops k u m0 m1 ∧ Resumes env k m1.handlerFrame r k' ∧
    Enters k' k.currentTask r m (esp0 - 40) ∧ m.eflags = 2 ∧ MapsOwn k.mem k.currentDirectory (esp0 - 56) esp0 ∧
    MapsOwn k.mem (directoryEntry k.mem k.kernelChunk) (esp0 - 56) esp0 ∧
    MapsOwn k'.mem k'.currentDirectory (esp0 - 40) (esp0 - 40 + 40) ∧
    MapsOwn k'.mem k'.currentDirectory (k.currentTask + 4) (k.currentTask + 52) := by
  have huser : MapsOwn k.mem k.currentDirectory (esp0 - 56) esp0 :=
    fun x h1 h2 => h.user x (Nat.le_trans (by decide) h1) h2
  have hkernel : MapsOwn k.mem (directoryEntry k.mem k.kernelChunk) (esp0 - 56) esp0 :=
    fun x h1 h2 => h.kernel x (Nat.le_trans (by decide) h1) h2
  have hstack : MapsOwn k.mem k.currentDirectory (esp0 - 40) (esp0 - 40 + 40) :=
    fun x h1 h2 => h.user x (Nat.le_trans (by decide) h1) (Nat.lt_of_lt_of_le h2 (by decide))
  have htask : MapsOwn k.mem k.currentDirectory (k.currentTask + 4) (k.currentTask + 52) :=
    fun x h1 h2 => h.task x (by omega) (by omega)
  let m0 : Machine := ⟨0, 0, 0, 0, 0, 0, 0, 0, 0, 0, 0, 0, 0, k.mem, through k.mem k.currentDirectory⟩
  let m1 : Machine := { isr0x20Wrapper (m0.interrupt u) with page := through k.mem (directoryEntry k.mem
    k.kernelChunk) }
  have hs : Stops k u m0 m1 := ⟨⟨t, h.current, h.loaded⟩, over_through rfl, over_through rfl, rfl, rfl⟩
  obtain ⟨k', hhandler, hcurrent, hmem, hdirectory⟩ := h.tick m1.handlerFrame
  have hlow := h.low
  obtain ⟨m, hpage, heflags, hesp, hargument, hregisters⟩ :=
    exists_call (n := esp0 - 8) (a := k.currentTask + 4) (through k.mem k.currentDirectory)
    (taskSaveState t m1.handlerFrame).registers
    (fun x h1 h2 => (over_through (m := m0) rfl).own hstack x (Nat.le_trans (by decide) h1)
      (Nat.lt_of_lt_of_le h2 (by decide)))
    (fun x h1 h2 => (over_through (m := m0) rfl).own htask x h1 h2) (by unfold esp0; omega) (by omega)
  refine ⟨m0, m1, _, k', m, hs, ⟨_, k', hhandler, .inl ⟨hcurrent, rfl, rfl⟩⟩,
    ⟨?_, hesp, by decide, hargument, hregisters⟩, heflags, huser, hkernel, ?_, ?_⟩
  · rw [hmem, hdirectory]
    exact over_through hpage
  · rw [hmem, hdirectory]
    exact hstack
  · rw [hmem, hdirectory]
    exact htask

end

/-- User code with 7 in `ebp` and interrupts on. -/
def sevenInEbp : Registers := { initialRegisters with ebp := 7, flags := 0x202 }

theorem alone_smallDisk : ∃ k t, Alone smallDisk k t :=
  oneProgram_smallDisk.alone noFill_smallDisk (by decide)

theorem seven_resumes : ∃ k m0 m1 r k' m, Reachable smallDisk k ∧ Stops k sevenInEbp m0 m1 ∧
    Resumes smallDisk k m1.handlerFrame r k' ∧ Enters k' k.currentTask r m (esp0 - 40) ∧
    (iretd (taskReturn 0 m) = sevenInEbp ↔ sevenInEbp.ebp = m.esp ∧ sevenInEbp.flags = m.eflags ||| 0x200) := by
  obtain ⟨k, t, h⟩ := alone_smallDisk
  obtain ⟨m0, m1, r, k', m, hs, hr, he, -, huser, hkernel, hstack, htask⟩ := h.resumes sevenInEbp
  exact ⟨k, m0, m1, r, k', m, h.reachable, hs, hr, he,
    preempted_resumes_iff h.reachable hs hr he huser hkernel hstack htask 0⟩

/-- It does not find the 7 again. -/
theorem seven_lost : ∃ k m0 m1 r k' m, Reachable smallDisk k ∧ Stops k sevenInEbp m0 m1 ∧
    Resumes smallDisk k m1.handlerFrame r k' ∧ Enters k' k.currentTask r m (esp0 - 40) ∧
    sevenInEbp.flags = m.eflags ||| 0x200 ∧
    iretd (taskReturn 0 m) ≠ sevenInEbp := by
  obtain ⟨k, t, h⟩ := alone_smallDisk
  obtain ⟨m0, m1, r, k', m, hs, hr, he, heflags, huser, hkernel, hstack, htask⟩ := h.resumes sevenInEbp
  refine ⟨k, m0, m1, r, k', m, h.reachable, hs, hr, he, ?_, fun heq => ?_⟩
  · rw [heflags]
    decide
  · rw [resumed_registers h.reachable hs hr he huser hkernel hstack htask 0] at heq
    have hebp : m.esp = 7 := congrArg Registers.ebp heq
    rw [he.esp] at hebp
    exact absurd hebp (by decide)

end SimpleMicrokernel.Tasking
