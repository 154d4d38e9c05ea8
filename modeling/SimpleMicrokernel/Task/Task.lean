/-
`task/task.c` and `scheduler/scheduler.c`. The tasks are a linked list from `task_head` on; the
processor runs `current_task` with its page directory loaded.
-/
import SimpleMicrokernel.Task.State

namespace SimpleMicrokernel.Tasking

open Memory Fs Paging

/-- `PROGRAM_VIRTUAL_ADDRESS` and the other constants of `task.h`. -/
def programVirtualAddress : Nat := 0x400000
def programVirtualStackAddressStart : Nat := 0x3FF000
def userProgramStackSize : Nat := 1024 * 16
def programVirtualStackAddressEnd : Nat := programVirtualStackAddressStart - userProgramStackSize
def userDataSegment : Nat := 0x23
def userCodeSegment : Nat := 0x1b

/-- `sizeof(struct task)`. -/
def sizeofTask : Nat := 64

/-- The task at an address. -/
def taskAt (task : Nat) : KM Task := do
  match (← get).tasks task with
  | none => throw .nullDeref
  | some t => return t

def pagingSwitch (directory : Nat) : KM Unit := modify fun k => { k with currentDirectory := directory }

def kernelPage : KM Unit := do
  let k ← get
  pagingSwitch (directoryEntry k.mem k.kernelChunk)

/-! ## Making a task -/

/-- The registers a task starts with. -/
def initialRegisters : Registers where
  edi := 0
  esi := 0
  ebp := 0
  ebx := 0
  edx := 0
  ecx := 0
  eax := 0
  ip := BitVec.ofNat 32 programVirtualAddress
  cs := BitVec.ofNat 32 userCodeSegment
  flags := 0
  esp := BitVec.ofNat 32 programVirtualStackAddressStart
  ss := BitVec.ofNat 32 userDataSegment

/-- `PTE_PRESENT | PTE_ACCESS_FROM_ALL`. -/
def taskFlags : BitVec 8 := 0b00000101

def taskInit (process : Nat) : FsM (Option Task) := do
  let pageDirectory ← pagingNew4gb taskFlags
  if pageDirectory = 0 then
    return none
  else
    return some ⟨pageDirectory, initialRegisters, process, 0, 0⟩

/-- The task is linked in at the tail. What was allocated for one that fails stays allocated. -/
def taskNew (env : Env) (process : Nat) : KM Nat := do
  let task ← onSys (kzalloc env sizeofTask)
  if task = 0 then
    return 0
  else
    match ← onSys (taskInit process) with
    | none => return 0
    | some t =>
      let k ← get
      if k.taskHead = 0 then
        set { k with
          tasks := Function.update k.tasks task (some t), taskHead := task, taskTail := task, currentTask := task }
        return task
      else
        match k.tasks k.taskTail with
        | none => throw .nullDeref
        | some tail =>
          set { k with
            tasks := Function.update (Function.update k.tasks k.taskTail (some { tail with next := task })) task
              (some { t with prev := k.taskTail })
            taskTail := task }
          return task

/-! ## Running tasks -/

def taskSwitch (task : Nat) : KM Unit := do
  modify fun k => { k with currentTask := task }
  let t ← taskAt task
  pagingSwitch (directoryEntry (← get).mem t.pageDirectory)

theorem taskAt_of {k : Kernel} {task : Nat} {t : Task} (h : k.tasks task = some t) : taskAt task k = .ok (t, k) := by
  unfold taskAt
  rw [Exec.bind_of_ok (Exec.get_apply k), h]
  rfl

theorem taskSwitch_of {k : Kernel} {task : Nat} {t : Task} (h : k.tasks task = some t) : taskSwitch task k =
    .ok (⟨⟩, { k with currentTask := task, currentDirectory := directoryEntry k.mem t.pageDirectory }) := by
  have h' : ({ k with currentTask := task } : Kernel).tasks task = some t := h
  unfold taskSwitch
  rw [Exec.bind_of_ok (Exec.modify_apply ..), Exec.bind_of_ok (taskAt_of h'), Exec.bind_of_ok (Exec.get_apply _)]
  rfl

def taskPage : KM Unit := do
  taskSwitch (← get).currentTask

def taskGetNext : KM Nat := do
  let k ← get
  let currentTask ← taskAt k.currentTask
  if currentTask.next = 0 then
    return k.taskHead
  else
    return currentTask.next

/-- The registers given to `task_return`, which does not come back. -/
def scheduleNextTask : KM Registers := do
  let newTask ← taskGetNext
  taskSwitch newTask
  let t ← taskAt newTask
  return t.registers

/-! ## Freeing a task -/

/-- `if (task->prev) task->prev->next = task->next`. -/
def taskUnlinkPrev (t : Task) : KM Unit :=
  if t.prev ≠ 0 then do
    let before ← taskAt t.prev
    modify fun k => { k with tasks := Function.update k.tasks t.prev (some { before with next := t.next }) }
  else return

/-- Only the task before is told of the one after: `task->next->prev` is left as it is. -/
def taskListRemove (task : Nat) : KM Unit := do
  let t ← taskAt task
  taskUnlinkPrev t
  modify fun k => { k with taskHead := if task = k.taskHead then t.next else k.taskHead }
  modify fun k => { k with taskTail := if task = k.taskTail then t.prev else k.taskTail }
  if task = (← get).currentTask then
    let next ← taskGetNext
    modify fun k => { k with currentTask := next }
  else return

/-- What was given back is no task any more. -/
def taskFree (task : Nat) : KM Unit := do
  let t ← taskAt task
  onSys (pagingFree4gb t.pageDirectory)
  taskListRemove task
  onSys (kfree task)
  modify fun k => { k with tasks := Function.update k.tasks task none }

/-! ## Saving a task, and running the first -/

def taskSaveState (task : Task) (frame : InterruptFrame) : Task :=
  { task with registers := {
      ip := frame.ip
      cs := frame.cs
      flags := frame.flags
      esp := frame.esp
      ss := frame.ss
      eax := frame.eax
      ebp := frame.ebp
      ebx := frame.ebx
      ecx := frame.ecx
      edi := frame.edi
      edx := frame.edx
      esi := frame.esi } }

def taskCurrentSaveState (frame : InterruptFrame) : KM Unit := do
  let k ← get
  if k.currentTask = 0 then
    throw .panic
  else
    let task ← taskAt k.currentTask
    set { k with tasks := Function.update k.tasks k.currentTask (some (taskSaveState task frame)) }

/-- The directory compared with is the one just loaded. -/
def taskRunFirstEverTask : KM Registers := do
  let k ← get
  if k.currentTask = 0 then
    throw .panic
  else
    taskSwitch k.taskHead
    let t ← taskAt k.taskHead
    return t.registers

/-! ## Reading a task's memory -/

/-- `PTE_WRITEABLE | PTE_PRESENT | PTE_ACCESS_FROM_ALL`. -/
def writeableFlags : BitVec 32 := pteWriteable ||| ptePresent ||| pteAccessFromAll

/-- What the call stores to the kernel's own variables and to the kernel's stack: until the string is read, until it is
read back, and until the call returns. -/
structure Meanwhile where
  reading : Mem → Mem
  back : Mem → Mem
  returning : Mem → Mem

def Meanwhile.nothing : Meanwhile := ⟨id, id, id⟩

/-- `copy_string_from_task` up to the string in `tmp`, which is none where the call gives -1. The page `tmp` is
mapped to itself in the task's directory while the string is copied to it there; it is given back only when the
entry cannot be restored. -/
def copyStringToPage (env : Env) (meanwhile : Meanwhile) (task : Task) (virt max : Nat) : KM (Option Nat) := do
  if pagingPageSize < max then
    return none
  else
    let tmp ← onSys (kzalloc env max)
    if tmp = 0 then
      return none
    else
      let mem := (← get).mem
      let taskDirectory := directoryEntry mem task.pageDirectory
      let oldEntry := pagingGet mem taskDirectory tmp
      onSys (setMem fun mem => (pagingMap mem taskDirectory tmp tmp writeableFlags).2)
      pagingSwitch taskDirectory
      onSys (setMem meanwhile.reading)
      let mem ← (strncpy (← get).mem taskDirectory tmp virt max : Except Halt Mem)
      onSys (setMem fun _ => mem)
      kernelPage
      onSys (setMem meanwhile.back)
      let (res, mem) := pagingSet (← get).mem taskDirectory tmp oldEntry
      onSys (setMem fun _ => mem)
      if res < 0 then
        onSys (kfree tmp)
        return none
      else
        return some tmp

/-- The result and what is stored at `phys`, which is on the kernel's stack. -/
def copyStringFromTask (env : Env) (task : Task) (virt max : Nat) : KM (Int × List Byte) := do
  match ← copyStringToPage env .nothing task virt max with
  | none => return (-1, [])
  | some tmp => return (1, strncpyFrom (← get).mem tmp (max - 1))

/-- The same with the buffer at `phys` in memory: the string is copied on to it with the kernel's directory
loaded. -/
def copyStringFromTaskTo (env : Env) (meanwhile : Meanwhile) (task : Task) (virt phys max : Nat) : KM Int := do
  match ← copyStringToPage env meanwhile task virt max with
  | none => return -1
  | some tmp =>
    let k ← get
    let mem ← (strncpy k.mem k.currentDirectory phys tmp max : Except Halt Mem)
    onSys (setMem fun _ => meanwhile.returning mem)
    return 1

end SimpleMicrokernel.Tasking
