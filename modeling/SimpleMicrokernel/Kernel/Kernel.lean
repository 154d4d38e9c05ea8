/-
The kernel as a machine: `kernel_main` up to the first task, the handlers of the timer interrupt and
of the system call, and the states they lead to while user code runs between them.
-/
import SimpleMicrokernel.Fat16.Mount
import SimpleMicrokernel.Task.Process

namespace SimpleMicrokernel.Tasking

open Memory Fs Fat16 Paging

/-! ## Starting -/

/-- The blocks `kernel_main` gives to `pmm_init`. -/
abbrev systemBlocks : Nat := 250000
abbrev kernelBlocks : Nat := 25000

/-- The state after `pmm_init`, `heap_init` and `fs_init`, the other variables zero. -/
def initial (mem : Mem) : Kernel where
  toAllocState := AllocState.init systemBlocks kernelBlocks mem
  filesystem := false
  fat16Private := ⟨⟨0, 0, 0, 0, 0, 0, 0⟩, ⟨0, 0, 0, 0⟩, fun _ => ⟨0⟩⟩
  fileDescriptors := fun _ => none
  tasks := fun _ => none
  procs := fun _ => none
  currentTask := 0
  taskHead := 0
  taskTail := 0
  processes := fun _ => 0
  kernelChunk := 0
  currentDirectory := 0

def diskSearchInit (env : Env) : FsM Unit := do
  let res ← fat16Resolve env
  modify fun s => { s with filesystem := res = 0 }

/-- `PTE_WRITEABLE | PTE_PRESENT | PTE_ACCESS_FROM_ALL`. -/
def kernelFlags : BitVec 8 := 0b00000111

/-- `kernel_main` from `disk_search_init` on to where paging is on. -/
def startPaging (env : Env) : KM Unit := do
  onSys (diskSearchInit env)
  let kernelChunk ← onSys (pagingNew4gb kernelFlags)
  if kernelChunk = 0 then
    throw .nullDeref
  else
    modify fun k => { k with kernelChunk := kernelChunk, currentDirectory := directoryEntry k.mem kernelChunk }

/-! ## Interrupts -/

/-- The registers given to `task_return`. -/
def isr0x20Handler (frame : InterruptFrame) : KM Registers := do
  kernelPage
  taskCurrentSaveState frame
  scheduleNextTask

/-- `MAX_ISR80H_COMMANDS`. -/
def maxIsr80hCommands : Int := 1024

/-- `SYSTEM_COMMAND0_SUM`, `SYSTEM_COMMAND4_SYS_WRITE`. -/
def systemCommand0Sum : Int := 0
def systemCommand4SysWrite : Int := 4

/-- The command prints a number and panics. -/
def isr80hCommand0Sum : KM Nat := throw .panic

/-- What is printed is not part of the state. -/
def isr80hCommand4SysWrite (env : Env) : KM Nat := do
  let currtTask ← taskAt (← get).currentTask
  let _ ← copyStringFromTask env currtTask currtTask.registers.ebx.toNat 512
  return 0

def isr80hHandleCommand (env : Env) (command : Int) : KM Nat :=
  if command < 0 ∨ maxIsr80hCommands ≤ command then
    return 0
  else if command = systemCommand0Sum then
    isr80hCommand0Sum
  else if command = systemCommand4SysWrite then
    isr80hCommand4SysWrite env
  else
    return 0

def isr80hHandler (env : Env) (command : Int) (frame : InterruptFrame) : KM Nat := do
  kernelPage
  taskCurrentSaveState frame
  let res ← isr80hHandleCommand env command
  taskPage
  return res

/-! ## Runs -/

/-- User code runs: there is a current task and its directory is loaded. -/
def UserRuns (k : Kernel) : Prop :=
  ∃ t, k.tasks k.currentTask = some t ∧ k.currentDirectory = directoryEntry k.mem t.pageDirectory

/-- A store of user code. -/
def userStore (virt : BitVec 32) (c : Byte) : KM Unit := do
  let k ← get
  let mem ← (storeByte k.mem k.currentDirectory userWrite virt.toNat c : Except Halt Mem)
  onSys (setMem fun _ => mem)

/-- What can happen next. A frame is whatever the handler finds on its stack. -/
inductive Step (env : Env) : Kernel → Kernel → Prop where
  | load {k k'} (filename : List Byte) (r) : processLoad env filename k = .ok (r, k') → Step env k k'
  | run {k k'} (r) : taskRunFirstEverTask k = .ok (r, k') → Step env k k'
  | tick {k k'} (frame : InterruptFrame) (r) : UserRuns k → isr0x20Handler frame k = .ok (r, k') → Step env k k'
  | call {k k'} (command : Int) (frame : InterruptFrame) (r) :
      UserRuns k → isr80hHandler env command frame k = .ok (r, k') → Step env k k'
  | store {k k'} (virt : BitVec 32) (c : Byte) : UserRuns k → userStore virt c k = .ok (⟨⟩, k') → Step env k k'

/-- The states the kernel can be in once paging is on. -/
inductive Reachable (env : Env) : Kernel → Prop where
  | start {mem k} : startPaging env (initial mem) = .ok (⟨⟩, k) → Reachable env k
  | step {k k'} : Reachable env k → Step env k k' → Reachable env k'

end SimpleMicrokernel.Tasking
