/-
`task/process.c`: a process is loaded from a file into memory of its own, given a stack and a task,
and both are mapped writeable into the task's directory. Whatever was allocated for a process that
cannot be loaded stays allocated.
-/
import SimpleMicrokernel.Task.Task

namespace SimpleMicrokernel.Tasking

open Memory Fs Fat16 Paging

/-- `sizeof(struct process)`. -/
def sizeofProcess : Nat := 4224

/-- The image and its size. -/
def processLoadBinary (env : Env) (filename : List Byte) : FsM (Option (Nat × BitVec 32)) := do
  let fd ← fopen env filename [0x72]
  if fd ≤ 0 then
    return none
  else
    match ← fstat fd with
    | (_, none) => return none
    | (res, some fStat) =>
      if res ≤ 0 then
        return none
      else
        let programDataPointer ← kzalloc env fStat.filesize.toNat
        if programDataPointer = 0 then
          return none
        else
          if (← fread env programDataPointer fStat.filesize.toNat 1 fd) ≤ 0 then
            return none
          else
            return some (programDataPointer, fStat.filesize)

/-- The pages of `size` bytes from `ptr` on, mapped from `virt` on into the directory of a chunk. -/
def mapWriteable (mem : Mem) (chunk virt ptr size : Nat) : Mem :=
  (pagingMapTo mem (directoryEntry mem chunk) virt ptr (pagingAlignAddress ((ptr + size) % 2 ^ 32)) writeableFlags).2

/-- The results of the mappings are not looked at. -/
def processMapBinary (mem : Mem) (chunk : Nat) (process : Process) : Mem :=
  let mem := mapWriteable mem chunk programVirtualAddress process.ptr process.size.toNat
  mapWriteable mem chunk programVirtualStackAddressEnd process.stack userProgramStackSize

/-- The stack is mapped twice. -/
def processMapMemory (mem : Mem) (chunk : Nat) (process : Process) : Mem :=
  let mem := processMapBinary mem chunk process
  mapWriteable mem chunk programVirtualStackAddressEnd process.stack userProgramStackSize

/-- The process, if it was loaded. -/
def processLoadForSlot (env : Env) (filename : List Byte) (processSlot : Fin maxProcesses) : KM (Option Nat) := do
  if (← get).processes processSlot ≠ 0 then
    return none
  else
    let process ← onSys (kzalloc env sizeofProcess)
    if process = 0 then
      return none
    else
      match ← onSys (processLoadBinary env filename) with
      | none => return none
      | some (ptr, size) =>
        let programStackPtr ← onSys (kzalloc env userProgramStackSize)
        if programStackPtr = 0 then
          return none
        else
          let task ← taskNew env process
          if task = 0 then
            return none
          else
            let p : Process :=
              ⟨BitVec.ofNat 16 processSlot, filename.take (maxPath - 1), task, ptr, programStackPtr, size⟩
            let t ← taskAt task
            onSys (setMem fun mem => processMapMemory mem t.pageDirectory p)
            modify fun k => { k with
              procs := Function.update k.procs process (some p)
              processes := Function.update k.processes processSlot process }
            return some process

def processGetFreeSlot (processes : Fin maxProcesses → Nat) : Option (Fin maxProcesses) :=
  Fin.find? fun i => processes i = 0

/-- The slot, or -1, and the process. -/
def processLoad (env : Env) (filename : List Byte) : KM (Int × Option Nat) := do
  match processGetFreeSlot (← get).processes with
  | none => return (-1, none)
  | some slot =>
    match ← processLoadForSlot env filename slot with
    | none => return (-1, none)
    | some process => return (slot, some process)

end SimpleMicrokernel.Tasking
