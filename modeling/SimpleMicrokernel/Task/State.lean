/-
The data of tasks and processes and the state the whole kernel runs on. A task or a process is a
value at the address it was allocated at; one that is being made is a value of its own until it is
linked in.
-/
import SimpleMicrokernel.Fs.Frame
import SimpleMicrokernel.Paging.Access

namespace SimpleMicrokernel.Tasking

open Memory Fs Paging

/-- `struct registers`. -/
structure Registers where
  edi : BitVec 32
  esi : BitVec 32
  ebp : BitVec 32
  ebx : BitVec 32
  edx : BitVec 32
  ecx : BitVec 32
  eax : BitVec 32
  ip : BitVec 32
  cs : BitVec 32
  flags : BitVec 32
  esp : BitVec 32
  ss : BitVec 32
deriving DecidableEq, Repr

/-- `struct interrupt_frame`: `pushad` pushes `esp` too, between `ebp` and `ebx`. -/
structure InterruptFrame where
  edi : BitVec 32
  esi : BitVec 32
  ebp : BitVec 32
  reserved : BitVec 32
  ebx : BitVec 32
  edx : BitVec 32
  ecx : BitVec 32
  eax : BitVec 32
  ip : BitVec 32
  cs : BitVec 32
  flags : BitVec 32
  esp : BitVec 32
  ss : BitVec 32
deriving DecidableEq, Repr

/-- `struct task`. Pointers are addresses. -/
structure Task where
  pageDirectory : Nat
  registers : Registers
  process : Nat
  next : Nat
  prev : Nat
deriving DecidableEq, Repr

/-- `struct process` without `allocations`, which nothing uses. -/
structure Process where
  id : BitVec 16
  filename : List Byte
  task : Nat
  ptr : Nat
  stack : Nat
  size : BitVec 32
deriving DecidableEq, Repr

/-- `MAX_PROCESSES`. -/
abbrev maxProcesses : Nat := 12

/-- The state of the kernel: the file system and memory under it, the tasks and processes by address,
and the variables that point to them. `currentDirectory` is the directory loaded. -/
structure Kernel extends Sys where
  tasks : Nat → Option Task
  procs : Nat → Option Process
  currentTask : Nat
  taskHead : Nat
  taskTail : Nat
  processes : Fin maxProcesses → Nat
  kernelChunk : Nat
  currentDirectory : Nat

/-- A computation of the kernel. -/
abbrev KM := Exec Halt Kernel

/-- The kernel with another state under it. -/
def Kernel.withSys (k : Kernel) (s : Sys) : Kernel := { k with toSys := s }

@[simp] theorem Kernel.withSys_toSys (k : Kernel) (s : Sys) : (k.withSys s).toSys = s := rfl
@[simp] theorem Kernel.withSys_self (k : Kernel) : k.withSys k.toSys = k := rfl
@[simp] theorem Kernel.withSys_withSys (k : Kernel) (s s' : Sys) : (k.withSys s).withSys s' = k.withSys s' := rfl
@[simp] theorem Kernel.withSys_tasks (k : Kernel) (s : Sys) : (k.withSys s).tasks = k.tasks := rfl
@[simp] theorem Kernel.withSys_procs (k : Kernel) (s : Sys) : (k.withSys s).procs = k.procs := rfl

/-- A computation of the file system and the allocator, run in the kernel. -/
def onSys {α : Type} (x : FsM α) : KM α := fun k =>
  match x k.toSys with
  | .ok (a, s) => .ok (a, k.withSys s)
  | .error e => .error e

theorem of_onSys_ok {α : Type} {x : FsM α} {k k' : Kernel} {a : α} (h : onSys x k = .ok (a, k')) :
    ∃ s, x k.toSys = .ok (a, s) ∧ k' = k.withSys s := by
  unfold onSys at h
  cases hx : x k.toSys with
  | error e => rw [hx] at h; cases h
  | ok p =>
    obtain ⟨b, s⟩ := p
    rw [hx] at h
    cases h
    exact ⟨s, rfl, rfl⟩

theorem onSys_of_ok {α : Type} {x : FsM α} {k : Kernel} {a : α} {s : Sys} (h : x k.toSys = .ok (a, s)) :
    onSys x k = .ok (a, k.withSys s) := by
  unfold onSys
  rw [h]

end SimpleMicrokernel.Tasking
