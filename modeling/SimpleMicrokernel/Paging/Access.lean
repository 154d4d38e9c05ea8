/-
Memory seen through a page directory, as the processor translates each access while the directory is
loaded, and `strncpy` when the kernel runs it there.
-/
import SimpleMicrokernel.Paging.New

namespace SimpleMicrokernel.Paging

open Memory

/-- The physical address of a virtual one for an access: the entry of the directory and the entry of
its table must both carry the flags the access needs. -/
def translate (mem : Mem) (directory : Nat) (access : BitVec 32) (virt : Nat) : Option Nat :=
  let directoryIndex := virt / (pagingTotalEntriesPerTable * pagingPageSize)
  let tableIndex := virt % (pagingTotalEntriesPerTable * pagingPageSize) / pagingPageSize
  let entry := uint32At mem (tableAddr mem directory directoryIndex + 4 * tableIndex)
  if uint32At mem (directory + 4 * directoryIndex) &&& access = access ∧ entry &&& access = access then
    some (frameOf entry + virt % pagingPageSize)
  else none

/-- What user code needs to read and to write; the kernel writes to read-only pages too. -/
def userRead : BitVec 32 := ptePresent ||| pteAccessFromAll
def userWrite : BitVec 32 := ptePresent ||| pteWriteable ||| pteAccessFromAll
def supervisor : BitVec 32 := ptePresent

def load (mem : Mem) (directory : Nat) (access : BitVec 32) (virt : Nat) : Except Halt Byte :=
  match translate mem directory access virt with
  | none => .error .pageFault
  | some addr => .ok (mem addr)

def storeByte (mem : Mem) (directory : Nat) (access : BitVec 32) (virt : Nat) (c : Byte) : Except Halt Mem :=
  match translate mem directory access virt with
  | none => .error .pageFault
  | some addr => .ok (Function.update mem addr c)

/-- The loop of `strncpy` from index `i` on, `n` characters left, and the NUL after it. -/
def strncpyLoop (directory dest src : Nat) : Nat → Nat → Mem → Except Halt Mem
  | 0, i, mem => storeByte mem directory supervisor ((dest + i) % 2 ^ 32) 0
  | n + 1, i, mem => do
    let c ← load mem directory supervisor ((src + i) % 2 ^ 32)
    if c = 0 then
      storeByte mem directory supervisor ((dest + i) % 2 ^ 32) 0
    else
      let mem ← storeByte mem directory supervisor ((dest + i) % 2 ^ 32) c
      strncpyLoop directory dest src n (i + 1) mem

def strncpy (mem : Mem) (directory dest src count : Nat) : Except Halt Mem :=
  strncpyLoop directory dest src (count - 1) 0 mem

/-- `strncpy` out of memory the kernel sees as it is: the characters stored, the NUL included. -/
def strncpyFrom (mem : Mem) (src : Nat) : Nat → List Byte
  | 0 => [0]
  | n + 1 => if mem src = 0 then [0] else mem src :: strncpyFrom mem (src + 1) n

section
variable {mem mem' : Mem} {live : List Live} {chunk directory virt addr : Nat} {access : BitVec 32}

theorem translate_eq (mem : Mem) (chunk : Nat) (access : BitVec 32) (virt : Nat) :
    translate mem (directoryEntry mem chunk) access virt =
      if uint32At mem (directoryEntry mem chunk + 4 * (virt / 4096 / 1024)) &&& access = access ∧
          pageEntry mem chunk (virt / 4096) &&& access = access then
        some (frameOf (pageEntry mem chunk (virt / 4096)) + virt % 4096)
      else none := by
  have h1 : virt / (1024 * 4096) = virt / 4096 / 1024 := by omega
  have h2 : virt % (1024 * 4096) / 4096 = virt / 4096 % 1024 := by omega
  simp only [translate, pagingTotalEntriesPerTable, pagingPageSize, h1, h2]
  rfl

theorem of_translate (h : translate mem (directoryEntry mem chunk) access virt = some addr) :
    pageEntry mem chunk (virt / 4096) &&& access = access ∧
      addr = frameOf (pageEntry mem chunk (virt / 4096)) + virt % 4096 := by
  rw [translate_eq] at h
  split at h
  · rename_i ha
    exact ⟨ha.2, (Option.some.inj h).symm⟩
  · cases h

theorem of_storeByte {c : Byte} (h : storeByte mem (directoryEntry mem chunk) access virt c = .ok mem') :
    pageEntry mem chunk (virt / 4096) &&& access = access ∧
      mem' = Function.update mem (frameOf (pageEntry mem chunk (virt / 4096)) + virt % 4096) c := by
  unfold storeByte at h
  cases ht : translate mem (directoryEntry mem chunk) access virt with
  | none => rw [ht] at h; cases h
  | some addr =>
    rw [ht] at h
    cases h
    obtain ⟨ha, rfl⟩ := of_translate ht
    exact ⟨ha, rfl⟩

end

end SimpleMicrokernel.Paging
