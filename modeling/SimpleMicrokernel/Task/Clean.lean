/-
What a program finds behind its file. The image is zeroed as far as the file goes, allocated in whole blocks
and mapped in whole pages, so the last page shows what the block held before. The pages are clean exactly
when these bytes were zero when the image was allocated.
-/
import SimpleMicrokernel.Task.Image

namespace SimpleMicrokernel.Tasking

open Memory Disk Fs Fat16 Paging

/-- The state in which a load allocates its image: the process is allocated and the file is open. -/
def Opened (env : Env) (filename : List Byte) (k : Kernel) (item : Fat16DirectoryItem) (s : Sys) : Prop :=
  ∃ process s1, ∃ fd : Fin maxFileDescriptors, kzalloc env sizeofProcess k.toSys = .ok (process, s1) ∧
    fopen env filename [0x72] s1 = .ok ((fd.val : Int), s) ∧ 1 ≤ fd.val ∧ HoldsFile s fd item 0

/-- The memory the next allocation of `n` bytes is given is zero from there to the end of its last page. -/
def TailZero (s : Sys) (n : Nat) : Prop := ∀ i, n ≤ i → i < pages n * 4096 → s.mem ((s.heap.kmallac n).1 + i) = 0

/-- Behind the file there are zeros only in the pages mapped for it. -/
def PagesClean (k : Kernel) (task : Task) (n : Nat) : Prop :=
  ∀ i, n ≤ i → i < pages n * 4096 →
    load k.mem (directoryEntry k.mem task.pageDirectory) userRead (programVirtualAddress + i) = .ok 0

theorem tailZero_of_whole {s : Sys} {n : Nat} (h : n % 4096 = 0) : TailZero s n := by
  intro i h1 h2
  unfold pages at h2
  omega

theorem BinaryLoaded.tail {env : Env} {filename : List Byte} {s s1 s2 s' : Sys} {ptr : Nat} {item : Fat16DirectoryItem}
    {fd : Fin maxFileDescriptors} {pos : BitVec 32} {res : Int}
    (h : BinaryLoaded env filename s ptr item s1 s2 s' fd pos res) {i : Nat} (hi : item.filesize.toNat ≤ i) :
    s'.mem (ptr + i) = s1.mem ((s1.heap.kmallac item.filesize.toNat).1 + i) := by
  have hread := fread_writesIn item.filesize.isLt h.read
  rw [Nat.mul_one] at hread
  obtain ⟨mem, hs2, hptr, -, hfill⟩ := of_kzalloc_ok h.allocated
  have hmem : s2.mem = mem := by rw [hs2]
  rw [hread.2 _ (.inr (Nat.add_le_add_left hi _)), hmem, hfill h.nonnull, memset_apply, if_neg (by omega), ← hptr]

theorem Opened.unique {env : Env} {filename : List Byte} {k : Kernel} {item item' : Fat16DirectoryItem} {s s1 s' : Sys}
    {process : Nat} {fd : Fin maxFileDescriptors} (h : Opened env filename k item s)
    (halloc : kzalloc env sizeofProcess k.toSys = .ok (process, s1))
    (hopen : fopen env filename [0x72] s1 = .ok ((fd.val : Int), s')) (hfile : HoldsFile s' fd item' 0) :
    s = s' ∧ item = item' := by
  obtain ⟨process', s1', fd', halloc', hopen', -, hfile'⟩ := h
  obtain rfl : s1' = s1 := congrArg Prod.snd (Except.ok.inj (halloc'.symm.trans halloc))
  have hsame := Except.ok.inj (hopen'.symm.trans hopen)
  obtain rfl : s = s' := congrArg Prod.snd hsame
  have hslot : (fd'.val : Int) = fd.val := congrArg Prod.fst hsame
  obtain rfl : fd' = fd := Fin.ext (by exact_mod_cast hslot)
  exact ⟨rfl, (hfile'.unique hfile).1⟩

/-- What the pages of a loaded program show behind the file. -/
theorem program_tail {env : Env} {k k' : Kernel} (hreach : Reachable env k) {filename : List Byte}
    {r : Int × Option Nat} (hload : processLoad env filename k = .ok (r, k')) (hr : 0 ≤ r.1) :
    ∃ process p task item s, r.2 = some process ∧ k'.procs process = some p ∧ k'.tasks p.task = some task ∧
      Opened env filename k item s ∧ p.size = item.filesize ∧ (s.heap.kmallac item.filesize.toNat).1 ≠ 0 ∧
      ∀ i, item.filesize.toNat ≤ i → i < pages item.filesize.toNat * 4096 →
        load k'.mem (directoryEntry k'.mem task.pageDirectory) userRead (programVirtualAddress + i) =
          .ok (s.mem ((s.heap.kmallac item.filesize.toNat).1 + i)) := by
  have hok : TablesOk k.toSys := (reachable_agrees hreach).ok
  rcases of_processLoad_ok kernelBlocks systemBlocks False [] False.elim hload with
    ⟨rfl, -⟩ | ⟨slot, process, ptr, stack, task, chunk, sz, s1, s2, s3, s4, s5, k5, rfl, -, h⟩
  · exact absurd hr (by decide)
  obtain ⟨hp, ⟨t, ht, rfl, -⟩, -⟩ := h.maps hok
  obtain ⟨item, t1, t2, fd, pos, res, rfl, hb⟩ := of_processLoadBinary_ok h.imageAlloc
  obtain ⟨-, -, hptr, -, -⟩ := of_kzalloc_ok hb.allocated
  refine ⟨process, _, t, item, t1, rfl, hp, ht,
    ⟨process, s1, fd, h.processAlloc, hb.opened, hb.slot, hb.holds_start⟩, rfl, hptr ▸ hb.nonnull, fun i hi hlt => ?_⟩
  rw [h.image_load hok hlt, hb.tail hi]

/-- After a load that succeeded the pages of the program are clean exactly when the memory of the image was
zero behind the file when it was allocated. -/
theorem program_pages_clean_iff {env : Env} {k k' : Kernel} (hreach : Reachable env k) {filename : List Byte}
    {r : Int × Option Nat} (hload : processLoad env filename k = .ok (r, k')) (hr : 0 ≤ r.1) :
    ∃ process p task item s, r.2 = some process ∧ k'.procs process = some p ∧ k'.tasks p.task = some task ∧
      Opened env filename k item s ∧ p.size = item.filesize ∧
      (PagesClean k' task p.size.toNat ↔ TailZero s item.filesize.toNat) := by
  obtain ⟨process, p, task, item, s, he, hp, ht, hopened, hsize, -, hbyte⟩ := program_tail hreach hload hr
  refine ⟨process, p, task, item, s, he, hp, ht, hopened, hsize, ?_⟩
  rw [hsize]
  refine ⟨fun hclean i hi hlt => ?_, fun hzero i hi hlt => ?_⟩
  · have hi' := hclean i hi hlt
    rw [hbyte i hi hlt] at hi'
    exact Except.ok.inj hi'
  · rw [hbyte i hi hlt, hzero i hi hlt]

/-- A program of whole pages has clean pages. -/
theorem program_pages_clean_program : ∃ k k' process p task item s, Reachable programDisk k ∧
    processLoad programDisk (onePart [0x41]) k = .ok ((0, some process), k') ∧ k'.procs process = some p ∧
    k'.tasks p.task = some task ∧ Opened programDisk (onePart [0x41]) k item s ∧
    (PagesClean k' task p.size.toNat ↔ TailZero s item.filesize.toNat) := by
  obtain ⟨k, process, k', -, -, -, hstart, -, hload, -⟩ := program_loads
  have hreach : Reachable programDisk k := .start hstart
  obtain ⟨process', p, task, item, s, he, hp, ht, hopened, -, hiff⟩ :=
    program_pages_clean_iff hreach hload (Int.le_refl 0)
  cases he
  exact ⟨k, k', process, p, task, item, s, hreach, hload, hp, ht, hopened, hiff⟩

/-! ## A program of less than a page -/

/-- The disk with a file of 4000 bytes. -/
def tailEntry : Nat → Byte
  | 28 => 0xA0
  | 29 => 0x0F
  | 30 => 0
  | i => programEntry i

def tailDisk : Env where
  image sector i := match sector with
    | 2 => tailEntry i
    | _ => programDisk.image sector i
  overread := programDisk.overread
  nullFill := programDisk.nullFill
  nullStore := programDisk.nullStore

def tailItem : Fat16DirectoryItem := ⟨0, 0, 2, 0xFA0⟩

theorem oneProgram_tailDisk : OneProgram tailDisk tailItem where
  signature := by decide +kernel
  header := by decide +kernel
  marker := by
    refine ⟨by decide +kernel, fun j hj => ?_⟩
    obtain rfl : j = 0 := by omega
    decide +kernel
  live := by decide +kernel
  name := ⟨rfl, rfl, rfl⟩
  entry := fun mem a h => (itemAt_firstItem h).trans (by decide)
  file := by decide
  nonempty := by decide
  fits := by decide
  cluster := by decide
  table := ⟨rfl, rfl⟩

/-- Nothing has been at the end of the block of the image before, so the program sees what was in memory
before the start. -/
theorem program_page_dirty : ∃ k k' process p task, Reachable tailDisk k ∧
    processLoad tailDisk (onePart [0x41]) k = .ok ((0, some process), k') ∧ k'.procs process = some p ∧
    k'.tasks p.task = some task ∧ ¬ PagesClean k' task p.size.toNat := by
  obtain ⟨k, process, k', s1, s2, fd, hstart, -, hload, halloc, hopen, hfile, -, hok, hends⟩ :=
    oneProgram_tailDisk.loads fun _ => 0xFF
  have hreach : Reachable tailDisk k := .start hstart
  obtain ⟨process', p, task, item, s, he, hp, ht, hopened, hsize, hptr, hbyte⟩ :=
    program_tail hreach hload (Int.le_refl 0)
  cases he
  obtain ⟨rfl, rfl⟩ := hopened.unique halloc hopen hfile
  refine ⟨k, k', process, p, task, hreach, hload, hp, ht, fun hclean => ?_⟩
  have hmem := hends.next (n := 4000) (i := 4095) hok hptr (by decide) (by decide)
  rw [hsize] at hclean
  have hzero := hclean 4095 (by decide) (by decide)
  rw [hbyte 4095 (by decide) (by decide)] at hzero
  have hff := hmem.symm.trans (Except.ok.inj hzero)
  cases hff

end SimpleMicrokernel.Tasking
