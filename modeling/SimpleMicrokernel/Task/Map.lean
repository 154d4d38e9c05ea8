/-
The address space of a process: its own directory takes every page to itself, read-only for user
code, but for the pages of the image and of the stack.
-/
import SimpleMicrokernel.Task.Load

namespace SimpleMicrokernel.Tasking

open Memory Fs Fat16 Paging

/-! ## What is mapped -/

/-- The image and the stack of a process, as its allocations. -/
def Process.image (p : Process) : Live := ⟨p.ptr, p.size.toNat, .kheap⟩
def Process.stackLive (p : Process) : Live := ⟨p.stack, userProgramStackSize, .kheap⟩

/-- The entry lets user code write. -/
def UserWriteable (entry : BitVec 32) : Prop :=
  entry &&& (pteWriteable ||| pteAccessFromAll) = pteWriteable ||| pteAccessFromAll

instance (entry : BitVec 32) : Decidable (UserWriteable entry) := inferInstanceAs (Decidable (_ = _))

/-- The pages that hold `n` bytes. -/
def pages (n : Nat) : Nat := (n + 4095) / 4096

/-- Pages `v`, …, taken to the pages that hold `n` bytes from `ptr` on, on top of a map. -/
def mapped (v ptr n : Nat) (entry : Nat → BitVec 32) (q : Nat) : BitVec 32 :=
  if v ≤ q ∧ q < v + pages n then BitVec.ofNat 32 ((ptr / 4096 + (q - v)) * 4096) ||| writeableFlags else entry q

/-- The map of a process on top of another. -/
def processMap (p : Process) (entry : Nat → BitVec 32) : Nat → BitVec 32 :=
  mapped (programVirtualStackAddressEnd / 4096) p.stack userProgramStackSize
    (mapped (programVirtualAddress / 4096) p.ptr p.size.toNat entry)

theorem pages_le_blockCount (n : Nat) : pages n ≤ blockCount n := by
  have := (blockCount_bounds n).1
  unfold pages pmmBlockSize at *
  omega

section
variable {mem mem' : Mem} {live : List Live} {chunk : Nat} {entry : Nat → BitVec 32}

theorem remaps_mapWriteable (h : IsSpace mem live chunk) {v ptr n : Nat} (halign : ptr % 4096 = 0)
    (hptr : ptr / 4096 + pages n < 2 ^ 20) (hv : v + pages n < 2 ^ 20) :
    Remaps mem (mapWriteable mem chunk (v * 4096) ptr n) chunk (mapped v ptr n (pageEntry mem chunk)) := by
  have hfit : ptr + n + 4095 < 2 ^ 32 := by
    unfold pages at hptr
    omega
  have hend : pagingAlignAddress ((ptr + n) % 2 ^ 32) = (ptr / 4096 + pages n) * 4096 := by
    rw [Nat.mod_eq_of_lt (by omega), pagingAlignAddress_eq (by omega)]
    unfold pages
    omega
  have hstart : ptr / 4096 * 4096 = ptr := by omega
  unfold mapWriteable
  rw [hend]
  have hmaps := @remaps_pagingMapTo mem live chunk writeableFlags h v (ptr / 4096) (pages n) hv hptr
  rwa [hstart] at hmaps

theorem remaps_mapped {mem'' : Mem} {v ptr n : Nat} (h : Remaps mem mem' chunk entry)
    (h' : Remaps mem' mem'' chunk (mapped v ptr n (pageEntry mem' chunk))) :
    Remaps mem mem'' chunk (mapped v ptr n entry) := by
  refine (h.trans h').congr fun q hq => ?_
  unfold mapped
  rw [h.entry q hq]

/-- `process_map_memory`: the image and the stack are mapped, the second mapping of the stack
changing nothing. -/
theorem remaps_processMapMemory (h : IsSpace mem live chunk) {p : Process} (hptr : p.ptr % 4096 = 0)
    (hstack : p.stack % 4096 = 0) (hptrEnd : p.ptr / 4096 + pages p.size.toNat < 2 ^ 20 - 1024)
    (hstackEnd : p.stack / 4096 + 4 < 2 ^ 20) :
    Remaps mem (processMapMemory mem chunk p) chunk (processMap p (pageEntry mem chunk)) := by
  have hpages : pages userProgramStackSize = 4 := by decide
  have hfirst : programVirtualAddress / 4096 + pages p.size.toNat < 2 ^ 20 := by
    have : programVirtualAddress / 4096 = 1024 := rfl
    omega
  have himage := remaps_mapWriteable h (v := programVirtualAddress / 4096) hptr (by omega) hfirst
  have hone := remaps_mapWriteable (himage.isSpace h) (v := programVirtualStackAddressEnd / 4096)
    (n := userProgramStackSize)
    hstack (by rw [hpages]; exact hstackEnd) (by decide)
  have hbinary := remaps_mapped himage hone
  have htwo := remaps_mapWriteable (hbinary.isSpace h) (v := programVirtualStackAddressEnd / 4096)
    (n := userProgramStackSize)
    hstack (by rw [hpages]; exact hstackEnd) (by decide)
  refine (remaps_mapped hbinary htwo).congr fun q _ => ?_
  unfold processMap mapped
  split
  · rfl
  · rfl

end

/-- The pages of the image, taken to its frames; the stack is below them. -/
theorem processMap_of_image {p : Process} {entry : Nat → BitVec 32} {q : Nat} (h1 : 1024 ≤ q)
    (h2 : q < 1024 + pages p.size.toNat) :
    processMap p entry q = BitVec.ofNat 32 ((p.ptr / 4096 + (q - 1024)) * 4096) ||| writeableFlags := by
  have hstack : ¬ (programVirtualStackAddressEnd / 4096 ≤ q ∧
    q < programVirtualStackAddressEnd / 4096 + pages userProgramStackSize) := by
    have h3 : programVirtualStackAddressEnd / 4096 = 1019 := by decide
    have h4 : pages userProgramStackSize = 4 := by decide
    omega
  have hfirst : programVirtualAddress / 4096 = 1024 := by decide
  rw [processMap, mapped, if_neg hstack, mapped, hfirst, if_pos ⟨h1, h2⟩]

theorem processMap_of_out {p : Process} {entry : Nat → BitVec 32} {q : Nat}
    (h : q < 1019 ∨ 1024 + pages p.size.toNat ≤ q) :
    processMap p entry q = entry q := by
  have h3 : programVirtualStackAddressEnd / 4096 = 1019 := by decide
  have h4 : pages userProgramStackSize = 4 := by decide
  have hfirst : programVirtualAddress / 4096 = 1024 := by decide
  rw [processMap, mapped, if_neg (by omega), mapped, if_neg (by omega)]

/-! ## What user code can write -/

theorem mapped_covers {v : Nat} {a : Live} {entry : Nat → BitVec 32} {q : Nat}
    (hend : a.addr / 4096 + pages a.size < 2 ^ 20) (h : v ≤ q ∧ q < v + pages a.size) :
    a.Covers (frameOf (mapped v a.addr a.size entry q)) := by
  have hle := pages_le_blockCount a.size
  unfold mapped
  rw [if_pos h, frameOf_entry (by omega) (by decide), Live.covers_def]
  unfold pmmBlockSize
  rw [Nat.mul_div_cancel _ (by decide)]
  omega

/-- The map of a directory that has just been made for a task. -/
def identityMap (q : Nat) : BitVec 32 := BitVec.ofNat 32 (q * 4096) ||| taskFlags.setWidth 32

theorem not_userWriteable_identity (q : Nat) : ¬ UserWriteable (identityMap q) := by
  unfold UserWriteable identityMap
  rw [and_entry q (by decide)]
  decide

theorem processMap_writeable {p : Process} {entry : Nat → BitVec 32} {q : Nat} (h1 : 1024 ≤ q)
    (h2 : q < 1024 + pages p.size.toNat) :
    UserWriteable (processMap p entry q) := by
  unfold UserWriteable
  rw [processMap_of_image h1 h2, and_entry _ (by decide)]
  decide

theorem processMap_userWriteable {p : Process} (hptr : p.ptr / 4096 + pages p.size.toNat < 2 ^ 20)
    (hstack : p.stack / 4096 + 4 < 2 ^ 20) {q : Nat} (h : UserWriteable (processMap p identityMap q)) :
    p.image.Covers (frameOf (processMap p identityMap q)) ∨
    p.stackLive.Covers (frameOf (processMap p identityMap q)) := by
  have hpages : pages userProgramStackSize = 4 := by decide
  by_cases hs : programVirtualStackAddressEnd / 4096 ≤ q ∧
    q < programVirtualStackAddressEnd / 4096 + pages userProgramStackSize
  · exact .inr (mapped_covers (a := p.stackLive)
      (by show p.stack / 4096 + pages userProgramStackSize < 2 ^ 20; omega) hs)
  · have hout : ∀ entry, processMap p entry q = mapped (programVirtualAddress / 4096) p.ptr p.size.toNat entry q := by
      intro entry
      unfold processMap
      rw [mapped, if_neg hs]
    rw [hout] at h ⊢
    by_cases hi : programVirtualAddress / 4096 ≤ q ∧ q < programVirtualAddress / 4096 + pages p.size.toNat
    · exact .inl (mapped_covers (a := p.image) hptr hi)
    · rw [mapped, if_neg hi] at h
      exact absurd h (not_userWriteable_identity q)

/-! ## Translating through the map -/

/-- An entry of the map has the flags that reading takes, for user code and for the kernel. -/
theorem processMap_and {p : Process} {q : Nat} {access : BitVec 32} (ha : access &&& 5#32 = access) :
    processMap p identityMap q &&& access = access := by
  have hlt : access.toNat < 4096 := by
    rw [← ha, BitVec.toNat_and]
    exact Nat.lt_of_le_of_lt Nat.and_le_right (by decide)
  have hflags : ∀ {flags : BitVec 32}, flags &&& 5#32 = 5#32 → flags &&& access = access := by
    intro flags hf
    rw [← ha, BitVec.and_comm access, ← BitVec.and_assoc, hf]
  unfold processMap mapped
  split
  · rw [and_entry _ hlt]
    exact hflags (by decide)
  · split
    · rw [and_entry _ hlt]
      exact hflags (by decide)
    · unfold identityMap
      rw [and_entry _ hlt]
      exact hflags (by decide)

theorem directory_and {mem : Mem} {chunk i : Nat} {access : BitVec 32}
    (hflags : ∀ i < 1024, directoryFlags mem chunk i = 7#32) (ha : access &&& 7#32 = access) (hi : i < 1024) :
    uint32At mem (directoryEntry mem chunk + 4 * i) &&& access = access := by
  have h7 := hflags i hi
  unfold directoryFlags at h7
  have hmask : access = 0xfff#32 &&& access := by
    rw [← ha, BitVec.and_comm access, ← BitVec.and_assoc]
    rfl
  rw [hmask, ← BitVec.and_assoc, h7, ← hmask, BitVec.and_comm]
  exact ha

theorem and_seven {access : BitVec 32} (ha : access &&& 5#32 = access) : access &&& 7#32 = access := by
  rw [← ha, BitVec.and_assoc]
  rfl

theorem translate_processMap {mem : Mem} {chunk virt : Nat} {p : Process} {access : BitVec 32}
    (hmap : ∀ q < 2 ^ 20, pageEntry mem chunk q = processMap p identityMap q)
    (hflags : ∀ i < 1024, directoryFlags mem chunk i = 7#32) (ha : access &&& 5#32 = access) (hv : virt < 2 ^ 32) :
    translate mem (directoryEntry mem chunk) access virt =
      some (frameOf (processMap p identityMap (virt / 4096)) + virt % 4096) := by
  rw [translate_eq, hmap _ (by omega), if_pos ⟨directory_and hflags (and_seven ha) (by omega), processMap_and ha⟩]

theorem translate_self {mem : Mem} {chunk virt : Nat} {access : BitVec 32} (flags : BitVec 32)
    (hentry : pageEntry mem chunk (virt / 4096) = BitVec.ofNat 32 (virt / 4096 * 4096) ||| flags)
    (hlt : flags.toNat < 4096) (hf : flags &&& access = access) (hflags : ∀ i < 1024, directoryFlags mem chunk i = 7#32)
    (ha : access &&& 5#32 = access)
    (hv : virt < 2 ^ 32) : translate mem (directoryEntry mem chunk) access virt = some virt := by
  have haccess : access.toNat < 4096 := by
    rw [← ha, BitVec.toNat_and]
    exact Nat.lt_of_le_of_lt Nat.and_le_right (by decide)
  have hpage : pageEntry mem chunk (virt / 4096) &&& access = access := by
    rw [hentry, and_entry _ haccess]
    exact hf
  rw [translate_eq, if_pos ⟨directory_and hflags (and_seven ha) (by omega), hpage⟩, hentry,
    frameOf_entry (by omega) hlt, Nat.div_add_mod' virt 4096]

theorem translate_out {mem : Mem} {chunk virt : Nat} {p : Process}
    (hmap : ∀ q < 2 ^ 20, pageEntry mem chunk q = processMap p identityMap q)
    (hflags : ∀ i < 1024, directoryFlags mem chunk i = 7#32) (hv : virt < 2 ^ 32)
    (hout : virt / 4096 < 1019 ∨ 1024 + pages p.size.toNat ≤ virt / 4096) :
    translate mem (directoryEntry mem chunk) supervisor virt = some virt := by
  refine translate_self (taskFlags.setWidth 32) ?_ (by decide) (by decide) hflags (by decide) hv
  rw [hmap _ (by omega), processMap_of_out hout]
  rfl

/-! ## The address space of a new process -/

section
variable {reserved size : Nat} {held : List Live} {env : Env} {filename : List Byte} {slot : Fin maxProcesses}
  {k k' k5 : Kernel} {process ptr stack task chunk : Nat} {sz : BitVec 32} {s s1 s2 s3 s4 s5 : Sys}

/-- Stores to the tables of a new space frame everything held before it was made. -/
theorem frames_remaps {entry : Nat → BitVec 32} {mem : Mem} (hspace : IsSpace s.mem s.live chunk)
    (hnew : ∀ b ∈ spaceBlocks s.mem chunk, ∀ a ∈ held, a.addr ≠ b) (h : Remaps s.mem mem chunk entry) :
    FramesSys reserved size True held s { s with mem := mem } := by
  intro hok hheld
  refine ⟨hok.withMem mem, hheld, fun _ a ha x hx => h.inTables x fun i hi => ?_⟩
  have htable : table s.mem chunk i ∈ spaceBlocks s.mem chunk := table_mem hi
  have hapart := hok.apart (hheld ha) (hspace.live _ htable) fun he => hnew _ htable a ha (congrArg Live.addr he)
  exact hapart.not_covers hx

/-- What the rest of a load does once the image is in memory: nothing that is held is touched, and
the new task has an address space of its own with the process mapped into it. -/
theorem Loaded.rest (h : Loaded env filename slot k k' process ptr stack task chunk sz s1 s2 s3 s4 s5 k5)
    (hsize : size < 2 ^ 20 - 1024) (hok : s2.Ok reserved size) (himage : (⟨ptr, sz.toNat, .kheap⟩ : Live) ∈ s2.live)
    (hheld : held ⊆ s2.live) :
    FramesSys reserved size True held s2 k'.toSys ∧ k'.toSys.Ok reserved size ∧
      ((newProcess filename slot task ptr stack sz).stackLive ∈ k'.live ∧ ∀ b ∈ held, b.addr ≠ stack) ∧
      ((⟨task, sizeofTask, .kheap⟩ : Live) ∈ k'.live ∧ ∀ b ∈ held, b.addr ≠ task) ∧
      IsSpace k'.mem k'.live chunk ∧
      (∀ q < 2 ^ 20, pageEntry k'.mem chunk q = processMap (newProcess filename slot task ptr stack sz) identityMap q) ∧
      ∀ i < 1024, directoryFlags k'.mem chunk i = 7#32 := by
  have z3 : ∀ held, FramesSys reserved size True held s2 s3 ∧ _ :=
    fun held => kzalloc_spec (fun _ => .inr h.stackNe) h.stackAlloc
  have z4 : ∀ held, FramesSys reserved size True held s3 s4 ∧ _ :=
    fun held => kzalloc_spec (fun _ => .inr h.taskNe) h.taskAlloc
  obtain ⟨hok3, hheld3, -⟩ := (z3 held).1 hok hheld
  have hlive3 := (z3 held).2 hok h.stackNe
  obtain ⟨hok4, hheld4, -⟩ := (z4 held).1 hok3 hheld3
  have hlive4 := (z4 held).2 hok3 h.taskNe
  have n5 : FramesSys reserved size True s4.live s4 s5 ∧ _ := pagingNew4gb_spec h.spaceAlloc hok4 (List.Subset.refl _)
  obtain ⟨f5, hnew5⟩ := n5
  obtain ⟨hspace, hnew, hentry, hflags⟩ := hnew5 h.chunkNe
  obtain ⟨hok5, hlive5, -⟩ := f5 hok4 (List.Subset.refl _)
  -- the image and the stack lie inside memory
  have hstackIn : (⟨stack, userProgramStackSize, .kheap⟩ : Live) ∈ s3.live := hlive3 ▸ List.mem_cons_self ..
  have himage4 : (⟨ptr, sz.toNat, .kheap⟩ : Live) ∈ s4.live :=
    hlive4 ▸ List.mem_cons_of_mem _ (hlive3 ▸ List.mem_cons_of_mem _ himage)
  have bptr : ptr % 4096 = 0 ∧ ptr ≠ 0 ∧ reserved * 4096 ≤ ptr ∧ ptr + blockCount sz.toNat * 4096 ≤ size * 4096 ∧
    size ≤ 2 ^ 20 :=
    hok.bounds himage
  have bstack : stack % 4096 = 0 ∧ stack ≠ 0 ∧ reserved * 4096 ≤ stack ∧
      stack + blockCount userProgramStackSize * 4096 ≤ size * 4096 ∧ size ≤ 2 ^ 20 := hok3.bounds hstackIn
  have hcount : blockCount userProgramStackSize = 4 := by decide
  have hpages := pages_le_blockCount sz.toNat
  rw [hcount] at bstack
  have hmaps := remaps_processMapMemory hspace (p := newProcess filename slot task ptr stack sz) bptr.1 bstack.1
    (by show ptr / 4096 + pages sz.toNat < 2 ^ 20 - 1024; omega) (by show stack / 4096 + 4 < 2 ^ 20; omega)
  have f6 : FramesSys reserved size True s4.live s5 _ := frames_remaps hspace hnew hmaps
  have hrest := h.link.rest
  have hsys : k'.toSys = { s5 with mem := processMapMemory s5.mem chunk (newProcess filename slot task ptr
    stack sz) } := by
    rw [h.result]
    rfl
  rw [hsys]
  have f46 : FramesSys reserved size True held s4 _ :=
    AllocState.Frames.mono (f5.trans' f6) hheld4 fun _ => List.Subset.refl _
  refine ⟨(z3 held).1.trans' ((z4 held).1.trans' f46), hok5.withMem _, ⟨?_, ?_⟩, ⟨?_, ?_⟩, hmaps.isSpace hspace,
    fun q hq => ?_, fun i hi => ?_⟩
  · exact hlive5 (hlive4 ▸ List.mem_cons_of_mem _ hstackIn)
  · exact fun b hb => (hok3.fresh hlive3 b (hheld hb)).symm.addr_ne
  · exact hlive5 (hlive4 ▸ List.mem_cons_self ..)
  · exact fun b hb => (hok4.fresh hlive4 b (hheld3 hb)).symm.addr_ne
  · rw [hmaps.entry q hq]
    unfold processMap mapped
    rw [hentry q hq]
    rfl
  · rw [hmaps.directoryFlags_eq hspace hi, hflags i hi]
    decide

end

end SimpleMicrokernel.Tasking
