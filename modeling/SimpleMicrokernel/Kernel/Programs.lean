/-
What belongs to a task: the registers it goes on with, and the memory its directory lets user code write. This
memory is the image and the stack of its process, each address of it a byte of its own, so that no step which
leaves what is held alone changes the program of a task.
-/
import SimpleMicrokernel.Kernel.Spaces
import SimpleMicrokernel.Kernel.Preempt

namespace SimpleMicrokernel.Tasking

open Memory Fs Fat16 Paging

/-! ## What user code writes -/

/-- Where a store of user code of a process goes to. -/
def Process.writeAddr (p : Process) (virt : Nat) : Option Nat :=
  if programVirtualStackAddressEnd ≤ virt ∧ virt < programVirtualStackAddressStart then
    some (p.stack + (virt - programVirtualStackAddressEnd))
  else if programVirtualAddress ≤ virt ∧ virt < programVirtualAddress + pages p.size.toNat * 4096 then
    some (p.ptr + (virt - programVirtualAddress))
  else none

/-- The image and the stack are in memory and apart. -/
structure Process.Placed (p : Process) : Prop where
  image : p.ptr % 4096 = 0 ∧ 25000 * 4096 ≤ p.ptr ∧ p.ptr + pages p.size.toNat * 4096 ≤ 250000 * 4096
  stack : p.stack % 4096 = 0 ∧ 25000 * 4096 ≤ p.stack ∧ p.stack + 4 * 4096 ≤ 250000 * 4096
  apart : p.ptr + pages p.size.toNat * 4096 ≤ p.stack ∨ p.stack + 4 * 4096 ≤ p.ptr

section
variable {p : Process} {mem : Mem} {chunk virt virt' addr : Nat}

/-- A store of user code goes to the image or the stack, or is a page fault. -/
theorem translate_userWrite (h : HasMap mem chunk (processMap p identityMap)) (hp : p.Placed) (hv : virt < 2 ^ 32) :
    translate mem (directoryEntry mem chunk) userWrite virt = p.writeAddr virt := by
  have h1 := hp.image
  have h2 := hp.stack
  have hend : programVirtualStackAddressEnd / 4096 = 1019 := by decide
  have hfirst : programVirtualAddress / 4096 = 1024 := by decide
  have hfour : pages userProgramStackSize = 4 := by decide
  have hstart : programVirtualStackAddressEnd = 0x3FB000 ∧ programVirtualStackAddressStart = 0x3FF000 ∧
    programVirtualAddress = 0x400000 := by decide
  rw [translate_eq, h.entries _ (by omega)]
  unfold Process.writeAddr
  by_cases hs : 1019 ≤ virt / 4096 ∧ virt / 4096 < 1023
  · have he : processMap p identityMap (virt / 4096) =
      BitVec.ofNat 32 ((p.stack / 4096 + (virt / 4096 - 1019)) * 4096) ||| writeableFlags := by
      unfold processMap
      rw [mapped, hend, hfour, if_pos (by omega)]
    have hw : processMap p identityMap (virt / 4096) &&& userWrite = userWrite := by
      rw [he, and_entry _ (by decide)]
      decide
    rw [if_pos ⟨directory_and h.flags (by decide) (by omega), hw⟩, if_pos (by omega), he,
      frameOf_entry (by omega) (by decide)]
    refine congrArg some ?_
    omega
  · by_cases hi : 1024 ≤ virt / 4096 ∧ virt / 4096 < 1024 + pages p.size.toNat
    · have he : processMap p identityMap (virt / 4096) = _ := processMap_of_image hi.1 hi.2
      have hw : processMap p identityMap (virt / 4096) &&& userWrite = userWrite := by
        rw [he, and_entry _ (by decide)]
        decide
      rw [if_pos ⟨directory_and h.flags (by decide) (by omega), hw⟩, if_neg (by omega), if_pos (by omega), he,
        frameOf_entry (by omega) (by decide)]
      refine congrArg some ?_
      omega
    · have he : processMap p identityMap (virt / 4096) = identityMap (virt / 4096) := by
        unfold processMap
        rw [mapped, hend, hfour, if_neg (by omega), mapped, hfirst, if_neg hi]
      have hw : ¬ processMap p identityMap (virt / 4096) &&& userWrite = userWrite := by
        rw [he, identityMap, and_entry _ (by decide)]
        decide
      rw [if_neg fun ha => hw ha.2, if_neg (by omega), if_neg (by omega)]

/-- What user code writes lies in the image or the stack. -/
theorem Process.writeAddr_covers (hp : p.Placed) (h : p.writeAddr virt = some addr) : p.image.Covers addr ∨
    p.stackLive.Covers addr := by
  have h1 := hp.image
  have h2 := hp.stack
  have hle := pages_le_blockCount p.size.toNat
  have hstart : programVirtualStackAddressEnd = 0x3FB000 ∧ programVirtualStackAddressStart = 0x3FF000 := by decide
  have hcount : blockCount userProgramStackSize = 4 := by decide
  unfold Process.writeAddr at h
  split at h
  · obtain rfl := Option.some.inj h
    refine .inr ((Live.covers_iff h2.1).2 ⟨Nat.le_add_right .., ?_⟩)
    show _ < p.stack + blockCount userProgramStackSize * 4096
    omega
  · split at h
    · obtain rfl := Option.some.inj h
      refine .inl ((Live.covers_iff h1.1).2 ⟨Nat.le_add_right .., ?_⟩)
      show _ < p.ptr + blockCount p.size.toNat * 4096
      omega
    · cases h

/-- Two addresses do not share a byte. -/
theorem Process.writeAddr_inj (hp : p.Placed) (h : p.writeAddr virt = some addr) (h' : p.writeAddr virt' = some addr) :
    virt = virt' := by
  have h3 := hp.apart
  have hstart : programVirtualStackAddressEnd = 0x3FB000 ∧ programVirtualStackAddressStart = 0x3FF000 := by decide
  unfold Process.writeAddr at h h'
  split at h
  · obtain rfl := Option.some.inj h
    split at h'
    · have := Option.some.inj h'
      omega
    · split at h'
      · have := Option.some.inj h'
        omega
      · cases h'
  · split at h
    · obtain rfl := Option.some.inj h
      split at h'
      · have := Option.some.inj h'
        omega
      · split at h'
        · have := Option.some.inj h'
          omega
        · cases h'
    · cases h

end

/-! ## The program of a task -/

/-- The registers a task goes on with and the memory it can write, by virtual address. -/
structure Program where
  registers : Registers
  memory : BitVec 32 → Option Byte

/-- What user code can do to its own program, and what the kernel does to it when user code stops. -/
inductive Action where
  | save (registers : Registers)
  | store (virt : BitVec 32) (c : Byte)

/-- A store goes to the program's own memory. -/
def Program.act (s : Program) : Action → Option Program
  | .save r => some { s with registers := r }
  | .store virt c => if (s.memory virt).isSome then
    some { s with memory := Function.update s.memory virt (some c) } else none

theorem Program.act_store {s : Program} {virt : BitVec 32} (h : (s.memory virt).isSome) (c : Byte) :
    s.act (.store virt c) = some { s with memory := Function.update s.memory virt (some c) } := if_pos h

def Kernel.program (k : Kernel) (a : Nat) : Option Program :=
  (k.tasks a).map fun t =>
    ⟨t.registers, fun virt => (translate k.mem (directoryEntry k.mem t.pageDirectory) userWrite virt.toNat).map k.mem⟩

/-- The invariants of the states reached, and that no process has its stack in its image. -/
structure Sound (k : Kernel) : Prop where
  inv : Inv k
  mapped : Mapped k
  agrees : Agrees k
  apart : ∀ a t p, k.tasks a = some t → k.procs t.process = some p → p.ptr ≠ p.stack

section
variable {env : Env} {k k' : Kernel} {a : Nat} {t : Task} {p : Process}

theorem Sound.placed (hs : Sound k) (ht : k.tasks a = some t) (hp : k.procs t.process = some p) : p.Placed := by
  obtain ⟨p', hp', ho⟩ := hs.inv.owns a t ht
  rw [hp] at hp'
  cases hp'
  have hok : TablesOk k.toSys := hs.inv.ok
  have himage : p.ptr % 4096 = 0 ∧ p.ptr ≠ 0 ∧ 25000 * 4096 ≤ p.ptr ∧
    p.ptr + blockCount p.size.toNat * 4096 ≤ 250000 * 4096 ∧ _ :=
    hok.bounds ho.image
  have hstack : p.stack % 4096 = 0 ∧ p.stack ≠ 0 ∧ 25000 * 4096 ≤ p.stack ∧
      p.stack + blockCount userProgramStackSize * 4096 ≤ 250000 * 4096 ∧ _ := hok.bounds ho.stack
  have hle := pages_le_blockCount p.size.toNat
  have hcount : blockCount userProgramStackSize = 4 := by decide
  have hpos := blockCount_pos p.size.toNat
  rw [hcount] at hstack
  have hne := hs.apart a t p ht hp
  have hapart := hok.apart ho.image ho.stack fun he => hne (congrArg Live.addr he)
  refine ⟨⟨himage.1, himage.2.2.1, by omega⟩, ⟨hstack.1, hstack.2.2.1, hstack.2.2.2.1⟩, ?_⟩
  -- neither starts inside the other
  by_contra hno
  rcases Nat.lt_or_ge p.ptr p.stack with hlt | hge
  · refine hapart.not_covers (x := p.stack) ((Live.covers_iff himage.1).2 ⟨hlt.le, ?_⟩)
      ((Live.covers_iff hstack.1).2 ⟨Nat.le_refl _, ?_⟩)
    · show p.stack < p.ptr + blockCount p.size.toNat * 4096
      omega
    · show p.stack < p.stack + blockCount userProgramStackSize * 4096
      omega
  · refine hapart.not_covers (x := p.ptr) ((Live.covers_iff himage.1).2 ⟨Nat.le_refl _, ?_⟩)
      ((Live.covers_iff hstack.1).2 ⟨hge, ?_⟩)
    · show p.ptr < p.ptr + blockCount p.size.toNat * 4096
      omega
    · show p.ptr < p.stack + blockCount userProgramStackSize * 4096
      omega

theorem Sound.held (hs : Sound k) (ht : k.tasks a = some t) (hp : k.procs t.process = some p) {addr : Nat}
    (hc : p.image.Covers addr ∨ p.stackLive.Covers addr) : ∃ b ∈ p.memory, b ∈ k.live ∧ b.Covers addr := by
  obtain ⟨p', hp', ho⟩ := hs.inv.owns a t ht
  rw [hp] at hp'
  cases hp'
  rcases hc with hc | hc
  · exact ⟨_, List.mem_cons_self .., ho.image, hc⟩
  · exact ⟨_, List.mem_cons_of_mem _ (List.mem_singleton_self _), ho.stack, hc⟩

theorem Sound.program (hs : Sound k) (ht : k.tasks a = some t) : ∃ p, k.procs t.process = some p ∧ p.Placed ∧
    k.program a = some ⟨t.registers, fun virt => (p.writeAddr virt.toNat).map k.mem⟩ := by
  obtain ⟨p, hp, hmap⟩ := hs.mapped.tasks a t ht
  have hplaced := hs.placed ht hp
  refine ⟨p, hp, hplaced, ?_⟩
  unfold Kernel.program
  rw [ht, Option.map_some]
  refine congrArg (fun m => some (Program.mk t.registers m)) (funext fun virt => ?_)
  rw [translate_userWrite hmap hplaced virt.isLt]

theorem Sound.program_keep (hs : Sound k) (hs' : Sound k') (ht : k.tasks a = some t) {t' : Task}
    (ht' : k'.tasks a = some t') (hprocess : t'.process = t.process) (hprocs : k'.procs t.process = k.procs t.process)
    (hmem : ∀ p, k.procs t.process = some p → ∀ addr, p.image.Covers addr ∨ p.stackLive.Covers addr →
      k'.mem addr = k.mem addr) :
    k'.program a = (k.program a).map fun s => { s with registers := t'.registers } := by
  obtain ⟨p, hp, hplaced, e⟩ := hs.program ht
  obtain ⟨p', hp', -, e'⟩ := hs'.program ht'
  rw [hprocess, hprocs, hp] at hp'
  cases hp'
  rw [e, e', Option.map_some]
  refine congrArg (fun m => some (Program.mk t'.registers m)) (funext fun virt => ?_)
  show (p.writeAddr virt.toNat).map k'.mem = (p.writeAddr virt.toNat).map k.mem
  cases hw : p.writeAddr virt.toNat with
  | none => rfl
  | some addr => exact congrArg some (hmem p hp addr (Process.writeAddr_covers hplaced hw))

theorem Sound.program_framed (hs : Sound k) (hs' : Sound k') (ht : k.tasks a = some t) {t' : Task}
    (ht' : k'.tasks a = some t') (hprocess : t'.process = t.process) (hprocs : k'.procs t.process = k.procs t.process)
    (hmem : ∀ b ∈ k.live, ∀ x, b.Covers x → k'.mem x = k.mem x) :
    k'.program a = (k.program a).map fun s => { s with registers := t'.registers } := by
  refine hs.program_keep hs' ht ht' hprocess hprocs fun p hp addr hc => ?_
  obtain ⟨b, -, hb, hcover⟩ := hs.held ht hp hc
  exact hmem b hb addr hcover

theorem program_none : k.program a = none ↔ k.tasks a = none := Option.map_eq_none_iff

theorem program_registers {s : Program} (ht : k.tasks a = some t) (h : k.program a = some s) :
    s.registers = t.registers := by
  unfold Kernel.program at h
  rw [ht] at h
  cases h
  rfl

end

/-! ## The invariants -/

section
variable {env : Env} {k k' : Kernel} {filename : List Byte} {slot : Fin maxProcesses}
    {process ptr stack task chunk : Nat}
  {sz : BitVec 32} {s1 s2 s3 s4 s5 : Sys} {k5 : Kernel}

theorem Loaded.ptr_ne_stack (hok : TablesOk k.toSys)
    (h : Loaded env filename slot k k' process ptr stack task chunk sz s1 s2 s3 s4 s5 k5) :
    ptr ≠ stack := by
  obtain ⟨hok2, himage⟩ := h.image hok
  have hrest : FramesSys kernelBlocks systemBlocks True s2.live s2 k'.toSys ∧ _ :=
    h.rest (by decide) hok2 himage (List.Subset.refl _)
  obtain ⟨-, -, ⟨-, hstack⟩, -⟩ := hrest
  exact hstack _ himage

theorem Loaded.tasks_of_some (h : Loaded env filename slot k k' process ptr stack task chunk sz s1 s2 s3 s4 s5 k5)
    {a : Nat} {t' : Task} (ht' : k'.tasks a = some t') : (a = task ∧ t'.process = process) ∨
      ∃ t, a ≠ task ∧ k.tasks a = some t ∧ t'.pageDirectory = t.pageDirectory ∧ t'.process = t.process := by
  rw [h.result] at ht'
  by_cases he : a = task
  · subst he
    obtain ⟨u, hu, -, hprocess⟩ := h.link.at
    rw [show k5.tasks a = _ from ht'] at hu
    cases hu
    exact .inl ⟨rfl, hprocess⟩
  · obtain ⟨u, hu, hspace, hprocess⟩ := h.link.of_ne he ht'
    exact .inr ⟨u, he, hu, hspace, hprocess⟩

theorem Loaded.process_ne (hi : Inv k)
    (h : Loaded env filename slot k k' process ptr stack task chunk sz s1 s2 s3 s4 s5 k5) {a : Nat} {t : Task}
    (ht : k.tasks a = some t) : t.process ≠ process := by
  have howned : FramesSys kernelBlocks systemBlocks False k.live k.toSys k'.toSys ∧ _ := h.owned False.elim hi.ok
  obtain ⟨-, ⟨-, hnew⟩, -⟩ := howned
  obtain ⟨p, hp, -⟩ := hi.owns a t ht
  exact hnew _ (hi.procLive _ _ hp)

theorem sound_start {mem : Mem} (h : startPaging env (initial mem) = .ok (⟨⟩, k)) : Sound k := by
  refine ⟨inv_start h, mapped_start h, agrees_start h, fun a t p ht => ?_⟩
  obtain ⟨-, -, s, s', -, -, e⟩ := tablesOk_startPaging h
  have hnone : k.tasks = fun _ => none := by rw [e]; rfl
  rw [hnone] at ht
  cases ht

theorem step_sound (hfill : FillsBelow env kernelBlocks) (hs : Sound k) (h : Step env k k') : Sound k' := by
  have hspaces := step_spaces hfill hs.inv h
  refine ⟨step_inv hfill hs.inv h, ?_, step_agrees hs.agrees h, fun a t' p ht' hp => ?_⟩
  · rcases hspaces with hk | ⟨_, _, _, _, _, _, _, _, _, _, _, _, _, _, hl⟩
    · exact hs.mapped.keep hs.inv hk
    · exact mapped_loaded hfill hs.mapped hs.inv hl
  · rcases hspaces with hk | ⟨_, _, process, ptr, stack, task, _, _, _, _, _, _, _, _, hl⟩
    · obtain ⟨t, ht, e⟩ := hk.kept.of_some ht'
      rw [hk.kept.procs, e] at hp
      exact hs.apart a t p ht hp
    · have hprocs := congrArg Kernel.procs hl.result
      rcases hl.tasks_of_some ht' with ⟨-, hprocess⟩ | ⟨t, -, ht, -, hprocess⟩
      · rw [hprocess, hprocs] at hp
        have hp : Function.update k.procs process _ process = some p := hp
        rw [Function.update_self] at hp
        cases hp
        exact hl.ptr_ne_stack hs.inv.ok
      · rw [hprocess, hprocs] at hp
        have hp : Function.update k.procs process _ t.process = some p := hp
        rw [Function.update_of_ne (hl.process_ne hs.inv ht)] at hp
        exact hs.apart a t p ht hp

theorem reachable_sound (hfill : FillsBelow env kernelBlocks) (h : Reachable env k) : Sound k := by
  induction h with
  | start h => exact sound_start h
  | step _ hs ih => exact step_sound hfill ih hs

end

/-! ## What user code reads -/

section
variable {p : Process} {mem : Mem} {chunk virt : Nat}

/-- A load of user code of a process comes from where its stores go to, and else from the address itself. -/
theorem translate_userRead (h : HasMap mem chunk (processMap p identityMap)) (hp : p.Placed) (hv : virt < 2 ^ 32) :
    translate mem (directoryEntry mem chunk) userRead virt = some ((p.writeAddr virt).getD virt) := by
  rw [translate_processMap h.entries h.flags (by decide) hv]
  refine congrArg some ?_
  cases hw : p.writeAddr virt with
  | some addr =>
    have hwrite := translate_userWrite h hp hv
    rw [hw] at hwrite
    obtain ⟨-, e⟩ := of_translate hwrite
    rw [h.entries _ (by omega)] at e
    exact e.symm
  | none =>
    have hstart : programVirtualStackAddressEnd = 0x3FB000 ∧ programVirtualStackAddressStart = 0x3FF000 ∧
      programVirtualAddress = 0x400000 := by decide
    have hend : programVirtualStackAddressEnd / 4096 = 1019 := by decide
    have hfirst : programVirtualAddress / 4096 = 1024 := by decide
    have hfour : pages userProgramStackSize = 4 := by decide
    unfold Process.writeAddr at hw
    split at hw
    · cases hw
    · split at hw
      · cases hw
      · have he : processMap p identityMap (virt / 4096) = identityMap (virt / 4096) := by
          unfold processMap
          rw [mapped, hend, hfour, if_neg (by omega), mapped, hfirst, if_neg (by omega)]
        rw [he, identityMap, frameOf_entry (by omega) (by decide)]
        exact Nat.div_add_mod' virt 4096

end

/-- Reads are not isolated. In every state reached, user code of a task reads at every address without a fault: its
own image and stack where they are mapped, and everywhere else the memory at that very address, whatever it belongs
to. So unless its own image covers them, it reads every page table, every task and every byte of every other process. -/
theorem user_reads_everything {env : Env} {k : Kernel} (hfill : FillsBelow env kernelBlocks) (h : Reachable env k)
    {a : Nat} {t : Task} (ht : k.tasks a = some t) : ∃ p, k.procs t.process = some p ∧
      (∀ virt < 2 ^ 32, load k.mem (directoryEntry k.mem t.pageDirectory) userRead virt =
        .ok (k.mem ((p.writeAddr virt).getD virt))) ∧
      ∀ b ∈ k.live, ∀ x, b.Covers x → programVirtualAddress + pages p.size.toNat * 4096 ≤ x →
        load k.mem (directoryEntry k.mem t.pageDirectory) userRead x = .ok (k.mem x) := by
  have hs := reachable_sound hfill h
  obtain ⟨p, hp, hmap⟩ := hs.mapped.tasks a t ht
  have hplaced := hs.placed ht hp
  have hread : ∀ virt < 2 ^ 32, load k.mem (directoryEntry k.mem t.pageDirectory) userRead virt =
      .ok (k.mem ((p.writeAddr virt).getD virt)) := by
    intro virt hv
    unfold load
    rw [translate_userRead hmap hplaced hv]
  refine ⟨p, hp, hread, fun b hb x hx hge => ?_⟩
  have hok : TablesOk k.toSys := hs.inv.ok
  obtain ⟨halign, -, hlow, hend, -⟩ := hok.bounds hb
  have halign : b.addr % 4096 = 0 := halign
  have hend : b.addr + blockCount b.size * 4096 ≤ 250000 * 4096 := hend
  obtain ⟨-, hlt⟩ := (Live.covers_iff halign).1 hx
  have hnone : p.writeAddr x = none := by
    have hstart : programVirtualStackAddressStart = 0x3FF000 ∧ programVirtualAddress = 0x400000 := by decide
    unfold Process.writeAddr
    rw [if_neg (by omega), if_neg (by omega)]
  have hlt : x < b.addr + blockCount b.size * 4096 := hlt
  rw [hread x (by omega), hnone]
  rfl

theorem alone_reads : ∃ k t p, Reachable smallDisk k ∧ k.tasks k.currentTask = some t ∧ k.procs t.process = some p ∧
    ∀ virt < 2 ^ 32, load k.mem (directoryEntry k.mem t.pageDirectory) userRead virt =
    .ok (k.mem ((p.writeAddr virt).getD virt)) := by
  obtain ⟨k, t, h⟩ := alone_smallDisk
  obtain ⟨p, hp, hread, -⟩ := user_reads_everything (noFill_smallDisk.below kernelBlocks) h.reachable h.current
  exact ⟨k, t, p, h.reachable, h.current, hp, hread⟩

end SimpleMicrokernel.Tasking
