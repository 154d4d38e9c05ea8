/-
The kernel as machines that take turns. A task is a machine whose state is its program; loads start machines,
ticks end turns, and user code acts on its own program only. Every step of the kernel is such events (`step_shows`),
so every run is a run of the machines, and what a task finds when it goes on is what it left.
-/
import SimpleMicrokernel.Lib.TimeShare
import SimpleMicrokernel.Kernel.Programs

namespace SimpleMicrokernel.Tasking

open Memory Fs Fat16 Paging TimeShare

/-! ## Steps with names -/

/-- What happens in a step. -/
inductive Happening where
  | load (filename : List Byte)
  | run
  | tick (frame : InterruptFrame)
  | call (command : Int) (frame : InterruptFrame)
  | store (virt : BitVec 32) (c : Byte)

def Does (env : Env) (k : Kernel) (h : Happening) (k' : Kernel) : Prop :=
  match h with
  | .load filename => ∃ r, processLoad env filename k = .ok (r, k')
  | .run => ∃ r, taskRunFirstEverTask k = .ok (r, k')
  | .tick frame => UserRuns k ∧ ∃ r, isr0x20Handler frame k = .ok (r, k')
  | .call command frame => UserRuns k ∧ ∃ r, isr80hHandler env command frame k = .ok (r, k')
  | .store virt c => UserRuns k ∧ userStore virt c k = .ok (⟨⟩, k')

/-- A run: what happened, and the current task at the time. -/
inductive Runs (env : Env) : Kernel → List (Nat × Happening) → Kernel → Prop where
  | nil (k : Kernel) : Runs env k [] k
  | cons {k k1 k' : Kernel} {h : Happening} {hs : List (Nat × Happening)} : Does env k h k1 → Runs env k1 hs k' →
      Runs env k ((k.currentTask, h) :: hs) k'

theorem step_iff_does {env : Env} {k k' : Kernel} : Step env k k' ↔ ∃ h, Does env k h k' := by
  constructor
  · rintro (⟨filename, r, h⟩ | ⟨r, h⟩ | ⟨frame, r, hu, h⟩ | ⟨command, frame, r, hu, h⟩ | ⟨virt, c, hu, h⟩)
    · exact ⟨.load filename, r, h⟩
    · exact ⟨.run, r, h⟩
    · exact ⟨.tick frame, hu, r, h⟩
    · exact ⟨.call command frame, hu, r, h⟩
    · exact ⟨.store virt c, hu, h⟩
  · rintro ⟨h, hd⟩
    cases h with
    | load filename =>
      obtain ⟨r, h⟩ := hd
      exact .load filename r h
    | run =>
      obtain ⟨r, h⟩ := hd
      exact .run r h
    | tick frame =>
      obtain ⟨hu, r, h⟩ := hd
      exact .tick frame r hu h
    | call command frame =>
      obtain ⟨hu, r, h⟩ := hd
      exact .call command frame r hu h
    | store virt c => exact .store virt c hd.1 hd.2

theorem Does.step {env : Env} {k k' : Kernel} {h : Happening} (hd : Does env k h k') : Step env k k' :=
    step_iff_does.2 ⟨h, hd⟩

/-! ## The machines -/

/-- The task at an address, if it is not null. -/
def turnOf (a : Nat) : Option Nat := if a = 0 then none else some a

def Kernel.shared (k : Kernel) : Shared Nat Program where
  queue := k.processTasks
  current := turnOf k.currentTask
  machine := k.program

/-- The registers of a frame. -/
def InterruptFrame.registers (f : InterruptFrame) : Registers :=
  ⟨f.edi, f.esi, f.ebp, f.ebx, f.edx, f.ecx, f.eax, f.ip, f.cs, f.flags, f.esp, f.ss⟩

/-- The events of the machines in a step. A load that fails is none. -/
inductive Shows : Happening → List (Event Nat Program Action) → Prop where
  | fails (filename : List Byte) : Shows (.load filename) []
  | loads (filename : List Byte) (task : Nat) (s : Program) : s.registers = initialRegisters →
      Shows (.load filename) [.start task s]
  | run : Shows .run [.first]
  | tick (frame : InterruptFrame) : Shows (.tick frame) [.act (.save frame.registers), .turn]
  | call (command : Int) (frame : InterruptFrame) : Shows (.call command frame) [.act (.save frame.registers)]
  | store (virt : BitVec 32) (c : Byte) : Shows (.store virt c) [.act (.store virt c)]

/-- The events of a run of the machines are those of the steps of a run of the kernel, at the same tasks' turns. -/
inductive Shown : List (Nat × Happening) → List (Entry Nat Program Action) → Prop where
  | nil : Shown [] []
  | cons {a : Nat} {h : Happening} {evs : List (Event Nat Program Action)} {hs : List (Nat × Happening)}
      {es : List (Entry Nat Program Action)} : Shows h evs → Shown hs es →
        Shown ((a, h) :: hs) (evs.map (turnOf a, ·) ++ es)

section
variable {env : Env} {k k' : Kernel} {a : Nat} {t : Task} {frame : InterruptFrame}

theorem turnOf_ne (h : a ≠ 0) : turnOf a = some a := if_neg h

theorem Agrees.nonnull (hi : Agrees k) (ht : k.tasks a = some t) : a ≠ 0 :=
  fun he => hi.list.nonnull (he ▸ hi.list.only a (by rw [ht]; rfl))

theorem shared_ok (hi : Agrees k) : k.shared.Ok := by
  refine ⟨hi.list.nodup, fun a => ?_, fun a ha => ?_⟩
  · show (k.program a).isSome ↔ a ∈ k.processTasks
    unfold Kernel.program
    rw [Option.isSome_map]
    constructor
    · exact hi.list.only a
    · intro hm
      obtain ⟨t, ht⟩ := hi.list.task hm
      rw [ht]
      rfl
  · have ha : turnOf k.currentTask = some a := ha
    unfold turnOf at ha
    split at ha
    · cases ha
    · rename_i hne
      cases ha
      rcases hi.list.current with ⟨-, h0⟩ | hm
      · exact absurd h0 hne
      · exact hm

/-! ## One step -/

theorem program_saved (hs : Sound k) (hs' : Sound k') (ht : k.tasks k.currentTask = some t)
    (htasks : k'.tasks = Function.update k.tasks k.currentTask (some (taskSaveState t frame)))
    (hprocs : k'.procs = k.procs) (hmem : ∀ b ∈ k.live, ∀ x, b.Covers x → k'.mem x = k.mem x) :
    ∃ s, k.program k.currentTask = some s ∧
      k'.program = Function.update k.program k.currentTask (some { s with registers := frame.registers }) := by
  obtain ⟨p, -, -, e⟩ := hs.program ht
  refine ⟨_, e, funext fun a => ?_⟩
  by_cases ha : a = k.currentTask
  · subst ha
    have ht' : k'.tasks k.currentTask = some (taskSaveState t frame) := by rw [htasks, Function.update_self]
    rw [hs.program_framed hs' ht ht' rfl (by rw [hprocs]) hmem, e, Function.update_self]
    rfl
  · rw [Function.update_of_ne ha]
    cases hta : k.tasks a with
    | none => rw [program_none.2 hta, program_none.2 (by rw [htasks, Function.update_of_ne ha, hta])]
    | some u =>
      have hta' : k'.tasks a = some u := by rw [htasks, Function.update_of_ne ha, hta]
      obtain ⟨q, -, -, eu⟩ := hs.program hta
      rw [hs.program_framed hs' hta hta' rfl (by rw [hprocs]) hmem, eu]
      rfl

/-- A tick saves the registers of the task that ran, and gives the turn to the next of the list. -/
theorem Agrees.tick_next (hi : Agrees k) {r : Registers} (h : isr0x20Handler frame k = .ok (r, k')) : ∃ t,
    ∃ hm : k.currentTask ∈ k.processTasks, ∃ d, k.tasks k.currentTask = some t ∧
      k' = { k.entered t frame with currentTask := k.processTasks.next k.currentTask hm, currentDirectory := d } := by
  obtain ⟨t, ht, hne, h⟩ := of_isr0x20Handler_ok h
  have hl : IsList (k.entered t frame) k.processTasks :=
    hi.list.congr (fun a => (kept_save (R := Eq) ht frame _).links a) rfl rfl rfl
  have hm : k.currentTask ∈ k.processTasks := hi.list.only _ (by rw [ht]; rfl)
  obtain ⟨i, hlt, hc⟩ := List.mem_iff_getElem.1 hm
  obtain ⟨u, -, e⟩ := hl.scheduleNextTask hlt hc.symm (by omega)
  have hnext : k.processTasks.next k.currentTask hm = around k.processTasks (by omega) (i + 1) := by
    have hget := List.next_getElem k.processTasks hi.list.nodup i hlt
    simp only [hc] at hget
    exact hget
  rw [e] at h
  cases h
  exact ⟨t, hm, directoryEntry k.mem u.pageDirectory, ht, by rw [hnext]; rfl⟩

end

/-! ## A load that succeeded -/

section
variable {env : Env} {k k' : Kernel} {filename : List Byte} {slot : Fin maxProcesses}
    {process ptr stack task chunk : Nat}
  {sz : BitVec 32} {s1 s2 s3 s4 s5 : Sys} {k5 : Kernel}

theorem Loaded.tasks_eq (h : Loaded env filename slot k k' process ptr stack task chunk sz s1 s2 s3 s4 s5 k5) :
    k'.tasks = k5.tasks := by
  rw [h.result]
  rfl

theorem Loaded.task_new (hi : Agrees k)
    (h : Loaded env filename slot k k' process ptr stack task chunk sz s1 s2 s3 s4 s5 k5) :
    task ∉ k.processTasks := by
  have howned : FramesSys kernelBlocks systemBlocks False k.live k.toSys k'.toSys ∧ _ := h.owned False.elim hi.ok
  obtain ⟨-, -, hnew, -⟩ := howned
  intro hm
  obtain ⟨t, ht⟩ := hi.list.task hm
  exact hnew _ (hi.live (by rw [ht]; rfl)) rfl

theorem Loaded.queue (hi : Agrees k) (hinv : Inv k) (hslot : processGetFreeSlot k.processes = some slot)
    (h : Loaded env filename slot k k' process ptr stack task chunk sz s1 s2 s3 s4 s5 k5) :
    k'.processTasks = k.processTasks ++ [task] := by
  refine hi.processTasks_snoc (of_processGetFreeSlot hslot).1 h.processNe (fun i hne => ?_)
    (congrArg Kernel.procs h.result)
    (congrArg Kernel.processes h.result)
  obtain ⟨p, t, hin, -⟩ := hi.slots i hne
  rw [← hin.back]
  exact h.process_ne hinv hin.task

/-- The first task that is made is the current one. -/
theorem Loaded.current (hi : Agrees k)
    (h : Loaded env filename slot k k' process ptr stack task chunk sz s1 s2 s3 s4 s5 k5) :
    turnOf k'.currentTask = some ((turnOf k.currentTask).getD task) := by
  have hl := hi.list
  have hc : k'.currentTask = k5.currentTask := by
    rw [h.result]
    rfl
  rw [hc]
  rcases h.link with ⟨hhead, e⟩ | ⟨hhead, tail, -, e⟩
  · have hhead : k.taskHead = 0 := hhead
    have hnil : k.processTasks = [] := by
      cases hlist : k.processTasks with
      | nil => rfl
      | cons a l =>
        rw [hl.head, hlist] at hhead
        exact absurd (hlist ▸ hhead ▸ List.mem_cons_self ..) hl.nonnull
    have h0 : k.currentTask = 0 := by
      rcases hl.current with ⟨-, h0⟩ | hm
      · exact h0
      · rw [hnil] at hm
        cases hm
    rw [e, h0]
    exact turnOf_ne h.taskNe
  · have hhead : k.taskHead ≠ 0 := hhead
    rw [e]
    show turnOf k.currentTask = _
    rcases hl.current with ⟨hnil, -⟩ | hm
    · rw [hl.head, hnil] at hhead
      exact absurd rfl hhead
    · rw [turnOf_ne fun he => hl.nonnull (he ▸ hm)]
      rfl

theorem Loaded.registers (h : Loaded env filename slot k k' process ptr stack task chunk sz s1 s2 s3 s4 s5 k5) :
    k'.registers task = some initialRegisters := by
  unfold Kernel.registers
  rw [h.tasks_eq]
  rcases h.link with ⟨-, e⟩ | ⟨-, tail, -, e⟩
  · rw [e]
    simp only [Function.update_self]
    rfl
  · rw [e]
    simp only [Function.update_self]
    rfl

theorem Loaded.program_of_ne (hs : Sound k) (hs' : Sound k') (hfill : FillsBelow env kernelBlocks)
    (h : Loaded env filename slot k k' process ptr stack task chunk sz s1 s2 s3 s4 s5 k5) {a : Nat} (ha : a ≠ task) :
    k'.program a = k.program a := by
  have howned : FramesSys kernelBlocks systemBlocks True k.live k.toSys k'.toSys ∧ _ :=
    h.owned (fun _ => hfill) hs.inv.ok
  obtain ⟨-, -, hmem⟩ := howned.1 hs.inv.ok (List.Subset.refl _)
  have hreg : k'.registers a = k.registers a := (registers_congr (congrFun h.tasks_eq a)).trans (h.link.registers ha)
  unfold Kernel.registers at hreg
  cases ht' : k'.tasks a with
  | none =>
    rw [ht'] at hreg
    rw [program_none.2 ht', program_none.2 (Option.map_eq_none_iff.1 hreg.symm)]
  | some t' =>
    rcases h.tasks_of_some ht' with ⟨he, -⟩ | ⟨t, -, ht, -, hprocess⟩
    · exact absurd he ha
    · have hprocs : k'.procs t.process = k.procs t.process := by
        rw [h.result]
        exact Function.update_of_ne (h.process_ne hs.inv ht) ..
      rw [ht, ht'] at hreg
      have hreg : t'.registers = t.registers := Option.some.inj hreg
      obtain ⟨p, -, -, e⟩ := hs.program ht
      rw [hs.program_framed hs' ht ht' hprocess hprocs (hmem trivial), e, hreg]
      rfl

/-- The new task is the last of the queue, and the other programs are as they were. -/
theorem Loaded.shared (hs : Sound k) (hs' : Sound k') (hfill : FillsBelow env kernelBlocks)
    (hslot : processGetFreeSlot k.processes = some slot)
    (h : Loaded env filename slot k k' process ptr stack task chunk sz s1 s2 s3 s4 s5 k5) :
    ∃ s, s.registers = initialRegisters ∧
      k'.shared = ⟨k.processTasks ++ [task], some ((turnOf k.currentTask).getD task),
        Function.update k.program task (some s)⟩ := by
  obtain ⟨t', ht', hreg⟩ := Option.map_eq_some_iff.1 h.registers
  obtain ⟨s, e⟩ : ∃ s, k'.program task = some s := by
    obtain ⟨p, -, -, e⟩ := hs'.program ht'
    exact ⟨_, e⟩
  refine ⟨s, (program_registers ht' e).trans hreg, ?_⟩
  have hmachine : k'.program = Function.update k.program task (k'.program task) := by
    funext a
    by_cases ha : a = task
    · rw [ha, Function.update_self]
    · rw [Function.update_of_ne ha, h.program_of_ne hs hs' hfill ha]
  unfold Kernel.shared
  rw [h.queue hs.agrees hs.inv hslot, h.current hs.agrees, hmachine, e]

end

/-! ## Every step -/

section
variable {env : Env} {k k' : Kernel} {t : Task} {s : Program} {h : Happening}

/-- A store of user code is a store to a byte of the image or the stack. -/
theorem of_userStore_ok (hs : Sound k) {virt : BitVec 32} {c : Byte} (hruns : UserRuns k)
    (h : userStore virt c k = .ok (⟨⟩, k')) :
    ∃ t p addr, k.tasks k.currentTask = some t ∧ k.procs t.process = some p ∧ p.Placed ∧
    p.writeAddr virt.toNat = some addr ∧
      k' = k.withSys { k.toSys with mem := Function.update k.mem addr c } := by
  obtain ⟨t, ht, hdir⟩ := hruns
  obtain ⟨p, hp, hmap⟩ := hs.mapped.tasks _ t ht
  have hplaced := hs.placed ht hp
  unfold userStore at h
  rw [Exec.bind_of_ok (Exec.get_apply k)] at h
  obtain ⟨mem, k1, h1, h⟩ := Exec.of_bind_ok h
  obtain ⟨hstore, rfl⟩ := Exec.of_lift_ok h1
  obtain ⟨s1, hs1, rfl⟩ := of_onSys_ok h
  rw [setMem_apply] at hs1
  cases hs1
  rw [hdir] at hstore
  unfold storeByte at hstore
  rw [translate_userWrite hmap hplaced virt.isLt] at hstore
  cases hw : p.writeAddr virt.toNat with
  | none =>
    rw [hw] at hstore
    cases hstore
  | some addr =>
    rw [hw] at hstore
    cases hstore
    exact ⟨t, p, addr, ht, hp, hplaced, hw, rfl⟩

theorem map_update_writeAddr {p : Process} (hplaced : p.Placed) {virt : BitVec 32} {addr : Nat}
    (hw : p.writeAddr virt.toNat = some addr) (mem : Mem) (c : Byte) :
    (fun v : BitVec 32 => (p.writeAddr v.toNat).map (Function.update mem addr c)) =
      Function.update (fun v : BitVec 32 => (p.writeAddr v.toNat).map mem) virt (some c) := by
  funext v
  by_cases hv : v = virt
  · subst hv
    rw [hw, Function.update_self, Option.map_some, Function.update_self]
  · rw [Function.update_of_ne hv]
    cases hwv : p.writeAddr v.toNat with
    | none => rfl
    | some addr' =>
      have hne : addr' ≠ addr := by
        rintro rfl
        exact hv (BitVec.eq_of_toNat_eq (Process.writeAddr_inj hplaced hwv hw))
      exact congrArg some (Function.update_of_ne hne ..)

/-- A store of user code goes to the memory of its own program, and to no other's. -/
theorem program_store (hs : Sound k) (hs' : Sound k') {virt : BitVec 32} {c : Byte} (hruns : UserRuns k)
    (h : userStore virt c k = .ok (⟨⟩, k')) : ∃ s s', k.program k.currentTask = some s ∧
    s.act (.store virt c) = some s' ∧
      k'.program = Function.update k.program k.currentTask (some s') ∧
      ∃ mem, k' = k.withSys { k.toSys with mem := mem } := by
  obtain ⟨t, p, addr, ht, hp, hplaced, hw, rfl⟩ := of_userStore_ok hs hruns h
  obtain ⟨q, hq, -, e⟩ := hs.program ht
  rw [hp] at hq
  cases hq
  have hact : Program.act ⟨t.registers, fun v => (p.writeAddr v.toNat).map k.mem⟩ (.store virt c) =
      some ⟨t.registers, Function.update (fun v : BitVec 32 => (p.writeAddr v.toNat).map k.mem) virt (some c)⟩ :=
    Program.act_store (show ((p.writeAddr virt.toNat).map k.mem).isSome by rw [hw]; rfl) c
  refine ⟨_, _, e, hact, funext fun a => ?_, _, rfl⟩
  by_cases ha : a = k.currentTask
  · obtain ⟨q, hq, -, e'⟩ := hs'.program ht
    have hq : k.procs t.process = some q := hq
    rw [hp] at hq
    cases hq
    rw [ha, Function.update_self, ← map_update_writeAddr hplaced hw]
    exact e'
  · rw [Function.update_of_ne ha]
    cases hta : k.tasks a with
    | none =>
      rw [program_none.2 hta]
      exact program_none.2 hta
    | some u =>
      obtain ⟨q, -, -, eu⟩ := hs.program hta
      rw [hs.program_keep hs' hta hta rfl rfl fun q hq x hx => ?_, eu]
      · rfl
      · -- what another process holds is apart
        obtain ⟨b, hbm, hb, hbc⟩ := hs.held hta hq hx
        obtain ⟨b', hbm', hb', hbc'⟩ := hs.held ht hp (Process.writeAddr_covers hplaced hw)
        have hne : b ≠ b' := fun he => hs.inv.apart a _ u t q p hta ht hq hp ha b hbm (he ▸ hbm')
        have hok : TablesOk k.toSys := hs.inv.ok
        refine Function.update_of_ne (fun he => ?_) ..
        exact (hok.apart hb hb' hne).not_covers hbc (he ▸ hbc')

/-- A system call changes the registers saved for its task, and nothing that is held. -/
theorem call_unchanged (hfill : FillsBelow env kernelBlocks) (hs : Sound k) {command : Int}
    {frame : InterruptFrame} {r : Nat} (h : isr80hHandler env command frame k = .ok (r, k')) :
    ∃ t, k.tasks k.currentTask = some t ∧
      k'.tasks = Function.update k.tasks k.currentTask (some (taskSaveState t frame)) ∧ k'.procs = k.procs ∧
      k'.processes = k.processes ∧ k'.currentTask = k.currentTask ∧ ∀ b ∈ k.live, ∀ x, b.Covers x →
      k'.mem x = k.mem x := by
  obtain ⟨t, k2, t', ht, -, hcommand, -, rfl⟩ := of_isr80hHandler_ok h
  have hinv : Inv (k.entered t frame) := hs.inv.keep (keepsSpaces_of_same hs.inv.ok (kept_save ht frame _))
  obtain ⟨-, -, hmem⟩ := frames_isr80hHandleCommand hfill hinv hcommand hs.inv.ok (List.Subset.refl _)
  have hsame : k2.tasks = (k.entered t frame).tasks ∧ k2.procs = k.procs ∧ k2.processes = k.processes ∧
      k2.currentTask = k.currentTask := by
    rcases of_isr80hHandleCommand_ok hcommand with rfl | ⟨-, u, res, -, hcopy⟩
    · exact ⟨rfl, rfl, rfl, rfl⟩
    · have hok : TablesOk (k.entered t frame).toSys := hs.inv.ok
      obtain ⟨tmp, s1, -, ⟨-, -, rfl⟩ | ⟨-, m2, m3, -, -, -, rfl⟩⟩ := of_copyStringFromTask_ok hok (by decide) hcopy
      · exact ⟨rfl, rfl, rfl, rfl⟩
      · exact ⟨rfl, rfl, rfl, rfl⟩
  exact ⟨t, ht, hsame.1, hsame.2.1, hsame.2.2.1, hsame.2.2.2, hmem trivial⟩

theorem Sound.tick (hs : Sound k) (hs' : Sound k') {frame : InterruptFrame} {r : Registers}
    (h : isr0x20Handler frame k = .ok (r, k')) : ∃ s,
    ∃ hm : k.currentTask ∈ k.processTasks, k.program k.currentTask = some s ∧
      k'.shared = ⟨k.processTasks, some (k.processTasks.next k.currentTask hm),
        Function.update k.program k.currentTask (some { s with registers := frame.registers })⟩ := by
  obtain ⟨t, hm, d, ht, e⟩ := hs.agrees.tick_next h
  have htasks : k'.tasks = Function.update k.tasks k.currentTask (some (taskSaveState t frame)) := by rw [e]; rfl
  obtain ⟨s, hprog, hsaved⟩ := program_saved hs hs' ht htasks (by rw [e]; rfl) fun b _ x _ => by rw [e]; rfl
  have hnext : turnOf k'.currentTask = some (k.processTasks.next k.currentTask hm) := by
    have hc : k'.currentTask = k.processTasks.next k.currentTask hm := by rw [e]
    rw [hc]
    exact turnOf_ne fun he => hs.agrees.list.nonnull (he ▸ List.next_mem _ _ hm)
  have hqueue : k'.processTasks = k.processTasks := processTasks_congr (by rw [e]; rfl) (by rw [e]; rfl)
  refine ⟨s, hm, hprog, ?_⟩
  unfold Kernel.shared
  rw [hsaved, hnext, hqueue]

theorem Sound.call (hfill : FillsBelow env kernelBlocks) (hs : Sound k) (hs' : Sound k') {command : Int}
    {frame : InterruptFrame} {r : Nat} (h : isr80hHandler env command frame k = .ok (r, k')) :
    ∃ s, k.program k.currentTask = some s ∧ k'.currentTask = k.currentTask ∧
      k'.shared = { k.shared with
        machine := Function.update k.program k.currentTask (some { s with registers := frame.registers }) } := by
  obtain ⟨t, ht, htasks, hprocs, hprocesses, hc, hmem⟩ := call_unchanged hfill hs h
  obtain ⟨s, hprog, hsaved⟩ := program_saved hs hs' ht htasks hprocs hmem
  refine ⟨s, hprog, hc, ?_⟩
  unfold Kernel.shared
  rw [hsaved, hc, processTasks_congr hprocs hprocesses]

theorem Under.shared (hu : Under kernelBlocks systemBlocks True k.live k k') (hs : Sound k) (hs' : Sound k') :
    k'.shared = k.shared := by
  obtain ⟨-, -, hmem⟩ := hu.1 hs.inv.ok (List.Subset.refl _)
  have hprogram : k'.program = k.program := by
    funext a
    cases ht : k.tasks a with
    | none => rw [program_none.2 ht, program_none.2 (by rw [hu.2]; exact ht)]
    | some t =>
      obtain ⟨p, -, -, e⟩ := hs.program ht
      rw [hs.program_framed hs' ht ((congrArg (fun k : Kernel => k.tasks a) hu.2).trans ht) rfl (by rw [hu.2]; rfl)
        (hmem trivial), e]
      rfl
  unfold Kernel.shared
  rw [hprogram, processTasks_congr (congrArg Kernel.procs hu.2) (congrArg Kernel.processes hu.2)]
  rw [hu.2]
  rfl

/-- A step of the kernel is a few of the machines, all in the turn of the current task. -/
theorem step_shows (hfill : FillsBelow env kernelBlocks) (hs : Sound k) (hd : Does env k h k') : ∃ evs, Shows h evs ∧
    Steps Program.act k.shared (evs.map (turnOf k.currentTask, ·)) k'.shared := by
  have hs' := step_sound hfill hs hd.step
  cases h with
  | load filename =>
    obtain ⟨r, hload⟩ := hd
    rcases of_processLoad_ok kernelBlocks systemBlocks True k.live (fun _ => hfill) hload with
      ⟨-, hu⟩ | ⟨slot, process, ptr, stack, task, chunk, sz, s1, s2, s3, s4, s5, k5, -, hslot, hl⟩
    · refine ⟨[], .fails filename, ?_⟩
      rw [hu.shared hs hs']
      exact .nil _
    · obtain ⟨s, hreg, e⟩ := hl.shared hs hs' hfill hslot
      refine ⟨[.start task s], .loads filename task s hreg, ?_⟩
      rw [e]
      exact steps_one (.start (hl.task_new hs.agrees))
  | run =>
    obtain ⟨r, hrun⟩ := hd
    obtain ⟨t, ht, rfl⟩ := of_taskRunFirstEverTask_ok hrun
    refine ⟨[.first], .run, ?_⟩
    have hl := hs.agrees.list
    have hhead : k.processTasks.head? = some k.taskHead := by
      have hm : k.taskHead ∈ k.processTasks := hl.only _ (by rw [ht]; rfl)
      rw [hl.head]
      cases hlist : k.processTasks with
      | nil =>
        rw [hlist] at hm
        cases hm
      | cons a l => rfl
    have hne : k.taskHead ≠ 0 := hs.agrees.nonnull ht
    have hstep : TimeShare.Step Program.act k.shared (Event.first : Event Nat Program Action) _ := .first hhead
    rw [← turnOf_ne hne] at hstep
    exact steps_one hstep
  | tick frame =>
    obtain ⟨-, r, htick⟩ := hd
    obtain ⟨s, hm, hprog, e⟩ := hs.tick hs' htick
    have hturn : turnOf k.currentTask = some k.currentTask := turnOf_ne fun he => hs.agrees.list.nonnull (he ▸ hm)
    rw [e]
    exact ⟨_, .tick frame, .cons (.act hturn hprog rfl)
      (steps_one (w := ⟨k.processTasks, turnOf k.currentTask, _⟩) (.turn hm hturn))⟩
  | call command frame =>
    obtain ⟨⟨t, ht, -⟩, r, hcall⟩ := hd
    obtain ⟨s, hprog, -, e⟩ := hs.call hfill hs' hcall
    rw [e]
    exact ⟨_, .call command frame, steps_one (.act (turnOf_ne (hs.agrees.nonnull ht)) hprog rfl)⟩
  | store virt c =>
    obtain ⟨hruns, hstore⟩ := hd
    obtain ⟨s, s', hprog, hact, hprogram, mem, e⟩ := program_store hs hs' hruns hstore
    obtain ⟨t, ht, -⟩ := hruns
    refine ⟨_, .store virt c, ?_⟩
    have hstep : TimeShare.Step Program.act k.shared (.act (.store virt c)) _ :=
      .act (turnOf_ne (hs.agrees.nonnull ht)) hprog hact
    have hshared : k'.shared = { k.shared with machine := Function.update k.program k.currentTask (some s') } := by
      unfold Kernel.shared
      rw [hprogram, processTasks_congr (congrArg Kernel.procs e) (congrArg Kernel.processes e)]
      rw [e]
      rfl
    rw [hshared]
    exact steps_one hstep

end

/-! ## Runs -/

/-- What a step does to the program of the current task. -/
def Happening.actions : Happening → List Action
  | .tick frame => [.save frame.registers]
  | .call _ frame => [.save frame.registers]
  | .store virt c => [.store virt c]
  | _ => []

/-- What happened in the turns of a task. -/
def actionsOf (a : Nat) (hs : List (Nat × Happening)) : List Action :=
    hs.flatMap fun e => if e.1 = a then e.2.actions else []

/-- The ticks of a run. -/
def ticks : List (Nat × Happening) → Nat
  | [] => 0
  | (_, .tick _) :: hs => ticks hs + 1
  | _ :: hs => ticks hs

section
variable {env : Env} {k k' : Kernel} {a : Nat} {hs : List (Nat × Happening)} {es : List (Entry Nat Program Action)}

theorem Runs.reachable (h : Runs env k hs k') (hreach : Reachable env k) : Reachable env k' := by
  induction h with
  | nil k => exact hreach
  | cons hd _ ih => exact ih (.step hreach hd.step)

theorem runs_shown (hfill : FillsBelow env kernelBlocks) (hreach : Reachable env k) (h : Runs env k hs k') :
    ∃ es, Shown hs es ∧ Steps Program.act k.shared es k'.shared := by
  induction h with
  | nil k => exact ⟨[], .nil, .nil _⟩
  | cons hd _ ih =>
    obtain ⟨evs, hshows, hstep⟩ := step_shows hfill (reachable_sound hfill hreach) hd
    obtain ⟨es, hshown, hsteps⟩ := ih (.step hreach hd.step)
    exact ⟨_, .cons hshows hshown, hstep.append hsteps⟩

theorem turnOf_eq {b : Nat} (ha : a ≠ 0) : turnOf b = some a ↔ b = a := by
  unfold turnOf
  constructor
  · intro h
    split at h
    · cases h
    · exact Option.some.inj h
  · rintro rfl
    exact if_neg ha

theorem acts_shows {b : Nat} {h : Happening} {evs : List (Event Nat Program Action)} (ha : a ≠ 0) (hs : Shows h evs) :
    acts a (evs.map (turnOf b, ·)) = if b = a then h.actions else [] := by
  have hother : b ≠ a → ∀ {evs : List (Event Nat Program Action)}, acts a (evs.map (turnOf b, ·)) = [] := by
    intro hne evs
    refine List.filterMap_eq_nil_iff.2 fun e he => ?_
    obtain ⟨ev, -, rfl⟩ := List.mem_map.1 he
    unfold turnOf
    split
    · cases ev <;> rfl
    · cases ev with
      | act x => exact if_neg hne
      | start i s => rfl
      | turn => rfl
      | first => rfl
  by_cases hb : b = a
  · subst hb
    have hself : ∀ x : Action, actOf b (turnOf b, (Event.act x : Event Nat Program Action)) = some x := by
      intro x
      rw [turnOf_ne ha]
      exact if_pos rfl
    rw [if_pos rfl]
    cases hs with
    | fails filename => rfl
    | loads filename task s hr =>
      rw [turnOf_ne ha]
      rfl
    | run =>
      rw [turnOf_ne ha]
      rfl
    | tick frame =>
      show List.filterMap _ [_, _] = _
      rw [List.filterMap_cons, hself, turnOf_ne ha]
      rfl
    | call command frame =>
      show List.filterMap _ [_] = _
      rw [List.filterMap_cons, hself]
      rfl
    | store virt c =>
      show List.filterMap _ [_] = _
      rw [List.filterMap_cons, hself]
      rfl
  · rw [if_neg hb]
    exact hother hb

theorem Shown.acts (ha : a ≠ 0) (h : Shown hs es) : TimeShare.acts a es = actionsOf a hs := by
  induction h with
  | nil => rfl
  | cons hshows _ ih =>
    rw [acts_append, acts_shows ha hshows, ih]
    rfl

theorem Shown.turns (h : Shown hs es) : TimeShare.turns es = ticks hs := by
  induction h with
  | nil => rfl
  | cons hshows _ ih =>
    rw [turns_append, ih]
    cases hshows with
    | fails filename => exact Nat.zero_add _
    | loads filename task s hr => exact Nat.zero_add _
    | run => exact Nat.zero_add _
    | tick frame => exact Nat.add_comm 1 _
    | call command frame => exact Nat.zero_add _
    | store virt c => exact Nat.zero_add _

theorem Shown.noFirst (h : Shown hs es) (hrun : ∀ c, (c, Happening.run) ∉ hs) : NoFirst es := by
  induction h with
  | nil => exact fun c hc => by cases hc
  | @cons b h evs hs es hshows _ ih =>
    intro c hc
    rcases List.mem_append.1 hc with hc | hc
    · obtain ⟨ev, hev, he⟩ := List.mem_map.1 hc
      cases he
      cases hshows with
      | run => exact hrun b (List.mem_cons_self ..)
      | fails filename => cases hev
      | loads filename task s hr => simp at hev
      | tick frame => simp at hev
      | call command frame => simp at hev
      | store virt c => simp at hev
    · exact ih (fun c hm => hrun c (List.mem_cons_of_mem _ hm)) c hc

theorem Shown.turn_of (ha : a ≠ 0) (h : Shown hs es) {e : Entry Nat Program Action} (he : e ∈ es) (hea : e.1 = some a) :
    ∃ x ∈ hs, x.1 = a := by
  induction h with
  | nil => cases he
  | @cons b h evs hs es hshows _ ih =>
    rcases List.mem_append.1 he with he | he
    · obtain ⟨ev, -, rfl⟩ := List.mem_map.1 he
      exact ⟨_, List.mem_cons_self .., (turnOf_eq ha).1 hea⟩
    · obtain ⟨x, hx, hxa⟩ := ih he
      exact ⟨x, List.mem_cons_of_mem _ hx, hxa⟩

/-! ## The results -/

theorem length_processTasks (k : Kernel) : k.processTasks.length ≤ maxProcesses :=
  (List.length_filterMap_le ..).trans (List.length_finRange).le

/-- No task starves: in every run with at least 11 ticks, whatever else happens in it but `task_run_first_ever_task`,
every task there was at its start has been the current one. -/
theorem task_served (hfill : FillsBelow env kernelBlocks) (hreach : Reachable env k) (h : Runs env k hs k') {t : Task}
    (ha : k.tasks a = some t) (hrun : ∀ c, (c, Happening.run) ∉ hs) (hticks : maxProcesses ≤ ticks hs + 1) :
    (∃ x ∈ hs, x.1 = a) ∨ k'.currentTask = a := by
  have hi := reachable_agrees hreach
  have hne := hi.nonnull ha
  have hm : a ∈ k.processTasks := hi.list.only a (by rw [ha]; rfl)
  obtain ⟨es, hshown, hsteps⟩ := runs_shown hfill hreach h
  have hcurrent : k.currentTask ≠ 0 := by
    rcases hi.list.current with ⟨hnil, -⟩ | hmc
    · rw [hnil] at hm
      cases hm
    · exact fun he => hi.list.nonnull (he ▸ hmc)
  rcases hsteps.served (shared_ok hi) (i := a) hm (length_processTasks k') (turnOf_ne hcurrent) (hshown.noFirst hrun)
    (by rw [hshown.turns]; exact hticks) with ⟨e, he, hea⟩ | hlast
  · exact .inl (hshown.turn_of hne he hea)
  · exact .inr ((turnOf_eq hne).1 hlast)

end

/-! ## A program that runs alone -/

section
variable {env : Env} {k : Kernel} {t : Task}

theorem Alone.ticked (h : Alone env k t) (frame : InterruptFrame) :
    ∃ k', Runs env k [(k.currentTask, .tick frame)] k' ∧ k'.currentTask = k.currentTask ∧
    Alone env k' (taskSaveState t frame) := by
  obtain ⟨k', htick, hc, hmem, hdir⟩ := h.tick frame
  have hruns : UserRuns k := ⟨t, h.current, h.loaded⟩
  obtain ⟨t', hm, d, ht', e⟩ := (reachable_agrees h.reachable).tick_next htick
  rw [h.current] at ht'
  cases ht'
  have hchunk : k'.kernelChunk = k.kernelChunk := by rw [e]; rfl
  refine ⟨k', .cons ⟨hruns, _, htick⟩ (.nil k'), hc, .step h.reachable (.tick frame _ hruns htick), ?_, ?_, ?_, h.last,
    ?_, ?_, ?_, ?_, ?_⟩
  · rw [hc, e]
    exact Function.update_self ..
  · rw [hc]
    exact h.nonnull
  · rw [hc, ← h.head, e]
    rfl
  · rw [hdir, hmem]
    exact h.loaded
  · rw [hc]
    exact h.low
  · rw [hdir, hmem]
    exact h.user
  · rw [hchunk, hmem]
    exact h.kernel
  · rw [hdir, hmem, hc]
    exact h.task

theorem Alone.runs (h : Alone env k t) (frame : InterruptFrame) (n : Nat) :
    ∃ k', Runs env k (List.replicate n (k.currentTask, .tick frame)) k' := by
  induction n generalizing k t with
  | zero => exact ⟨k, .nil k⟩
  | succ n ih =>
    obtain ⟨k1, hrun, hc, h1⟩ := h.ticked frame
    obtain ⟨k', hrest⟩ := ih h1
    rw [hc] at hrest
    cases hrun with
    | cons hd hnil =>
      cases hnil
      exact ⟨k', .cons hd hrest⟩

end

/-- A frame of user code that has 7 in `ebp`. -/
def sevenFrame : InterruptFrame := stoppedFrame sevenInEbp

theorem seven_served : ∃ k k' a, Runs smallDisk k (List.replicate 11 (k.currentTask, .tick sevenFrame)) k' ∧
    ((∃ x ∈ List.replicate 11 (k.currentTask, Happening.tick sevenFrame), x.1 = a) ∨ k'.currentTask = a) := by
  obtain ⟨k, t, h⟩ := alone_smallDisk
  obtain ⟨k', hrun⟩ := h.runs sevenFrame 11
  refine ⟨k, k', k.currentTask, hrun, task_served (noFill_smallDisk.below kernelBlocks) h.reachable hrun h.current
    (fun c hc => ?_) (Nat.le_refl 12)⟩
  have he := List.eq_of_mem_replicate hc
  cases he

end SimpleMicrokernel.Tasking
