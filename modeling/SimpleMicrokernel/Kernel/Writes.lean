/-
What a write system call leaves allocated. The page the string is copied to is never given back, so a call
takes a block whenever there is one to take, and a run of calls leaves the allocator as it was only when
no block can be handed out.
-/
import SimpleMicrokernel.Kernel.Table

namespace SimpleMicrokernel.Memory.Pmm

/-- No block can be handed out: none is counted as free, block 0 is the first that is clear, or none is
clear. -/
def Full (p : Pmm) : Prop := p.pmmFreeBlocks = 0 ∨ p.marked 0 = false ∨ ∀ i < p.pmmSystemMemorySize, p.marked i = true

theorem pmmAllocateBlock_full (p : Pmm) : (p.Full ∧ p.pmmAllocateBlock = (0, p)) ∨
    (¬ p.Full ∧ ∃ i, p.marked i = false ∧ p.pmmAllocateBlock.2 = p.take i 1) := by
  rcases p.pmmAllocateBlock_cases with ⟨e, hwhy⟩ | ⟨i, hfree, hpos, hlt, hclear, hlow, e⟩
  · exact .inl ⟨hwhy, e⟩
  · refine .inr ⟨?_, i, hclear, by rw [e]⟩
    rintro (h | h | h)
    · exact hfree h
    · rw [hlow 0 hpos] at h
      cases h
    · rw [h i hlt] at hclear
      cases hclear

theorem Room.not_full {p : Pmm} (h : p.Room 1) : ¬ p.Full := by
  obtain ⟨addr, p', e, hne, -⟩ := h.pmmAllocateBlock (Nat.le_refl 1)
  rcases p.pmmAllocateBlock_full with ⟨-, e'⟩ | ⟨hfull, -⟩
  · rw [e] at e'
    cases e'
    exact absurd rfl hne
  · exact hfull

end SimpleMicrokernel.Memory.Pmm

namespace SimpleMicrokernel.Tasking

open Memory Fs Paging

section
variable {env : Env} {k k' : Kernel} {frame : InterruptFrame} {r : Nat}

theorem isr80hHandleCommand_write (env : Env) (k : Kernel) :
    isr80hHandleCommand env systemCommand4SysWrite k = isr80hCommand4SysWrite env k := by
  unfold isr80hHandleCommand
  rw [if_neg (by decide), if_neg (by decide), if_pos rfl]

/-- A write call takes a block when one can be handed out, and changes nothing of the allocator otherwise. -/
theorem write_heap (hok : TablesOk k.toSys) (h : isr80hHandler env systemCommand4SysWrite frame k = .ok (r, k')) :
    TablesOk k'.toSys ∧ ((k.heap.pmm.Full ∧ k'.heap = k.heap) ∨
      (¬ k.heap.pmm.Full ∧ ∃ i, k.heap.pmm.marked i = false ∧
        k'.heap = { k.heap with pmm := k.heap.pmm.take i 1 })) := by
  obtain ⟨t, k2, t', ht, -, hcommand, -, rfl⟩ := of_isr80hHandler_ok h
  have hok1 : TablesOk (k.entered t frame).toSys := hok
  rw [isr80hHandleCommand_write] at hcommand
  unfold isr80hCommand4SysWrite at hcommand
  rw [Exec.bind_of_ok (Exec.get_apply _)] at hcommand
  obtain ⟨u, k3, hu, hcommand⟩ := Exec.of_bind_ok hcommand
  obtain ⟨-, rfl⟩ := of_taskAt_ok hu
  obtain ⟨res, k4, hcopy, hcommand⟩ := Exec.of_bind_ok hcommand
  obtain ⟨-, rfl⟩ := Exec.of_pure_ok hcommand
  have hframes : FramesSys kernelBlocks systemBlocks False [] (k.entered t frame).toSys k4.toSys :=
    held_copyStringFromTask hok1 (by decide) hcopy
  obtain ⟨tmp, s1, hs1, hrest⟩ := of_copyStringFromTask_ok hok1 (by decide) hcopy
  have hheap : k4.heap = s1.heap := by
    rcases hrest with ⟨-, -, rfl⟩ | ⟨-, m2, m3, -, -, -, rfl⟩
    · rfl
    · rfl
  obtain ⟨mem, rfl, -⟩ := of_kzalloc_ok hs1
  have hheap : k4.heap = { k.heap with pmm := k.heap.pmm.pmmAllocateBlock.2 } := hheap
  refine ⟨(hframes hok1 (List.nil_subset _)).1, ?_⟩
  show (_ ∧ k4.heap = _) ∨ (_ ∧ ∃ i, _ ∧ k4.heap = _)
  rcases k.heap.pmm.pmmAllocateBlock_full with ⟨hfull, e⟩ | ⟨hfull, i, hclear, e⟩
  · exact .inl ⟨hfull, by rw [hheap, e]⟩
  · exact .inr ⟨hfull, i, hclear, by rw [hheap, e]⟩

/-- `n` write calls one after another, with whatever the callers pass. -/
inductive Writes (env : Env) : Nat → Kernel → Kernel → Prop where
  | done (a : Kernel) : Writes env 0 a a
  | call {n a b c} (passed : InterruptFrame) (res : Nat) :
      isr80hHandler env systemCommand4SysWrite passed a = .ok (res, b) → Writes env n b c → Writes env (n + 1) a c

/-- A run of write calls takes no block, or marks more blocks than before. -/
theorem Writes.heap {n : Nat} (h : Writes env n k k') (hok : TablesOk k.toSys) :
    (k.heap.pmm.Full → k'.heap = k.heap) ∧ ∀ i, k.heap.pmm.marked i = true → k'.heap.pmm.marked i = true := by
  induction h with
  | done k => exact ⟨fun _ => rfl, fun _ h => h⟩
  | call frame r hcall _ ih =>
    obtain ⟨hok', ⟨hfull, e⟩ | ⟨hfull, i, -, e⟩⟩ := write_heap hok hcall
    · obtain ⟨hsame, hmarks⟩ := ih hok'
      rw [e] at hsame hmarks
      exact ⟨hsame, hmarks⟩
    · obtain ⟨-, hmarks⟩ := ih hok'
      refine ⟨fun h => absurd h hfull, fun j hj => hmarks j ?_⟩
      rw [e]
      exact (Pmm.marked_take ..).2 (.inr hj)

/-- A run of write calls leaves the allocator as it was exactly when it has no call, or no block could be
handed out to begin with. -/
theorem writes_keep_heap (h : Reachable env k) {n : Nat} (hrun : Writes env n k k') :
    k'.heap = k.heap ↔ n = 0 ∨ k.heap.pmm.Full := by
  have hok : TablesOk k.toSys := (reachable_agrees h).ok
  refine ⟨fun hsame => ?_, fun hor => ?_⟩
  · cases hrun with
    | done => exact .inl rfl
    | call frame r hcall hrest =>
      obtain ⟨hok', ⟨hfull, -⟩ | ⟨-, i, hclear, e⟩⟩ := write_heap hok hcall
      · exact .inr hfull
      · -- the block the first call took is marked to the end
        have hmarked := (hrest.heap hok').2 i
          (by rw [e]; exact (Pmm.marked_take ..).2 (.inl ⟨Nat.le_refl _, Nat.lt_succ_self _⟩))
        rw [hsame, hclear] at hmarked
        cases hmarked
  · rcases hor with rfl | hfull
    · cases hrun
      rfl
    · exact (hrun.heap hok).1 hfull

/-- A write call is served when there is a block for the copy and every page of the task is present. -/
theorem isr80hHandler_write_ok (env : Env) (hok : TablesOk k.toSys) {t : Task} (ht : k.tasks k.currentTask = some t)
    (hne : k.currentTask ≠ 0) (hspace : IsSpace k.mem k.live t.pageDirectory) (hpresent : Present k.mem t.pageDirectory)
    (hroom : k.toSys.Room 1) (frame : InterruptFrame) :
    ∃ r k', isr80hHandler env systemCommand4SysWrite frame k = .ok (r, k') := by
  have hsaved : (k.entered t frame).tasks (k.entered t frame).currentTask = some (taskSaveState t frame) :=
    Function.update_self ..
  have hok1 : TablesOk (k.entered t frame).toSys := hok
  have hspace' : IsSpace (k.entered t frame).mem (k.entered t frame).live (taskSaveState t frame).pageDirectory :=
    hspace
  obtain ⟨res, k2, hcopy⟩ : ∃ res k2, copyStringFromTask env (taskSaveState t frame)
    (taskSaveState t frame).registers.ebx.toNat 512
      (k.entered t frame) = .ok (res, k2) :=
        copyStringFromTask_ok env hok1 hspace' hpresent hroom (by decide) (by decide) _
  have hcommand : isr80hHandleCommand env systemCommand4SysWrite (k.entered t frame) = .ok (0, k2) := by
    rw [isr80hHandleCommand_write]
    unfold isr80hCommand4SysWrite
    rw [Exec.bind_of_ok (Exec.get_apply _), Exec.bind_of_ok (taskAt_of hsaved), Exec.bind_of_ok hcopy]
    rfl
  have hsaved2 : k2.tasks k2.currentTask = some (taskSaveState t frame) := by
    obtain ⟨tmp, s1, -, ⟨-, -, rfl⟩ | ⟨-, m2, m3, -, -, -, rfl⟩⟩ :=
      of_copyStringFromTask_ok (k := k.entered t frame) hok (by decide) hcopy
    · exact hsaved
    · exact hsaved
  have hpage : taskPage k2 = .ok ((), { k2 with currentDirectory := directoryEntry k2.mem (taskSaveState t
    frame).pageDirectory }) := by
    unfold taskPage
    rw [Exec.bind_of_ok (Exec.get_apply k2)]
    exact taskSwitch_of hsaved2
  unfold isr80hHandler kernelPage pagingSwitch
  rw [bind_assoc, Exec.bind_of_ok (Exec.get_apply k), Exec.bind_of_ok (Exec.modify_apply ..),
    Exec.bind_of_ok (taskCurrentSaveState_entered ht hne frame),
    Exec.bind_of_ok hcommand, Exec.bind_of_ok hpage]
  exact ⟨_, _, rfl⟩

end

theorem program_writes (frame : InterruptFrame) : ∃ k r k', Reachable programDisk k ∧ k.toSys.Room 1 ∧
    isr80hHandler programDisk systemCommand4SysWrite frame k = .ok (r, k') := by
  obtain ⟨k, process, k', -, -, -, hstart, hstarted, hload, -, -, -, hroom⟩ := program_loads
  have hreach : Reachable programDisk k' := .step (.start hstart) (.load _ _ hload)
  rcases of_processLoad_ok kernelBlocks systemBlocks False [] False.elim hload with
    ⟨he, -⟩ | ⟨slot, process, ptr, stack, task, chunk, sz, s1, s2, s3, s4, s5, k5, -, -, h⟩
  · cases he
  obtain ⟨-, ⟨t, ht, rfl, -⟩, -, hspace, hmap, hflags⟩ := h.maps hstarted.ok
  have hcurrent : k'.currentTask = task := by
    rw [h.result]
    rcases h.link with ⟨-, rfl⟩ | ⟨hhead, -⟩
    · rfl
    · exact absurd hstarted.taskHead hhead
  have hpresent : Present k'.mem t.pageDirectory := by
    refine ⟨fun i hi => ?_, fun q hq => ?_⟩
    · rw [hflags i hi]
      decide
    · rw [hmap q hq]
      exact processMap_and (by decide)
  have hok : TablesOk k'.toSys := (reachable_agrees hreach).ok
  obtain ⟨r, k'', e⟩ := isr80hHandler_write_ok programDisk hok (hcurrent ▸ ht)
    (hcurrent ▸ h.taskNe) hspace hpresent hroom frame
  exact ⟨k', r, k'', hreach, hroom, e⟩

/-- One call of the program, with `ebx` zero. -/
theorem writes_keep_heap_one : ∃ k k', Reachable programDisk k ∧ Writes programDisk 1 k k' ∧
    (k'.heap = k.heap ↔ 1 = 0 ∨ k.heap.pmm.Full) := by
  obtain ⟨k, r, k', hreach, -, e⟩ := program_writes ⟨0, 0, 0, 0, 0, 0, 0, 0, 0, 0, 0, 0, 0⟩
  have hrun : Writes programDisk 1 k k' := .call _ _ e (.done k')
  exact ⟨k, k', hreach, hrun, writes_keep_heap hreach hrun⟩

/-- A call of the program takes a block that is not given back. -/
theorem write_takes_block : ∃ k frame r k', Reachable programDisk k ∧
    isr80hHandler programDisk systemCommand4SysWrite frame k = .ok (r, k') ∧ k'.heap ≠ k.heap := by
  obtain ⟨k, r, k', hreach, hroom, e⟩ := program_writes ⟨0, 0, 0, 0, 0, 0, 0, 0, 0, 0, 0, 0, 0⟩
  refine ⟨k, _, r, k', hreach, e, fun hsame => ?_⟩
  obtain ⟨-, ⟨hfull, -⟩ | ⟨-, i, hclear, hheap⟩⟩ := write_heap (reachable_agrees hreach).ok e
  · exact Pmm.Room.not_full hroom hfull
  · have hmarked : k'.heap.pmm.marked i = true := by
      rw [hheap]
      exact (Pmm.marked_take ..).2 (.inl ⟨Nat.le_refl _, Nat.lt_succ_self _⟩)
    rw [hsame, hclear] at hmarked
    cases hmarked

end SimpleMicrokernel.Tasking
