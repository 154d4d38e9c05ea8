/-
The process table and the list of tasks agree. The invariant says that the slots in use come first, that
each has a process that knows its slot and a task that knows its process, and that these tasks are linked
in the order of the slots. A load that succeeds fills the first slot that is free and links its task in at
the tail; one that fails changes neither, and no interrupt changes more than registers.
-/
import SimpleMicrokernel.Kernel.Isolation
import SimpleMicrokernel.Task.List

namespace SimpleMicrokernel.Tasking

open Memory Fs Fat16 Paging Linked

/-! ## The tables -/

/-- `processes[i]->task`, where the slot is in use. -/
def Kernel.slotTask (k : Kernel) (i : Fin maxProcesses) : Option Nat :=
  if k.processes i = 0 then none else (k.procs (k.processes i)).map Process.task

/-- The tasks of the slots in use, the lowest slot first. -/
def Kernel.processTasks (k : Kernel) : List Nat := (List.finRange maxProcesses).filterMap k.slotTask

/-- A process in its slot, and its task. -/
structure InSlot (k : Kernel) (i : Fin maxProcesses) (p : Process) (t : Task) : Prop where
  proc : k.procs (k.processes i) = some p
  id : p.id = BitVec.ofNat 16 i
  task : k.tasks p.task = some t
  back : t.process = k.processes i

structure Agrees (k : Kernel) : Prop where
  ok : TablesOk k.toSys
  list : IsList k k.processTasks
  slots : ∀ i, k.processes i ≠ 0 → ∃ p t, InSlot k i p t ∧ ⟨k.processes i, sizeofProcess, .kheap⟩ ∈ k.live ∧
    ⟨p.task, sizeofTask, .kheap⟩ ∈ k.live
  /-- The slots in use come first. -/
  inOrder : ∀ i j, i ≤ j → k.processes j ≠ 0 → k.processes i ≠ 0

theorem filterMap_finRange_snoc {α : Type} : ∀ {n : Nat} {f f' : Fin n → Option α} {i : Fin n} {x : α}, f' i = some x →
    (∀ j < i, f' j = f j) → (∀ j, i ≤ j → f j = none) → (∀ j, i < j → f' j = none) →
    (List.finRange n).filterMap f' = (List.finRange n).filterMap f ++ [x]
  | 0, _, _, i, _, _, _, _, _ => i.elim0
  | n + 1, f, f', ⟨0, _⟩, x, hi, _, hnone, hnone' => by
    have h1 : (List.finRange (n + 1)).filterMap f = [] :=
      List.filterMap_eq_nil_iff.2 fun j _ => hnone j (Fin.zero_le j)
    have h2 : (List.finRange n).filterMap (f' ∘ Fin.succ) = [] :=
      List.filterMap_eq_nil_iff.2 fun j _ => hnone' j.succ (Fin.succ_pos j)
    have hi : f' 0 = some x := hi
    rw [h1, List.finRange_succ, List.filterMap_cons, hi, List.filterMap_map, h2]
    rfl
  | n + 1, f, f', ⟨i + 1, hlt⟩, x, hi, heq, hnone, hnone' => by
    have ih : (List.finRange n).filterMap (f' ∘ Fin.succ) = (List.finRange n).filterMap (f ∘ Fin.succ) ++ [x] :=
      filterMap_finRange_snoc (i := ⟨i, Nat.lt_of_succ_lt_succ hlt⟩) hi (fun j hj => heq _ (Fin.succ_lt_succ_iff.2 hj))
        (fun j hj => hnone _ (Fin.succ_le_succ_iff.2 hj)) fun j hj => hnone' _ (Fin.succ_lt_succ_iff.2 hj)
    have h0 : f' 0 = f 0 := heq 0 (Nat.succ_pos i)
    rw [List.finRange_succ, List.filterMap_cons, List.filterMap_cons, List.filterMap_map, List.filterMap_map, ih, h0]
    cases f 0 with
    | none => rfl
    | some y => rfl

section
variable {env : Env} {k k' : Kernel}

theorem mem_processTasks {a : Nat} : a ∈ k.processTasks ↔ ∃ i p, k.processes i ≠ 0 ∧ k.procs (k.processes i) = some p ∧
    p.task = a := by
  unfold Kernel.processTasks Kernel.slotTask
  rw [List.mem_filterMap]
  constructor
  · rintro ⟨i, -, hi⟩
    split at hi
    · cases hi
    · rename_i hne
      obtain ⟨p, hp, rfl⟩ := Option.map_eq_some_iff.1 hi
      exact ⟨i, p, hne, hp, rfl⟩
  · rintro ⟨i, p, hne, hp, rfl⟩
    refine ⟨i, List.mem_finRange i, ?_⟩
    rw [if_neg hne, hp]
    rfl

theorem processTasks_congr (hprocs : k'.procs = k.procs) (hprocesses : k'.processes = k.processes) :
    k'.processTasks = k.processTasks := by
  have hslot : k'.slotTask = k.slotTask := by
    funext i
    unfold Kernel.slotTask
    rw [hprocs, hprocesses]
  unfold Kernel.processTasks
  rw [hslot]

theorem Kept.links {R : Sys → Sys → Prop} (h : Kept R k k') (a : Nat) : k'.links a = k.links a := by
  obtain ⟨regs, e⟩ := h.tasks
  unfold Kernel.links
  rw [e]
  cases k.tasks a with
  | none => rfl
  | some t => rfl

/-- What keeps the tasks up to their registers, and what is held. -/
theorem Agrees.kept {R : Sys → Sys → Prop} (h : Agrees k) (hk : Kept R k k') (hok : TablesOk k'.toSys)
    (hlive : k.live ⊆ k'.live) (hcurrent : k'.currentTask = k.currentTask ∨ k'.currentTask ∈ k.processTasks) :
    Agrees k' := by
  have htasks := processTasks_congr hk.procs hk.processes
  refine ⟨hok, ?_, fun i hi => ?_, fun i j hij hj => ?_⟩
  · rw [htasks]
    have hl := h.list
    refine ⟨hl.nodup, hl.nonnull, hl.links.congr fun a _ => hk.links a, hk.head.trans hl.head, hk.tail.trans hl.tail,
      ?_, fun a ha => ?_⟩
    · rcases hcurrent with hc | hc
      · rw [hc]
        exact hl.current
      · exact .inr hc
    · obtain ⟨t', ht'⟩ := Option.isSome_iff_exists.1 ha
      obtain ⟨t, ht, -⟩ := hk.of_some ht'
      exact hl.only a (by rw [ht]; rfl)
  · rw [hk.processes] at hi
    obtain ⟨p, t, hin, hproc, htask⟩ := h.slots i hi
    obtain ⟨regs, e⟩ := hk.tasks
    refine ⟨p, { t with registers := regs p.task }, ⟨?_, hin.id, ?_, ?_⟩, ?_, hlive htask⟩
    · rw [hk.procs, hk.processes]
      exact hin.proc
    · rw [e, hin.task]
      rfl
    · rw [hk.processes]
      exact hin.back
    · rw [hk.processes]
      exact hlive hproc
  · rw [hk.processes] at hj ⊢
    exact h.inOrder i j hij hj

/-! ## One step -/

theorem agrees_start {mem : Mem} (h : startPaging env (initial mem) = .ok (⟨⟩, k)) : Agrees k := by
  obtain ⟨hok, -, s, s', -, -, e⟩ := tablesOk_startPaging h
  have hfree : k.processes = fun _ => 0 := by rw [e]; rfl
  have hempty : k.processTasks = [] := by
    refine List.eq_nil_iff_forall_not_mem.2 fun a ha => ?_
    obtain ⟨i, p, hne, -⟩ := mem_processTasks.1 ha
    exact hne (by rw [hfree])
  refine ⟨hok, ?_, fun i hi => absurd (by rw [hfree]) hi, fun i j _ hj => absurd (by rw [hfree]) hj⟩
  rw [hempty]
  exact isList_empty (by rw [e]; rfl) (by rw [e]; rfl) (by rw [e]; rfl) (by rw [e]; rfl)

theorem of_processGetFreeSlot {processes : Fin maxProcesses → Nat} {slot : Fin maxProcesses}
    (h : processGetFreeSlot processes = some slot) : processes slot = 0 ∧ ∀ j < slot, processes j ≠ 0 := by
  obtain ⟨h0, hlt⟩ := Fin.find?_eq_some_iff.1 h
  exact ⟨of_decide_eq_true h0, fun j hj => of_decide_eq_false (hlt j hj)⟩

theorem Agrees.free_after (h : Agrees k) {slot j : Fin maxProcesses} (h0 : k.processes slot = 0) (hj : slot ≤ j) :
    k.processes j = 0 := by
  by_contra hne
  exact h.inOrder slot j hj hne h0

/-- A process put in the first slot that is free is the last of the table. -/
theorem Agrees.processTasks_snoc (h : Agrees k) {slot : Fin maxProcesses} {process : Nat} {p : Process}
    (h0 : k.processes slot = 0) (hne : process ≠ 0) (hold : ∀ i, k.processes i ≠ 0 → k.processes i ≠ process)
    (hprocs : k'.procs = Function.update k.procs process (some p))
    (hprocesses : k'.processes = Function.update k.processes slot process) :
    k'.processTasks = k.processTasks ++ [p.task] := by
  have hother : ∀ j, j ≠ slot → k'.slotTask j = k.slotTask j := by
    intro j hj
    unfold Kernel.slotTask
    rw [hprocesses, Function.update_of_ne hj, hprocs]
    by_cases hz : k.processes j = 0
    · rw [if_pos hz, if_pos hz]
    · rw [if_neg hz, if_neg hz, Function.update_of_ne (hold j hz)]
  refine filterMap_finRange_snoc (i := slot) ?_ (fun j hj => hother j (Fin.ne_of_lt hj)) (fun j hj => ?_) fun j hj => ?_
  · unfold Kernel.slotTask
    rw [hprocesses, Function.update_self, if_neg hne, hprocs, Function.update_self]
    rfl
  · unfold Kernel.slotTask
    rw [if_pos (h.free_after h0 hj)]
  · rw [hother j (Fin.ne_of_gt hj)]
    unfold Kernel.slotTask
    rw [if_pos (h.free_after h0 (Fin.le_of_lt hj))]

/-- A process put in the first slot that is free, with its task linked in at the tail. -/
theorem agrees_loaded {filename : List Byte} {slot : Fin maxProcesses} {process ptr stack task chunk : Nat}
    {sz : BitVec 32} {s1 s2 s3 s4 s5 : Sys} {k5 : Kernel} (hi : Agrees k)
    (hslot : processGetFreeSlot k.processes = some slot)
    (h : Loaded env filename slot k k' process ptr stack task chunk sz s1 s2 s3 s4 s5 k5) : Agrees k' := by
  obtain ⟨h0, hbefore⟩ := of_processGetFreeSlot hslot
  have howned : FramesSys kernelBlocks systemBlocks False k.live k.toSys k'.toSys ∧ _ := h.owned False.elim hi.ok
  obtain ⟨f, ⟨hprocLive, hprocNew⟩, htaskNew, -, howned⟩ := howned
  obtain ⟨hok, hlive, -⟩ := f hi.ok (List.Subset.refl _)
  have htaskLive := (howned ⟨chunk, initialRegisters, process, 0, 0⟩ rfl).taskLive
  have htasks : k'.tasks = k5.tasks := by rw [h.result]; rfl
  have hprocs : k'.procs = Function.update k.procs process (some (newProcess filename slot task ptr stack sz)) := by
    rw [h.result]
  have hprocesses : k'.processes = Function.update k.processes slot process := by rw [h.result]
  -- neither the process nor the task is one there was
  have hold : ∀ i, k.processes i ≠ 0 → k.processes i ≠ process := by
    intro i hne
    obtain ⟨p, t, -, hproc, -⟩ := hi.slots i hne
    exact hprocNew _ hproc
  have hnew : task ∉ k.processTasks := by
    intro hmem
    obtain ⟨i, p, hne, hp, he⟩ := mem_processTasks.1 hmem
    obtain ⟨p', t, hin, -, htask⟩ := hi.slots i hne
    rw [hin.proc] at hp
    cases hp
    exact htaskNew _ htask he
  have hlist : k'.processTasks = k.processTasks ++ [task] := hi.processTasks_snoc h0 h.processNe hold hprocs hprocesses
  have hlinked : IsList k' (k.processTasks ++ [task]) := by
    have hl : IsList (k.withSys s5) k.processTasks := hi.list.congr (fun _ => rfl) rfl rfl rfl
    refine (hl.link h.taskNe hnew rfl rfl h.link).congr (fun a => ?_) ?_ ?_ ?_
    · unfold Kernel.links
      rw [htasks]
    · rw [h.result]; rfl
    · rw [h.result]; rfl
    · rw [h.result]; rfl
  refine ⟨hok, by rw [hlist]; exact hlinked, fun i hne => ?_, fun i j hij hj => ?_⟩
  · by_cases he : i = slot
    · subst he
      obtain ⟨t, ht, -, hback⟩ := h.link.at
      rw [hprocesses, Function.update_self]
      refine ⟨newProcess filename i task ptr stack sz, t, ⟨?_, rfl, ?_, ?_⟩, hprocLive, htaskLive⟩
      · rw [hprocesses, Function.update_self, hprocs, Function.update_self]
      · rw [htasks]
        exact ht
      · rw [hprocesses, Function.update_self]
        exact hback
    · rw [hprocesses, Function.update_of_ne he] at hne ⊢
      obtain ⟨p, t, hin, hproc, htask⟩ := hi.slots i hne
      -- its task is linked in as before
      obtain ⟨t', ht'⟩ := hlinked.task (List.mem_append_left _ (mem_processTasks.2 ⟨i, p, hne, hin.proc, rfl⟩))
      have hlink := ht'
      rw [htasks] at hlink
      obtain ⟨u, hu, -, hback⟩ := h.link.of_ne (htaskNew _ htask) hlink
      have hu : k.tasks p.task = some u := hu
      rw [hin.task] at hu
      cases hu
      refine ⟨p, t', ⟨?_, hin.id, ht', ?_⟩, hlive hproc, hlive htask⟩
      · rw [hprocesses, Function.update_of_ne he, hprocs, Function.update_of_ne (hold i hne)]
        exact hin.proc
      · rw [hprocesses, Function.update_of_ne he]
        exact hback.trans hin.back
  · rw [hprocesses] at hj ⊢
    by_cases he : i = slot
    · rw [he, Function.update_self]
      exact h.processNe
    · rw [Function.update_of_ne he]
      by_cases hjs : j = slot
      · exact hbefore i (Nat.lt_of_le_of_ne (hjs ▸ hij) fun hv => he (Fin.ext hv))
      · rw [Function.update_of_ne hjs] at hj
        exact hi.inOrder i j hij hj

theorem Under.agrees {keep : Prop} (hi : Agrees k) (h : Under kernelBlocks systemBlocks keep k.live k k') :
    Agrees k' := by
  obtain ⟨hok, hlive, -⟩ := h.1 hi.ok (List.Subset.refl _)
  refine hi.kept h.kept hok hlive (.inl ?_)
  rw [h.2]
  rfl

theorem agrees_load (hi : Agrees k) {filename : List Byte} {r : Int × Option Nat}
    (h : processLoad env filename k = .ok (r, k')) :
    Agrees k' := by
  rcases of_processLoad_ok kernelBlocks systemBlocks False k.live False.elim h with
    ⟨-, hu⟩ | ⟨slot, process, ptr, stack, task, chunk, sz, s1, s2, s3, s4, s5, k5, -, hslot, hl⟩
  · exact hu.agrees hi
  · exact agrees_loaded hi hslot hl

theorem Agrees.same (hi : Agrees k) (h : Kept Eq k k')
    (hcurrent : k'.currentTask = k.currentTask ∨ k'.currentTask ∈ k.processTasks) :
    Agrees k' := by
  refine hi.kept h ?_ ?_ hcurrent
  · rw [← h.sys]
    exact hi.ok
  · rw [← h.sys]
    exact List.Subset.refl _

/-- A tick saves the registers of the task that ran, and moves on to a task of the list. -/
theorem Agrees.tick (hi : Agrees k) {frame : InterruptFrame} {r : Registers}
    (h : isr0x20Handler frame k = .ok (r, k')) :
    ∃ t u, k.tasks k.currentTask = some t ∧ k'.currentTask ∈ k.processTasks ∧
      k'.tasks = Function.update k.tasks k.currentTask (some (taskSaveState t frame)) ∧
      k'.tasks k'.currentTask = some u ∧ r = u.registers := by
  obtain ⟨t, ht, hne, h⟩ := of_isr0x20Handler_ok h
  have hsaved : Kept Eq k (k.entered t frame) := kept_save ht frame _
  have hl : IsList (k.entered t frame) k.processTasks := hi.list.congr (fun a => hsaved.links a) rfl rfl rfl
  rcases hl.current with ⟨-, h0⟩ | hmem
  · exact absurd h0 hne
  · obtain ⟨i, hlt, hc⟩ := List.mem_iff_getElem.1 hmem
    have hpos : 0 < k.processTasks.length := by omega
    obtain ⟨u, hu, e⟩ := hl.scheduleNextTask hlt hc.symm hpos
    rw [e] at h
    cases h
    have hmem' : around k.processTasks hpos (i + 1) ∈ k.processTasks := around_mem _
    exact ⟨t, u, ht, hmem', rfl, hu, rfl⟩

theorem agrees_tick (hi : Agrees k) {frame : InterruptFrame} {r : Registers}
    (h : isr0x20Handler frame k = .ok (r, k')) :
    Agrees k' := by
  obtain ⟨t, u, -, hmem, -⟩ := hi.tick h
  exact hi.same (keeps_isr0x20Handler frame _ _ _ h) (.inr hmem)

theorem agrees_call (hi : Agrees k) {command : Int} {frame : InterruptFrame} {r : Nat}
    (h : isr80hHandler env command frame k = .ok (r, k')) : Agrees k' := by
  have hkept := keeps_isr80hHandler env command frame _ _ _ h
  obtain ⟨t, k2, t', ht, -, hcommand, -, rfl⟩ := of_isr80hHandler_ok h
  have hok : TablesOk (k.entered t frame).toSys := hi.ok
  rcases of_isr80hHandleCommand_ok hcommand with rfl | ⟨-, u, res, -, hcopy⟩
  · exact hi.kept hkept hok (List.Subset.refl _) (.inl rfl)
  · have f : FramesSys kernelBlocks systemBlocks False k.live (k.entered t frame).toSys k2.toSys :=
      held_copyStringFromTask hok (by decide) hcopy
    obtain ⟨hok2, hlive2, -⟩ := f hok (List.Subset.refl _)
    refine hi.kept hkept hok2 hlive2 (.inl ?_)
    obtain ⟨tmp, s1, -, ⟨-, -, rfl⟩ | ⟨-, m2, m3, -, -, -, rfl⟩⟩ := of_copyStringFromTask_ok hok (by decide) hcopy
    · rfl
    · rfl

theorem agrees_run (hi : Agrees k) {r : Registers} (h : taskRunFirstEverTask k = .ok (r, k')) : Agrees k' := by
  have hkept : Kept Eq k k' := keeps_taskRunFirstEverTask _ _ _ h
  obtain ⟨t, ht, rfl⟩ := of_taskRunFirstEverTask_ok h
  exact hi.same hkept (.inr (hi.list.only _ (by rw [ht]; rfl)))

theorem agrees_store (hi : Agrees k) {virt : BitVec 32} {c : Byte} (h : userStore virt c k = .ok (⟨⟩, k')) :
    Agrees k' := by
  unfold userStore at h
  rw [Exec.bind_of_ok (Exec.get_apply k)] at h
  obtain ⟨mem, k1, h1, h⟩ := Exec.of_bind_ok h
  obtain ⟨-, rfl⟩ := Exec.of_lift_ok h1
  obtain ⟨s, hs, rfl⟩ := of_onSys_ok h
  rw [setMem_apply] at hs
  cases hs
  have hok : TablesOk k.toSys := hi.ok
  have hkept : Kept Any k (k.withSys { k.toSys with mem := mem }) := kept_of_eq trivial rfl rfl rfl rfl rfl rfl
  exact hi.kept hkept (hok.withMem mem) (List.Subset.refl _) (.inl rfl)

theorem step_agrees (hi : Agrees k) (h : Step env k k') : Agrees k' := by
  cases h with
  | load filename r h => exact agrees_load hi h
  | run r h => exact agrees_run hi h
  | tick frame r _ h => exact agrees_tick hi h
  | call command frame r _ h => exact agrees_call hi h
  | store virt c _ h => exact agrees_store hi h

theorem reachable_agrees (h : Reachable env k) : Agrees k := by
  induction h with
  | start h => exact agrees_start h
  | step _ hs ih => exact step_agrees ih hs

/-! ## Agreement -/

/-- In every state reached the list from `task_head` on is the list of the tasks of the processes, slot by
slot; and a load that gives -1 leaves processes and tasks as they are. -/
theorem process_table_agrees (h : Reachable env k) :
    Follows k.next 0 k.taskHead k.processTasks ∧ (∀ a, (k.tasks a).isSome → a ∈ k.processTasks) ∧
    (∀ i, k.processes i ≠ 0 → ∃ p t, InSlot k i p t) ∧
    ∀ filename p k', processLoad env filename k = .ok ((-1, p), k') → k'.processes = k.processes ∧ k'.procs = k.procs ∧
      k'.tasks = k.tasks ∧ k'.taskHead = k.taskHead ∧ k'.taskTail = k.taskTail ∧ k'.currentTask = k.currentTask := by
  have hi := reachable_agrees h
  refine ⟨hi.list.wellFormed.forward, hi.list.only, fun i hne => ?_, fun filename p k' hload => ?_⟩
  · obtain ⟨p, t, hin, -⟩ := hi.slots i hne
    exact ⟨p, t, hin⟩
  · rcases of_processLoad_ok kernelBlocks systemBlocks False [] False.elim hload with
      ⟨-, hu⟩ | ⟨slot, process, ptr, stack, task, chunk, sz, s1, s2, s3, s4, s5, k5, he, -⟩
    · rw [hu.2]
      exact ⟨rfl, rfl, rfl, rfl, rfl, rfl⟩
    · have hneg : (-1 : Int) = slot.val := congrArg Prod.fst he
      omega

end

/-- The first process: its slot and its task agree. -/
theorem program_in_table : ∃ k, Reachable programDisk k ∧ Follows k.next 0 k.taskHead k.processTasks ∧
    k.processes 0 ≠ 0 ∧ ∃ p t, InSlot k 0 p t := by
  obtain ⟨k, process, k', -, -, -, hstart, -, hload, -⟩ := program_loads
  have hreach : Reachable programDisk k' := .step (.start hstart) (.load _ _ hload)
  have hne : k'.processes 0 ≠ 0 := by
    rcases of_processLoad_ok kernelBlocks systemBlocks False [] False.elim hload with
      ⟨he, -⟩ | ⟨slot, process, ptr, stack, task, chunk, sz, s1, s2, s3, s4, s5, k5, he, -, h⟩
    · cases he
    · obtain rfl : slot = 0 := by
        have he := congrArg Prod.fst he
        exact Fin.ext (by simpa using he.symm)
      have hslot : k'.processes 0 = process := by
        rw [h.result]
        exact Function.update_self 0 process k.processes
      rw [hslot]
      exact h.processNe
  obtain ⟨hlist, -, hslots, -⟩ := process_table_agrees hreach
  exact ⟨k', hreach, hlist, hne, hslots 0 hne⟩

end SimpleMicrokernel.Tasking
