/-
Runs on the list of tasks: tasks made, in memory or without enough of it, steps of the scheduler, and
tasks freed. Every task is an allocation of its own with an address space of its own, so a new task is
at a place no task is at, and giving one back leaves the others alone.
-/
import SimpleMicrokernel.Fat16.Lookup
import SimpleMicrokernel.Task.List

namespace SimpleMicrokernel.Tasking

open Memory Fs Fat16 Paging Linked

/-! ## Runs -/

/-- The states reached from the empty list, with the tasks in the order they were made in. A task in the
list may be freed where `frees` says so. -/
inductive ListRun (env : Env) (reserved size : Nat) (frees : Kernel → Nat → Prop) : Kernel → List Nat → Prop where
  | start {k : Kernel} (mem : Mem) (ops : List Op) :
      AllocState.Allowed (AllocState.init size reserved mem) ops →
      k.toAllocState = (AllocState.init size reserved mem).after ops → (k.tasks = fun _ => none) →
      k.taskHead = 0 → k.taskTail = 0 → k.currentTask = 0 → ListRun env reserved size frees k []
  | new {k k' : Kernel} {l : List Nat} {process task : Nat} : ListRun env reserved size frees k l →
      taskNew env process k = .ok (task, k') → ListRun env reserved size frees k' (if task = 0 then l else l ++ [task])
  | schedule {k k' : Kernel} {l : List Nat} {r : Registers} : ListRun env reserved size frees k l →
      scheduleNextTask k = .ok (r, k') → ListRun env reserved size frees k' l
  | free {k k' : Kernel} {l : List Nat} {task : Nat} : ListRun env reserved size frees k l → task ∈ l → frees k task →
      taskFree task k = .ok ((), k') → ListRun env reserved size frees k' (l.erase task)

/-! ## What a run keeps -/

/-- The list, and an allocation for each task in it. -/
structure Listed (reserved size : Nat) (k : Kernel) (l : List Nat) : Prop where
  list : IsList k l
  ok : k.toSys.Ok reserved size
  live : ∀ a ∈ l, ⟨a, sizeofTask, .kheap⟩ ∈ k.live

section
variable {env : Env} {reserved size : Nat} {k k' : Kernel} {l : List Nat}

/-- Making a task, or failing to, frames what was held; a task made is linked in at the tail. -/
theorem Listed.made (h : Listed reserved size k l) {keep : Prop} (hkeep : keep → FillsNull env) {process task : Nat}
    (hnew : taskNew env process k = .ok (task, k')) :
    Listed reserved size k' (if task = 0 then l else l ++ [task]) ∧
      FramesSys reserved size keep k.live k.toSys k'.toSys ∧
      ((task = 0 ∧ k' = k.withSys k'.toSys) ∨ (task ≠ 0 ∧ task ∉ l ∧ ∃ s1 chunk, k.live ⊆ s1.live ∧
        pagingNew4gb taskFlags s1 = .ok (chunk, k'.toSys) ∧ chunk ≠ 0 ∧ s1.Ok reserved size ∧
        FramesSys reserved size keep k.live k.toSys s1 ∧
        (k.withSys k'.toSys).linkTask task ⟨chunk, initialRegisters, process, 0, 0⟩ k')) := by
  have hfill : Framed reserved size keep k.live (kzalloc env sizeofTask) := framed_kzalloc_null hkeep (by decide)
  rcases of_taskNew_ok hfill hnew with ⟨rfl, f, hk⟩ | ⟨hne, s1, s2, chunk, h1, h2, hc, hlink⟩
  · obtain ⟨hok, hlive, -⟩ := f h.ok (List.Subset.refl _)
    rw [if_pos rfl]
    refine ⟨⟨?_, hok, fun a ha => hlive (h.live a ha)⟩, f, .inl ⟨rfl, hk⟩⟩
    rw [hk]
    exact h.list.congr (fun _ => rfl) rfl rfl rfl
  · have f1 := hfill _ _ _ h1
    obtain ⟨hok1, hlive1, -⟩ := f1 h.ok (List.Subset.refl _)
    have z1 : FramesSys reserved size False [] k.toSys s1 ∧ _ := kzalloc_spec (fun hf => hf.elim) h1
    have hs1 := z1.2 h.ok hne
    have hfresh := hok1.fresh hs1
    have hout : task ∉ l := fun hm => (hfresh _ (h.live _ hm)).addr_ne rfl
    have n2 : FramesSys reserved size keep s1.live s1 s2 ∧ _ := pagingNew4gb_spec h2 hok1 (List.Subset.refl _)
    obtain ⟨hok2, hlive2, -⟩ := n2.1 hok1 (List.Subset.refl _)
    have hsys : k'.toSys = s2 := hlink.rest.1
    have f12 : FramesSys reserved size keep k.live k.toSys s2 :=
      f1.trans' (AllocState.Frames.mono n2.1 hlive1 fun _ => List.Subset.refl _)
    rw [if_neg hne]
    subst hsys
    refine ⟨⟨?_, hok2, fun a ha => ?_⟩, f12, .inr ⟨hne, hout, s1, chunk, hlive1, h2, hc, hok1, f1, hlink⟩⟩
    · have hlist : IsList (k.withSys k'.toSys) l := h.list.congr (fun _ => rfl) rfl rfl rfl
      exact hlist.link hne hout rfl rfl hlink
    · refine hlive2 ?_
      rcases List.mem_append.1 ha with ha | ha
      · exact hlive1 (h.live a ha)
      · rw [List.mem_singleton.1 ha, hs1]
        exact List.mem_cons_self ..

theorem Listed.schedule (h : Listed reserved size k l) {r : Registers} (hs : scheduleNextTask k = .ok (r, k')) :
    Listed reserved size k' l ∧ k'.toSys = k.toSys ∧ k'.tasks = k.tasks := by
  rcases h.list.current with ⟨rfl, h0⟩ | hc
  · -- with no task there is no step
    unfold scheduleNextTask taskGetNext at hs
    rw [bind_assoc, Exec.bind_of_ok (Exec.get_apply k), h0, bind_assoc] at hs
    have hnone : taskAt 0 k = .error .nullDeref := by
      unfold taskAt
      rw [Exec.bind_of_ok (Exec.get_apply k), h.list.task_null]
      rfl
    rw [Exec.bind_of_error hnone] at hs
    cases hs
  · obtain ⟨i, hi, hc⟩ := List.mem_iff_getElem.1 hc
    obtain ⟨t, -, e⟩ := h.list.scheduleNextTask hi hc.symm (by omega)
    rw [e] at hs
    cases hs
    exact ⟨⟨h.list.scheduled (around_mem _), h.ok, h.live⟩, rfl, rfl⟩

theorem listed_start (hsize : size ≤ 2 ^ 20) {mem : Mem} {ops : List Op}
    (hops : AllocState.Allowed (AllocState.init size reserved mem) ops)
    (halloc : k.toAllocState = (AllocState.init size reserved mem).after ops) (htasks : k.tasks = fun _ => none)
    (hhead : k.taskHead = 0) (htail : k.taskTail = 0) (hcurrent : k.currentTask = 0) :
    Listed (max 1 reserved) size k [] := by
  refine ⟨isList_empty hhead htail hcurrent htasks, ?_, fun a ha => by cases ha⟩
  rw [Sys.Ok, halloc]
  exact AllocState.after_ok hsize hops

/-! ## Round robin -/

/-- No task is freed. -/
def NoFree (_ : Kernel) (_ : Nat) : Prop := False

theorem ListRun.listed (hsize : size ≤ 2 ^ 20) (h : ListRun env reserved size NoFree k l) :
    Listed (max 1 reserved) size k l := by
  induction h with
  | start mem ops hops halloc htasks hhead htail hcurrent =>
    exact listed_start hsize hops halloc htasks hhead htail hcurrent
  | new _ hnew ih => exact (ih.made (fun hf : False => hf.elim) hnew).1
  | schedule _ hs ih => exact (ih.schedule hs).1
  | free _ _ hf _ _ => exact hf.elim

/-- Round robin is fair: with tasks in the list, as many steps of the scheduler as there are tasks switch
to each of them once, in the order they were made in, going round from the current task, which the
last step switches back to. -/
theorem round_robin (hsize : size ≤ 2 ^ 20) (h : ListRun env reserved size NoFree k l) (hne : l ≠ []) :
    Follows k.next 0 k.taskHead l ∧ l.Nodup ∧ ∃ i, ∃ hi : i < l.length, k.currentTask = l[i] ∧
      ∃ k', scheduleSteps l.length k = .ok (l.rotate (i + 1), k') ∧ k'.currentTask = k.currentTask := by
  have hl := (h.listed hsize).list
  refine ⟨hl.wellFormed.forward, hl.nodup, ?_⟩
  rcases hl.current with ⟨he, -⟩ | hc
  · exact absurd he hne
  · obtain ⟨i, hi, hc⟩ := List.mem_iff_getElem.1 hc
    exact ⟨i, hi, hc.symm, hl.scheduleSteps_length hi hc.symm⟩

/-! ## Freeing -/

/-- Every task has a directory of its own. -/
def Spaced (k : Kernel) : Prop := ∃ maps, Denotes k.mem k.live maps ∧
  (∀ a t, k.tasks a = some t → ∃ m, maps t.pageDirectory = some m) ∧
  ∀ a b t t', k.tasks a = some t → k.tasks b = some t' → a ≠ b → t.pageDirectory ≠ t'.pageDirectory

theorem Spaced.made (hs : Spaced k) (h : Listed reserved size k l) (hfill : FillsNull env) {process task : Nat}
    (hnew : taskNew env process k = .ok (task, k')) : Spaced k' := by
  obtain ⟨maps, hd, hdir, hne⟩ := hs
  obtain ⟨-, f, hcases⟩ := h.made (fun _ : True => hfill) hnew
  rcases hcases with ⟨-, hk⟩ | ⟨-, hout, s1, chunk, hlive1, h2, hc, hok1, f1, hlink⟩
  · obtain ⟨-, hlive, hmem⟩ := f h.ok (List.Subset.refl _)
    have htasks : k'.tasks = k.tasks := by rw [hk]; rfl
    refine ⟨maps, hd.congr hlive (hmem trivial), ?_, ?_⟩
    · rw [htasks]
      exact hdir
    · rw [htasks]
      exact hne
  · obtain ⟨-, -, hmem1⟩ := f1 h.ok (List.Subset.refl _)
    obtain ⟨-, -, hmade⟩ := (hd.congr hlive1 (hmem1 trivial)).new hok1 h2
    obtain ⟨hnone, hd'⟩ := hmade hc
    -- a task is the new one or one there was
    have hcase : ∀ {a t}, k'.tasks a = some t → (a = task ∧ t.pageDirectory = chunk) ∨
        (a ≠ task ∧ ∃ u, k.tasks a = some u ∧ t.pageDirectory = u.pageDirectory) := by
      intro a t ht
      by_cases ha : a = task
      · obtain ⟨t', ht', hsame, -⟩ := hlink.at
        rw [← ha, ht] at ht'
        cases ht'
        exact .inl ⟨ha, hsame⟩
      · obtain ⟨u, hu, hsame, -⟩ := hlink.of_ne ha ht
        exact .inr ⟨ha, u, hu, hsame⟩
    have hold : ∀ {a u}, k.tasks a = some u → u.pageDirectory ≠ chunk := by
      intro a u hu he
      obtain ⟨m, hm⟩ := hdir a u hu
      rw [he, hnone] at hm
      cases hm
    refine ⟨_, hd', fun a t ht => ?_, fun a b t t' ht ht' hab => ?_⟩
    · rcases hcase ht with ⟨-, he⟩ | ⟨-, u, hu, he⟩
      · exact ⟨_, by rw [he, Function.update_self]⟩
      · obtain ⟨m, hm⟩ := hdir a u hu
        exact ⟨m, by rw [he, Function.update_of_ne (hold hu), hm]⟩
    · rcases hcase ht with ⟨ha, he⟩ | ⟨-, u, hu, he⟩
      · rcases hcase ht' with ⟨hb, -⟩ | ⟨-, u', hu', he'⟩
        · exact absurd (ha.trans hb.symm) hab
        · rw [he, he']
          exact (hold hu').symm
      · rcases hcase ht' with ⟨-, he'⟩ | ⟨-, u', hu', he'⟩
        · rw [he, he']
          exact hold hu
        · rw [he, he']
          exact hne a b u u' hu hu' hab

/-- Freeing a task always succeeds and takes its allocation and its address space, and nothing else. -/
theorem Listed.free (h : Listed reserved size k l) (hs : Spaced k) {task : Nat} (hmem : task ∈ l) :
    ∃ t s', k.tasks task = some t ∧ taskFree task k = .ok ((), (k.freed task t).withSys s') ∧ s'.Ok reserved size ∧
      (∀ a ∈ l, a ≠ task → ⟨a, sizeofTask, .kheap⟩ ∈ s'.live) ∧ Spaced ((k.freed task t).withSys s') := by
  obtain ⟨t, ht⟩ := h.list.task hmem
  obtain ⟨maps, hd, hdir, hne⟩ := hs
  obtain ⟨m, hm⟩ := hdir task t ht
  have hspace := hd.space _ m hm
  have htask := h.live task hmem
  -- a task is at no block of an address space
  have howner : ∀ b, Live.block b ∈ k.live → b ≠ task := by
    intro b hb he
    have := congrArg Live.owner (h.ok.eq_of_addr hb htask he)
    cases this
  have hheld : ∀ b ∈ spaceBlocks k.mem t.pageDirectory, b ≠ task := fun b hb => howner b (hspace.live b hb)
  generalize hA : (k.live.filter fun a => a.addr ∉ spaceBlocks k.mem t.pageDirectory) = heldA
  generalize hB : (heldA.filter fun a => a.addr ≠ task) = rest
  have memA : ∀ a, a ∈ heldA ↔ a ∈ k.live ∧ a.addr ∉ spaceBlocks k.mem t.pageDirectory := by
    intro a
    rw [← hA, List.mem_filter, decide_eq_true_eq]
  have memB : ∀ a, a ∈ rest ↔ a ∈ heldA ∧ a.addr ≠ task := by
    intro a
    rw [← hB, List.mem_filter, decide_eq_true_eq]
  -- the address space
  have hpaging : ∃ s1, pagingFree4gb t.pageDirectory k.toSys = .ok ((), s1) ∧ s1.mem = k.mem ∧
      FramesSys reserved size False heldA k.toSys s1 :=
    pagingFree4gb_spec hspace h.ok (fun a ha => ((memA a).1 ha).1) fun a ha b hb he => ((memA a).1 ha).2 (he ▸ hb)
  obtain ⟨s1, h1, hmem1, f1⟩ := hpaging
  obtain ⟨hok1, hlive1, -⟩ := f1 h.ok fun a ha => ((memA a).1 ha).1
  have htask1 : (⟨task, sizeofTask, .kheap⟩ : Live) ∈ s1.live := hlive1 ((memA _).2 ⟨htask, fun hb => hheld _ hb rfl⟩)
  -- the task
  have hlist : IsList (k.withSys s1) l := h.list.congr (fun _ => rfl) rfl rfl rfl
  have hremove := hlist.taskListRemove hmem ht
  obtain ⟨s2, h2⟩ : ∃ s2, Fs.kfree task s1 = .ok ((), s2) := ⟨_, rfl⟩
  have hmem2 : s2.mem = s1.mem := by
    unfold Fs.kfree at h2
    rw [Exec.modify_apply] at h2
    cases h2
    rfl
  have f2 : FramesSys reserved size False rest s1 s2 :=
    kfree_spec (.inr ⟨_, htask1, rfl⟩) (fun b hb => ((memB b).1 hb).2) h2
  obtain ⟨hok2, hlive2, -⟩ := f2 hok1 fun a ha => hlive1 ((memB a).1 ha).1
  have hrest : ∀ a ∈ k.live, a.addr ∉ spaceBlocks k.mem t.pageDirectory → a.addr ≠ task → a ∈ s2.live :=
    fun a ha hs ht => hlive2 ((memB a).2 ⟨(memA a).2 ⟨ha, hs⟩, ht⟩)
  refine ⟨t, s2, ht, ?_, hok2, fun a ha hat => ?_, ?_⟩
  · unfold taskFree
    rw [Exec.bind_of_ok (taskAt_of ht), Exec.bind_of_ok (onSys_of_ok h1), Exec.bind_of_ok hremove]
    have h2' : onSys (Fs.kfree task) ((k.withSys s1).removed task t) =
      .ok ((), ((k.withSys s1).removed task t).withSys s2) :=
      onSys_of_ok h2
    rw [Exec.bind_of_ok h2']
    rfl
  · have ha' := h.live a ha
    refine hrest _ ha' (fun hb => ?_) hat
    have := congrArg Live.owner (h.ok.eq_of_addr (hspace.live _ hb) ha' rfl)
    cases this
  · have hd2 : Denotes k.mem s2.live (Function.update maps t.pageDirectory none) :=
      hd.freed hm fun b hb hout => hrest _ hb hout (howner b hb)
    refine ⟨Function.update maps t.pageDirectory none, ?_, fun a u' hu => ?_, fun a b u' v' hu hv hab => ?_⟩
    · show Denotes s2.mem s2.live _
      rw [hmem2, hmem1]
      exact hd2
    · obtain ⟨hat, u, hu, he⟩ := Kernel.of_freed (k := k) hu
      obtain ⟨m', hm'⟩ := hdir a u hu
      refine ⟨m', ?_⟩
      rw [he, Function.update_of_ne (hne a task u t hu ht hat), hm']
    · obtain ⟨-, u, hu, he⟩ := Kernel.of_freed (k := k) hu
      obtain ⟨-, v, hv, he'⟩ := Kernel.of_freed (k := k) hv
      rw [he, he']
      exact hne a b u v hu hv hab

/-! ## The list stays well formed -/

/-- Only the last task is freed. -/
def FreesTail (k : Kernel) (task : Nat) : Prop := task = k.taskTail

theorem Listed.free_tail (h : Listed reserved size k l) (hs : Spaced k) {task : Nat} (hmem : task ∈ l)
    (htail : task = k.taskTail) (hf : taskFree task k = .ok ((), k')) : Listed reserved size k' (l.erase task) ∧
    Spaced k' := by
  obtain ⟨t, s', ht, e, hok, hlive, hspaced⟩ := h.free hs hmem
  rw [hf] at e
  cases e
  obtain ⟨m, a, rfl⟩ : ∃ m a, l = m ++ [a] := by
    rcases List.eq_nil_or_concat l with rfl | ⟨m, a, e⟩
    · cases hmem
    · exact ⟨m, a, e.trans (List.concat_eq_append ..)⟩
  have hat : a = task := by
    rw [htail, h.list.tail, List.getLastD_concat]
  subst hat
  have hout : a ∉ m := fun hm => (List.nodup_append.1 h.list.nodup).2.2 a hm a (List.mem_singleton_self _) rfl
  have herase : (m ++ [a]).erase a = m := by
    rw [List.erase_append_right _ hout, List.erase_cons_head, List.append_nil]
  rw [herase]
  refine ⟨⟨?_, hok, fun b hb => hlive b (List.mem_append_left _ hb) fun he => hout (he ▸ hb)⟩, hspaced⟩
  exact (h.list.freed_tail ht).congr (fun _ => rfl) rfl rfl rfl

theorem ListRun.spaced (hsize : size ≤ 2 ^ 20) (hfill : FillsNull env) (h : ListRun env reserved size FreesTail k l) :
    Listed (max 1 reserved) size k l ∧ Spaced k := by
  induction h with
  | start mem ops hops halloc htasks hhead htail hcurrent =>
    refine ⟨listed_start hsize hops halloc htasks hhead htail hcurrent, fun _ => none, denotes_none _ _,
      fun a t ht => ?_, fun a b t t' ht => ?_⟩
    · rw [htasks] at ht
      cases ht
    · rw [htasks] at ht
      cases ht
  | new _ hnew ih => exact ⟨(ih.1.made (fun _ : True => hfill) hnew).1, ih.2.made ih.1 hfill hnew⟩
  | schedule _ hs ih =>
    obtain ⟨hl, hsys, htasks⟩ := ih.1.schedule hs
    obtain ⟨maps, hd, hrest⟩ := ih.2
    refine ⟨hl, maps, ?_, ?_⟩
    · rw [hsys]
      exact hd
    · rw [htasks]
      exact hrest
  | free _ hmem htail hf ih => exact ih.1.free_tail ih.2 hmem htail hf

/-- The list of tasks stays well formed in every run that frees the last task only. From any state of such
a run a task can be freed, and the list is well formed after that exactly when it was the last. -/
theorem task_list_wellFormed (hsize : size ≤ 2 ^ 20) (hfill : FillsNull env)
    (h : ListRun env reserved size FreesTail k l) :
    WellFormed k l ∧ ∀ task ∈ l, ∃ k', taskFree task k = .ok ((), k') ∧
      (WellFormed k' (l.erase task) ↔ task = k.taskTail) := by
  obtain ⟨hl, hs⟩ := h.spaced hsize hfill
  refine ⟨hl.list.wellFormed, fun task hmem => ?_⟩
  obtain ⟨t, s', ht, e, -⟩ := hl.free hs hmem
  refine ⟨_, e, fun hw => ?_, fun htail => (hl.free_tail hs hmem htail e).1.list.wellFormed⟩
  by_contra hne
  exact hl.list.freed_not_tail hmem hne ht ⟨hw.forward, hw.last, hw.backward, hw.first, hw.current, hw.pointers⟩

/-! ## Runs with memory for their tasks -/

/-- A task takes a block and an address space. -/
theorem taskNew_room (env : Env) (process : Nat) {n : Nat} (hr : k.toSys.Room (n + 1027))
    (htail : k.taskHead ≠ 0 → ∃ tail, k.tasks k.taskTail = some tail) :
    ∃ task k', taskNew env process k = .ok (task, k') ∧ task ≠ 0 ∧ (∃ t, k'.tasks task = some t) ∧ k'.toSys.Room n := by
  have hone : blockCount sizeofTask = 1 := by decide
  obtain ⟨task, s1, h1, hne, hr1⟩ := kzalloc_room env (m := sizeofTask) hr (by omega)
  rw [hone] at hr1
  obtain ⟨chunk, s2, h2, hc, hr2⟩ := pagingNew4gb_room taskFlags (n := n) hr1
  have hinit : taskInit process s1 = .ok (some ⟨chunk, initialRegisters, process, 0, 0⟩, s2) := by
    unfold taskInit
    rw [Exec.bind_of_ok h2, if_neg hc]
    rfl
  unfold taskNew
  rw [Exec.bind_of_ok (onSys_of_ok h1), if_neg hne, Exec.bind_of_ok (onSys_of_ok hinit)]
  simp only
  rw [Exec.bind_of_ok (Exec.get_apply _)]
  by_cases hhead : ((k.withSys s1).withSys s2).taskHead = 0
  · rw [if_pos hhead]
    exact ⟨task, _, rfl, hne, ⟨_, Function.update_self ..⟩, hr2⟩
  · obtain ⟨tail, ht⟩ := htail hhead
    have ht' : ((k.withSys s1).withSys s2).tasks ((k.withSys s1).withSys s2).taskTail = some tail := ht
    rw [if_neg hhead, ht']
    exact ⟨task, _, rfl, hne, ⟨_, Function.update_self ..⟩, hr2⟩

theorem IsList.tail_task (h : IsList k l) (hhead : k.taskHead ≠ 0) : ∃ tail, k.tasks k.taskTail = some tail := by
  refine h.task ?_
  rw [h.tail]
  cases l with
  | nil => exact absurd h.head hhead
  | cons a l =>
    rw [List.getLastD_cons]
    exact List.getLastD_mem_cons ..

/-- A kernel with memory and nothing else. -/
def bareKernel : Kernel where
  toSys := bare 4096 1
  tasks := fun _ => none
  procs := fun _ => none
  currentTask := 0
  taskHead := 0
  taskTail := 0
  processes := fun _ => 0
  kernelChunk := 0
  currentDirectory := 0

theorem fillsNull_emptyDisk : FillsNull emptyDisk := by
  intro n mem mem' h x _
  cases h
  rfl

theorem two_tasks : ∃ k a b, ∀ frees, ListRun emptyDisk 1 4096 frees k [a, b] := by
  have hsize : 4096 ≤ 2 ^ 20 := by decide
  have hrun : ∀ frees, ListRun emptyDisk 1 4096 frees bareKernel [] :=
    fun _ => .start (fun _ => 0) [] trivial rfl rfl rfl rfl rfl
  have hlisted : Listed 1 4096 bareKernel [] :=
    @listed_start 1 4096 bareKernel hsize (fun _ => 0) [] trivial rfl rfl rfl rfl rfl
  have hroom : bareKernel.toSys.Room 4094 := room_bare (by decide) (by decide) hsize
  obtain ⟨a, k1, h1, ha, -, hr1⟩ := taskNew_room emptyDisk 0 (n := 2000) (hroom.mono (by decide)) hlisted.list.tail_task
  obtain ⟨hlisted1, -⟩ := hlisted.made (fun hf : False => hf.elim) h1
  rw [if_neg ha] at hlisted1
  obtain ⟨b, k2, h2, hb, -, -⟩ := taskNew_room emptyDisk 0 (n := 0) (hr1.mono (by decide)) hlisted1.list.tail_task
  refine ⟨k2, a, b, fun frees => ?_⟩
  have hrun2 := ((hrun frees).new h1).new h2
  rw [if_neg ha, if_neg hb] at hrun2
  exact hrun2

/-- Two tasks, one of them current, and two steps. -/
theorem round_robin_two : ∃ k a b, a ≠ b ∧ ∃ i, ∃ hi : i < [a, b].length, k.currentTask = [a, b][i] ∧
    ∃ k', scheduleSteps 2 k = .ok ([a, b].rotate (i + 1), k') ∧ k'.currentTask = k.currentTask := by
  obtain ⟨k, a, b, hrun⟩ := two_tasks
  obtain ⟨-, hnodup, hrest⟩ := round_robin (by decide) (hrun NoFree) (by simp)
  exact ⟨k, a, b, by simpa using hnodup, hrest⟩

/-- Two tasks, and the second freed. -/
theorem task_list_wellFormed_two : ∃ k a b, WellFormed k [a, b] ∧ ∃ k', taskFree b k = .ok ((), k') ∧
    WellFormed k' [a] := by
  obtain ⟨k, a, b, hrun⟩ := two_tasks
  obtain ⟨hw, hfree⟩ := task_list_wellFormed (by decide) fillsNull_emptyDisk (hrun FreesTail)
  obtain ⟨k', e, hiff⟩ := hfree b (by simp)
  have hne : a ≠ b := by simpa using ((hrun FreesTail).spaced (by decide) fillsNull_emptyDisk).1.list.nodup
  have hlast := hiff.2 hw.last.symm
  rw [List.erase_cons_tail (by simpa using hne), List.erase_cons_head] at hlast
  exact ⟨k, a, b, hw, k', e, hlast⟩

/-- Two tasks, and the first freed: the second points back to it. -/
theorem task_list_stale_prev : ∃ k l, ListRun emptyDisk 1 4096 (fun _ _ => True) k l ∧ ¬ WellFormed k l := by
  obtain ⟨k, a, b, hrun⟩ := two_tasks
  obtain ⟨hl, hs⟩ := (hrun FreesTail).spaced (by decide) fillsNull_emptyDisk
  have hne : a ≠ b := by simpa using hl.list.nodup
  obtain ⟨t, s', ht, e, -⟩ := hl.free hs (by simp : a ∈ [a, b])
  refine ⟨_, _, (hrun fun _ _ => True).free (by simp) trivial e, fun hw => ?_⟩
  have hlast : a ≠ k.taskTail := by
    rw [hl.list.tail]
    exact hne
  exact hl.list.freed_not_tail (by simp) hlast ht ⟨hw.forward, hw.last, hw.backward, hw.first, hw.current, hw.pointers⟩

end

end SimpleMicrokernel.Tasking
