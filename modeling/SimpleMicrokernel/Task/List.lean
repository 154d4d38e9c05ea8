/-
The list of tasks, and how the scheduler goes round it. The invariant says that the tasks are linked in
the order they were made in, with the head and the tail at the ends and the current task among them.
Making a task adds it at the tail; a step of the scheduler moves on to the next, after the last to the
first.
-/
import SimpleMicrokernel.Lib.Linked
import SimpleMicrokernel.Paging.Maps
import SimpleMicrokernel.Task.Load

namespace SimpleMicrokernel.Tasking

open Memory Fs Paging Linked

/-! ## The invariant -/

/-- The next and the previous task of a task. -/
def Kernel.links (k : Kernel) (a : Nat) : Option (Nat × Nat) := (k.tasks a).map fun t => (t.next, t.prev)

def Kernel.next (k : Kernel) (a : Nat) : Option Nat := (k.links a).map Prod.fst
def Kernel.prev (k : Kernel) (a : Nat) : Option Nat := (k.links a).map Prod.snd

/-- The tasks are those of `l`, linked in this order. -/
structure IsList (k : Kernel) (l : List Nat) : Prop where
  nodup : l.Nodup
  nonnull : 0 ∉ l
  links : Segment k.links 0 l 0
  head : k.taskHead = l.headD 0
  tail : k.taskTail = l.getLastD 0
  current : (l = [] ∧ k.currentTask = 0) ∨ k.currentTask ∈ l
  only : ∀ a, (k.tasks a).isSome → a ∈ l

section
variable {k k' : Kernel} {l : List Nat}

theorem isList_empty (hhead : k.taskHead = 0) (htail : k.taskTail = 0) (hcurrent : k.currentTask = 0)
    (htasks : k.tasks = fun _ => none) : IsList k [] :=
  ⟨List.nodup_nil, List.not_mem_nil, trivial, hhead, htail, .inl ⟨rfl, hcurrent⟩,
    fun a ha => by rw [htasks] at ha; cases ha⟩

theorem IsList.task (h : IsList k l) {a : Nat} (ha : a ∈ l) : ∃ t, k.tasks a = some t := by
  obtain ⟨n, b, hlink, -⟩ := h.links.points ha
  unfold Kernel.links at hlink
  cases ht : k.tasks a with
  | none =>
    rw [ht] at hlink
    cases hlink
  | some t => exact ⟨t, rfl⟩

theorem Kernel.links_of {a : Nat} {t : Task} (h : k.tasks a = some t) : k.links a = some (t.next, t.prev) := by
  unfold Kernel.links
  rw [h]
  rfl

theorem IsList.congr (h : IsList k l) (hlinks : ∀ a, k'.links a = k.links a) (hhead : k'.taskHead = k.taskHead)
    (htail : k'.taskTail = k.taskTail) (hcurrent : k'.currentTask = k.currentTask) : IsList k' l := by
  refine ⟨h.nodup, h.nonnull, h.links.congr fun a _ => hlinks a, hhead.trans h.head, htail.trans h.tail, ?_,
    fun a ha => ?_⟩
  · rw [hcurrent]
    exact h.current
  · have hsome : ∀ k : Kernel, (k.links a).isSome = (k.tasks a).isSome := by
      intro k
      unfold Kernel.links
      exact Option.isSome_map
    rw [← hsome, hlinks, hsome] at ha
    exact h.only a ha

/-- A task linked in at the tail. -/
theorem IsList.link (h : IsList k l) {task : Nat} {t : Task} (h0 : task ≠ 0) (hnew : task ∉ l) (hnext : t.next = 0)
    (hprev : t.prev = 0) (hlink : k.linkTask task t k') : IsList k' (l ++ [task]) := by
  have hnodup : (l ++ [task]).Nodup := List.nodup_append.2 ⟨h.nodup, List.nodup_singleton _, fun a ha b hb => by
    rw [List.mem_singleton.1 hb]
    exact fun he => hnew (he ▸ ha)⟩
  have hnonnull : 0 ∉ l ++ [task] := by
    rw [List.mem_append, List.mem_singleton]
    rintro (hm | he)
    · exact h.nonnull hm
    · exact h0 he.symm
  rcases hlink with ⟨hhead, rfl⟩ | ⟨hhead, tail, htail, rfl⟩
  · -- the list was empty
    have hl : l = [] := by
      cases l with
      | nil => rfl
      | cons a l => exact absurd ((h.head.symm.trans hhead : a = 0) ▸ List.mem_cons_self ..) h.nonnull
    subst hl
    refine ⟨hnodup, hnonnull, ⟨?_, trivial⟩, rfl, rfl, .inr (List.mem_singleton_self _), fun a ha => ?_⟩
    · rw [Kernel.links_of (t := t) (Function.update_self ..), hnext, hprev]
      rfl
    · by_cases he : a = task
      · rw [he]
        exact List.mem_singleton_self _
      · have ha : (Function.update k.tasks task (some t) a).isSome := ha
        rw [Function.update_of_ne he] at ha
        exact absurd (h.only a ha) List.not_mem_nil
  · -- the last task comes to point to the new one
    obtain ⟨m, a, rfl⟩ : ∃ m a, l = m ++ [a] := by
      rcases List.eq_nil_or_concat l with rfl | ⟨m, a, e⟩
      · exact absurd h.head hhead
      · exact ⟨m, a, e.trans (List.concat_eq_append ..)⟩
    have htl : k.taskTail = a := h.tail.trans (List.getLastD_concat ..)
    rw [htl] at htail
    obtain ⟨-, hend⟩ := segment_snoc.1 h.links
    rw [Kernel.links_of htail, Option.some.injEq, Prod.mk.injEq] at hend
    have hat : a ≠ task := fun he => hnew (he ▸ List.mem_append_right _ (List.mem_singleton_self a))
    have htasks : ∀ b, ({ k with
        tasks := Function.update (Function.update k.tasks k.taskTail (some { tail with next := task })) task
          (some { t with prev := k.taskTail })
        taskTail := task } : Kernel).tasks b =
        if b = task then some { t with prev := a } else if b = a then some { tail with next := task } else
          k.tasks b := by
      intro b
      show Function.update (Function.update k.tasks k.taskTail _) task _ b = _
      rw [htl, Function.update_apply, Function.update_apply]
    refine ⟨hnodup, hnonnull, h.links.push h.nodup hnew (fun c hca hct => ?_) ?_ ?_, ?_,
      (List.getLastD_concat ..).symm, ?_, fun b hb => ?_⟩
    · unfold Kernel.links
      rw [htasks, if_neg hct, if_neg hca]
    · rw [Kernel.links_of ((htasks a).trans ((if_neg hat).trans (if_pos rfl))), hend.2]
    · rw [Kernel.links_of ((htasks task).trans (if_pos rfl)), hnext]
    · show k.taskHead = _
      rw [h.head]
      cases m with
      | nil => rfl
      | cons b m => rfl
    · rcases h.current with ⟨hl, -⟩ | hc
      · simp at hl
      · exact .inr (List.mem_append_left _ hc)
    · rw [htasks] at hb
      by_cases hbt : b = task
      · rw [hbt]
        exact List.mem_append_right _ (List.mem_singleton_self _)
      · rw [if_neg hbt] at hb
        refine List.mem_append_left _ ?_
        by_cases hba : b = a
        · rw [hba]
          exact List.mem_append_right _ (List.mem_singleton_self _)
        · rw [if_neg hba] at hb
          exact h.only b hb

/-! ## The scheduler -/

/-- The element at a position of a list, counted on from the first after the last. -/
def around (l : List Nat) (hl : 0 < l.length) (i : Nat) : Nat := l.get ⟨i % l.length, Nat.mod_lt i hl⟩

theorem around_mem {hl : 0 < l.length} (i : Nat) : around l hl i ∈ l := List.get_mem ..

theorem around_of_lt {hl : 0 < l.length} {i : Nat} (hi : i < l.length) : around l hl i = l[i] := by
  simp only [around, List.get_eq_getElem, Nat.mod_eq_of_lt hi]

theorem around_length {hl : 0 < l.length} {i : Nat} (hi : i = l.length) : around l hl i = l[0] := by
  simp only [around, List.get_eq_getElem, hi, Nat.mod_self]

theorem around_mod {hl : 0 < l.length} (i j : Nat) : around l hl (i % l.length + j) = around l hl (i + j) := by
  simp only [around, List.get_eq_getElem, Nat.mod_add_mod]

theorem IsList.next_eq (h : IsList k l) {i : Nat} (hi : i < l.length) {t : Task} (ht : k.tasks l[i] = some t)
    (hl : 0 < l.length) : (if t.next = 0 then k.taskHead else t.next) = around l hl (i + 1) := by
  have hlink := h.links.link_getElem hi
  rw [Kernel.links_of ht, Option.some.injEq, Prod.mk.injEq] at hlink
  rw [hlink.1]
  by_cases hlast : i + 1 < l.length
  · have hne : l[i + 1] ≠ 0 := fun he => h.nonnull (he ▸ List.getElem_mem hlast)
    rw [around_of_lt hlast]
    simp only [List.getElem?_eq_getElem hlast, Option.getD_some, if_neg hne]
  · have hend : i + 1 = l.length := by omega
    rw [List.getElem?_eq_none (by omega), Option.getD_none, if_pos rfl, h.head, around_length hend]
    cases l with
    | nil => exact absurd hi (by simp)
    | cons a l => rfl

theorem taskGetNext_of {t : Task} (ht : k.tasks k.currentTask = some t) :
    taskGetNext k = .ok (if t.next = 0 then k.taskHead else t.next, k) := by
  unfold taskGetNext
  rw [Exec.bind_of_ok (Exec.get_apply k), Exec.bind_of_ok (taskAt_of ht)]
  split
  · rfl
  · rfl

theorem IsList.scheduleNextTask (h : IsList k l) {i : Nat} (hi : i < l.length) (hc : k.currentTask = l[i])
    (hl : 0 < l.length) :
    ∃ t, k.tasks (around l hl (i + 1)) = some t ∧
      scheduleNextTask k = .ok (t.registers, { k with
        currentTask := around l hl (i + 1)
        currentDirectory := directoryEntry k.mem t.pageDirectory }) := by
  obtain ⟨current, hcurrent⟩ := h.task (List.getElem_mem hi)
  have hnext := taskGetNext_of (hc ▸ hcurrent)
  rw [h.next_eq hi hcurrent hl] at hnext
  generalize hn : around l hl (i + 1) = n at hnext ⊢
  obtain ⟨t, ht⟩ := h.task (hn ▸ around_mem _ : n ∈ l)
  refine ⟨t, ht, ?_⟩
  have ht' : ({ k with currentTask := n, currentDirectory := directoryEntry k.mem t.pageDirectory } : Kernel).tasks n =
    some t := ht
  unfold Tasking.scheduleNextTask
  rw [Exec.bind_of_ok hnext, Exec.bind_of_ok (taskSwitch_of ht), Exec.bind_of_ok (taskAt_of ht')]
  rfl

theorem IsList.scheduled (h : IsList k l) {c d : Nat} (hc : c ∈ l) :
    IsList { k with currentTask := c, currentDirectory := d } l :=
  ⟨h.nodup, h.nonnull, h.links, h.head, h.tail, .inr hc, h.only⟩

/-- `n` steps of the scheduler, with the tasks it switches to. -/
def scheduleSteps : Nat → KM (List Nat)
  | 0 => return []
  | n + 1 => do
    let _ ← scheduleNextTask
    let task := (← get).currentTask
    return task :: (← scheduleSteps n)

/-- From any task of the list on, the steps go round. -/
theorem IsList.scheduleSteps (h : IsList k l) {i : Nat} (hi : i < l.length) (hc : k.currentTask = l[i]) (n : Nat)
    (hl : 0 < l.length) :
    ∃ k', scheduleSteps n k = .ok ((List.range n).map fun m => around l hl (i + 1 + m), k') ∧
      k'.currentTask = around l hl (i + n) := by
  induction n generalizing k i with
  | zero =>
    refine ⟨k, rfl, ?_⟩
    rw [Nat.add_zero, around_of_lt hi]
    exact hc
  | succ n ih =>
    obtain ⟨t, ht, e⟩ := h.scheduleNextTask hi hc hl
    obtain ⟨k', e', hc'⟩ := ih (h.scheduled (around_mem _)) (Nat.mod_lt (i + 1) hl) rfl
    refine ⟨k', ?_, ?_⟩
    · rw [Tasking.scheduleSteps, Exec.bind_of_ok e, Exec.bind_of_ok (Exec.get_apply _), Exec.bind_of_ok e',
        List.range_succ_eq_map, List.map_cons, List.map_map]
      have hrest : ((List.range n).map fun m => around l hl ((i + 1) % l.length + 1 + m)) =
          (List.range n).map ((fun m => around l hl (i + 1 + m)) ∘ Nat.succ) := by
        refine List.map_congr_left fun m _ => ?_
        rw [Nat.add_assoc, around_mod]
        show around l hl (i + 1 + (1 + m)) = around l hl (i + 1 + m.succ)
        rw [Nat.add_comm 1 m]
      rw [hrest]
      rfl
    · rw [hc', around_mod, Nat.add_assoc, Nat.add_comm 1 n]

theorem IsList.scheduleSteps_length (h : IsList k l) {i : Nat} (hi : i < l.length) (hc : k.currentTask = l[i]) :
    ∃ k', Tasking.scheduleSteps l.length k = .ok (l.rotate (i + 1), k') ∧ k'.currentTask = k.currentTask := by
  have hl : 0 < l.length := by omega
  obtain ⟨k', e, hc'⟩ := h.scheduleSteps hi hc l.length hl
  have hrotate : ((List.range l.length).map fun m => around l hl (i + 1 + m)) = l.rotate (i + 1) := by
    refine List.ext_getElem (by simp) fun m h1 h2 => ?_
    rw [List.getElem_map, List.getElem_range, List.getElem_rotate]
    simp only [around, List.get_eq_getElem, Nat.add_comm m]
  refine ⟨k', by rw [e, hrotate], ?_⟩
  rw [hc', hc, ← @around_of_lt l hl i hi]
  simp only [around, Nat.add_mod_right]

/-! ## Removing a task -/

/-- The state `task_list_remove` leaves. -/
def Kernel.removed (k : Kernel) (task : Nat) (t : Task) : Kernel :=
  let head := if task = k.taskHead then t.next else k.taskHead
  { k with
    tasks := Function.update k.tasks t.prev ((k.tasks t.prev).map fun before => { before with next := t.next })
    taskHead := head
    taskTail := if task = k.taskTail then t.prev else k.taskTail
    currentTask := if task = k.currentTask then if t.next = 0 then head else t.next else k.currentTask }

theorem IsList.task_null (h : IsList k l) : k.tasks 0 = none := by
  cases h0 : k.tasks 0 with
  | none => rfl
  | some t => exact absurd (h.only 0 (by rw [h0]; rfl)) h.nonnull

theorem IsList.prev_ne (h : IsList k l) {i j : Nat} (hi : i < l.length) (hij : i ≤ j) (hj : j < l.length) {t : Task}
    (ht : k.tasks l[i] = some t) : t.prev ≠ l[j] := by
  have hlink := h.links.link_getElem hi
  rw [Kernel.links_of ht, Option.some.injEq, Prod.mk.injEq] at hlink
  rw [hlink.2]
  split
  · exact fun he => h.nonnull (he ▸ List.getElem_mem hj)
  · rw [List.getElem?_eq_getElem (by omega), Option.getD_some]
    intro he
    have := h.nodup.getElem_inj_iff.1 he
    omega

theorem IsList.taskUnlinkPrev (h : IsList k l) {task : Nat} (hmem : task ∈ l) {t : Task} (ht : k.tasks task = some t) :
    taskUnlinkPrev t k = .ok ((), { k with
      tasks := Function.update k.tasks t.prev ((k.tasks t.prev).map fun before => { before with next := t.next })
      }) := by
  obtain ⟨n, b, hlink, -, hb⟩ := h.links.points hmem
  rw [Kernel.links_of ht, Option.some.injEq, Prod.mk.injEq] at hlink
  rw [← hlink.2] at hb
  unfold Tasking.taskUnlinkPrev
  rcases hb with h0 | hb
  · rw [if_neg (by simp [h0]), h0, h.task_null, Option.map_none, ← h.task_null, Function.update_eq_self]
    rfl
  · obtain ⟨before, hbefore⟩ := h.task hb
    rw [if_pos fun h0 : t.prev = 0 => h.nonnull (h0 ▸ hb), Exec.bind_of_ok (taskAt_of hbefore), hbefore]
    rfl

theorem IsList.taskListRemove (h : IsList k l) {task : Nat} (hmem : task ∈ l) {t : Task} (ht : k.tasks task = some t) :
    taskListRemove task k = .ok ((), k.removed task t) := by
  have hprev : t.prev ≠ task := by
    obtain ⟨i, hi, rfl⟩ := List.mem_iff_getElem.1 hmem
    exact h.prev_ne hi (Nat.le_refl i) hi ht
  -- the task itself is as it was
  have hself : Function.update k.tasks t.prev ((k.tasks t.prev).map fun before => { before with next := t.next }) task =
    some t := by
    rw [Function.update_of_ne hprev.symm, ht]
  unfold Tasking.taskListRemove
  rw [Exec.bind_of_ok (taskAt_of ht), Exec.bind_of_ok (h.taskUnlinkPrev hmem ht),
    Exec.bind_of_ok (Exec.modify_apply ..), Exec.bind_of_ok (Exec.modify_apply ..), Exec.bind_of_ok (Exec.get_apply _)]
  by_cases hcurrent : task = k.currentTask
  · rw [hcurrent] at hself
    rw [if_pos hcurrent, Exec.bind_of_ok (taskGetNext_of hself)]
    simp only [Kernel.removed, if_pos hcurrent]
    rfl
  · rw [if_neg hcurrent]
    simp only [Kernel.removed, if_neg hcurrent]
    rfl

/-- The state once a task is removed and given back. -/
def Kernel.freed (k : Kernel) (task : Nat) (t : Task) : Kernel :=
  { k.removed task t with tasks := Function.update (k.removed task t).tasks task none }

theorem Kernel.freed_tasks (k : Kernel) (task : Nat) (t : Task) (b : Nat) :
    (k.freed task t).tasks b = if b = task then none else
    if b = t.prev then (k.tasks t.prev).map fun before => { before with next := t.next } else k.tasks b := by
  show Function.update (Function.update k.tasks t.prev _) task none b = _
  rw [Function.update_apply, Function.update_apply]

theorem Kernel.of_freed {task a : Nat} {t u' : Task} (hu : (k.freed task t).tasks a = some u') :
    a ≠ task ∧ ∃ u, k.tasks a = some u ∧ u'.pageDirectory = u.pageDirectory := by
  rw [Kernel.freed_tasks] at hu
  by_cases hat : a = task
  · rw [if_pos hat] at hu
    cases hu
  · rw [if_neg hat] at hu
    by_cases hap : a = t.prev
    · rw [if_pos hap, Option.map_eq_some_iff] at hu
      obtain ⟨before, hb, rfl⟩ := hu
      exact ⟨hat, before, hap ▸ hb, rfl⟩
    · rw [if_neg hap] at hu
      exact ⟨hat, u', hu, rfl⟩

section
variable {m : List Nat} {task : Nat} {t : Task}

theorem IsList.freed_only (h : IsList k (m ++ [task])) {b : Nat} (hb : ((k.freed task t).tasks b).isSome) : b ∈ m := by
  obtain ⟨u', hu'⟩ := Option.isSome_iff_exists.1 hb
  obtain ⟨hbt, u, hu, -⟩ := Kernel.of_freed hu'
  rcases List.mem_append.1 (h.only b (Option.isSome_iff_exists.2 ⟨u, hu⟩)) with hm | hm
  · exact hm
  · exact absurd (List.mem_singleton.1 hm) hbt

theorem IsList.freed_alone (h : IsList k [task]) (ht : k.tasks task = some t) : IsList (k.freed task t) [] := by
  have hend := h.links.1
  rw [Kernel.links_of ht, List.headD_nil, Option.some.injEq, Prod.mk.injEq] at hend
  obtain ⟨hnext, hprev⟩ := hend
  have htail : task = k.taskTail := h.tail.symm
  have hhead : task = k.taskHead := h.head.symm
  have hcurrent : task = k.currentTask := by
    rcases h.current with ⟨hl, -⟩ | hc
    · cases hl
    · exact (List.mem_singleton.1 hc).symm
  have hnewTail : (k.freed task t).taskTail = 0 := by
    show (if task = k.taskTail then t.prev else k.taskTail) = _
    rw [if_pos htail, hprev]
  have hnewHead : (k.freed task t).taskHead = 0 := by
    show (if task = k.taskHead then t.next else k.taskHead) = 0
    rw [if_pos hhead, hnext]
  refine ⟨List.nodup_nil, List.not_mem_nil, trivial, hnewHead, hnewTail, .inl ⟨rfl, ?_⟩,
    fun b => h.freed_only (m := [])⟩
  show (if task = k.currentTask then if t.next = 0 then (k.freed task t).taskHead else t.next else k.currentTask) = 0
  rw [if_pos hcurrent, if_pos hnext, hnewHead]

theorem IsList.freed_last {a : Nat} (h : IsList k (m ++ [a] ++ [task])) (ht : k.tasks task = some t) :
    IsList (k.freed task t) (m ++ [a]) := by
  obtain ⟨hseg, hend⟩ := segment_snoc.1 h.links
  rw [Kernel.links_of ht, Option.some.injEq, Prod.mk.injEq, List.getLastD_concat] at hend
  obtain ⟨hnext, hprev⟩ := hend
  obtain ⟨hnodup, -, hdisj⟩ := List.nodup_append.1 h.nodup
  have hout : task ∉ m ++ [a] := fun hm => hdisj task hm task (List.mem_singleton_self _) rfl
  have htail : task = k.taskTail := by rw [h.tail, List.getLastD_concat]
  have hheadEq : k.taskHead = (m ++ [a]).headD 0 := by
    rw [h.head]
    cases m with
    | nil => rfl
    | cons b m => rfl
  have hheadMem : k.taskHead ∈ m ++ [a] := by
    rw [hheadEq]
    cases m with
    | nil => exact List.mem_cons_self ..
    | cons b m => exact List.mem_cons_self ..
  have hnewTail : (k.freed task t).taskTail = t.prev := by
    show (if task = k.taskTail then t.prev else k.taskTail) = _
    rw [if_pos htail]
  have hnewHead : (k.freed task t).taskHead = k.taskHead := by
    show (if task = k.taskHead then t.next else k.taskHead) = _
    rw [if_neg fun he : task = k.taskHead => hout (he ▸ hheadMem)]
  have hat : a ≠ task := fun he => hout (he ▸ List.mem_append_right _ (List.mem_singleton_self _))
  have ham : a ∉ m := fun hm => (List.nodup_append.1 hnodup).2.2 a hm a (List.mem_singleton_self _) rfl
  refine ⟨hnodup, fun hm => h.nonnull (List.mem_append_left _ hm), h.links.pop (fun c hc => ?_) ?_,
    hnewHead.trans hheadEq, ?_, .inr ?_, fun b => h.freed_only⟩
  · have hct : c ≠ task := fun he => hout (he ▸ List.mem_append_left _ hc)
    have hca : c ≠ a := fun he => ham (he ▸ hc)
    unfold Kernel.links
    rw [Kernel.freed_tasks, if_neg hct, hprev, if_neg hca]
  · obtain ⟨before, hbefore⟩ := h.task (List.mem_append_left _ (List.mem_append_right m (List.mem_singleton_self a)))
    obtain ⟨-, hlink⟩ := segment_snoc.1 hseg
    rw [Kernel.links_of hbefore, Option.some.injEq, Prod.mk.injEq] at hlink
    have ha : (k.freed task t).tasks a = some { before with next := t.next } := by
      rw [Kernel.freed_tasks, if_neg hat, hprev, if_pos rfl, hbefore]
      rfl
    rw [Kernel.links_of ha, hnext, hlink.2]
  · rw [hnewTail, hprev, List.getLastD_concat]
  · show (if task = k.currentTask then if t.next = 0 then (k.freed task t).taskHead else t.next else
      k.currentTask) ∈ m ++ [a]
    by_cases hcurrent : task = k.currentTask
    · rw [if_pos hcurrent, if_pos hnext, hnewHead]
      exact hheadMem
    · rw [if_neg hcurrent]
      rcases h.current with ⟨hl, -⟩ | hc
      · exact absurd hl (List.append_ne_nil_of_right_ne_nil _ (List.cons_ne_nil _ _))
      · rcases List.mem_append.1 hc with hc | hc
        · exact hc
        · exact absurd (List.mem_singleton.1 hc).symm hcurrent

theorem IsList.freed_tail (h : IsList k (m ++ [task])) (ht : k.tasks task = some t) : IsList (k.freed task t) m := by
  rcases List.eq_nil_or_concat m with rfl | ⟨m, a, e⟩
  · exact h.freed_alone ht
  · rw [List.concat_eq_append] at e
    subst e
    exact h.freed_last ht

end

/-! ## What the list is for -/

/-- Following `next` from the head goes through the tasks `l` and ends at the tail, following `prev` from
the tail goes back through them and ends at the head, the current task is one of them, and every
pointer is null or to one of them. -/
structure WellFormed (k : Kernel) (l : List Nat) : Prop where
  forward : Follows k.next 0 k.taskHead l
  last : k.taskTail = l.getLastD 0
  backward : Follows k.prev 0 k.taskTail l.reverse
  first : k.taskHead = l.headD 0
  current : (l = [] ∧ k.currentTask = 0) ∨ k.currentTask ∈ l
  pointers : ∀ a ∈ l, ∀ t, k.tasks a = some t → (t.next = 0 ∨ t.next ∈ l) ∧ (t.prev = 0 ∨ t.prev ∈ l)

theorem IsList.wellFormed (h : IsList k l) : WellFormed k l := by
  refine ⟨?_, h.tail, ?_, h.head, h.current, fun a ha t ht => ?_⟩
  · rw [h.head]
    exact h.links.follows_next h.nonnull
  · rw [h.tail]
    exact h.links.follows_prev h.nonnull
  · obtain ⟨n, b, hlink, hn, hb⟩ := h.links.points ha
    rw [Kernel.links_of ht, Option.some.injEq, Prod.mk.injEq] at hlink
    rw [hlink.1, hlink.2]
    exact ⟨hn, hb⟩

/-- A task that is not the last leaves the one after it pointing back to it. -/
theorem IsList.freed_not_tail (h : IsList k l) {task : Nat} (hmem : task ∈ l) (hne : task ≠ k.taskTail) {t : Task}
    (ht : k.tasks task = some t) : ¬ WellFormed (k.freed task t) (l.erase task) := by
  intro hw
  obtain ⟨i, hi, rfl⟩ := List.mem_iff_getElem.1 hmem
  have hlast : i + 1 < l.length := by
    by_contra hend
    refine hne ?_
    have hi' : i = l.length - 1 := by omega
    rw [h.tail, List.getLastD_eq_getLast?, List.getLast?_eq_getElem?, ← hi', List.getElem?_eq_getElem hi,
      Option.getD_some]
  obtain ⟨after, hafter⟩ := h.task (List.getElem_mem hlast)
  have hback := h.links.link_getElem hlast
  rw [Kernel.links_of hafter, Option.some.injEq, Prod.mk.injEq, if_neg (by omega), Nat.add_sub_cancel,
    List.getElem?_eq_getElem hi, Option.getD_some] at hback
  have hself : l[i + 1] ≠ l[i] := fun he => by
    have := h.nodup.getElem_inj_iff.1 he
    omega
  -- the task after is not the one before, which alone is told
  have hother : l[i + 1] ≠ t.prev := (h.prev_ne hi (Nat.le_succ i) hlast ht).symm
  have hkept : (k.freed l[i] t).tasks l[i + 1] = some after := by
    rw [Kernel.freed_tasks, if_neg hself, if_neg hother, hafter]
  have hin : l[i + 1] ∈ l.erase l[i] := (h.nodup.mem_erase_iff).2 ⟨hself, List.getElem_mem hlast⟩
  rcases (hw.pointers _ hin _ hkept).2 with h0 | hm
  · rw [hback.2] at h0
    exact h.nonnull (h0 ▸ List.getElem_mem hi)
  · rw [hback.2] at hm
    exact ((h.nodup.mem_erase_iff).1 hm).1 rfl

end

end SimpleMicrokernel.Tasking
