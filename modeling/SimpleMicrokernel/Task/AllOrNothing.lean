/-
`task_new` with too little memory. A task takes a block of its own and the 1026 of its address space.
Whichever of them cannot be had, nothing taken before it is given back; with none at all the zero fill
of `kzalloc` goes to the null address.
-/
import SimpleMicrokernel.Memory.Taken
import SimpleMicrokernel.Fs.Keeps
import SimpleMicrokernel.Task.Runs

namespace SimpleMicrokernel.Tasking

open Memory Fs Paging

/-- A machine where a zero fill through null fills the bytes at address 0. -/
def FillsZero (env : Env) : Prop := ∀ n mem, env.nullFill n mem = .ok (memset mem 0 0 n)

/-- A `task_new` that gives 0 leaves the map, the counters and the tasks as they were and stores nothing
at a null address, whatever memory holds. -/
def AllOrNothing (env : Env) (process : Nat) (k : Kernel) : Prop :=
  ∀ mem k', taskNew env process { k with mem := mem } = .ok (0, k') →
    k'.heap.pmm = k.heap.pmm ∧ k'.taskHead = k.taskHead ∧ k'.taskTail = k.taskTail ∧ k'.currentTask = k.currentTask ∧
      ∀ a < pmmBlockSize, k'.mem a = mem a

/-! ## How many blocks are granted -/

/-- As many requests for a block are granted as blocks are clear. -/
theorem grants_iff (n : Nat) : ∀ {p : Pmm} {live : List Live}, Counted p live → p.pmmSystemMemorySize ≤ 2 ^ 20 →
    (Grants n p ↔ n ≤ p.clearBlocks) := by
  induction n with
  | zero => exact fun _ _ => ⟨fun _ => Nat.zero_le _, fun _ => trivial⟩
  | succ n ih =>
    intro p live h hsize
    rcases h.clearBlocks_allocate hsize with ⟨e, hnone⟩ | ⟨e, hone, h', hsize'⟩
    · rw [hnone]
      exact ⟨fun hg => absurd e hg.1, fun hle => absurd hle (by omega)⟩
    · rw [Grants, ih h' (hsize' ▸ hsize), ← hone]
      exact ⟨fun hg => Nat.succ_le_succ hg.2, fun hle => ⟨e, Nat.le_of_succ_le_succ hle⟩⟩

/-! ## One call -/

section
variable {env : Env} {process task : Nat} {k k' : Kernel}

theorem taskInit_grants (process : Nat) (s : Sys) : ∃ t s', taskInit process s = .ok (t, s') ∧
    (t = none ↔ ¬ Grants 1026 s.heap.pmm) := by
  obtain ⟨c, s', e, hc, -⟩ := pagingNew4gb_grants taskFlags s
  unfold taskInit
  rw [Exec.bind_of_ok e, ← hc, not_ne_iff]
  by_cases h0 : c = 0
  · rw [if_pos h0]
    exact ⟨none, s', rfl, ⟨fun _ => h0, fun _ => rfl⟩⟩
  · rw [if_neg h0]
    exact ⟨_, s', rfl, ⟨nofun, fun h => absurd h h0⟩⟩

/-- With blocks for all of it, `task_new` does not give 0. -/
theorem taskNew_granted (env : Env) (process : Nat) (k' : Kernel) (h : Grants 1027 k.heap.pmm) :
    taskNew env process k ≠ .ok (0, k') := by
  obtain ⟨task, s1, e1, hne, hrest⟩ := kzalloc_grants env (by decide : sizeofTask ≤ 4096) h
  obtain ⟨t, s2, e2, ht⟩ := taskInit_grants process s1
  intro he
  unfold taskNew at he
  rw [Exec.bind_of_ok (onSys_of_ok e1), if_neg hne, Exec.bind_of_ok (onSys_of_ok e2)] at he
  cases t with
  | none => exact ht.1 rfl hrest
  | some t =>
    simp only at he
    rw [Exec.bind_of_ok (Exec.get_apply _)] at he
    split at he
    · obtain ⟨h0, -⟩ := Exec.of_pure_ok he
      exact hne h0
    · cases htail : ((k.withSys s1).withSys s2).tasks ((k.withSys s1).withSys s2).taskTail with
      | none =>
        rw [htail] at he
        cases he
      | some tail =>
        rw [htail] at he
        obtain ⟨h0, -⟩ := Exec.of_pure_ok he
        exact hne h0

/-- With a block for the task but not for all the rest, that block stays taken. -/
theorem taskNew_leaks (env : Env) (process : Nat) {reserved size : Nat} (hok : k.toSys.Ok reserved size)
    (h1 : k.heap.pmm.pmmAllocateBlock.1 ≠ 0) (h : ¬ Grants 1027 k.heap.pmm) :
    ∃ k' i, taskNew env process k = .ok (0, k') ∧ k.heap.pmm.marked i = false ∧ k'.heap.pmm.marked i = true := by
  have hrest : ¬ Grants 1026 k.heap.pmm.pmmAllocateBlock.2 := fun hg => h ⟨h1, hg⟩
  obtain ⟨s1, e1, hpmm⟩ := kzalloc_page env (by decide : sizeofTask ≤ 4096) h1
  rw [← hpmm] at hrest
  generalize k.heap.pmm.pmmAllocateBlock.1 = task at h1 e1
  have z : FramesSys reserved size False [] k.toSys s1 ∧ _ := kzalloc_spec (fun hf => hf.elim) e1
  obtain ⟨hok1, -, -⟩ := z.1 hok (List.nil_subset _)
  have hlive := z.2 hok h1
  obtain ⟨t, s2, e2, ht⟩ := taskInit_grants process s1
  have f2 : FramesSys reserved size False s1.live s1 s2 := framed_taskInit process _ _ _ e2
  obtain ⟨hok2, hlive2, -⟩ := f2 hok1 (List.Subset.refl _)
  obtain rfl : t = none := ht.2 hrest
  refine ⟨(k.withSys s1).withSys s2, task / pmmBlockSize, ?_,
    marked_of_kzalloc hok (by decide : sizeofTask ≤ 4096) e1 h1, ?_⟩
  · unfold taskNew
    rw [Exec.bind_of_ok (onSys_of_ok e1), if_neg h1, Exec.bind_of_ok (onSys_of_ok e2)]
    rfl
  · exact marked_of_live hok2 (hlive2 (hlive ▸ List.mem_cons_self ..))

theorem taskNew_null (hfill : FillsZero env) (process : Nat) (h : k.heap.pmm.pmmAllocateBlock.1 = 0) :
    ∃ k', taskNew env process k = .ok (0, k') ∧ k'.mem = memset k.mem 0 0 sizeofTask := by
  have hk := k.heap.kmallac_of_le (by decide : sizeofTask ≤ 4096)
  rw [h] at hk
  obtain ⟨s1, e1, hmem⟩ : ∃ s1, kzalloc env sizeofTask k.toSys = .ok (0, s1) ∧
    s1.mem = memset k.mem 0 0 sizeofTask := by
    unfold kzalloc
    rw [Exec.bind_of_ok (kmallac_apply ..), Exec.bind_of_ok (Exec.get_apply _), hk, if_pos rfl, hfill]
    exact ⟨_, rfl, rfl⟩
  refine ⟨k.withSys s1, ?_, hmem⟩
  unfold taskNew
  rw [Exec.bind_of_ok (onSys_of_ok e1), if_pos rfl]
  rfl

/-- Without blocks for all of it, a `task_new` that gives 0 changes something. -/
theorem not_allOrNothing (hfill : FillsZero env) (process : Nat) {reserved size : Nat} (hok : k.toSys.Ok reserved size)
    (h : ¬ Grants 1027 k.heap.pmm) : ¬ AllOrNothing env process k := by
  intro hall
  by_cases h1 : k.heap.pmm.pmmAllocateBlock.1 = 0
  · have h1 : { k with mem := fun _ => 1 }.heap.pmm.pmmAllocateBlock.1 = 0 := h1
    obtain ⟨k', e, hmem⟩ := taskNew_null hfill process h1
    have hzero := (hall _ k' e).2.2.2.2 0 (by decide)
    rw [hmem, memset_apply, if_pos (by decide)] at hzero
    exact absurd hzero (by decide)
  · obtain ⟨k', i, e, hclear, hmarked⟩ := taskNew_leaks env process hok h1 h
    rw [(hall _ k' e).1, hclear] at hmarked
    cases hmarked

/-- In every state of the allocator a `task_new` that gives 0 has no effect exactly when a block is
clear for all a task needs, and it does not give 0 then. -/
theorem taskNew_all_or_nothing_iff {reserved size : Nat} (h1 : 1 ≤ reserved) (h2 : reserved ≤ size) (h3 : size ≤ 2 ^ 20)
    (hfill : FillsZero env) (mem : Mem) (ops : List Op)
    (hops : AllocState.Allowed (AllocState.init size reserved mem) ops)
    (hk : k.toAllocState = (AllocState.init size reserved mem).after ops) (process : Nat) :
    AllOrNothing env process k ↔ 1027 ≤ k.heap.pmm.clearBlocks := by
  obtain ⟨hok, hcounted⟩ := AllocState.after_counted h1 h2 h3 hops
  rw [← hk] at hok hcounted
  have hsize : k.heap.pmm.pmmSystemMemorySize ≤ 2 ^ 20 := by
    obtain ⟨L, -, hheap⟩ := hok
    exact hheap.memoryLe
  rw [← grants_iff 1027 hcounted hsize]
  constructor
  · intro hall
    by_contra hno
    exact not_allOrNothing hfill process hok hno hall
  · intro hg m k' e
    exact absurd e (taskNew_granted (k := { k with mem := m }) env process k' hg)

end

/-- A disk of zeros, on a machine with memory at address 0. -/
def zeroFilled : Env := ⟨fun _ _ => 0, fun _ _ => .error .outOfBounds, fun n mem => .ok (memset mem 0 0 n),
  fun a bytes mem => .ok (store mem a bytes)⟩

theorem taskNew_all_or_nothing_bare : AllOrNothing zeroFilled 0 bareKernel ↔ 1027 ≤ bareKernel.heap.pmm.clearBlocks :=
  @taskNew_all_or_nothing_iff zeroFilled bareKernel 1 4096 (by decide) (by decide) (by decide) (fun _ _ => rfl)
    (fun _ => 0) [] trivial rfl 0

/-- Memory with one clear block: it is taken for the task, and there is none for the directory. -/
theorem taskNew_keeps_page : ∃ k : Kernel, k.toAllocState = (AllocState.init 2 1 fun _ => 0).after [] ∧
    (∃ k' i, taskNew zeroFilled 0 k = .ok (0, k') ∧ k.heap.pmm.marked i = false ∧ k'.heap.pmm.marked i = true) ∧
    ¬ AllOrNothing zeroFilled 0 k := by
  refine ⟨{ bareKernel with toSys := bare 2 1 }, rfl, ?_⟩
  have hok : (bare 2 1).Ok (max 1 1) 2 := AllocState.ok_init (by decide) fun _ => 0
  have hcounted : Counted (bare 2 1).heap.pmm (bare 2 1).live :=
    AllocState.counted_init (by decide) (by decide) (by decide) fun _ => 0
  have hsize : (bare 2 1).heap.pmm.pmmSystemMemorySize = 2 := by
    rw [bare_pmm]
    rfl
  have hclear : (bare 2 1).heap.pmm.clearBlocks ≤ 2 := by
    rw [Pmm.clearBlocks_eq, hsize]
    exact Nat.sub_le ..
  have hno : ¬ Grants 1027 (bare 2 1).heap.pmm := by
    rw [grants_iff 1027 hcounted (by rw [hsize]; decide)]
    omega
  have hone : Grants 1 (bare 2 1).heap.pmm := by
    rw [grants_iff 1 hcounted (by rw [hsize]; decide)]
    refine Finset.card_pos.2 ⟨1, Finset.mem_filter.2 ⟨?_, ?_⟩⟩
    · rw [hsize]
      decide
    · rw [Pmm.pmmMemoryMapTest_eq_zero, bare_pmm, Pmm.marked_booted]
      rfl
  exact ⟨taskNew_leaks zeroFilled 0 hok hone.1 hno, not_allOrNothing (fun _ _ => rfl) 0 hok hno⟩

end SimpleMicrokernel.Tasking
