/-
`kernel_main` after paging is on: programs are loaded one after another, and the first task is run. The slots are
given out in the order of the loads, a load that fails leaves no gap, and the program that runs is the first that
was loaded.
-/
import SimpleMicrokernel.Kernel.Turns

namespace SimpleMicrokernel.Tasking

open Memory Fs Paging TimeShare

/-! ## Loads one after another -/

/-- The slots that the loads return. -/
def processLoads (env : Env) : List (List Byte) → KM (List Int)
  | [] => return []
  | filename :: filenames => do
    let r ← processLoad env filename
    let rs ← processLoads env filenames
    return r.1 :: rs

/-- `kernel_main` from `disk_search_init` on, for any programs. What is printed is not part of the state. -/
def kernelMainWith (env : Env) (filenames : List (List Byte)) : KM Registers := do
  startPaging env
  let _ ← processLoads env filenames
  taskRunFirstEverTask

/-- `0:/blank.bin`, `0:/blank1.bin` and `0:/blank2.bin`. -/
def bootPrograms : List (List Byte) :=
  [[0x30, 0x3A, 0x2F, 0x62, 0x6C, 0x61, 0x6E, 0x6B, 0x2E, 0x62, 0x69, 0x6E],
    [0x30, 0x3A, 0x2F, 0x62, 0x6C, 0x61, 0x6E, 0x6B, 0x31, 0x2E, 0x62, 0x69, 0x6E],
    [0x30, 0x3A, 0x2F, 0x62, 0x6C, 0x61, 0x6E, 0x6B, 0x32, 0x2E, 0x62, 0x69, 0x6E]]

def kernelMain (env : Env) : KM Registers := kernelMainWith env bootPrograms

/-! ## What a load does to the table -/

theorem length_filterMap_finRange {α : Type} : ∀ {n : Nat} {f : Fin n → Option α} {i : Nat}, i ≤ n →
    (∀ j, (f j).isSome ↔ j.val < i) → ((List.finRange n).filterMap f).length = i
  | 0, _, i, hi, _ => by
    rw [List.finRange_zero]
    exact (Nat.le_zero.1 hi).symm
  | n + 1, f, 0, _, h => by
    have hnil : (List.finRange (n + 1)).filterMap f = [] := by
      refine List.filterMap_eq_nil_iff.2 fun j _ => ?_
      rw [← Option.not_isSome_iff_eq_none, h j]
      exact Nat.not_lt_zero _
    rw [hnil]
    rfl
  | n + 1, f, i + 1, hi, h => by
    have hfirst : (f 0).isSome := (h 0).2 (Nat.succ_pos i)
    obtain ⟨x, hx⟩ := Option.isSome_iff_exists.1 hfirst
    have hrest : ((List.finRange n).filterMap (f ∘ Fin.succ)).length = i :=
      length_filterMap_finRange (Nat.le_of_succ_le_succ hi) fun j => (h j.succ).trans Nat.succ_lt_succ_iff
    rw [List.finRange_succ, List.filterMap_cons, hx, List.filterMap_map]
    exact congrArg (· + 1) hrest

section
variable {env : Env} {k k' : Kernel} {filename : List Byte} {filenames : List (List Byte)} {r : Int × Option Nat}
    {rs : List Int}

theorem Agrees.slot_eq (hi : Agrees k) {slot : Fin maxProcesses} (h : processGetFreeSlot k.processes = some slot) :
    k.processTasks.length = slot.val := by
  obtain ⟨h0, hbelow⟩ := of_processGetFreeSlot h
  refine length_filterMap_finRange (Nat.le_of_lt slot.isLt) fun j => ?_
  unfold Kernel.slotTask
  constructor
  · intro hsome
    by_contra hle
    rw [if_pos (hi.free_after h0 (Nat.le_of_not_lt hle))] at hsome
    cases hsome
  · intro hlt
    have hne := hbelow j hlt
    obtain ⟨p, t, hin, -⟩ := hi.slots j hne
    rw [if_neg hne, hin.proc]
    rfl

/-- A load gives the next number and puts a task at the end of the queue, or gives -1 and changes nothing. -/
theorem load_shared (hfill : FillsBelow env kernelBlocks) (hs : Sound k)
    (hload : processLoad env filename k = .ok (r, k')) :
    (r.1 = -1 ∧ k'.shared = k.shared) ∨
    ∃ process p s, r = ((k.processTasks.length : Int), some process) ∧ k'.procs process = some p ∧ p.task ≠ 0 ∧
      s.registers = initialRegisters ∧ k'.shared =
        ⟨k.processTasks ++ [p.task], some ((turnOf k.currentTask).getD p.task),
          Function.update k.program p.task (some s)⟩ := by
  have hs' := step_sound hfill hs (.load filename r hload)
  rcases of_processLoad_ok kernelBlocks systemBlocks True k.live (fun _ => hfill) hload with
    ⟨rfl, hu⟩ | ⟨slot, process, ptr, stack, task, chunk, sz, s1, s2, s3, s4, s5, k5, rfl, hslot, hl⟩
  · exact .inl ⟨rfl, hu.shared hs hs'⟩
  · obtain ⟨s, hreg, e⟩ := hl.shared hs hs' hfill hslot
    obtain ⟨hp, -⟩ := hl.maps hs.inv.ok
    exact .inr ⟨process, _, s, by rw [hs.agrees.slot_eq hslot], hp, hl.taskNe, hreg, e⟩

/-- Loads number what they load, put it at the end of the queue in their order, and leave the programs there were. -/
theorem loads_shared (hfill : FillsBelow env kernelBlocks) (hreach : Reachable env k)
    (hloads : processLoads env filenames k = .ok (rs, k')) : Reachable env k' ∧
    ∃ tasks, k'.processTasks = k.processTasks ++ tasks ∧
      rs.filter (0 ≤ ·) = (List.range' k.processTasks.length tasks.length).map Int.ofNat ∧
      (∀ a ∈ k.processTasks, k'.program a = k.program a) ∧
      turnOf k'.currentTask = (turnOf k.currentTask).or tasks.head? := by
  induction filenames generalizing k rs with
  | nil =>
    obtain ⟨rfl, rfl⟩ := Exec.of_pure_ok hloads
    exact ⟨hreach, [], (List.append_nil _).symm, rfl, fun _ _ => rfl, (Option.or_none).symm⟩
  | cons filename filenames ih =>
    obtain ⟨r, k1, hload, hloads⟩ := Exec.of_bind_ok hloads
    obtain ⟨rs', k2, hrest, hloads⟩ := Exec.of_bind_ok hloads
    obtain ⟨rfl, rfl⟩ := Exec.of_pure_ok hloads
    have hs := reachable_sound hfill hreach
    obtain ⟨hreach', tasks, hqueue, hnumbers, hprograms, hcurrent⟩ := ih (.step hreach (.load filename r hload)) hrest
    refine ⟨hreach', ?_⟩
    rcases load_shared hfill hs hload with ⟨hr, e⟩ | ⟨process, p, s, rfl, -, h0, -, e⟩
    · -- it failed
      have hq : k1.processTasks = k.processTasks := congrArg Shared.queue e
      have hc : turnOf k1.currentTask = turnOf k.currentTask := congrArg Shared.current e
      have hm : k1.program = k.program := congrArg Shared.machine e
      rw [hq, hm] at hprograms
      rw [hq] at hqueue hnumbers
      rw [hc] at hcurrent
      refine ⟨tasks, hqueue, ?_, hprograms, hcurrent⟩
      rw [List.filter_cons_of_neg (by rw [hr]; decide), hnumbers]
    · have hq : k1.processTasks = k.processTasks ++ [p.task] := congrArg Shared.queue e
      have hc : turnOf k1.currentTask = some ((turnOf k.currentTask).getD p.task) := congrArg Shared.current e
      have hm : k1.program = Function.update k.program p.task (some s) := congrArg Shared.machine e
      have hnew : p.task ∉ k.processTasks := by
        have hnodup : (k.processTasks ++ [p.task]).Nodup :=
          hq ▸ (step_sound hfill hs (.load filename _ hload)).agrees.list.nodup
        exact fun hin => List.disjoint_of_nodup_append hnodup hin (List.mem_singleton_self _)
      refine ⟨p.task :: tasks, ?_, ?_, fun a ha => ?_, ?_⟩
      · rw [hqueue, hq, List.append_assoc]
        rfl
      · rw [hq, List.length_append, List.length_singleton] at hnumbers
        have hpos : decide (0 ≤ (k.processTasks.length : Int)) = true := decide_eq_true (Int.natCast_nonneg _)
        show (((k.processTasks.length : Int) :: rs').filter fun r => decide (0 ≤ r)) = _
        rw [List.filter_cons, if_pos hpos, hnumbers, List.length_cons, List.range'_succ]
        rfl
      · have hne : a ≠ p.task := by
          rintro rfl
          exact hnew ha
        rw [hprograms a (hq ▸ List.mem_append_left _ ha), hm, Function.update_of_ne hne]
      · rw [hcurrent, hc]
        cases turnOf k.currentTask with
        | none => rfl
        | some c => rfl

/-- Tasks that were only loaded have not run yet. -/
theorem loads_registers (hfill : FillsBelow env kernelBlocks) (hreach : Reachable env k)
    (hloads : processLoads env filenames k = .ok (rs, k'))
    (h : ∀ a s, k.program a = some s → s.registers = initialRegisters) : ∀ a s, k'.program a = some s →
    s.registers = initialRegisters := by
  induction filenames generalizing k rs with
  | nil =>
    obtain ⟨-, rfl⟩ := Exec.of_pure_ok hloads
    exact h
  | cons filename filenames ih =>
    obtain ⟨r, k1, hload, hloads⟩ := Exec.of_bind_ok hloads
    obtain ⟨rs', k2, hrest, hloads⟩ := Exec.of_bind_ok hloads
    obtain ⟨-, rfl⟩ := Exec.of_pure_ok hloads
    refine ih (.step hreach (.load filename r hload)) hrest fun a s ha => ?_
    rcases load_shared hfill (reachable_sound hfill hreach) hload with ⟨-, e⟩ | ⟨process, p, s', -, -, -, hreg, e⟩
    · exact h a s ((congrFun (congrArg Shared.machine e) a).symm.trans ha)
    · have ha' : Function.update k.program p.task (some s') a = some s :=
        (congrFun (congrArg Shared.machine e) a).symm.trans ha
      by_cases hp : a = p.task
      · rw [hp, Function.update_self] at ha'
        cases ha'
        exact hreg
      · rw [Function.update_of_ne hp] at ha'
        exact h a s ha'

end

end SimpleMicrokernel.Tasking
