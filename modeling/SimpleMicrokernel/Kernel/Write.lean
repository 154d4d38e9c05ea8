/-
Interrupts with the screen: what a program writes is printed, and every call but one comes back. The page a string is
copied through is not given back, so a kernel has only so many writes in it.
-/
import SimpleMicrokernel.Kernel.Turns
import SimpleMicrokernel.Kernel.Writes
import SimpleMicrokernel.Kernel.Copy
import SimpleMicrokernel.Terminal.Reference
import Mathlib.Data.List.Perm.Subperm
import Mathlib.Data.List.TakeWhile

namespace SimpleMicrokernel.Tasking

open Memory Fs Fat16 Paging Printing

/-! ## The kernel and the screen -/

structure Console where
  kernel : Kernel
  terminal : Terminal

abbrev ConsoleM := Exec Halt Console

def onKernel {α : Type} (x : KM α) : ConsoleM α := fun s => (x s.kernel).map fun r => (r.1, { s with kernel := r.2 })

def onTerminal {α : Type} (x : TermM α) : ConsoleM α :=
    fun s => (x s.terminal).map fun r => (r.1, { s with terminal := r.2 })

namespace Console

/-- `buffer` is on the stack, where `stack` is found when nothing is copied to it. -/
def isr80hCommand4SysWrite (env : Env) (stack : List Byte) : ConsoleM Nat := do
  let k ← onKernel get
  let currtTask ← onKernel (taskAt k.currentTask)
  let copied ← onKernel (copyStringFromTask env currtTask currtTask.registers.ebx.toNat 512)
  onTerminal (kernelPrint (if copied.1 = 1 then copied.2 else stack))
  return 0

def isr80hHandleCommand (env : Env) (stack : List Byte) (command : Int) : ConsoleM Nat :=
  if command = systemCommand4SysWrite then
    isr80hCommand4SysWrite env stack
  else
    onKernel (Tasking.isr80hHandleCommand env command)

def isr80hHandler (env : Env) (stack : List Byte) (command : Int) (frame : InterruptFrame) : ConsoleM Nat := do
  onKernel kernelPage
  onKernel (taskCurrentSaveState frame)
  let res ← isr80hHandleCommand env stack command
  onKernel taskPage
  return res

end Console

/-! ## The screen has no effect on the kernel -/

section
variable {α β : Type} {s s' : Console} {k k' : Kernel} {a : α}

/-- What a computation does to the kernel, whatever is printed. -/
def Erases (x : ConsoleM α) (y : KM α) : Prop := ∀ s : Console, (x s).map (fun r => (r.1, r.2.kernel)) = y s.kernel

theorem onKernel_of_ok {x : KM α} (h : x s.kernel = .ok (a, k')) : onKernel x s = .ok (a, { s with kernel := k' }) := by
  unfold onKernel
  rw [h]
  rfl

theorem erases_onKernel (x : KM α) : Erases (onKernel x) x := by
  intro s
  unfold onKernel
  cases x s.kernel <;> rfl

theorem Erases.bind {x : ConsoleM α} {y : KM α} {f : α → ConsoleM β} {g : α → KM β} (hx : Erases x y)
    (hf : ∀ a, Erases (f a) (g a)) :
    Erases (x >>= f) (y >>= g) := by
  intro s
  have h := hx s
  cases hs : x s with
  | error e =>
    rw [hs] at h
    rw [Exec.bind_of_error hs, Exec.bind_of_error h.symm]
    rfl
  | ok r =>
    obtain ⟨a, s'⟩ := r
    rw [hs] at h
    rw [Exec.bind_of_ok hs, Exec.bind_of_ok h.symm]
    exact hf a s'

theorem onTerminal_kernelPrint (str : List Byte) (s : Console) : onTerminal (kernelPrint str) s =
    .ok ((), { s with terminal := (s.terminal.printAll (charAt str) (kernelStrLenght str).toNat).newLine }) := by
  unfold onTerminal kernelPrint
  rw [kernelPrintString_apply]
  rfl

theorem erases_print (str : List Byte) {x : ConsoleM α} {y : KM α} (hx : Erases x y) :
    Erases (do onTerminal (kernelPrint str); x) y := by
  intro s
  rw [Exec.bind_of_ok (onTerminal_kernelPrint str s)]
  exact hx _

theorem erases_isr80hHandler (env : Env) (stack : List Byte) (command : Int) (frame : InterruptFrame) :
    Erases (Console.isr80hHandler env stack command frame) (isr80hHandler env command frame) := by
  have hpure (r : Nat) : Erases (pure r) (pure r : KM Nat) := fun _ => rfl
  have hwrite : Erases (Console.isr80hCommand4SysWrite env stack) (isr80hCommand4SysWrite env) :=
    (erases_onKernel get).bind fun k => (erases_onKernel _).bind fun t => (erases_onKernel _).bind fun _ =>
      erases_print _ (hpure 0)
  have hcommand : Erases (Console.isr80hHandleCommand env stack command) (isr80hHandleCommand env command) := by
    unfold Console.isr80hHandleCommand
    split
    case isTrue h =>
      have hdispatch : isr80hHandleCommand env command = isr80hCommand4SysWrite env := by rw [h]; rfl
      rw [hdispatch]
      exact hwrite
    case isFalse => exact erases_onKernel _
  exact (erases_onKernel _).bind fun _ => (erases_onKernel _).bind fun _ => hcommand.bind fun r =>
    (erases_onKernel _).bind fun _ => hpure r

end

/-! ## A string of user code -/

section
variable {env : Env} {k k0 : Kernel} {task : Task} {p : Process} {virt max tmp t : Nat} {s1 : Sys}
    {frame : InterruptFrame}

/-- The string at an address of a program's own memory, up to its NUL and as far as the kernel copies. -/
def userString (k : Kernel) (p : Process) (virt : Nat) : List Byte :=
  cString (fun i => k.mem ((p.writeAddr (virt + i)).getD 0)) 0 511

theorem takeWhile_userString (k : Kernel) (p : Process) (virt : Nat) :
    (userString k p virt ++ [0]).takeWhile (· ≠ 0) = userString k p virt := by
  have hall : ∀ b ∈ userString k p virt, decide (b ≠ 0) = true := fun b hb =>
    List.mem_takeWhile_imp (p := fun b : Byte => decide (b ≠ 0)) hb
  rw [List.takeWhile_append_of_pos hall]
  exact List.append_nil _

theorem copyStringFromTask_null (halloc : kzalloc env 512 k.toSys = .ok (tmp, s1)) (h0 : tmp = 0) :
    copyStringFromTask env task virt 512 k = .ok ((-1, []), k.withSys s1) := by
  have hcopy : copyStringToPage env .nothing task virt 512 k = .ok (none, k.withSys s1) := by
    unfold copyStringToPage
    rw [if_neg (by decide), Exec.bind_of_ok (onSys_of_ok halloc), if_pos h0]
    rfl
  unfold copyStringFromTask
  rw [Exec.bind_of_ok hcopy]
  rfl

/-- A string in the program's own memory is copied as it is: neither the page it goes through nor a table is there. -/
theorem copied_own (hi : Inv k) (hm : Mapped k) (ht : k.tasks t = some task) (hp : k.procs task.process = some p)
    (hplaced : p.Placed) (hsize : pages p.size.toNat ≤ 511) (hown : ∀ i < 512, (p.writeAddr (virt + i)).isSome)
    (halloc : kzalloc env 512 k.toSys = .ok (tmp, s1)) (h0 : tmp ≠ 0) :
    ∃ k', copyStringFromTask env task virt 512 k = .ok ((1, userString k p virt ++ [0]), k') := by
  have hok : TablesOk k.toSys := hi.ok
  obtain ⟨p', hp', hmap⟩ := hm.tasks t task ht
  rw [hp] at hp'
  cases hp'
  obtain ⟨p', hp', ho⟩ := hi.owns t task ht
  rw [hp] at hp'
  cases hp'
  have hpresent := hmap.present fun q => processMap_and (by decide)
  have hbounds := tmp_bounds hok (by decide) halloc h0
  have hout := tmp_out hok (by decide) halloc h0
  have hlow : 25000 * 4096 ≤ tmp := by
    have z1 : FramesSys kernelBlocks systemBlocks True k.live k.toSys s1 ∧ _ := kzalloc_spec (fun _ => .inr h0) halloc
    obtain ⟨hok1, -, -⟩ := z1.1 hok (List.Subset.refl _)
    exact (hok1.bounds (z1.2 hok h0 ▸ List.mem_cons_self ..)).2.2.1
  have hself : frameOf (pageEntry k.mem task.pageDirectory (tmp / 4096)) = tmp := by
    rw [hmap.entries _ (by omega), processMap_of_out (.inr (by omega)), identityMap,
      frameOf_entry (by omega) (by decide)]
    omega
  have hend : virt + 512 ≤ 2 ^ 32 := by
    have hlast := hown 511 (by decide)
    have hstart : programVirtualStackAddressStart = 0x3FF000 ∧ programVirtualAddress = 0x400000 := by decide
    unfold Process.writeAddr at hlast
    split at hlast
    · omega
    · split at hlast
      · omega
      · cases hlast
  -- where the string is
  have hstring : ∀ i < 512, stringAddr k.mem task.pageDirectory virt i = (p.writeAddr (virt + i)).getD 0 ∧
      (p.image.Covers (stringAddr k.mem task.pageDirectory virt i) ∨
        p.stackLive.Covers (stringAddr k.mem task.pageDirectory virt i)) := by
    intro i hlt
    obtain ⟨addr, haddr⟩ := Option.isSome_iff_exists.1 (hown i hlt)
    have htranslate := translate_userWrite hmap hplaced (show virt + i < 2 ^ 32 by omega)
    rw [haddr] at htranslate
    obtain ⟨-, e⟩ := of_translate htranslate
    have hstring : stringAddr k.mem task.pageDirectory virt i = addr := e.symm
    rw [hstring, haddr]
    exact ⟨rfl, Process.writeAddr_covers hplaced haddr⟩
  have hno : ∀ i < 512, stringAddr k.mem task.pageDirectory virt i / 4096 ≠ tmp / 4096 := by
    intro i hlt
    have hapart : stringAddr k.mem task.pageDirectory virt i < tmp ∨
      tmp + 4096 ≤ stringAddr k.mem task.pageDirectory virt i := by
      rcases (hstring i hlt).2 with hc | hc
      · exact hout _ ho.image _ hc
      · exact hout _ ho.stack _ hc
    omega
  have hcopied : ∀ i < 512, copiedByte k.mem task.pageDirectory virt tmp i =
    k.mem ((p.writeAddr (virt + i)).getD 0) := by
    intro i hlt
    unfold copiedByte
    rw [setUint32_apply, (hstring i hlt).1]
    -- the entry is in a table
    have htable : table k.mem task.pageDirectory (tmp / 4096 / 1024) ∈ spaceBlocks k.mem task.pageDirectory :=
      table_mem (by omega)
    have hnot : ¬ (Live.block (table k.mem task.pageDirectory (tmp / 4096 / 1024))).Covers
      (stringAddr k.mem task.pageDirectory virt i) := by
      rcases (hstring i hlt).2 with hc | hc
      · exact space_apart hi ho.space ho.image rfl hc _ htable
      · exact space_apart hi ho.space ho.stack rfl hc _ htable
    rw [block_covers (ho.space.aligned _ htable)] at hnot
    unfold entryAddr table at *
    omega
  obtain ⟨m2, m3, hin, hback, -⟩ := copy_in hok ho.space hpresent hi.kernelSpace (by decide)
    (by decide) hend halloc h0 hself
    nothing_in (fun x hx => absurd hx (Set.notMem_empty x)) fun i hlt => ⟨hno i hlt, Set.notMem_empty _⟩
  obtain ⟨k', hcopy⟩ := copyStringFromTask_of (by decide) halloc h0 hbounds.1 hin hback
  have hbytes := copyStringFromTask_bytes hok ho.space hpresent hi.kernelSpace (by decide)
    (by decide) hend halloc h0 hself hno hcopy
  have hstr : cString (copiedByte k.mem task.pageDirectory virt tmp) 0 (512 - 1) = userString k p virt :=
    cString_congr fun i _ hlt => hcopied i (by omega)
  rw [hstr] at hbytes
  exact ⟨k', hbytes ▸ hcopy⟩

/-! ## Printing it -/

theorem kernelStrLenght_takeWhile (l : List Byte) :
    kernelStrLenght l = BitVec.ofNat 32 (l.takeWhile (· ≠ 0)).length := by
  induction l with
  | nil => rfl
  | cons b l ih =>
    rw [kernelStrLenght, List.takeWhile_cons]
    by_cases hb : b = 0
    · rw [if_pos hb, if_neg (by rw [decide_eq_true_iff]; exact fun h => h hb)]
      rfl
    · rw [if_neg hb, if_pos (decide_eq_true hb), ih, List.length_cons, BitVec.ofNat_add]
      rfl

theorem bytesOf_append (l l' : List Byte) : bytesOf (charAt (l ++ l')) l.length = l := by
  refine List.ext_getElem? fun i => ?_
  unfold bytesOf
  rw [List.getElem?_map]
  by_cases hi : i < l.length
  · rw [List.getElem?_range hi, Option.map_some]
    unfold charAt
    rw [List.getElem?_append_left hi, List.getElem?_eq_getElem hi]
    rfl
  · rw [List.getElem?_eq_none (by rw [List.length_range]; omega), List.getElem?_eq_none (by omega)]
    rfl

theorem bytesOf_takeWhile (l : List Byte) : bytesOf (charAt l) (l.takeWhile (· ≠ 0)).length = l.takeWhile (· ≠ 0) := by
  have h := bytesOf_append (l.takeWhile (· ≠ 0)) (l.dropWhile (· ≠ 0))
  rwa [List.takeWhile_append_dropWhile] at h

theorem shown_kernelPrint {t : Terminal} (ht : t.words.Inside) {l : List Byte} (hl : l.length < 2 ^ 32) :
    (t.printAll (charAt l) (kernelStrLenght l).toNat).newLine.shown =
      t.shown.printLine ⟨0x20, 0⟩ ((l.takeWhile (· ≠ 0)).map fun a => ⟨a, if a.toNat < 128 then 15 else 0xFF⟩) := by
  have hlen : (l.takeWhile (· ≠ 0)).length ≤ l.length := (List.takeWhile_prefix _).length_le
  have hlength : (kernelStrLenght l).toNat = (l.takeWhile (· ≠ 0)).length := by
    rw [kernelStrLenght_takeWhile]
    exact Nat.mod_eq_of_lt (by omega)
  rw [shown_printString ht, hlength, bytesOf_takeWhile]

/-- The bytes of a line that a write prints: a string of the program, or what is on the stack. -/
def printed (k : Kernel) (p : Process) (virt tmp : Nat) (stack : List Byte) : List Byte :=
  if tmp = 0 then stack.takeWhile (· ≠ 0) else userString k p virt

theorem write_of_copy {k2 : Kernel} {r : Int × List Byte} {l : List Byte} (stack : List Byte) (terminal : Terminal)
    (ht : k.tasks k.currentTask = some task) (hne : k.currentTask ≠ 0) (hok : TablesOk (k.entered task frame).toSys)
    (hcopy : copyStringFromTask env (taskSaveState task frame) frame.ebx.toNat 512 (k.entered task frame) = .ok (r, k2))
    (hl : (if r.1 = 1 then r.2 else stack) = l) :
    ∃ k', Console.isr80hHandler env stack systemCommand4SysWrite frame ⟨k, terminal⟩ =
        .ok (0, ⟨k', (terminal.printAll (charAt l) (kernelStrLenght l).toNat).newLine⟩) ∧
      isr80hHandler env systemCommand4SysWrite frame k = .ok (0, k') ∧ k'.heap = k2.heap := by
  have hsaved : (k.entered task frame).tasks (k.entered task frame).currentTask = some (taskSaveState task frame) :=
    Function.update_self ..
  have hsaved2 : k2.tasks k2.currentTask = some (taskSaveState task frame) := by
    obtain ⟨_, _, _, ⟨_, _, hk2⟩ | ⟨_, _, _, _, _, _, hk2⟩⟩ := of_copyStringFromTask_ok hok (by decide) hcopy
    · rw [hk2]
      exact hsaved
    · rw [hk2]
      exact hsaved
  obtain ⟨k', hpage, hheap⟩ : ∃ k', taskPage k2 = .ok ((), k') ∧ k'.heap = k2.heap := by
    unfold taskPage
    rw [Exec.bind_of_ok (Exec.get_apply _)]
    exact ⟨_, taskSwitch_of hsaved2, rfl⟩
  have hwrite : Console.isr80hHandleCommand env stack systemCommand4SysWrite ⟨k.entered task frame, terminal⟩ =
      .ok (0, ⟨k2, (terminal.printAll (charAt l) (kernelStrLenght l).toNat).newLine⟩) := by
    unfold Console.isr80hHandleCommand Console.isr80hCommand4SysWrite
    rw [if_pos rfl, Exec.bind_of_ok (onKernel_of_ok (Exec.get_apply _)),
      Exec.bind_of_ok (onKernel_of_ok (taskAt_of hsaved)), Exec.bind_of_ok (onKernel_of_ok hcopy), hl,
      Exec.bind_of_ok (onTerminal_kernelPrint _ _)]
    rfl
  have hrun : Console.isr80hHandler env stack systemCommand4SysWrite frame ⟨k, terminal⟩ =
      .ok (0, ⟨k', (terminal.printAll (charAt l) (kernelStrLenght l).toNat).newLine⟩) := by
    unfold Console.isr80hHandler kernelPage pagingSwitch
    rw [Exec.bind_of_ok (onKernel_of_ok (Exec.bind_of_ok (Exec.get_apply _))),
      Exec.bind_of_ok (onKernel_of_ok (taskCurrentSaveState_entered ht hne frame)), Exec.bind_of_ok hwrite,
      Exec.bind_of_ok (onKernel_of_ok hpage)]
    rfl
  have herased := erases_isr80hHandler env stack systemCommand4SysWrite frame ⟨k, terminal⟩
  rw [hrun] at herased
  exact ⟨k', hrun, herased.symm, hheap⟩

/-- A write of the current task, what it prints, and the block it takes. -/
theorem Sound.write (hs : Sound k) (ht : k.tasks k.currentTask = some task) (hp : k.procs task.process = some p)
    (hsize : pages p.size.toNat ≤ 511) (hown : ∀ i < 512, (p.writeAddr (frame.ebx.toNat + i)).isSome)
    (halloc : kzalloc env 512 k.toSys = .ok (tmp, s1)) (stack : List Byte) (hstack : stack.length < 2 ^ 32)
    (terminal : Terminal) (hinside : terminal.words.Inside) :
    ∃ k' terminal', Console.isr80hHandler env stack systemCommand4SysWrite frame ⟨k, terminal⟩ =
    .ok (0, ⟨k', terminal'⟩) ∧
      isr80hHandler env systemCommand4SysWrite frame k = .ok (0, k') ∧
      terminal'.shown = terminal.shown.printLine ⟨0x20, 0⟩
        ((printed k p frame.ebx.toNat tmp stack).map fun a => ⟨a, if a.toNat < 128 then 15 else 0xFF⟩) ∧
        k'.heap = s1.heap := by
  have hne := hs.agrees.nonnull ht
  -- the string is copied with the registers saved
  have hkeeps := keepsSpaces_of_same hs.inv.ok (kept_save ht frame (directoryEntry k.mem k.kernelChunk))
  have hi : Inv (k.entered task frame) := hs.inv.keep hkeeps
  have hok : TablesOk (k.entered task frame).toSys := hi.ok
  have hsaved : (k.entered task frame).tasks k.currentTask = some (taskSaveState task frame) := Function.update_self ..
  unfold printed
  by_cases h0 : tmp = 0
  · rw [if_pos h0]
    have hcopy : copyStringFromTask env (taskSaveState task frame) frame.ebx.toNat 512 (k.entered task frame) =
        .ok ((-1, []), (k.entered task frame).withSys s1) := copyStringFromTask_null halloc h0
    obtain ⟨k', hrun, hkernel, hheap⟩ := write_of_copy stack terminal ht hne hok hcopy rfl
    exact ⟨k', _, hrun, hkernel, shown_kernelPrint hinside hstack, hheap⟩
  · rw [if_neg h0]
    obtain ⟨k2, hcopy⟩ := copied_own hi (hs.mapped.keep hs.inv hkeeps) hsaved hp (hs.placed ht hp) hsize hown halloc h0
    obtain ⟨k', hrun, hkernel, hheap⟩ := write_of_copy stack terminal ht hne hok hcopy (if_pos rfl)
    refine ⟨k', _, hrun, hkernel, ?_, hheap.trans ?_⟩
    · have hmem : userString (k.entered task frame) p frame.ebx.toNat = userString k p frame.ebx.toNat := rfl
      have hle : (userString k p frame.ebx.toNat).length ≤ 511 := length_cString _ 511 0
      have hlength : (userString k p frame.ebx.toNat ++ [0]).length < 2 ^ 32 := by
        rw [List.length_append, List.length_singleton]
        omega
      rw [hmem, shown_kernelPrint hinside hlength, takeWhile_userString]
    · obtain ⟨tmp', s1', halloc', hrest⟩ := of_copyStringFromTask_ok hok (by decide) hcopy
      obtain ⟨rfl, rfl⟩ : tmp = tmp' ∧ s1 = s1' := Prod.mk.inj (Except.ok.inj (halloc.symm.trans halloc'))
      rcases hrest with ⟨-, -, rfl⟩ | ⟨-, m2, m3, -, -, -, rfl⟩
      · rfl
      · rfl

/-- What a program writes shows: the call comes back with 0, and the screen has got the string of the program's memory
as one more line, up to its NUL or 511 bytes. When there is no page to copy it through, the line is what the kernel's
stack has where the string should be. -/
theorem write_call_prints (hfill : FillsBelow env kernelBlocks) (hreach : Reachable env k)
    (ht : k.tasks k.currentTask = some task) (hp : k.procs task.process = some p) (hsize : pages p.size.toNat ≤ 511)
    (hown : ∀ i < 512, (p.writeAddr (frame.ebx.toNat + i)).isSome) (halloc : kzalloc env 512 k.toSys = .ok (tmp, s1))
    (stack : List Byte) (hstack : stack.length < 2 ^ 32) (terminal : Terminal) (hrow : terminal.terminalRow.toNat ≤ 20)
    (hcol : terminal.terminalCol.toNat ≤ 80) :
    ∃ k' terminal', Console.isr80hHandler env stack systemCommand4SysWrite frame ⟨k, terminal⟩ =
    .ok (0, ⟨k', terminal'⟩) ∧
      isr80hHandler env systemCommand4SysWrite frame k = .ok (0, k') ∧
      terminal'.shown = terminal.shown.printLine ⟨0x20, 0⟩
        ((printed k p frame.ebx.toNat tmp stack).map fun a => ⟨a, if a.toNat < 128 then 15 else 0xFF⟩) := by
  obtain ⟨k', terminal', hrun, hkernel, hshown, -⟩ :=
    (reachable_sound hfill hreach).write ht hp hsize hown halloc stack hstack terminal ⟨hrow, hcol⟩
  exact ⟨k', terminal', hrun, hkernel, hshown⟩

end

theorem OneProgram.runs {env : Env} {item : Fat16DirectoryItem} (ho : OneProgram env item) : ∃ k t p, Reachable env k ∧
    UserRuns k ∧
    k.tasks k.currentTask = some t ∧ k.procs t.process = some p ∧ p.size = item.filesize ∧ k.toSys.Room 1 := by
  obtain ⟨k, process, k', slot, ptr, stack, task, chunk, s1, s2, s3, s4, s5, k5, hstart, hstarted, hload, h, hroom⟩ :=
    ho.loaded
  obtain ⟨hp, ⟨t, ht, -, rfl⟩, -, -, -, -⟩ := h.maps hstarted.ok
  obtain ⟨-, hhead, hcurrent, -⟩ := h.first hstarted.taskHead
  have ht' : k'.tasks k'.taskHead = some t := hhead ▸ ht
  have hrun := taskRunFirstEverTask_of (by rw [hcurrent]; exact h.taskNe) ht'
  exact ⟨_, t, _, .step (.step (.start hstart) (.load _ _ hload)) (.run _ hrun), ⟨t, ht', rfl⟩, ht', hp, rfl, hroom⟩

/-- The program passes the start of its own image. -/
def writeFrame : InterruptFrame := { sevenFrame with ebx := BitVec.ofNat 32 programVirtualAddress }

theorem image_written : ∃ k k' p terminal', Reachable smallDisk k ∧
    Console.isr80hHandler smallDisk [] systemCommand4SysWrite writeFrame ⟨k, Terminal.cleared⟩ =
    .ok (0, ⟨k', terminal'⟩) ∧
    isr80hHandler smallDisk systemCommand4SysWrite writeFrame k = .ok (0, k') ∧
    terminal'.shown = Terminal.cleared.shown.printLine ⟨0x20, 0⟩
      ((userString k p programVirtualAddress).map fun a => ⟨a, if a.toNat < 128 then 15 else 0xFF⟩) := by
  obtain ⟨k, t, p, hreach, -, ht, hp, hsize, hroom⟩ := oneProgram_smallDisk.runs
  have hfill : FillsBelow smallDisk kernelBlocks := noFill_smallDisk.below _
  have hok : TablesOk k.toSys := (reachable_inv hfill hreach).ok
  obtain ⟨tmp, s1, halloc, h0, -⟩ := (fresh_start hok hroom (List.nil_subset _)).kzallocPage (n := 0)
    (m := 512) smallDisk (by decide)
  have hpages : pages p.size.toNat = 1 := by
    rw [hsize]
    decide
  have hown : ∀ i < 512, (p.writeAddr (writeFrame.ebx.toNat + i)).isSome := by
    intro i hlt
    have hstart : writeFrame.ebx.toNat = programVirtualAddress := by decide
    have hbelow : programVirtualStackAddressStart ≤ programVirtualAddress := by decide
    unfold Process.writeAddr
    rw [hstart, if_neg (by omega), if_pos (by omega)]
    rfl
  obtain ⟨k', terminal', hrun, hkernel, hshown⟩ :=
    write_call_prints hfill hreach ht hp (by omega) hown halloc [] (by decide)
    Terminal.cleared (by decide) (by decide)
  unfold printed at hshown
  rw [if_neg h0] at hshown
  exact ⟨k, k', p, terminal', hreach, hrun, hkernel, hshown⟩

/-! ## Interrupts come back -/

section
variable {env : Env} {k : Kernel} {t : Task} {frame : InterruptFrame}

theorem kzalloc_returns {n : Nat} (hnull : ∀ mem, ∃ mem', env.nullFill n mem = .ok mem') (s : Sys) :
    ∃ p s', kzalloc env n s = .ok (p, s') := by
  obtain ⟨mem', e⟩ := hnull s.mem
  have hfill : ∀ s1 : Sys, (liftM (env.nullFill n s.mem) : FsM Mem) s1 = .ok (mem', s1) := by
    intro s1
    rw [e]
    rfl
  unfold kzalloc
  rw [Exec.bind_of_ok (kmallac_apply n s), Exec.bind_of_ok (Exec.get_apply _)]
  split
  · exact ⟨_, _, Exec.bind_of_ok (hfill _)⟩
  · exact ⟨_, _, rfl⟩

theorem Agrees.tick_returns (hi : Agrees k) (ht : k.tasks k.currentTask = some t) (frame : InterruptFrame) :
    ∃ r k', isr0x20Handler frame k = .ok (r, k') := by
  have hl : IsList (k.entered t frame) k.processTasks :=
    hi.list.congr (fun a => (kept_save (R := Eq) ht frame _).links a) rfl rfl rfl
  have hm : k.currentTask ∈ k.processTasks := hi.list.only _ (by rw [ht]; rfl)
  obtain ⟨i, hlt, hc⟩ := List.mem_iff_getElem.1 hm
  obtain ⟨u, -, e⟩ := hl.scheduleNextTask hlt hc.symm (by omega)
  unfold isr0x20Handler kernelPage pagingSwitch
  rw [bind_assoc, Exec.bind_of_ok (Exec.get_apply k), Exec.bind_of_ok (Exec.modify_apply ..),
    Exec.bind_of_ok (taskCurrentSaveState_entered ht (hi.nonnull ht) frame)]
  exact ⟨_, _, e⟩

theorem isr80hHandler_of {command : Int} {r : Nat} {k2 : Kernel} {t' : Task} (ht : k.tasks k.currentTask = some t)
    (hne : k.currentTask ≠ 0) (hcommand : isr80hHandleCommand env command (k.entered t frame) = .ok (r, k2))
    (ht' : k2.tasks k2.currentTask = some t') : ∃ k', isr80hHandler env command frame k = .ok (r, k') := by
  have hpage : taskPage k2 = .ok (⟨⟩, { k2 with currentDirectory := directoryEntry k2.mem t'.pageDirectory }) := by
    unfold taskPage
    rw [Exec.bind_of_ok (Exec.get_apply k2)]
    exact taskSwitch_of ht'
  unfold isr80hHandler kernelPage pagingSwitch
  rw [bind_assoc, Exec.bind_of_ok (Exec.get_apply k), Exec.bind_of_ok (Exec.modify_apply ..),
    Exec.bind_of_ok (taskCurrentSaveState_entered ht hne frame), Exec.bind_of_ok hcommand, Exec.bind_of_ok hpage]
  exact ⟨_, rfl⟩

/-- Every system call comes back but the one that is made to panic. -/
theorem Sound.call_returns (hs : Sound k) (hnull : ∀ mem, ∃ mem', env.nullFill 512 mem = .ok mem')
    (ht : k.tasks k.currentTask = some t) (frame : InterruptFrame) (command : Int) :
    (∃ r k', isr80hHandler env command frame k = .ok (r, k')) ↔ command ≠ systemCommand0Sum := by
  have hne := hs.agrees.nonnull ht
  have hsaved : (k.entered t frame).tasks k.currentTask = some (taskSaveState t frame) := Function.update_self ..
  constructor
  · rintro ⟨r, k', h⟩ rfl
    obtain ⟨t1, k2, t2, -, -, hcommand, -⟩ := of_isr80hHandler_ok h
    unfold isr80hHandleCommand at hcommand
    rw [if_neg (by decide), if_pos rfl] at hcommand
    cases hcommand
  · intro hsum
    by_cases hwrite : command = systemCommand4SysWrite
    · subst hwrite
      have hkeeps := keepsSpaces_of_same hs.inv.ok (kept_save ht frame (directoryEntry k.mem k.kernelChunk))
      have hi : Inv (k.entered t frame) := hs.inv.keep hkeeps
      obtain ⟨_, _, ho⟩ := hi.owns _ _ hsaved
      obtain ⟨p, hp, hmap⟩ := (hs.mapped.keep hs.inv hkeeps).tasks _ _ hsaved
      obtain ⟨tmp, s1, halloc⟩ := kzalloc_returns hnull (k.entered t frame).toSys
      obtain ⟨r, k2, hcopy⟩ : ∃ r k2, copyStringFromTask env (taskSaveState t frame) frame.ebx.toNat 512
        (k.entered t frame) =
          .ok (r, k2) := by
        by_cases h0 : tmp = 0
        · exact ⟨_, _, copyStringFromTask_null halloc h0⟩
        · exact copyStringFromTask_page hi.ok ho.space (hmap.present fun q => processMap_and (by decide)) (by decide)
            (by decide) _ halloc h0
      obtain ⟨k', -, e, -⟩ := write_of_copy [] Terminal.cleared ht hne hi.ok hcopy rfl
      exact ⟨0, k', e⟩
    · have hcommand : isr80hHandleCommand env command (k.entered t frame) = .ok (0, k.entered t frame) := by
        unfold isr80hHandleCommand
        rw [if_neg hsum, if_neg hwrite, ite_self]
        rfl
      obtain ⟨k', e⟩ := isr80hHandler_of ht hne hcommand hsaved
      exact ⟨0, k', e⟩

end

/-! ## How often a page is left -/

/-- What happens is a write call that gets a page for its string. -/
def GetsPage (env : Env) (k : Kernel) (h : Happening) : Prop :=
  ∃ frame tmp s1, h = .call systemCommand4SysWrite frame ∧ kzalloc env 512 k.toSys = .ok (tmp, s1) ∧ tmp ≠ 0

/-- A run in which so many write calls get a page. -/
inductive RunsWriting (env : Env) : Nat → Kernel → Kernel → Prop where
  | nil (k : Kernel) : RunsWriting env 0 k k
  | write {n : Nat} {k k1 k' : Kernel} {h : Happening} : Does env k h k1 → GetsPage env k h → RunsWriting env n k1 k' →
      RunsWriting env (n + 1) k k'
  | other {n : Nat} {k k1 k' : Kernel} {h : Happening} : Does env k h k1 → ¬ GetsPage env k h →
    RunsWriting env n k1 k' →
      RunsWriting env n k k'

section
variable {env : Env} {k k' : Kernel} {h : Happening}

theorem step_live (hfill : FillsBelow env kernelBlocks) (hi : Inv k) (h : Step env k k') : k.live ⊆ k'.live := by
  rcases step_spaces hfill hi h with hk | ⟨_, _, _, _, _, _, _, _, _, _, _, _, _, _, hl⟩
  · exact hk.live
  · have howned : FramesSys kernelBlocks systemBlocks True k.live k.toSys k'.toSys ∧ _ :=
      hl.owned (fun _ => hfill) hi.ok
    exact (howned.1 hi.ok (List.Subset.refl _)).2.1

/-- The page of a write call stays. -/
theorem GetsPage.live (hi : Inv k) (hd : Does env k h k') (hg : GetsPage env k h) :
    ∃ a, blockCount a.size = 1 ∧ a ∉ k.live ∧ a :: k.live ⊆ k'.live := by
  obtain ⟨frame, tmp, s1, rfl, halloc, h0⟩ := hg
  obtain ⟨-, r, hcall⟩ := hd
  have hok : TablesOk k.toSys := hi.ok
  have z1 : FramesSys kernelBlocks systemBlocks False [] k.toSys s1 ∧ _ := kzalloc_spec False.elim halloc
  have hlive := z1.2 hok h0
  obtain ⟨t, k2, t', -, -, hcommand, -, rfl⟩ := of_isr80hHandler_ok hcall
  rw [isr80hHandleCommand_write] at hcommand
  unfold isr80hCommand4SysWrite at hcommand
  rw [Exec.bind_of_ok (Exec.get_apply _)] at hcommand
  obtain ⟨u, k3, hu, hcommand⟩ := Exec.of_bind_ok hcommand
  obtain ⟨-, rfl⟩ := of_taskAt_ok hu
  obtain ⟨res, k4, hcopy, hcommand⟩ := Exec.of_bind_ok hcommand
  obtain ⟨-, rfl⟩ := Exec.of_pure_ok hcommand
  have hentered : TablesOk (k.entered t frame).toSys := hok
  obtain ⟨tmp', s1', halloc', hrest⟩ := of_copyStringFromTask_ok hentered (by decide) hcopy
  obtain ⟨rfl, rfl⟩ : tmp = tmp' ∧ s1 = s1' := Prod.mk.inj (Except.ok.inj (halloc.symm.trans halloc'))
  refine ⟨⟨tmp, 512, .kheap⟩, rfl, fun hin => ?_, ?_⟩
  · obtain ⟨hok1, -, -⟩ := z1.1 hok (List.nil_subset _)
    exact (hok1.fresh hlive _ hin).addr_ne rfl
  · have hk4 : k4.live = s1.live := by
      rcases hrest with ⟨-, -, rfl⟩ | ⟨-, m2, m3, -, -, -, rfl⟩
      · rfl
      · rfl
    show _ ⊆ k4.live
    rw [hk4, hlive]
    exact List.Subset.refl _

/-- The page a write call gets is never given back, and no step gives back what is held: in any run at most as many
write calls print what a program passes as there were blocks left before it. -/
theorem writes_bounded (hfill : FillsBelow env kernelBlocks) (hreach : Reachable env k) {n : Nat}
    (hrun : RunsWriting env n k k') :
    n + liveBlocks k.live ≤ systemBlocks - kernelBlocks := by
  have hi := reachable_inv hfill hreach
  suffices n + liveBlocks k.live ≤ liveBlocks k'.live ∧ Inv k' from
    Nat.le_trans this.1 (this.2.ok.liveBlocks_le)
  clear hreach
  induction hrun with
  | nil k => exact ⟨Nat.le_of_eq (Nat.zero_add _), hi⟩
  | @write n k k1 k' h hd hg _ ih =>
    have hi1 : Inv k1 := step_inv hfill hi (step_iff_does.2 ⟨_, hd⟩)
    obtain ⟨a, hsize, hnew, hsub⟩ := hg.live hi hd
    have hnodup : (a :: k.live).Nodup := List.nodup_cons.2 ⟨hnew, hi.ok.nodup⟩
    have hle := liveBlocks_mono hnodup hsub
    rw [liveBlocks_cons, hsize] at hle
    obtain ⟨hrest, hi'⟩ := ih hi1
    exact ⟨by omega, hi'⟩
  | @other n k k1 k' h hd _ _ ih =>
    have hstep := step_iff_does.2 ⟨_, hd⟩
    have hle : liveBlocks k.live ≤ liveBlocks k1.live := liveBlocks_mono hi.ok.nodup (step_live hfill hi hstep)
    obtain ⟨hrest, hi'⟩ := ih (step_inv hfill hi hstep)
    exact ⟨by omega, hi'⟩

end

theorem one_write_bounded : ∃ k k', RunsWriting smallDisk 1 k k' ∧
    1 + liveBlocks k.live ≤ systemBlocks - kernelBlocks := by
  obtain ⟨k, t, p, hreach, hruns, ht, -, -, hroom⟩ := oneProgram_smallDisk.runs
  have hfill : FillsBelow smallDisk kernelBlocks := noFill_smallDisk.below _
  have hs := reachable_sound hfill hreach
  have hi := hs.inv
  have hok : TablesOk k.toSys := hi.ok
  obtain ⟨tmp, s1, halloc, h0, -⟩ := (fresh_start hok hroom (List.nil_subset _)).kzallocPage (n := 0)
    (m := 512) smallDisk (by decide)
  obtain ⟨p, hp, hmap⟩ := hs.mapped.tasks _ t ht
  obtain ⟨_, _, ho⟩ := hi.owns _ t ht
  obtain ⟨r, k', hcall⟩ := isr80hHandler_write_ok smallDisk hok ht (hs.agrees.nonnull ht) ho.space
    (hmap.present fun q => processMap_and (by decide)) hroom writeFrame
  have hdoes : Does smallDisk k (.call systemCommand4SysWrite writeFrame) k' := ⟨hruns, r, hcall⟩
  have hrun : RunsWriting smallDisk 1 k k' := .write hdoes ⟨writeFrame, tmp, s1, rfl, halloc, h0⟩ (.nil k')
  exact ⟨k, k', hrun, writes_bounded hfill hreach hrun⟩

end SimpleMicrokernel.Tasking
