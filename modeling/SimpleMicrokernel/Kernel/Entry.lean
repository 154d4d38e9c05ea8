/-
The way of user code into the kernel. What an interrupt pushes goes through the directory of the task it stops, before
the handler loads the kernel's; while no image reaches the page below `tss.esp0` it stays on the kernel's stack, and the
handler finds it there. In the runs of this file user code is stopped with its registers, memory holds what was pushed,
and a handler is given what it reads back.
-/
import SimpleMicrokernel.Kernel.Write

namespace SimpleMicrokernel.Tasking

open Memory Fs Paging TimeShare

/-! ## What happens on the machine -/

/-- No image reaches the page below `tss.esp0`. -/
def Kernel.KeepsEntry (k : Kernel) : Prop :=
  ∀ a t p, k.tasks a = some t → k.procs t.process = some p → p.size.toNat ≤ 0x1FF000

/-- The processor while user code runs; the registers of that are known when it is stopped. -/
def Kernel.processor (k : Kernel) : Machine :=
  ⟨0, 0, 0, 0, 0, 0, 0, 0, 0, 0, 0, 0, 0, k.mem, through k.mem k.currentDirectory⟩

/-- User code that has the registers `u` is stopped: the kernel with what was pushed in memory, and the processor when
the handler has loaded the kernel's directory. -/
def Kernel.stopped (k : Kernel) (wrapper : Machine → Machine) (u : Registers) : Kernel × Machine :=
  let m := wrapper (k.processor.interrupt u)
  ({ k with mem := m.mem }, { m with page := through m.mem (directoryEntry m.mem k.kernelChunk) })

/-- The arguments `isr80h_handler` is given. -/
def Machine.command (m : Machine) : Int := (m.word m.esp).toInt
def Machine.callFrame (m : Machine) : InterruptFrame := m.frameAt (m.word (m.esp + 4))

inductive Occurrence where
  | load (filename : List Byte)
  | run
  | tick (u : Registers)
  | call (u : Registers)
  | store (virt : BitVec 32) (c : Byte)

def Occurs (env : Env) (k : Kernel) (o : Occurrence) (k' : Kernel) : Prop :=
  match o with
  | .load filename => ∃ r, processLoad env filename k = .ok (r, k')
  | .run => ∃ r, taskRunFirstEverTask k = .ok (r, k')
  | .tick u => UserRuns k ∧
    ∃ r, isr0x20Handler (k.stopped isr0x20Wrapper u).2.handlerFrame (k.stopped isr0x20Wrapper u).1 = .ok (r, k')
  | .call u => UserRuns k ∧
    ∃ r, isr80hHandler env (k.stopped isr80hWrapperCall u).2.command (k.stopped isr80hWrapperCall u).2.callFrame
      (k.stopped isr80hWrapperCall u).1 = .ok (r, k')
  | .store virt c => UserRuns k ∧ userStore virt c k = .ok (⟨⟩, k')

/-- A run in which every directory keeps the way into the kernel: what happened, and the current task at the time. -/
inductive Course (env : Env) : Kernel → List (Nat × Occurrence) → Kernel → Prop where
  | nil (k : Kernel) : Course env k [] k
  | cons {k k1 k' : Kernel} {o : Occurrence} {os : List (Nat × Occurrence)} : k.KeepsEntry → Occurs env k o k1 →
      Course env k1 os k' → Course env k ((k.currentTask, o) :: os) k'

/-- The kernel has started, and has run in this way since. -/
def InCourse (env : Env) (k : Kernel) : Prop :=
  ∃ mem k0 os, startPaging env (initial mem) = .ok (⟨⟩, k0) ∧ Course env k0 os k

/-- What the kernel makes of it. -/
def Occurrence.happening : Occurrence → Happening
  | .load filename => .load filename
  | .run => .run
  | .tick u => .tick (stoppedFrame u)
  | .call u => .call u.eax.toInt (stoppedFrame u)
  | .store virt c => .store virt c

def happenings (os : List (Nat × Occurrence)) : List (Nat × Happening) := os.map fun e => (e.1, e.2.happening)

/-! ## The frame on the stack -/

section
variable {m m' m0 : Machine} {u : Registers} {reserved : BitVec 32} {low top a : Nat} {l ws : List (BitVec 32)}

theorem frameAt_of_words (hown : m.Own a (a + 52)) (htop : a + 52 ≤ 2 ^ 32)
    (h : ∀ i v, (frameWords u reserved)[i]? = some v → uint32At m.mem (a + 4 * i) = v) :
    m.frameAt (BitVec.ofNat 32 a) = { stoppedFrame u with reserved := reserved } := by
  have hword : ∀ i v, (frameWords u reserved)[i]? = some v →
      m.word (BitVec.ofNat 32 a + BitVec.ofNat 32 (4 * i)) = v := by
    intro i v hv
    have hi : i < 13 := (List.getElem?_eq_some_iff.1 hv).1
    have haddr := toNat_offset (a := a) (d := 4 * i) (by omega)
    rw [word_own, haddr]
    · exact h i v hv
    · rw [haddr]
      exact fun x h1 h2 => hown x (by omega) (by omega)
  have h0 : m.word (BitVec.ofNat 32 a) = u.edi := (congrArg m.word (BitVec.add_zero _).symm).trans (hword 0 _ rfl)
  unfold Machine.frameAt stoppedFrame
  rw [h0, show m.word (BitVec.ofNat 32 a + 4) = _ from hword 1 _ rfl,
    show m.word (BitVec.ofNat 32 a + 8) = _ from hword 2 _ rfl,
    show m.word (BitVec.ofNat 32 a + 12) = _ from hword 3 _ rfl,
    show m.word (BitVec.ofNat 32 a + 16) = _ from hword 4 _ rfl,
    show m.word (BitVec.ofNat 32 a + 20) = _ from hword 5 _ rfl,
    show m.word (BitVec.ofNat 32 a + 24) = _ from hword 6 _ rfl,
    show m.word (BitVec.ofNat 32 a + 28) = _ from hword 7 _ rfl,
    show m.word (BitVec.ofNat 32 a + 32) = _ from hword 8 _ rfl,
    show m.word (BitVec.ofNat 32 a + 36) = _ from hword 9 _ rfl,
    show m.word (BitVec.ofNat 32 a + 40) = _ from hword 10 _ rfl,
    show m.word (BitVec.ofNat 32 a + 44) = _ from hword 11 _ rfl,
    show m.word (BitVec.ofNat 32 a + 48) = _ from hword 12 _ rfl]

theorem Machine.Stacked.mono {low' : Nat} (h : m0.Stacked low top l m) (hlow : low' ≤ low) : m0.Stacked low' top l m :=
  ⟨h.esp, h.page, h.words, fun x hx => h.other x (by omega)⟩

theorem Machine.Stacked.switched (h : m0.Stacked low top l m) (page : Nat → Nat) :
    Machine.Stacked { m0 with page := page } low top l { m with page := page } :=
  ⟨h.esp, rfl, h.words, h.other⟩

/-- The frame on a stack, below the words pushed after it. -/
theorem Machine.Stacked.frame (h : m0.Stacked low top (ws ++ frameWords u reserved ++ l) m)
    (hpage : m'.Own low top) (hlen : low + 4 * (ws.length + 13 + l.length) ≤ top) (htop : top < 2 ^ 32)
    (hmem : ∀ x, top - 4 * (13 + l.length) ≤ x → x < top → m'.mem x = m.mem x) :
    m'.frameAt (BitVec.ofNat 32 (top - 4 * (13 + l.length))) = { stoppedFrame u with reserved := reserved } := by
  have hlength : (ws ++ frameWords u reserved ++ l).length = ws.length + 13 + l.length := by
    rw [List.length_append, List.length_append]
    rfl
  refine frameAt_of_words (fun x h1 h2 => hpage x (by omega) (by omega)) (by omega) fun i v hv => ?_
  have hi : i < 13 := (List.getElem?_eq_some_iff.1 hv).1
  have hword := h.words (ws.length + i) v ?_
  · rw [hlength] at hword
    rw [← hword]
    have haddr : top - 4 * (13 + l.length) + 4 * i = top - 4 * (ws.length + 13 + l.length) + 4 * (ws.length + i) := by
      omega
    rw [haddr]
    exact uint32At_congr fun x h1 h2 => hmem x (by omega) (by omega)
  · rw [List.append_assoc, List.getElem?_append_right (by omega), Nat.add_sub_cancel_left]
    rwa [List.getElem?_append_left (by simp only [frameWords, List.length_cons, List.length_nil]; exact hi)]

/-- The kernel's stack in a system call: the command, the address of the frame, the frame. -/
theorem stacked_call (m : Machine) (u : Registers) (hown : m.Own (esp0 - 60) esp0) :
    m.Stacked (esp0 - 60) esp0 ([u.eax, tssEsp0 - 52] ++ frameWords u (tssEsp0 - 20) ++ [])
      (isr80hWrapperCall (m.interrupt u)) := by
  have h : m.Stacked (esp0 - 60) esp0 _ (isr0x20Wrapper (m.interrupt u)) :=
    (stacked_wrapper m u fun x h1 h2 => hown x (by unfold esp0; omega) h2).mono (by decide)
  exact h.push hown (by decide) (by simp [frameWords, esp0]) u.eax

end

/-! ## What the handlers find -/

section
variable {env : Env} {k k' : Kernel} {u : Registers} {o : Occurrence} {os : List (Nat × Occurrence)} {a lo hi : Nat}
  {t : Task} {l : List (BitVec 32)} {wrapper : Machine → Machine}

theorem Sound.entryPath (hs : Sound k) (hentry : k.KeepsEntry) (ht : k.tasks a = some t) :
    KeepsEntryPath k.mem (directoryEntry k.mem t.pageDirectory) := by
  obtain ⟨p, hp, hmap⟩ := hs.mapped.tasks a t ht
  exact keepsEntryPath_of hmap.entries hmap.flags (hentry a t p ht hp)

theorem Sound.kernel_mapsOwn (hs : Sound k) (hhi : hi ≤ 2 ^ 32) :
    MapsOwn k.mem (directoryEntry k.mem k.kernelChunk) lo hi :=
  fun _ _ h2 => translate_self (kernelFlags.setWidth 32) (hs.mapped.kernel.entries _ (by omega)) (by decide) (by decide)
    hs.mapped.kernel.flags (by decide) (by omega)

theorem Sound.directory_keep {mem : Mem} (hs : Sound k) (ht : k.tasks a = some t)
    (hmem : ∀ b ∈ k.live, ∀ x, b.Covers x → mem x = k.mem x) :
    directoryEntry mem t.pageDirectory = directoryEntry k.mem t.pageDirectory := by
  obtain ⟨_, _, ho⟩ := hs.inv.owns _ t ht
  have hblocks := (IsSpace.keep ho.space (List.Subset.refl _) fun b hb _ => hmem b hb).2.1
  exact (List.cons.inj (List.cons.inj hblocks).2).1

/-- Memory below all that is held is no task's. -/
theorem Sound.below {mem : Mem} (hs : Sound k) (hmem : ∀ x, kernelBlocks * 4096 ≤ x → mem x = k.mem x) :
    Sound { k with mem := mem } ∧ Kernel.shared { k with mem := mem } = k.shared ∧
      (UserRuns k → UserRuns { k with mem := mem }) := by
  have hok : TablesOk k.toSys := hs.inv.ok
  have hheld : ∀ b ∈ k.live, ∀ x, b.Covers x → mem x = k.mem x := by
    intro b hb x hx
    obtain ⟨halign, -, hlow, -⟩ := hok.bounds hb
    exact hmem x (Nat.le_trans hlow ((Live.covers_iff halign).1 hx).1)
  have hkeeps : KeepsSpaces k { k with mem := mem } :=
    ⟨kept_of_eq trivial rfl rfl rfl rfl rfl rfl, hok.withMem mem, List.Subset.refl _, fun b hb _ => hheld b hb⟩
  have hagrees := hs.agrees.kept hkeeps.kept hkeeps.ok (List.Subset.refl _) (.inl rfl)
  have hs' : Sound { k with mem := mem } := ⟨hs.inv.keep hkeeps, hs.mapped.keep hs.inv hkeeps, hagrees, hs.apart⟩
  refine ⟨hs', ?_, fun ⟨t, ht, hdirectory⟩ => ⟨t, ht, hdirectory.trans (hs.directory_keep ht hheld).symm⟩⟩
  have hprogram : Kernel.program { k with mem := mem } = k.program := by
    funext a
    cases ht : k.tasks a with
    | none => rw [program_none.2 ht, program_none.2 (show Kernel.tasks { k with mem := mem } a = none from ht)]
    | some t =>
      obtain ⟨p, -, -, e⟩ := hs.program ht
      have ht' : Kernel.tasks { k with mem := mem } a = some t := ht
      rw [hs.program_framed hs' ht ht' rfl rfl hheld, e]
      rfl
  unfold Kernel.shared
  rw [hprogram]
  rfl

/-- What was pushed is on the kernel's stack in both directories, and everything else is as it was. -/
theorem Sound.stopped (hs : Sound k)
    (hstack : k.processor.Stacked (esp0 - 60) esp0 l (wrapper (k.processor.interrupt u))) :
    Sound (k.stopped wrapper u).1 ∧ (k.stopped wrapper u).1.shared = k.shared ∧
      (UserRuns k → UserRuns (k.stopped wrapper u).1) ∧ (k.stopped wrapper u).2.Own (esp0 - 60) esp0 := by
  obtain ⟨hs', hshared, hruns⟩ := hs.below fun x hx => hstack.other x (.inr (Nat.le_trans (by decide) hx))
  exact ⟨hs', hshared, hruns, (over_through rfl).own (hs'.kernel_mapsOwn (by decide))⟩

theorem Sound.entry_own (hs : Sound k) (hentry : k.KeepsEntry) (hruns : UserRuns k) :
    k.processor.Own (esp0 - 60) esp0 := by
  obtain ⟨t, ht, hdirectory⟩ := hruns
  have hpath := hs.entryPath hentry ht
  rw [← hdirectory] at hpath
  exact (over_through rfl).own fun x h1 h2 => hpath x (.inr ⟨Nat.le_trans (by decide) h1, h2⟩)

theorem Sound.tick_stopped (hs : Sound k) (hentry : k.KeepsEntry) (hruns : UserRuns k) :
    Sound (k.stopped isr0x20Wrapper u).1 ∧ (k.stopped isr0x20Wrapper u).1.shared = k.shared ∧
      UserRuns (k.stopped isr0x20Wrapper u).1 ∧ (k.stopped isr0x20Wrapper u).2.handlerFrame = stoppedFrame u := by
  have hown := hs.entry_own hentry hruns
  have hown : k.processor.Own (esp0 - 56) esp0 := fun x h1 h2 => hown x (Nat.le_trans (by decide) h1) h2
  have hstack : k.processor.Stacked (esp0 - 60) esp0 _ _ := (stacked_wrapper k.processor u hown).mono (by decide)
  obtain ⟨hs', hshared, hruns', hkernel⟩ := hs.stopped hstack
  exact ⟨hs', hshared, hruns' hruns,
    frameAt_wrapper hown (fun x h1 h2 => hkernel x (Nat.le_trans (by decide) h1) h2) rfl rfl⟩

/-- A system call finds the command in `eax`, and the registers. -/
theorem Sound.call_stopped (hs : Sound k) (hentry : k.KeepsEntry) (hruns : UserRuns k) :
    Sound (k.stopped isr80hWrapperCall u).1 ∧ (k.stopped isr80hWrapperCall u).1.shared = k.shared ∧
      UserRuns (k.stopped isr80hWrapperCall u).1 ∧ (k.stopped isr80hWrapperCall u).2.command = u.eax.toInt ∧
      (k.stopped isr80hWrapperCall u).2.callFrame = stoppedFrame u := by
  have hstack := stacked_call k.processor u (hs.entry_own hentry hruns)
  obtain ⟨hs', hshared, hruns', hkernel⟩ := hs.stopped hstack
  have hpushed : Machine.Stacked _ _ _ _ (k.stopped isr80hWrapperCall u).2 :=
    hstack.switched (k.stopped isr80hWrapperCall u).2.page
  have hcommand : (k.stopped isr80hWrapperCall u).2.word (k.stopped isr80hWrapperCall u).2.esp = u.eax :=
    hpushed.word_top hkernel (by decide) (by simp [frameWords, esp0])
  have hptr : (k.stopped isr80hWrapperCall u).2.word ((k.stopped isr80hWrapperCall u).2.esp + 4) =
      BitVec.ofNat 32 (esp0 - 52) :=
    (hpushed.word (i := 1) hkernel (by decide) (by simp [frameWords, esp0]) rfl).trans (by decide)
  refine ⟨hs', hshared, hruns' hruns, congrArg BitVec.toInt hcommand, ?_⟩
  unfold Machine.callFrame
  rw [hptr]
  exact hpushed.frame hkernel (by simp [esp0]) (by decide) fun _ _ _ => rfl

/-! ## Runs -/

/-- What happens on the machine is a step of the kernel, in a state that shows the same. -/
theorem Occurs.does (hs : Sound k) (hentry : k.KeepsEntry) (ho : Occurs env k o k') :
    ∃ k0, Sound k0 ∧ k0.shared = k.shared ∧ k0.currentTask = k.currentTask ∧ Does env k0 o.happening k' := by
  cases o with
  | load filename => exact ⟨k, hs, rfl, rfl, ho⟩
  | run => exact ⟨k, hs, rfl, rfl, ho⟩
  | tick u =>
    obtain ⟨hruns, htick⟩ := ho
    obtain ⟨hs', hshared, hruns', hframe⟩ := hs.tick_stopped (u := u) hentry hruns
    rw [hframe] at htick
    exact ⟨_, hs', hshared, rfl, hruns', htick⟩
  | call u =>
    obtain ⟨hruns, hcall⟩ := ho
    obtain ⟨hs', hshared, hruns', hcommand, hframe⟩ := hs.call_stopped (u := u) hentry hruns
    rw [hcommand, hframe] at hcall
    exact ⟨_, hs', hshared, rfl, hruns', hcall⟩
  | store virt c => exact ⟨k, hs, rfl, rfl, ho⟩

/-- What happens is a few events of the machines, in the turn of the current task. -/
theorem occurs_shows (hfill : FillsBelow env kernelBlocks) (hs : Sound k) (hentry : k.KeepsEntry)
    (ho : Occurs env k o k') :
    Sound k' ∧ ∃ evs, Shows o.happening evs ∧
    Steps Program.act k.shared (evs.map (turnOf k.currentTask, ·)) k'.shared := by
  obtain ⟨k0, hs0, hshared, hcurrent, hd⟩ := ho.does hs hentry
  have hshows := step_shows hfill hs0 hd
  rw [hshared, hcurrent] at hshows
  exact ⟨step_sound hfill hs0 hd.step, hshows⟩

theorem course_shown (hfill : FillsBelow env kernelBlocks) (hs : Sound k) (h : Course env k os k') :
    Sound k' ∧ ∃ es, Shown (happenings os) es ∧ Steps Program.act k.shared es k'.shared := by
  induction h with
  | nil k => exact ⟨hs, [], .nil, .nil _⟩
  | cons hentry ho _ ih =>
    obtain ⟨hs1, evs, hshows, hstep⟩ := occurs_shows hfill hs hentry ho
    obtain ⟨hs', es, hshown, hsteps⟩ := ih hs1
    exact ⟨hs', _, .cons hshows hshown, hstep.append hsteps⟩

theorem InCourse.sound (hfill : FillsBelow env kernelBlocks) (h : InCourse env k) : Sound k := by
  obtain ⟨mem, k0, os, hstart, hcourse⟩ := h
  exact (course_shown hfill (sound_start hstart) hcourse).1

/-- Every run of the kernel is a run of machines that take turns: a machine for each task, with the registers and the
memory of its own; the queue in the order of the process table; a load that succeeds starts one; a tick saves the
registers of the one whose turn it is and passes the turn on; a system call saves them; and a store acts on its own
memory. -/
theorem kernel_takes_turns (hfill : FillsBelow env kernelBlocks) (hrun : InCourse env k) (h : Course env k os k') :
    k.shared.Ok ∧ k'.shared.Ok ∧ ∃ es, Shown (happenings os) es ∧ Steps Program.act k.shared es k'.shared := by
  have hs := hrun.sound hfill
  obtain ⟨hs', hes⟩ := course_shown hfill hs h
  exact ⟨shared_ok hs.agrees, shared_ok hs'.agrees, hes⟩

/-- A task goes on with what it left: whatever is loaded, called, stored and scheduled in between, its registers and
its memory are those it had with what was done in its own turns. -/
theorem program_after_run (hfill : FillsBelow env kernelBlocks) (hrun : InCourse env k) (h : Course env k os k')
    {s : Program} (ha : k.program a = some s) : k'.program a = (actionsOf a (happenings os)).foldlM Program.act s := by
  have hs := hrun.sound hfill
  obtain ⟨-, es, hshown, hsteps⟩ := course_shown hfill hs h
  obtain ⟨t, ht, -⟩ := Option.map_eq_some_iff.1 ha
  have hmachine := hsteps.machine (shared_ok hs.agrees) (i := a) ha
  rw [hshown.acts (hs.agrees.nonnull ht)] at hmachine
  exact hmachine

/-- No interrupt stops the kernel while user code runs and the directories keep the way in: a tick comes back, and so
does every system call but the one that is made to panic. -/
theorem interrupts_return (hfill : FillsBelow env kernelBlocks)
    (hnull : ∀ mem, ∃ mem', env.nullFill 512 mem = .ok mem') (hrun : InCourse env k) (hentry : k.KeepsEntry)
    (hruns : UserRuns k) (u : Registers) :
    (∃ k', Occurs env k (.tick u) k') ∧ ((∃ k', Occurs env k (.call u) k') ↔ u.eax.toInt ≠ systemCommand0Sum) := by
  have hs := hrun.sound hfill
  obtain ⟨hs1, -, ⟨t1, ht1, -⟩, -⟩ := hs.tick_stopped (u := u) hentry hruns
  obtain ⟨hs2, -, ⟨t2, ht2, -⟩, hcommand, -⟩ := hs.call_stopped (u := u) hentry hruns
  constructor
  · obtain ⟨r, k', htick⟩ := hs1.agrees.tick_returns ht1 (k.stopped isr0x20Wrapper u).2.handlerFrame
    exact ⟨k', hruns, r, htick⟩
  · have hcalls := hs2.call_returns hnull ht2 (k.stopped isr80hWrapperCall u).2.callFrame
    rw [← hcommand, ← hcalls]
    constructor
    · rintro ⟨k', -, r, hcall⟩
      exact ⟨r, k', hcall⟩
    · rintro ⟨r, k', hcall⟩
      exact ⟨k', hruns, r, hcall⟩

end

/-! ## A program that runs alone -/

section
variable {env : Env} {item : Fat16DirectoryItem} {k : Kernel}

/-- The program of a disk with one keeps the way in when it is not longer than that allows. -/
theorem OneProgram.running (ho : OneProgram env item) (hsize : item.filesize.toNat ≤ 0x1FF000) :
    ∃ k, InCourse env k ∧ UserRuns k ∧ k.KeepsEntry := by
  obtain ⟨k, process, k', slot, ptr, stack, task, chunk, s1, s2, s3, s4, s5, k5, hstart, hstarted, hload, h, -⟩ :=
    ho.loaded
  obtain ⟨hp, -⟩ := h.maps hstarted.ok
  obtain ⟨htasks, hhead, hcurrent, -⟩ := h.first hstarted.taskHead
  have hnone : k.tasks = fun _ => none := by
    obtain ⟨-, -, s, s', -, -, e⟩ := tablesOk_startPaging hstart
    rw [e]
    rfl
  have hentry : k'.KeepsEntry := by
    intro a t p ht hprocess
    rw [htasks, hnone] at ht
    by_cases ha : a = task
    · subst ha
      rw [Function.update_self] at ht
      cases ht
      have hp : k'.procs process = _ := hp
      rw [show k'.procs process = some p from hprocess] at hp
      cases hp
      exact hsize
    · rw [Function.update_of_ne ha] at ht
      cases ht
  have ht : k'.tasks k'.taskHead = some ⟨chunk, initialRegisters, process, 0, 0⟩ := by
    rw [htasks, hhead]
    exact Function.update_self ..
  have hrun := taskRunFirstEverTask_of (by rw [hcurrent]; exact h.taskNe) ht
  have hfirst : k.KeepsEntry := by
    intro a t p ht
    rw [hnone] at ht
    cases ht
  have hcourse : Course env k [(_, .load _), (_, .run)] _ := .cons hfirst ⟨_, hload⟩ (.cons hentry ⟨_, hrun⟩ (.nil _))
  exact ⟨_, ⟨_, k, _, hstart, hcourse⟩, ⟨_, ht, rfl⟩, hentry⟩

end

theorem running_smallDisk : ∃ k, InCourse smallDisk k ∧ UserRuns k ∧ k.KeepsEntry :=
  oneProgram_smallDisk.running (by decide)

theorem small_interrupts_return : ∃ k, InCourse smallDisk k ∧ UserRuns k ∧
    (∃ k', Occurs smallDisk k (.tick sevenInEbp) k') ∧
    ((∃ k', Occurs smallDisk k (.call sevenInEbp) k') ↔ sevenInEbp.eax.toInt ≠ systemCommand0Sum) := by
  obtain ⟨k, hrun, hruns, hentry⟩ := running_smallDisk
  exact ⟨k, hrun, hruns,
    interrupts_return (noFill_smallDisk.below kernelBlocks) (fun mem => ⟨mem, rfl⟩) hrun hentry hruns sevenInEbp⟩

theorem seven_ticks : ∃ k k', InCourse smallDisk k ∧ UserRuns k ∧
    Course smallDisk k [(k.currentTask, .tick sevenInEbp)] k' := by
  obtain ⟨k, hrun, hruns, hentry⟩ := running_smallDisk
  have hs := hrun.sound (noFill_smallDisk.below kernelBlocks)
  obtain ⟨hs', -, ⟨t, ht, -⟩, -⟩ := hs.tick_stopped (u := sevenInEbp) hentry hruns
  obtain ⟨r, k', htick⟩ := hs'.agrees.tick_returns ht (k.stopped isr0x20Wrapper sevenInEbp).2.handlerFrame
  exact ⟨k, k', hrun, hruns, .cons hentry ⟨hruns, r, htick⟩ (.nil k')⟩

theorem seven_takes_turns : ∃ k k', Course smallDisk k [(k.currentTask, .tick sevenInEbp)] k' ∧
    ∃ es, Shown (happenings [(k.currentTask, .tick sevenInEbp)]) es ∧ Steps Program.act k.shared es k'.shared := by
  obtain ⟨k, k', hrun, -, hcourse⟩ := seven_ticks
  obtain ⟨-, -, hes⟩ := kernel_takes_turns (noFill_smallDisk.below kernelBlocks) hrun hcourse
  exact ⟨k, k', hcourse, hes⟩

/-- The registers are saved, the memory is as it was. -/
theorem seven_after_tick : ∃ k k' s, Course smallDisk k [(k.currentTask, .tick sevenInEbp)] k' ∧
    k.program k.currentTask = some s ∧ k'.program k.currentTask = some { s with registers := sevenInEbp } := by
  obtain ⟨k, k', hrun, ⟨t, ht, -⟩, hcourse⟩ := seven_ticks
  have hprog : k.program k.currentTask = some _ := congrArg (Option.map _) ht
  refine ⟨k, k', _, hcourse, hprog, ?_⟩
  rw [program_after_run (noFill_smallDisk.below kernelBlocks) hrun hcourse hprog]
  unfold actionsOf happenings
  rw [List.map_singleton, List.flatMap_singleton, if_pos rfl]
  rfl

end SimpleMicrokernel.Tasking
