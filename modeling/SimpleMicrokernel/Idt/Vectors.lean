/-
The entries of `idt/idt.asm` and the vector of the division error: what user code goes on with after an interrupt,
an exception and a system call. A C function that is called keeps the stack above its arguments.
-/
import SimpleMicrokernel.Idt.Idt
import SimpleMicrokernel.Kernel.Entry

namespace SimpleMicrokernel.Tasking

open Memory Fs Paging Idt

/-! ## Entering and leaving -/

/-- What makes the processor go through the gate of a vector. -/
inductive Cause where
  | exception
  | software
  | device
deriving DecidableEq, Repr

/-- The vectors of the exceptions that the processor pushes an error code for, after the rest. -/
def errorVectors : List Nat := [8, 10, 11, 12, 13, 14, 17, 21, 29, 30]

def errorCode (cause : Cause) (vector : Nat) (code : BitVec 32) : Option (BitVec 32) :=
  if cause = .exception ∧ vector ∈ errorVectors then some code else none

/-- User code that has the registers `u` is stopped by a vector. -/
def Machine.stop (m : Machine) (u : Registers) (code : Option (BitVec 32)) : Machine :=
  code.elim (m.interrupt u) (m.interrupt u).push

/-- `popad`; the word for `esp` is passed over. -/
def Machine.popad (m : Machine) : Machine :=
  { m with
    edi := m.word m.esp, esi := m.word (m.esp + 4), ebp := m.word (m.esp + 8), ebx := m.word (m.esp + 16)
    edx := m.word (m.esp + 20), ecx := m.word (m.esp + 24), eax := m.word (m.esp + 28), esp := m.esp + 32 }

/-- `IF`. -/
def interruptFlag : BitVec 32 := 0x200

/-- `no_interrupt` up to its call of `no_interrupt_handler`, and after it up to `iret`. -/
def noInterruptCall (m : Machine) : Machine := Machine.pushad { m with eflags := m.eflags &&& ~~~interruptFlag }
def noInterruptReturn (m : Machine) : Machine := { m.popad with eflags := m.popad.eflags ||| interruptFlag }

/-- `isr80h_wrapper` after its call of `isr80h_handler`, up to `iret`. -/
def isr80hWrapperReturn (tmpRes : Nat) (m : Machine) : Machine :=
  let m := m.setWord tmpRes m.eax
  let m := { m with esp := m.esp + 8 }.popad
  { m with eax := m.word (BitVec.ofNat 32 tmpRes) }

/-- A C function that was called on `m` with some dwords is back on `m'`: the stack is where it was, and above the
dwords as it was. -/
structure Machine.Returned (m m' : Machine) (args : Nat) : Prop where
  esp : m'.esp = m.esp
  stack : ∀ x, m.esp.toNat + 4 * args ≤ x → x < esp0 → m'.mem x = m.mem x

theorem Machine.Returned.refl (m : Machine) (args : Nat) : m.Returned m args := ⟨rfl, fun _ _ _ => rfl⟩

/-- The next instruction of the processor, and the segment it is in. -/
structure Processor where
  machine : Machine
  ip : BitVec 32
  cs : BitVec 16

/-- User code that has the registers `u` is stopped, and the processor goes through a gate. -/
def Processor.enter (g : Gate) (m : Machine) (u : Registers) (code : Option (BitVec 32)) : Processor :=
  ⟨m.stop u code, g.offset, g.selector⟩

/-- The `ret` of a C function that was called. -/
def Processor.ret (p : Processor) (m : Machine) : Processor := ⟨m.drop, m.word m.esp, p.cs⟩

/-! ## Going on -/

section
variable {m m' m0 : Machine} {u : Registers} {cause : Cause}

/-- `popad` and `iret` go on with the registers of the frame that the stack points to. -/
theorem iretd_popad (m : Machine) : iretd m.popad = (m.frameAt m.esp).registers := by
  have hoff (d : BitVec 32) : m.popad.word (m.popad.esp + d) = m.word (m.esp + (32 + d)) :=
    congrArg m.word (BitVec.add_assoc ..)
  unfold iretd
  rw [hoff 4, hoff 8, hoff 12, hoff 16]
  rfl

theorem iretd_eax (m : Machine) (v : BitVec 32) : iretd { m with eax := v } = { iretd m with eax := v } := rfl

/-! ## No interrupt -/

/-- What `iret` makes of a stack with an error code on it. -/
def Registers.shifted (u : Registers) (code : BitVec 32) : Registers :=
  { u with ip := code, cs := u.ip, flags := u.cs, esp := u.flags, ss := u.esp }

theorem stacked_stop (m : Machine) (u : Registers) (code : Option (BitVec 32)) (hown : m.Own (esp0 - 24) esp0) :
    m.Stacked (esp0 - 24) esp0 (code.toList ++ [u.ip, u.cs, u.flags, u.esp, u.ss]) (m.stop u code) := by
  have h0 : m.Stacked (esp0 - 24) esp0 [] { m with
      edi := u.edi, esi := u.esi, ebp := u.ebp, ebx := u.ebx, edx := u.edx, ecx := u.ecx, eax := u.eax
      esp := tssEsp0, eflags := u.flags &&& ~~~gateClears } :=
    ⟨rfl, rfl, fun i v hv => by simp at hv, fun x _ => rfl⟩
  have h1 : m.Stacked _ _ [u.ip, u.cs, u.flags, u.esp, u.ss] (m.interrupt u) :=
    h0.pushes hown (by decide) [u.ss, u.esp, u.flags, u.cs, u.ip] (by simp [esp0])
  cases code with
  | none => exact h1
  | some c => exact h1.push hown (by decide) (by simp [esp0]) c

/-- `pushad` makes a frame of what is on the stack; an error code stands where `ip` should. -/
theorem stacked_pushad (m : Machine) (u : Registers) (code : Option (BitVec 32)) (hown : m.Own (esp0 - 56) esp0) :
    ∃ reserved l, l.length = code.toList.length ∧
      m.Stacked (esp0 - 56) esp0 (frameWords (code.elim u u.shifted) reserved ++ l) (m.stop u code).pushad := by
  have hstop : m.Stacked (esp0 - 56) esp0 _ (m.stop u code) :=
    (stacked_stop m u code fun x h1 h2 => hown x (by unfold esp0 at *; omega) h2).mono (by decide)
  cases code with
  | none =>
    have hpushad : m.Stacked _ _ (frameWords u (m.stop u none).esp ++ []) (m.stop u none).pushad :=
      hstop.pushes hown (by decide) [u.eax, u.ecx, u.edx, u.ebx, (m.stop u none).esp, u.ebp, u.esi, u.edi]
        (by simp [esp0])
    exact ⟨_, [], rfl, hpushad⟩
  | some c =>
    have hpushad : m.Stacked _ _ (frameWords (u.shifted c) (m.stop u (some c)).esp ++ [u.ss])
      (m.stop u (some c)).pushad :=
      hstop.pushes hown (by decide) [u.eax, u.ecx, u.edx, u.ebx, (m.stop u (some c)).esp, u.ebp, u.esi,
        u.edi] (by simp [esp0])
    exact ⟨_, [u.ss], rfl, hpushad⟩

/-- The frame does not depend on the flags. -/
theorem noInterruptCall_eq (m : Machine) :
    noInterruptCall m = { m.pushad with eflags := m.eflags &&& ~~~interruptFlag } := rfl

theorem noInterrupt_resumes {code : Option (BitVec 32)} (hown : m.Own (esp0 - 56) esp0) (hpage : m'.page = m.page)
    (hreturned : (noInterruptCall (m.stop u code)).Returned m' 0) :
    iretd (noInterruptReturn m') = code.elim u u.shifted := by
  obtain ⟨reserved, l, hl, hstack⟩ := stacked_pushad m u code hown
  have hlen : l.length ≤ 1 := by
    rw [hl]
    cases code <;> simp
  rw [noInterruptCall_eq] at hreturned
  have hesp : (m.stop u code).pushad.esp = BitVec.ofNat 32 (esp0 - 4 * (13 + l.length)) := by
    rw [hstack.esp, List.length_append]
    rfl
  have hstart : (m.stop u code).pushad.esp.toNat = esp0 - 4 * (13 + l.length) := by
    rw [hesp]
    exact Nat.mod_eq_of_lt (by unfold esp0; omega)
  have hown' : m'.Own (esp0 - 56) esp0 := fun x h1 h2 => (congrFun hpage x).trans (hown x h1 h2)
  have hstack' : m.Stacked (esp0 - 56) esp0 ([] ++ frameWords (code.elim u u.shifted) reserved ++ l) _ := hstack
  have hframe := hstack'.frame hown' (by unfold esp0; simp only [List.length_nil]; omega) (by decide)
    fun x h1 h2 => hreturned.stack x (Nat.le_trans (Nat.le_of_eq hstart) h1) h2
  show iretd m'.popad = _
  rw [iretd_popad, hreturned.esp, hesp, hframe]
  rfl

/-- User code stopped by a vector that has no handler of its own enters `no_interrupt`. It goes on with the registers it
had exactly when the processor has pushed no error code: `popad` and `iret` do not pass one over, and `iret` takes it
for the instruction pointer. The directory maps the stack of the kernel to itself. -/
theorem no_interrupt_resumes_iff {table : Mem} {globals : IdtGlobals} {vector : Nat}
    {address : Routine → BitVec 32} {g : Gate} {code : BitVec 32} (hvector : vector ≠ 0 ∧ vector ≠ 0x20 ∧ vector ≠ 0x80)
    (hgate : gateAt (idtInit table globals address).1 (idtInit table globals address).2 vector = some g)
    (hown : m.Own (esp0 - 56) esp0) (hpage : m'.page = m.page)
    (hreturned : (noInterruptCall (m.stop u (errorCode cause vector code))).Returned m' 0) (hcs : u.cs ≠ u.ss) :
    (Processor.enter g m u (errorCode cause vector code)).ip = address .noInterrupt ∧
      (iretd (noInterruptReturn m') = u ↔ ¬ (cause = .exception ∧ vector ∈ errorVectors)) ∧
      (cause = .exception ∧ vector ∈ errorVectors → iretd (noInterruptReturn m') = u.shifted code) := by
  rw [gateAt_idtInit] at hgate
  split at hgate
  case isFalse => cases hgate
  obtain rfl := Option.some.inj hgate
  have hresumes := noInterrupt_resumes hown hpage hreturned
  refine ⟨?_, ?_, fun hpushed => ?_⟩
  · unfold routineOf
    rw [if_neg hvector.2.1, if_neg hvector.2.2, if_neg hvector.1]
    rfl
  · rw [hresumes]
    unfold errorCode
    split
    case isTrue hpushed =>
      refine iff_of_false (fun h => hcs ?_) (not_not_intro hpushed)
      -- the selectors of `u` would both be where its flags are
      have hcode : u.cs = u.flags := congrArg Registers.flags h
      have hflags : u.flags = u.esp := congrArg Registers.esp h
      have hesp : u.esp = u.ss := congrArg Registers.ss h
      rw [hcode, hflags, hesp]
    case isFalse hpushed => exact iff_of_true rfl hpushed
  · rw [hresumes]
    unfold errorCode
    rw [if_pos hpushed]
    rfl

/-- A processor whose directory maps every address to itself. -/
def identityMachine : Machine := ⟨0, 0, 0, 0, 0, 0, 0, 0, 0, 0, 0, 0, 0, fun _ => 0, id⟩

/-- A page fault goes on at its error code; an `int 14` comes back. -/
theorem page_fault_lost :
    (∃ m' : Machine, (noInterruptCall (identityMachine.stop initialRegisters (errorCode .exception 14 5))).Returned m'
      0 ∧
      iretd (noInterruptReturn m') = initialRegisters.shifted 5) ∧
    ∃ m' : Machine, (noInterruptCall (identityMachine.stop initialRegisters (errorCode .software 14 5))).Returned m' 0 ∧
      iretd (noInterruptReturn m') = initialRegisters := by
  have hgate := gateAt_idtInit (fun _ => 0) someGlobals (fun _ => 0x104321) 14
  constructor
  · obtain ⟨m', hm⟩ : ∃ m', noInterruptCall (identityMachine.stop initialRegisters (errorCode .exception 14 5)) = m' :=
      ⟨_, rfl⟩
    have hpage : m'.page = identityMachine.page := by rw [← hm]; rfl
    have hreturned : (noInterruptCall (identityMachine.stop initialRegisters (errorCode .exception 14 5))).Returned m'
      0 :=
      hm ▸ .refl _ 0
    have hresumes := no_interrupt_resumes_iff (by decide) hgate (fun _ _ _ => rfl) hpage hreturned (by decide)
    exact ⟨m', hreturned, hresumes.2.2 (by decide)⟩
  · obtain ⟨m', hm⟩ : ∃ m', noInterruptCall (identityMachine.stop initialRegisters (errorCode .software 14 5)) = m' :=
      ⟨_, rfl⟩
    have hpage : m'.page = identityMachine.page := by rw [← hm]; rfl
    have hreturned : (noInterruptCall (identityMachine.stop initialRegisters (errorCode .software 14 5))).Returned m'
      0 :=
      hm ▸ .refl _ 0
    have hresumes := no_interrupt_resumes_iff (by decide) hgate (fun _ _ _ => rfl) hpage hreturned (by decide)
    exact ⟨m', hreturned, hresumes.2.1.2 (by decide)⟩

/-! ## The division error -/

/-- The vector of the division error leads to a C function, which leaves with `ret`: after it, or after an `int 0` that
the gate lets user code do, the processor goes on with the code of the user in the code segment of the kernel, on the
stack of the kernel, which the directory maps to itself. -/
theorem divide_error_in_kernel {table : Mem} {globals : IdtGlobals} {address : Routine → BitVec 32} {g : Gate}
    {code : BitVec 32} (hgate : gateAt (idtInit table globals address).1 (idtInit table globals address).2 0 = some g)
    (hown : m.Own (esp0 - 24) esp0) (hpage : m'.page = m.page)
    (hreturned : (m.stop u (errorCode cause 0 code)).Returned m' 0) :
    g.dpl = 3 ∧ (Processor.enter g m u (errorCode cause 0 code)).ip = address .idtZero ∧
      ((Processor.enter g m u (errorCode cause 0 code)).ret m').ip = u.ip ∧
      ((Processor.enter g m u (errorCode cause 0 code)).ret m').cs = kernelCodeSelector ∧
      ((Processor.enter g m u (errorCode cause 0 code)).ret m').machine.esp = BitVec.ofNat 32 (esp0 - 16) := by
  rw [gateAt_idtInit, if_pos (by decide)] at hgate
  obtain rfl := Option.some.inj hgate
  have hnone : errorCode cause 0 code = none := if_neg fun h => absurd h.2 (by decide)
  rw [hnone] at hreturned ⊢
  have hstack : m.Stacked _ _ [u.ip, u.cs, u.flags, u.esp, u.ss] (m.stop u none) := stacked_stop m u none hown
  have hesp : m'.esp = (m.stop u none).esp := hreturned.esp
  have htop : (m.stop u none).esp = BitVec.ofNat 32 (esp0 - 20) := by
    rw [hstack.esp]
    simp only [List.length_cons, List.length_nil]
  have hstart : (m.stop u none).esp.toNat = esp0 - 20 := by
    rw [htop]
    decide
  have hown' : m'.Own (m.stop u none).esp.toNat ((m.stop u none).esp.toNat + 4) := by
    rw [hstart]
    exact fun x h1 h2 => (congrFun hpage x).trans (hown x (by unfold esp0 at *; omega) (by unfold esp0 at *; omega))
  refine ⟨rfl, rfl, ?_, rfl, ?_⟩
  · show m'.word m'.esp = u.ip
    rw [hesp, word_own hown', ← hstack.words 0 _ rfl, hstart]
    refine uint32At_congr fun x h1 h2 => hreturned.stack x ?_ ?_
    · rw [hstart]
      exact h1
    · unfold esp0 at *
      omega
  · show m'.esp + 4 = _
    rw [hesp, htop]
    decide

end

theorem int_zero_in_kernel : ∃ m' : Machine,
    (identityMachine.stop initialRegisters (errorCode .software 0 0)).Returned m' 0 ∧
    ((Processor.enter (kernelGate 0x104321) identityMachine initialRegisters (errorCode .software 0 0)).ret m').ip =
      initialRegisters.ip := by
  have hgate := gateAt_idtInit (fun _ => 0) someGlobals (fun _ => 0x104321) 0
  obtain ⟨m', hm⟩ : ∃ m', identityMachine.stop initialRegisters (errorCode .software 0 0) = m' := ⟨_, rfl⟩
  have hpage : m'.page = identityMachine.page := by rw [← hm]; rfl
  have hreturned : (identityMachine.stop initialRegisters (errorCode .software 0 0)).Returned m' 0 := hm ▸ .refl _ 0
  exact ⟨m', hreturned, (divide_error_in_kernel hgate (fun _ _ _ => rfl) hpage hreturned).2.2.1⟩

/-! ## The system call -/

/-- The handler, called on `m1`, is back on `m2` with its result. -/
structure ComesBack (k' : Kernel) (r : Nat) (m1 m2 : Machine) : Prop where
  returned : m1.Returned m2 2
  loaded : m2.Over k'.mem k'.currentDirectory
  result : m2.eax = BitVec.ofNat 32 r

section
variable {env : Env} {k k' : Kernel} {u : Registers} {m0 m1 m2 : Machine} {r tmpRes : Nat} {t : Task}
    {frame : InterruptFrame}
  {command : Int}

theorem isr80hHandleCommand_result (h : isr80hHandleCommand env command k = .ok (r, k')) : r = 0 := by
  unfold isr80hHandleCommand at h
  split at h
  · exact (Exec.of_pure_ok h).1.symm
  · split at h
    · cases h
    · split at h
      · unfold isr80hCommand4SysWrite at h
        obtain ⟨_, _, -, h⟩ := Exec.of_bind_ok h
        obtain ⟨_, _, -, h⟩ := Exec.of_bind_ok h
        obtain ⟨_, _, -, h⟩ := Exec.of_bind_ok h
        exact (Exec.of_pure_ok h).1.symm
      · exact (Exec.of_pure_ok h).1.symm

/-- The way back to user code, with the result in `eax`. -/
theorem ComesBack.resumes (hb : ComesBack k' r m1 m2)
    (hin : m0.Stacked (esp0 - 60) esp0 ([u.eax, tssEsp0 - 52] ++ frameWords u (tssEsp0 - 20) ++ []) m1)
    (hstack : m2.Own (esp0 - 60) esp0) (htmp : m2.Own tmpRes (tmpRes + 4)) (hout : tmpRes + 4 ≤ esp0 - 60) :
    iretd (isr80hWrapperReturn tmpRes m2) = { u with eax := BitVec.ofNat 32 r } := by
  have hesp : m1.esp = BitVec.ofNat 32 (esp0 - 60) := by
    rw [hin.esp]
    simp only [frameWords, List.length_append, List.length_cons, List.length_nil]
  have hstart : m1.esp.toNat = esp0 - 60 := by
    rw [hesp]
    decide
  -- the machine that `popad` finds
  obtain ⟨m3, e, hesp3, hpage3, hmem3⟩ : ∃ m3,
      m3 = { m2.setWord tmpRes m2.eax with esp := (m2.setWord tmpRes m2.eax).esp + 8 } ∧
      m3.esp = BitVec.ofNat 32 (esp0 - 52) ∧ m3.page = m2.page ∧ m3.mem = setUint32 m2.mem tmpRes m2.eax := by
    refine ⟨_, rfl, ?_, rfl, setWord_own htmp⟩
    show m2.esp + 8 = _
    rw [hb.returned.esp, hesp]
    decide
  have hown3 : m3.Own (esp0 - 60) esp0 := fun x h1 h2 => (congrFun hpage3 x).trans (hstack x h1 h2)
  have hframe : m3.frameAt m3.esp = stoppedFrame u := by
    rw [hesp3]
    refine hin.frame hown3 (by simp [esp0]) (by decide) fun x h1 h2 => ?_
    have h1 : esp0 - 52 ≤ x := h1
    rw [hmem3, setUint32_apply _ _ (by unfold esp0 at *; omega)]
    refine hb.returned.stack x ?_ h2
    rw [hstart]
    unfold esp0 at *
    omega
  have hresult : m3.popad.word (BitVec.ofNat 32 tmpRes) = BitVec.ofNat 32 r := by
    have haddr : (BitVec.ofNat 32 tmpRes).toNat = tmpRes := Nat.mod_eq_of_lt (by unfold esp0 at hout; omega)
    show m3.word _ = _
    rw [word_own, haddr, hmem3, uint32At_setUint32, hb.result]
    rw [haddr]
    exact fun x h1 h2 => (congrFun hpage3 x).trans (htmp x h1 h2)
  have hback : isr80hWrapperReturn tmpRes m2 = { m3.popad with eax := m3.popad.word (BitVec.ofNat 32 tmpRes) } := by
    subst e
    rfl
  rw [hback, iretd_eax, iretd_popad, hframe, hresult]
  rfl

/-- A system call comes back to the user code that made it with every register as it was but `eax`, which is 0, once
the handler does; that is given the command and the frame of the user code, saves its registers, and leaves its task
and its directory the current ones. `tmp_res` is in the kernel's image. -/
theorem system_call_returns (hfill : FillsBelow env kernelBlocks) (hrun : InCourse env k) (hentry : k.KeepsEntry)
    (hruns : UserRuns k) (htmp : kernelImage ≤ tmpRes ∧ tmpRes + 4 ≤ bootStack)
    (hm : (k.stopped isr80hWrapperCall u).2 = m1)
    (hcall : isr80hHandler env m1.command m1.callFrame (k.stopped isr80hWrapperCall u).1 = .ok (r, k'))
    (hback : ComesBack k' r m1 m2) :
    m1.command = u.eax.toInt ∧ m1.callFrame = stoppedFrame u ∧
    iretd (isr80hWrapperReturn tmpRes m2) = { u with eax := 0 } ∧
      k'.registers k.currentTask = some u ∧ k'.currentTask = k.currentTask ∧
        k'.currentDirectory = k.currentDirectory := by
  have hs := hrun.sound hfill
  obtain ⟨hs0, -, hruns0, hcommand, hframe⟩ := hs.call_stopped (u := u) hentry hruns
  have hin := (stacked_call k.processor u (hs.entry_own hentry hruns)).switched (k.stopped isr80hWrapperCall u).2.page
  rw [hm] at hcommand hframe
  have hs' := step_sound hfill hs0 (.call _ _ _ hruns0 hcall)
  obtain ⟨t, ht, htasks, hprocs, -, hcurrent, hmem⟩ := call_unchanged hfill hs0 hcall
  obtain ⟨t1, ht1, hdirectory⟩ := hruns0
  rw [ht] at ht1
  cases ht1
  have ht' : k'.tasks k.currentTask = some (taskSaveState t m1.callFrame) := by
    rw [htasks]
    exact Function.update_self ..
  obtain ⟨t0, k2, t2, -, -, hhandled, ht2, e⟩ := of_isr80hHandler_ok hcall
  obtain rfl := isr80hHandleCommand_result hhandled
  have hloaded : k'.currentDirectory = directoryEntry k'.mem t.pageDirectory := by
    subst e
    have hc2 : k2.currentTask = k.currentTask := hcurrent
    rw [hc2, ht'] at ht2
    cases ht2
    rfl
  -- the task keeps its process, and so the way in
  have hpath : KeepsEntryPath k'.mem k'.currentDirectory := by
    obtain ⟨p, hp, hmap⟩ := hs'.mapped.tasks _ _ ht'
    rw [hprocs] at hp
    rw [hloaded]
    exact keepsEntryPath_of hmap.entries hmap.flags (hentry _ t p ht hp)
  refine ⟨hcommand, hframe, ?_, ?_, hcurrent, ?_⟩
  · have hin : Machine.Stacked _ _ _ _ (k.stopped isr80hWrapperCall u).2 := hin
    rw [hm] at hin
    refine hback.resumes hin ?_ ?_ ?_
    · exact hback.loaded.own fun x h1 h2 => hpath x (.inr ⟨Nat.le_trans (by decide) h1, h2⟩)
    · exact hback.loaded.own fun x h1 h2 => hpath x (.inl ⟨Nat.le_trans htmp.1 h1, Nat.lt_of_lt_of_le h2 htmp.2⟩)
    · exact Nat.le_trans htmp.2 (by decide)
  · unfold Kernel.registers
    rw [ht', hframe]
    rfl
  · rw [hloaded, hs0.directory_keep ht hmem]
    exact hdirectory.symm

end

/-- The call with 7 in `eax`, by the only task of a small disk. -/
theorem seven_called : ∃ k k' m1 m2 r, InCourse smallDisk k ∧ UserRuns k ∧
    (k.stopped isr80hWrapperCall { initialRegisters with eax := 7 }).2 = m1 ∧
    isr80hHandler smallDisk m1.command m1.callFrame (k.stopped isr80hWrapperCall { initialRegisters with eax := 7 }).1 =
      .ok (r, k') ∧ ComesBack k' r m1 m2 ∧ iretd (isr80hWrapperReturn 0x110000 m2) = initialRegisters := by
  obtain ⟨k, hrun, hruns, hentry⟩ := running_smallDisk
  have hfill : FillsBelow smallDisk kernelBlocks := noFill_smallDisk.below _
  obtain ⟨hs0, -, ⟨t, ht, -⟩, hcommand, -⟩ :=
    (hrun.sound hfill).call_stopped (u := { initialRegisters with eax := 7 }) hentry hruns
  obtain ⟨m1, hm⟩ : ∃ m1, (k.stopped isr80hWrapperCall { initialRegisters with eax := 7 }).2 = m1 := ⟨_, rfl⟩
  rw [hm] at hcommand
  have hnull : ∀ mem, ∃ mem', smallDisk.nullFill 512 mem = .ok mem' := fun mem => ⟨mem, rfl⟩
  obtain ⟨r, k', hcall⟩ := (hs0.call_returns hnull ht m1.callFrame m1.command).2 (by rw [hcommand]; decide)
  have hback : ComesBack k' r m1 { m1 with eax := BitVec.ofNat 32 r, page := through k'.mem k'.currentDirectory } :=
    ⟨⟨rfl, fun _ _ _ => rfl⟩, over_through rfl, rfl⟩
  have htmp : kernelImage ≤ 0x110000 ∧ 0x110000 + 4 ≤ bootStack := by decide
  have hresumes := system_call_returns hfill hrun hentry hruns htmp hm hcall hback
  exact ⟨k, k', m1, _, r, hrun, hruns, hm, hcall, hback, hresumes.2.2.1⟩

end SimpleMicrokernel.Tasking
