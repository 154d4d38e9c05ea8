/-
The programs of `programs/`, on the whole machine: user code is fetched through the loaded directory and executed
instruction by instruction, ticks stop it anywhere, and its system calls are the kernel's. Each program stays in its
loop (`InLoop.executes`), so whatever the interleaving every call prints the line of the program that made it.
-/
import SimpleMicrokernel.Lib.Ia32
import SimpleMicrokernel.Kernel.Boot
import SimpleMicrokernel.Kernel.Write
import SimpleMicrokernel.Fs.Apart
import Mathlib.Tactic.IntervalCases

namespace SimpleMicrokernel.Tasking

open Memory Disk Fs Fat16 Paging Printing Ia32

/-! ## User code -/

def Registers.get (u : Registers) : Reg → BitVec 32
  | .eax => u.eax
  | .ecx => u.ecx
  | .edx => u.edx
  | .ebx => u.ebx
  | .esp => u.esp
  | .ebp => u.ebp
  | .esi => u.esi
  | .edi => u.edi

def Registers.put (u : Registers) (r : Reg) (v : BitVec 32) : Registers :=
  match r with
  | .eax => { u with eax := v }
  | .ecx => { u with ecx := v }
  | .edx => { u with edx := v }
  | .ebx => { u with ebx := v }
  | .esp => { u with esp := v }
  | .ebp => { u with ebp := v }
  | .esi => { u with esi := v }
  | .edi => { u with edi := v }

/-- `CF`, `PF`, `AF`, `ZF`, `SF` and `OF`. -/
def arithmeticFlags : BitVec 32 := 0x8D5

/-- What an instruction does to the registers. An addition sets the flags of arithmetic to anything. -/
inductive Executes : Instruction → Registers → Registers → Prop where
  | mov (r : Reg) (v : BitVec 32) (u : Registers) : Executes (.mov r v) u ({ u with ip := u.ip + 5 }.put r v)
  | add (dst src : Reg) (u : Registers) (flags : BitVec 32) :
    flags &&& ~~~arithmeticFlags = u.flags &&& ~~~arithmeticFlags →
      Executes (.add dst src) u ({ u with ip := u.ip + 2, flags := flags }.put dst (u.get dst + u.get src))
  | jmp (distance : BitVec 8) (u : Registers) :
    Executes (.jmp distance) u { u with ip := u.ip + 2 + distance.signExtend 32 }

/-- What user code finds at an address. -/
def Kernel.fetch (k : Kernel) (virt : BitVec 32) : Option Byte :=
    (load k.mem k.currentDirectory userRead virt.toNat).toOption

/-- The kernel and the screen, and the registers user code runs with. -/
structure Running where
  console : Console
  user : Registers

/-- The registers after `task_return`, which leaves `ebp` and the flags of the kernel. -/
def Resumed (r u : Registers) : Prop := u = { r with ebp := u.ebp, flags := u.flags }

/-- What user code does next, and the task that makes a system call in it. -/
inductive UserStep (env : Env) : Running → List Nat → Running → Prop where
  | instruction {c : Console} {u u' : Registers} {i : Instruction} : decode c.kernel.fetch u.ip = some i →
    Executes i u u' →
      UserStep env ⟨c, u⟩ [] ⟨c, u'⟩
  | call {c c' : Console} {u : Registers} {frame : InterruptFrame} {stack : List Byte} {r : Nat} :
      decode c.kernel.fetch u.ip = some (.int 0x80) → frame.registers = { u with ip := u.ip + 2 } →
        stack.length < 2 ^ 32 →
      Console.isr80hHandler env stack u.eax.toInt frame c = .ok (r, c') →
      UserStep env ⟨c, u⟩ [c.kernel.currentTask] ⟨c', { u with ip := u.ip + 2, eax := BitVec.ofNat 32 r }⟩

/-- A tick stops user code, and the next task goes on. -/
inductive TickStep : Running → Running → Prop where
  | tick {k k' : Kernel} {terminal : Terminal} {u u' r : Registers} {frame : InterruptFrame} : frame.registers = u →
      isr0x20Handler frame k = .ok (r, k') → Resumed r u' → TickStep ⟨⟨k, terminal⟩, u⟩ ⟨⟨k', terminal⟩, u'⟩

inductive Goes (env : Env) (w : Running) : List Nat → Running → Prop where
  | user {as : List Nat} {w' : Running} : UserStep env w as w' → Goes env w as w'
  | tick {w' : Running} : TickStep w w' → Goes env w [] w'

/-- A run of the machine, and the tasks that made its system calls. -/
inductive Execution (env : Env) : Running → List Nat → Running → Prop where
  | nil (w : Running) : Execution env w [] w
  | cons {w w1 w' : Running} {as bs : List Nat} : Goes env w as w1 → Execution env w1 bs w' →
    Execution env w (as ++ bs) w'

/-- So many steps of user code. -/
inductive UserSteps (env : Env) : Nat → Running → List Nat → Running → Prop where
  | nil (w : Running) : UserSteps env 0 w [] w
  | cons {n : Nat} {w w1 w' : Running} {as bs : List Nat} : UserStep env w as w1 → UserSteps env n w1 bs w' →
      UserSteps env (n + 1) w (as ++ bs) w'

/-- So many turns, each with at least `d` steps of user code and a tick at its end. -/
inductive Turns (env : Env) (d : Nat) : Nat → Running → List Nat → Running → Prop where
  | nil (w : Running) : Turns env d 0 w [] w
  | cons {n steps : Nat} {w w1 w2 w' : Running} {as bs : List Nat} : d ≤ steps → UserSteps env steps w as w1 →
    TickStep w1 w2 →
      Turns env d n w2 bs w' → Turns env d (n + 1) w (as ++ bs) w'

section
variable {env : Env} {w w1 w' : Running} {as bs : List Nat} {d n : Nat}

theorem Execution.append (h : Execution env w as w1) (h' : Execution env w1 bs w') : Execution env w (as ++ bs) w' := by
  induction h with
  | nil w => exact h'
  | cons hg _ ih =>
    rw [List.append_assoc]
    exact .cons hg (ih h')

theorem UserSteps.execution (h : UserSteps env n w as w') : Execution env w as w' := by
  induction h with
  | nil w => exact .nil w
  | cons hg _ ih => exact .cons (.user hg) ih

theorem Turns.execution (h : Turns env d n w as w') : Execution env w as w' := by
  induction h with
  | nil w => exact .nil w
  | cons _ hsteps htick _ ih => exact hsteps.execution.append (.cons (.tick htick) ih)

theorem UserSteps.append {m : Nat} (h : UserSteps env n w as w1) (h' : UserSteps env m w1 bs w') :
    UserSteps env (m + n) w (as ++ bs) w' := by
  induction h with
  | nil w => exact h'
  | cons hg _ ih =>
    rw [List.append_assoc]
    exact .cons hg (ih h')

end

/-! ## The programs -/

/-- `blank.asm`, and the two like it, with `message` where the linker puts it. -/
def blank (message : BitVec 32) : List Instruction :=
  [.mov .eax 0x2, .mov .ebx 0x4, .add .eax .ebx, .mov .eax 4, .mov .ebx message, .int 0x80, .mov .eax 0,
    -- `label` is the first instruction
    .jmp (-31)]

/-- `I am in Process` and a digit. -/
def processMessage (digit : Byte) : List Byte :=
  [0x49, 0x20, 0x61, 0x6D, 0x20, 0x69, 0x6E, 0x20, 0x50, 0x72, 0x6F, 0x63, 0x65, 0x73, 0x73, 0x20, digit]

/-- The program as a file, some bytes between the instructions and the text: none, or as the linker script aligns
the data 4065. -/
def blankFile (gap text : List Byte) : List Byte :=
  code (blank (BitVec.ofNat 32 (programVirtualAddress + (31 + gap.length)))) ++ (gap ++ (text ++ [0]))

/-- Where the instructions of `blank` start. -/
def blankOffset : Nat → Nat
  | 0 => 0
  | 1 => 5
  | 2 => 10
  | 3 => 12
  | 4 => 17
  | 5 => 22
  | 6 => 24
  | _ => 29

/-- The memory of a program is that of `blank` with some text: there is memory of its own as far behind the text as the
kernel copies, and the image ends below the kernel's stack. -/
structure IsBlank (message : BitVec 32) (text : List Byte) (memory : BitVec 32 → Option Byte) : Prop where
  loaded : Found memory (BitVec.ofNat 32 programVirtualAddress) (code (blank message))
  stored : Found memory message (text ++ [0])
  nonempty : text ≠ []
  noNul : 0 ∉ text
  short : text.length ≤ 511
  own : ∀ i < 512, (memory (message + BitVec.ofNat 32 i)).isSome
  fits : memory 0x5FF000 = none

/-- The next instruction of user code is the `i`th of `blank`. -/
structure BlankAt (message : BitVec 32) (i : Nat) (u : Registers) : Prop where
  lt : i < 8
  ip : u.ip = BitVec.ofNat 32 programVirtualAddress + BitVec.ofNat 32 (blankOffset i)
  eax : i = 4 ∨ i = 5 → u.eax = 4
  ebx : i = 5 → u.ebx = message

def InLoop (message : BitVec 32) (u : Registers) : Prop := ∃ i, BlankAt message i u

section
variable {message : BitVec 32} {text : List Byte} {memory fetch : BitVec 32 → Option Byte} {u u' r : Registers}
    {i : Nat} {x : Instruction}

theorem length_code_take (message : BitVec 32) {i : Nat} (h : i < 8) :
    (code ((blank message).take i)).length = blankOffset i := by
  interval_cases i <;> rfl

/-- A file in memory is such a program, when it has whole pages. -/
theorem isBlank_of_file (gap : List Byte)
    (hfile : Found memory (BitVec.ofNat 32 programVirtualAddress) (blankFile gap text))
    (hown : ∀ i < 31 + gap.length + 512, (memory (BitVec.ofNat 32 programVirtualAddress + BitVec.ofNat 32 i)).isSome)
    (hend : memory 0x5FF000 = none) (hne : text ≠ []) (hno : 0 ∉ text) (hshort : text.length ≤ 511) :
    IsBlank (BitVec.ofNat 32 (programVirtualAddress + (31 + gap.length))) text memory := by
  obtain ⟨hcode, hrest⟩ := Found.append.1 hfile
  obtain ⟨-, htext⟩ := Found.append.1 hrest
  refine ⟨hcode, ?_, hne, hno, hshort, fun i hi => ?_, hend⟩
  · rwa [BitVec.add_assoc, ← BitVec.ofNat_add, ← BitVec.ofNat_add] at htext
  · rw [BitVec.ofNat_add, BitVec.add_assoc, ← BitVec.ofNat_add]
    exact hown _ (Nat.add_lt_add_left hi _)

theorem IsBlank.decode (h : IsBlank message text memory) (hfetch : ∀ v b, memory v = some b → fetch v = some b)
    (hat : BlankAt message i u) :
    Ia32.decode fetch u.ip = (blank message)[i]? := by
  have hi : i < (blank message).length := hat.lt
  have hsplit : (blank message).take i ++ (blank message)[i] :: (blank message).drop (i + 1) = blank message := by
    rw [List.getElem_cons_drop]
    exact List.take_append_drop i _
  have hfound : Found fetch (BitVec.ofNat 32 programVirtualAddress) (code (blank message)) :=
    fun j b hj => hfetch _ _ (h.loaded j b hj)
  rw [← hsplit] at hfound
  rw [hat.ip, ← length_code_take message hat.lt, decode_code hfound, List.getElem?_eq_getElem hi]

theorem BlankAt.of_ip (hlt : i < 8)
    (hip : u.ip = BitVec.ofNat 32 programVirtualAddress + BitVec.ofNat 32 (blankOffset i)) (h4 : i ≠ 4) (h5 : i ≠ 5) :
    BlankAt message i u :=
  ⟨hlt, hip, fun h => h.elim (absurd · h4) (absurd · h5), (absurd · h5)⟩

/-- An instruction leads to the next, the last one to the first. -/
theorem BlankAt.executes (h : BlankAt message i u) (hx : (blank message)[i]? = some x) (he : Executes x u u') :
    BlankAt message ((i + 1) % 8) u' := by
  obtain ⟨hlt, hip, heax, hebx⟩ := h
  have next {d j : Nat} (hd : blankOffset i + d = blankOffset j) :
      u.ip + BitVec.ofNat 32 d = BitVec.ofNat 32 programVirtualAddress + BitVec.ofNat 32 (blankOffset j) := by
    rw [hip, ← hd, BitVec.ofNat_add, BitVec.add_assoc]
  interval_cases i
  all_goals obtain rfl := Option.some.inj hx
  all_goals cases he
  · exact .of_ip (by decide) (next (d := 5) rfl) (by decide) (by decide)
  · exact .of_ip (by decide) (next (d := 5) rfl) (by decide) (by decide)
  · exact .of_ip (by decide) (next (d := 2) rfl) (by decide) (by decide)
  · exact ⟨by decide, next (d := 5) rfl, fun _ => rfl, (absurd · (by decide))⟩
  · exact ⟨by decide, next (d := 5) rfl, fun _ => heax (.inl rfl), fun _ => rfl⟩
  · exact .of_ip (by decide) (next (d := 5) rfl) (by decide) (by decide)
  · refine .of_ip (by decide) ?_ (by decide) (by decide)
    show u.ip + 2 + _ = _
    rw [hip]
    decide

theorem BlankAt.goes_on (h : BlankAt message i u) (hne : i ≠ 5) : ∃ x u', (blank message)[i]? = some x ∧
    Executes x u u' := by
  obtain ⟨hlt, -⟩ := h
  interval_cases i
  · exact ⟨_, _, rfl, .mov ..⟩
  · exact ⟨_, _, rfl, .mov ..⟩
  · exact ⟨_, _, rfl, .add _ _ _ _ rfl⟩
  · exact ⟨_, _, rfl, .mov ..⟩
  · exact ⟨_, _, rfl, .mov ..⟩
  · exact absurd rfl hne
  · exact ⟨_, _, rfl, .mov ..⟩
  · exact ⟨_, _, rfl, .jmp ..⟩

theorem BlankAt.calls {vector : BitVec 8} (h : BlankAt message i u)
    (hx : (blank message)[i]? = some (.int vector)) : i = 5 := by
  obtain ⟨hlt, -⟩ := h
  interval_cases i
  all_goals first | rfl | exact absurd (Option.some.inj hx) (by simp)

end

/-! ## What user code finds -/

section
variable {message : BitVec 32} {text : List Byte} {p : Process} {k : Kernel} {s : Program}

theorem cString_of {c : Nat → Byte} :
    ∀ {text : List Byte} {i n : Nat}, (∀ j b, (text ++ [0])[j]? = some b → c (i + j) = b) → 0 ∉ text →
    text.length ≤ n → cString c i n = text
  | [], i, 0, _, _, _ => rfl
  | [], i, n + 1, h, _, _ => by
    rw [cString_succ]
    exact if_pos (h 0 0 rfl)
  | b :: text, i, n + 1, h, hno, hlen => by
    rw [List.mem_cons, not_or] at hno
    have hfirst : c i = b := h 0 b rfl
    have hrest : cString c (i + 1) n = text := by
      refine cString_of (fun j b' hj => ?_) hno.2 (Nat.le_of_succ_le_succ hlen)
      rw [Nat.add_assoc, Nat.add_comm 1]
      exact h (j + 1) b' hj
    rw [cString_succ, hfirst, if_neg (Ne.symm hno.1), hrest]

/-- Null is no memory of a program, so that what it passes does not wrap around. -/
theorem IsBlank.inside (h : IsBlank message text fun v => (p.writeAddr v.toNat).map k.mem) :
    message.toNat + 512 ≤ 2 ^ 32 := by
  by_contra hwrap
  have hlt := message.isLt
  have hnull := h.own (2 ^ 32 - message.toNat) (by omega)
  have hzero : message + BitVec.ofNat 32 (2 ^ 32 - message.toNat) = 0 := by bv_omega
  have hnone : p.writeAddr (0 : BitVec 32).toNat = none := by
    have hstart : programVirtualStackAddressEnd = 0x3FB000 ∧ programVirtualAddress = 0x400000 := by decide
    unfold Process.writeAddr
    rw [if_neg (by rw [hstart.1]; decide), if_neg (by rw [hstart.2]; exact fun h => absurd h.1 (by decide))]
  rw [hzero, hnone] at hnull
  cases hnull

theorem IsBlank.toNat_add (h : IsBlank message text fun v => (p.writeAddr v.toNat).map k.mem) {i : Nat} (hi : i < 512) :
    (message + BitVec.ofNat 32 i).toNat = message.toNat + i := by
  have hin := h.inside
  rw [BitVec.toNat_add, BitVec.toNat_ofNat]
  omega

theorem IsBlank.writeAddr (h : IsBlank message text fun v => (p.writeAddr v.toNat).map k.mem) :
    ∀ i < 512, (p.writeAddr (message.toNat + i)).isSome := by
  intro i hi
  have hown := h.own i hi
  rwa [Option.isSome_map, h.toNat_add hi] at hown

theorem IsBlank.pages (h : IsBlank message text fun v => (p.writeAddr v.toNat).map k.mem) :
    Tasking.pages p.size.toNat ≤ 511 := by
  by_contra hlong
  have hnone : p.writeAddr 0x5FF000 = none := Option.map_eq_none_iff.1 h.fits
  have hstart : programVirtualStackAddressStart = 0x3FF000 ∧ programVirtualAddress = 0x400000 := by decide
  unfold Process.writeAddr at hnone
  rw [if_neg (by omega), if_pos (by omega)] at hnone
  cases hnone

/-- What the kernel copies of the string at `message` is the text. -/
theorem IsBlank.userString (h : IsBlank message text fun v => (p.writeAddr v.toNat).map k.mem) :
    Tasking.userString k p message.toNat = text := by
  refine cString_of (fun j b hj => ?_) h.noNul h.short
  have hlt : j < 512 := by
    have hlen := (List.getElem?_eq_some_iff.1 hj).1
    have hshort := h.short
    rw [List.length_append, List.length_singleton] at hlen
    omega
  have hb := h.stored j b hj
  rw [h.toNat_add hlt] at hb
  obtain ⟨addr, haddr, e⟩ := Option.map_eq_some_iff.1 hb
  rw [Nat.zero_add, haddr]
  exact e

theorem Sound.fetch (hs : Sound k) (hruns : UserRuns k) (hprog : k.program k.currentTask = some s)
    {v : BitVec 32} {b : Byte} (h : s.memory v = some b) : k.fetch v = some b := by
  obtain ⟨t, ht, hdir⟩ := hruns
  obtain ⟨p, hp, hplaced, e⟩ := hs.program ht
  obtain ⟨p', hp', hmap⟩ := hs.mapped.tasks _ t ht
  rw [hp] at hp'
  cases hp'
  rw [e] at hprog
  cases hprog
  obtain ⟨addr, haddr, hb⟩ := Option.map_eq_some_iff.1 h
  unfold Kernel.fetch load
  rw [hdir, translate_userRead hmap hplaced v.isLt, haddr]
  exact congrArg some hb

end

/-! ## The screen -/

/-- The cells of a text, as `shown_kernelPrint` has them. -/
def cellsOf (text : List Byte) : List Cell := text.map fun a => ⟨a, if a.toNat < 128 then 15 else 0xFF⟩

/-- The screen after a line for each call, with the text of the task that made it. -/
def printedLines (text : Nat → List Byte) (s : Screen Cell) (calls : List Nat) : Screen Cell :=
  calls.foldl (fun s a => s.printLine ⟨0x20, 0⟩ (cellsOf (text a))) s

theorem inside_printLine {γ : Type} (blank : γ) (s : Screen γ) {gs : List γ} (h : gs ≠ []) :
    (s.printLine blank gs).Inside := by
  have hrow : ∀ (t : Screen γ) (g : γ), (t.put blank g).row < vgaHeight := by
    intro t g
    unfold Screen.put Screen.home Screen.store
    split
    · exact (by decide : 0 < vgaHeight)
    · rename_i hlt
      exact Nat.lt_of_not_le hlt
  rcases List.eq_nil_or_concat gs with rfl | ⟨gs', g, rfl⟩
  · exact absurd rfl h
  · unfold Screen.printLine
    rw [List.concat_eq_append, Screen.putAll_append]
    exact ⟨hrow _ g, Nat.zero_le _⟩

/-! ## The loops of all tasks -/

/-- Every program is `blank` with a text of its own, those that wait were stopped in their loop, and the one that
runs is in its loop. -/
structure RunsBlank (env : Env) (message : Nat → BitVec 32) (text : Nat → List Byte) (w : Running) : Prop where
  reachable : Reachable env w.console.kernel
  user : UserRuns w.console.kernel
  programs : ∀ a s, w.console.kernel.program a = some s → IsBlank (message a) (text a) s.memory
  waits : ∀ a s, w.console.kernel.program a = some s → a ≠ w.console.kernel.currentTask → InLoop (message a) s.registers
  runs : InLoop (message w.console.kernel.currentTask) w.user
  inside : w.console.terminal.words.Inside

section
variable {env : Env} {message : Nat → BitVec 32} {text : Nat → List Byte} {w w' : Running} {c c' : Console}
    {k k' : Kernel}
  {terminal : Terminal} {u u' r : Registers} {frame : InterruptFrame} {as calls : List Nat} {i n : Nat}

theorem InLoop.congr {m : BitVec 32} (h : InLoop m r) (hip : u.ip = r.ip) (heax : u.eax = r.eax)
    (hebx : u.ebx = r.ebx) : InLoop m u := by
  obtain ⟨i, hlt, hip', heax', hebx'⟩ := h
  exact ⟨i, hlt, hip.trans hip', fun h => heax.trans (heax' h), fun h => hebx.trans (hebx' h)⟩

theorem InLoop.resumed {m : BitVec 32} (h : InLoop m r) (hu : Resumed r u) : InLoop m u := by
  unfold Resumed at hu
  refine h.congr ?_ ?_ ?_
  · rw [hu]
  · rw [hu]
  · rw [hu]

theorem RunsBlank.fetches (hfill : FillsBelow env kernelBlocks) (h : RunsBlank env message text ⟨⟨k, terminal⟩, u⟩)
    (hat : BlankAt (message k.currentTask) i u) : decode k.fetch u.ip = (blank (message k.currentTask))[i]? := by
  have hs := reachable_sound hfill h.reachable
  obtain ⟨t, ht, -⟩ := h.user
  obtain ⟨p, -, -, hprog⟩ := hs.program ht
  exact (h.programs _ _ hprog).decode (fun v b hb => hs.fetch h.user hprog hb) hat

theorem RunsBlank.saved (h : RunsBlank env message text ⟨⟨k, terminal⟩, u⟩) {s s' : Program} {a : Nat}
    (hprog : k.program k.currentTask = some s) (hr : InLoop (message k.currentTask) r)
    (hm : k'.program = Function.update k.program k.currentTask (some { s with registers := r }))
    (ha : k'.program a = some s') : IsBlank (message a) (text a) s'.memory ∧ InLoop (message a) s'.registers := by
  rw [hm] at ha
  by_cases hc : a = k.currentTask
  · subst hc
    rw [Function.update_self] at ha
    cases ha
    exact ⟨h.programs _ s hprog, hr⟩
  · rw [Function.update_of_ne hc] at ha
    exact ⟨h.programs a s' ha, h.waits a s' ha hc⟩

theorem Agrees.tick_runs (hi : Agrees k) (h : isr0x20Handler frame k = .ok (r, k')) :
    UserRuns k' ∧ k'.toSys = k.toSys ∧ ∃ t, k'.tasks k'.currentTask = some t ∧ r = t.registers := by
  obtain ⟨t, ht, -, h⟩ := of_isr0x20Handler_ok h
  have hl : IsList (k.entered t frame) k.processTasks :=
    hi.list.congr (fun a => (kept_save (R := Eq) ht frame _).links a) rfl rfl rfl
  obtain ⟨i, hlt, hc⟩ := List.mem_iff_getElem.1 (hi.list.only _ (by rw [ht]; rfl))
  obtain ⟨v, hv, e⟩ := hl.scheduleNextTask hlt hc.symm (by omega)
  rw [e] at h
  cases h
  exact ⟨⟨v, hv, rfl⟩, rfl, v, hv, rfl⟩

theorem call_runs {command : Int} {ret : Nat} (h : isr80hHandler env command frame k = .ok (ret, k')) :
    UserRuns k' := by
  obtain ⟨_, k2, t', -, -, -, ht', rfl⟩ := of_isr80hHandler_ok h
  exact ⟨t', ht', rfl⟩

/-! ### One step -/

theorem RunsBlank.tick (hfill : FillsBelow env kernelBlocks) (h : RunsBlank env message text ⟨⟨k, terminal⟩, u⟩)
    (hframe : frame.registers = u) (htick : isr0x20Handler frame k = .ok (r, k')) (hu : Resumed r u') :
    RunsBlank env message text ⟨⟨k', terminal⟩, u'⟩ ∧ k'.toSys = k.toSys ∧ k'.processTasks = k.processTasks ∧
      ∃ hm, k'.currentTask = k.processTasks.next k.currentTask hm := by
  have hs := reachable_sound hfill h.reachable
  have hstep : Step env k k' := .tick frame r h.user htick
  have hs' := step_sound hfill hs hstep
  obtain ⟨s, hm, hprog, e⟩ := hs.tick hs' htick
  have hnext : turnOf k'.currentTask = some (k.processTasks.next k.currentTask hm) :=
    congrArg TimeShare.Shared.current e
  obtain ⟨hruns, hsys, t, ht, rfl⟩ := hs.agrees.tick_runs htick
  have hsaved {a : Nat} {s' : Program} (ha : k'.program a = some s') :=
    h.saved hprog (r := frame.registers) (hframe ▸ h.runs) (congrArg TimeShare.Shared.machine e) ha
  obtain ⟨p, -, -, hcurrent⟩ := hs'.program ht
  exact ⟨⟨.step h.reachable hstep, hruns, fun a s' ha => (hsaved ha).1, fun a s' ha _ => (hsaved ha).2,
    (hsaved hcurrent).2.resumed hu, h.inside⟩, hsys, congrArg TimeShare.Shared.queue e, hm,
    (turnOf_eq fun h0 => hs.agrees.list.nonnull (h0 ▸ List.next_mem _ _ hm)).1 hnext⟩

/-- The system call of a loop prints the text of its task. -/
theorem RunsBlank.call (hfill : FillsBelow env kernelBlocks) (h : RunsBlank env message text ⟨⟨k, terminal⟩, u⟩)
    (hat : BlankAt (message k.currentTask) 5 u) (hframe : frame.registers = { u with ip := u.ip + 2 })
    (hroom : k.toSys.Room (n + 1))
    (stack : List Byte) (hstack : stack.length < 2 ^ 32) :
      ∃ c', Console.isr80hHandler env stack u.eax.toInt frame ⟨k, terminal⟩ = .ok (0, c') ∧
      RunsBlank env message text ⟨c', { u with ip := u.ip + 2, eax := 0 }⟩ ∧
      BlankAt (message k.currentTask) 6 { u with ip := u.ip + 2, eax := 0 } ∧ c'.kernel.currentTask = k.currentTask ∧
      c'.kernel.processTasks = k.processTasks ∧
        c'.terminal.shown = terminal.shown.printLine ⟨0x20, 0⟩ (cellsOf (text k.currentTask)) ∧
        c'.kernel.toSys.Room n := by
  have hs := reachable_sound hfill h.reachable
  obtain ⟨t, ht, -⟩ := h.user
  obtain ⟨p, hp, -, hprog⟩ := hs.program ht
  have hblank := h.programs _ _ hprog
  have heax : u.eax.toInt = systemCommand4SysWrite := by
    rw [hat.eax (.inr rfl)]
    decide
  have hebx : frame.ebx = message k.currentTask := (congrArg Registers.ebx hframe).trans (hat.ebx rfl)
  obtain ⟨tmp, s1, halloc, h0, hfresh, -⟩ :=
    (fresh_start hs.inv.ok hroom (List.nil_subset _)).kzallocPage (m := 512) env (by decide)
  obtain ⟨k', terminal', hrun, hkernel, hshown, hheap⟩ :=
    hs.write ht hp hblank.pages (hebx ▸ hblank.writeAddr) halloc stack hstack terminal h.inside
  unfold printed at hshown
  rw [if_neg h0, hebx, hblank.userString] at hshown
  have hstep : Step env k k' := .call _ frame 0 h.user hkernel
  obtain ⟨s, hprog, hcurrent, e⟩ := hs.call hfill (step_sound hfill hs hstep) hkernel
  have hip : u.ip + 2 = BitVec.ofNat 32 programVirtualAddress + BitVec.ofNat 32 (blankOffset 6) := by
    rw [hat.ip]
    decide
  have hsaved {a : Nat} {s' : Program} (ha : k'.program a = some s') :=
    h.saved hprog (r := frame.registers) ⟨6, .of_ip (by decide) (by rw [hframe]; exact hip) (by decide) (by decide)⟩
      (congrArg TimeShare.Shared.machine e) ha
  have hinside : terminal'.shown.Inside := by
    rw [hshown]
    exact inside_printLine _ _ fun hnil => hblank.nonempty (List.map_eq_nil_iff.1 hnil)
  have hat' : BlankAt (message k.currentTask) 6 { u with ip := u.ip + 2, eax := 0 } :=
    .of_ip (by decide) hip (by decide) (by decide)
  refine ⟨⟨k', terminal'⟩, heax ▸ hrun, ⟨.step h.reachable hstep, call_runs hkernel, fun a s' ha => (hsaved ha).1,
    fun a s' ha _ => (hsaved ha).2, ?_, ?_⟩, hat', hcurrent, congrArg TimeShare.Shared.queue e, hshown, ?_⟩
  · show InLoop (message k'.currentTask) _
    rw [hcurrent]
    exact ⟨6, hat'⟩
  · exact ⟨hinside.row, hinside.col⟩
  · have hroom1 := hfresh.room
    unfold Sys.Room at *
    rw [hheap]
    exact hroom1

/-- A step of user code is the next instruction of the loop, and prints when it is the system call. -/
theorem RunsBlank.userStep (hfill : FillsBelow env kernelBlocks) (h : RunsBlank env message text w)
    (hat : BlankAt (message w.console.kernel.currentTask) i w.user) (hg : UserStep env w as w')
    (hroom : w.console.kernel.toSys.Room (as.length + n)) : RunsBlank env message text w' ∧
      BlankAt (message w.console.kernel.currentTask) ((i + 1) % 8) w'.user ∧
      w'.console.kernel.currentTask = w.console.kernel.currentTask ∧
      (i = 5 → as = [w.console.kernel.currentTask]) ∧ w'.console.kernel.processTasks = w.console.kernel.processTasks ∧
      w'.console.terminal.shown = printedLines text w.console.terminal.shown as ∧ w'.console.kernel.toSys.Room n := by
  cases hg with
  | instruction hd he =>
    have hx := (h.fetches hfill hat).symm.trans hd
    have hat' := hat.executes hx he
    refine ⟨⟨h.reachable, h.user, h.programs, h.waits, ⟨_, hat'⟩, h.inside⟩, hat', rfl, ?_, rfl, rfl,
      (Nat.zero_add n) ▸ hroom⟩
    rintro rfl
    obtain rfl := Option.some.inj hx
    cases he
  | call hd hframe hstack hcall =>
    obtain rfl := hat.calls ((h.fetches hfill hat).symm.trans hd)
    obtain ⟨c1, hrun, h', hat', hcurrent, hqueue, hshown, hroom'⟩ :=
      h.call hfill hat hframe (Nat.add_comm 1 n ▸ hroom) _ hstack
    obtain ⟨rfl, rfl⟩ := Prod.mk.inj (Except.ok.inj (hrun.symm.trans hcall))
    exact ⟨h', hat', hcurrent, fun _ => rfl, hqueue, hshown, hroom'⟩

/-- Whatever happens next, all tasks stay in their loops, and only a system call prints. -/
theorem RunsBlank.goes (hfill : FillsBelow env kernelBlocks) (h : RunsBlank env message text w) (hg : Goes env w as w')
    (hroom : w.console.kernel.toSys.Room (as.length + n)) : RunsBlank env message text w' ∧
      w'.console.kernel.processTasks = w.console.kernel.processTasks ∧
      w'.console.terminal.shown = printedLines text w.console.terminal.shown as ∧ w'.console.kernel.toSys.Room n := by
  cases hg with
  | user hg =>
    obtain ⟨i, hat⟩ := h.runs
    obtain ⟨h', -, -, -, hqueue, hshown, hroom'⟩ := h.userStep hfill hat hg hroom
    exact ⟨h', hqueue, hshown, hroom'⟩
  | tick htick =>
    obtain ⟨hframe, htick, hu⟩ := htick
    obtain ⟨h', hsys, hqueue, -⟩ := h.tick hfill hframe htick hu
    refine ⟨h', hqueue, rfl, ?_⟩
    rw [List.length_nil, Nat.zero_add] at hroom
    exact hsys ▸ hroom

/-! ### Executions -/

/-- In every execution the lines printed are those of the calls. -/
theorem RunsBlank.execution (hfill : FillsBelow env kernelBlocks) (h : RunsBlank env message text w)
    (he : Execution env w calls w') (hroom : w.console.kernel.toSys.Room (calls.length + n)) :
    RunsBlank env message text w' ∧
      w'.console.kernel.processTasks = w.console.kernel.processTasks ∧
      w'.console.terminal.shown = printedLines text w.console.terminal.shown calls ∧
      w'.console.kernel.toSys.Room n := by
  induction he generalizing n with
  | nil w =>
    rw [List.length_nil, Nat.zero_add] at hroom
    exact ⟨h, rfl, rfl, hroom⟩
  | @cons w w1 w' as bs hg _ ih =>
    rw [List.length_append, Nat.add_assoc] at hroom
    obtain ⟨h1, hqueue1, hshown1, hroom1⟩ := h.goes hfill hg hroom
    obtain ⟨h', hqueue, hshown, hroom'⟩ := ih h1 hroom1
    refine ⟨h', hqueue.trans hqueue1, ?_, hroom'⟩
    rw [hshown, hshown1]
    exact List.foldl_append.symm

theorem RunsBlank.instructions (hfill : FillsBelow env kernelBlocks) {c : Console} : ∀ {d i : Nat} {u : Registers},
    RunsBlank env message text ⟨c, u⟩ → BlankAt (message c.kernel.currentTask) i u → (∀ j < d, (i + j) % 8 ≠ 5) →
      ∃ u', UserSteps env d ⟨c, u⟩ [] ⟨c, u'⟩ ∧ RunsBlank env message text ⟨c, u'⟩ ∧
      BlankAt (message c.kernel.currentTask) ((i + d) % 8) u'
  | 0, i, u, h, hat, _ => ⟨u, .nil _, h, (Nat.mod_eq_of_lt hat.lt).symm ▸ hat⟩
  | d + 1, i, u, h, hat, hno => by
    have hlt := hat.lt
    obtain ⟨x, u1, hx, he⟩ := hat.goes_on (by have := hno 0 (Nat.succ_pos d); omega)
    have hat1 := hat.executes hx he
    obtain ⟨u', hsteps, h', hat'⟩ := RunsBlank.instructions hfill (d := d) (i := (i + 1) % 8) (u := u1)
      ⟨h.reachable, h.user, h.programs, h.waits, ⟨_, hat1⟩, h.inside⟩ hat1
      fun j hj => by
        have := hno (j + 1) (Nat.succ_lt_succ hj)
        omega
    refine ⟨u', .cons (.instruction ((h.fetches hfill hat).trans hx) he) hsteps, h', ?_⟩
    have hnext : ((i + 1) % 8 + d) % 8 = (i + (d + 1)) % 8 := by omega
    exact hnext ▸ hat'

/-- A program that is left alone goes on to its system call. -/
theorem RunsBlank.calls_next (hfill : FillsBelow env kernelBlocks) (h : RunsBlank env message text w)
    (hat : BlankAt (message w.console.kernel.currentTask) i w.user) (hroom : w.console.kernel.toSys.Room (1 + n)) :
    ∃ w', UserSteps env ((13 - i) % 8 + 1) w [w.console.kernel.currentTask] w' ∧ RunsBlank env message text w' ∧
      BlankAt (message w'.console.kernel.currentTask) 6 w'.user ∧
      w'.console.kernel.currentTask = w.console.kernel.currentTask ∧
      w'.console.kernel.toSys.Room n := by
  have hlt := hat.lt
  obtain ⟨u, hsteps, h1, hat1⟩ := h.instructions hfill (d := (13 - i) % 8) hat fun j hj => by omega
  have h5 : (i + (13 - i) % 8) % 8 = 5 := by omega
  rw [h5] at hat1
  have hframe : (stoppedFrame { u with ip := u.ip + 2 }).registers = { u with ip := u.ip + 2 } := rfl
  have hfetch : decode w.console.kernel.fetch u.ip = some (.int 0x80) := h1.fetches hfill hat1
  obtain ⟨c', hrun, h', hat', hcurrent, -, -, hroom'⟩ :=
    h1.call hfill hat1 hframe (Nat.add_comm 1 n ▸ hroom) [] (by decide)
  have hcall : UserSteps env 1 ⟨w.console, u⟩ [w.console.kernel.currentTask] _ :=
    .cons (.call hfetch hframe (by decide) hrun) (.nil _)
  exact ⟨_, Nat.add_comm .. ▸ hsteps.append hcall, h', hcurrent ▸ hat', hcurrent, hroom'⟩

/-- Enough steps of one task come to its system call. -/
theorem RunsBlank.userSteps (hfill : FillsBelow env kernelBlocks) {steps : Nat} (hg : UserSteps env steps w as w') :
    ∀ {i : Nat}, RunsBlank env message text w → BlankAt (message w.console.kernel.currentTask) i w.user →
      w.console.kernel.toSys.Room as.length → w'.console.kernel.currentTask = w.console.kernel.currentTask ∧
        ((∃ j < steps, (i + j) % 8 = 5) → w.console.kernel.currentTask ∈ as) := by
  induction hg with
  | nil w => exact fun _ _ _ => ⟨rfl, fun ⟨j, hj, _⟩ => absurd hj (Nat.not_lt_zero j)⟩
  | @cons m w w1 w' as bs hg _ ih =>
    intro i h hat hroom
    have hlt := hat.lt
    rw [List.length_append] at hroom
    obtain ⟨h1, hat1, hcurrent, hcall, -, -, hroom1⟩ := h.userStep hfill hat hg hroom
    obtain ⟨hcurrent', hcalls⟩ := ih h1 (hcurrent ▸ hat1) hroom1
    refine ⟨hcurrent'.trans hcurrent, fun ⟨j, hj, h5⟩ => ?_⟩
    cases j with
    | zero =>
      have hi : i = 5 := by omega
      rw [hcall hi]
      exact List.mem_cons_self ..
    | succ j =>
      rw [← hcurrent]
      exact List.mem_append_right _ (hcalls ⟨j, Nat.lt_of_succ_lt_succ hj, by omega⟩)

/-- In turns that are long enough every task comes to its system call before the queue is through. -/
theorem RunsBlank.turns (hfill : FillsBelow env kernelBlocks) {m a : Nat} (ht : Turns env 8 m w calls w') :
    RunsBlank env message text w → w.console.kernel.toSys.Room calls.length → a ∈ w.console.kernel.processTasks →
      TimeShare.distance w.console.kernel.processTasks w.console.kernel.processTasks.length w.console.kernel.currentTask
      a < m → a ∈ calls := by
  induction ht with
  | nil w => exact fun _ _ _ hlt => absurd hlt (Nat.not_lt_zero _)
  | @cons m steps w w1 w2 w' as bs hlong hsteps htick _ ih =>
    intro h hroom ha hnear
    rw [List.length_append] at hroom
    obtain ⟨i, hat⟩ := h.runs
    have hlt := hat.lt
    obtain ⟨hcurrent, hcalls⟩ := h.userSteps hfill hsteps hat (hroom.mono (Nat.le_add_right ..))
    obtain ⟨h1, hqueue1, -, hroom1⟩ := h.execution hfill hsteps.execution hroom
    have hcall := hcalls ⟨(13 - i) % 8, by omega, by omega⟩
    by_cases hown : w.console.kernel.currentTask = a
    · exact List.mem_append_left _ (hown ▸ hcall)
    · -- the next one is nearer
      cases htick with
      | @tick k k' terminal u u' r frame hframe htick hu =>
        obtain ⟨h2, hsys, hqueue2, hm, hnext⟩ := h1.tick hfill hframe htick hu
        have hqueue1 : k.processTasks = w.console.kernel.processTasks := hqueue1
        have hcurrent : k.currentTask = w.console.kernel.currentTask := hcurrent
        have hnearer := TimeShare.distance_next (reachable_agrees h1.reachable).list.nodup (hqueue1 ▸ ha) hm
          (Nat.le_refl _) (hcurrent ▸ hown)
        rw [← hnext, hqueue1, hcurrent] at hnearer
        refine List.mem_append_right _ (ih h2 (hsys ▸ hroom1) ?_ ?_)
        · show a ∈ k'.processTasks
          rw [hqueue2, hqueue1]
          exact ha
        · show TimeShare.distance k'.processTasks k'.processTasks.length k'.currentTask a < m
          rw [hqueue2, hqueue1]
          omega

/-! ### From the start on -/

/-- After `kernel_main` every task is at the start of its loop. -/
theorem runsBlank_kernelMainWith (hfill : FillsBelow env kernelBlocks) {mem : Mem} {filenames : List (List Byte)}
    (hboot : kernelMainWith env filenames (initial mem) = .ok (r, k))
    (hprograms : ∀ a s, k.program a = some s → IsBlank (message a) (text a) s.memory) (hu : Resumed r u)
    (hinside : terminal.words.Inside) :
    RunsBlank env message text ⟨⟨k, terminal⟩, u⟩ := by
  obtain ⟨⟨⟩, k0, hstart, hboot⟩ := Exec.of_bind_ok hboot
  obtain ⟨rs, k1, hloads, hrun⟩ := Exec.of_bind_ok hboot
  have hreach : Reachable env k1 := (loads_shared hfill (.start hstart) hloads).1
  obtain ⟨-, -, _, _, -, -, hinitial⟩ := tablesOk_startPaging hstart
  have hregisters := loads_registers hfill (.start hstart) hloads fun a s ha => by
    rw [hinitial] at ha
    cases ha
  have hfirst : InLoop (message k.currentTask) initialRegisters :=
    ⟨0, .of_ip (by decide) (by decide) (by decide) (by decide)⟩
  obtain ⟨t, ht, e⟩ := of_taskRunFirstEverTask_ok hrun
  have hcurrent : k1.currentTask ≠ 0 := by
    intro h0
    unfold taskRunFirstEverTask at hrun
    rw [Exec.bind_of_ok (Exec.get_apply k1), if_pos h0] at hrun
    cases hrun
  have hr : r = t.registers := by
    have hrun' := taskRunFirstEverTask_of hcurrent ht
    rw [hrun] at hrun'
    exact congrArg Prod.fst (Except.ok.inj hrun')
  have hprogram : k.program = k1.program := by rw [e]; rfl
  obtain ⟨p, -, -, hprog⟩ := (reachable_sound hfill hreach).program ht
  have hinitial : r = initialRegisters := hr.trans (hregisters _ _ hprog)
  refine ⟨.step hreach (.run r hrun), ⟨t, ?_, ?_⟩, hprograms, fun a s ha _ => ?_,
    (hinitial ▸ hfirst).resumed hu, hinside⟩
  · rw [e]
    exact ht
  · rw [e]
  · have hreg := hregisters a s (congrFun hprogram a ▸ ha)
    rw [hreg]
    exact ⟨0, .of_ip (by decide) (by decide) (by decide) (by decide)⟩

/-- The machine does what the programs are for. When everything `kernel_main` loaded is `blank` with some text, then
in every execution from there, whatever ticks stop it, the screen has a line for each system call so far, with the
text of the task that made it, as long as there is a page for each. All along, what is fetched is an instruction of
the loop of the task that runs, its memory is what was loaded, and left alone it makes its next call after at most
seven instructions. -/
theorem blank_programs_print (hfill : FillsBelow env kernelBlocks) {mem : Mem} {filenames : List (List Byte)}
    (hboot : kernelMainWith env filenames (initial mem) = .ok (r, k))
    (hprograms : ∀ a s, k.program a = some s → IsBlank (message a) (text a) s.memory) (hroom : k.toSys.Room n)
    (hu : Resumed r u) (hrow : terminal.terminalRow.toNat ≤ 20) (hcol : terminal.terminalCol.toNat ≤ 80)
    (he : Execution env ⟨⟨k, terminal⟩, u⟩ calls w)
    (hle : calls.length ≤ n) : w.console.terminal.shown = printedLines text terminal.shown calls ∧
      (∃ x ∈ blank (message w.console.kernel.currentTask), decode w.console.kernel.fetch w.user.ip = some x) ∧
      (∀ a s, w.console.kernel.program a = some s → IsBlank (message a) (text a) s.memory) ∧
      (calls.length < n → ∃ steps w', steps ≤ 8 ∧ UserSteps env steps w [w.console.kernel.currentTask] w') := by
  have h : RunsBlank env message text ⟨⟨k, terminal⟩, u⟩ :=
    runsBlank_kernelMainWith hfill hboot hprograms hu ⟨hrow, hcol⟩
  obtain ⟨d, rfl⟩ := Nat.exists_eq_add_of_le hle
  obtain ⟨h', -, hshown, hroom'⟩ := h.execution hfill he hroom
  obtain ⟨i, hat⟩ := h'.runs
  refine ⟨hshown, ⟨_, List.getElem_mem (show i < (blank _).length from hat.lt),
    (h'.fetches hfill hat).trans (List.getElem?_eq_getElem _)⟩, h'.programs, fun hlt => ?_⟩
  obtain ⟨w', hsteps, -⟩ := h'.calls_next hfill hat (n := 0) (hroom'.mono (by omega))
  exact ⟨_, w', by omega, hsteps⟩

/-- None of the programs is kept from printing. At any time of such an execution, when every turn is at least eight
steps of user code, each program that was loaded prints its line before there have been more turns than programs. -/
theorem every_program_prints (hfill : FillsBelow env kernelBlocks) {mem : Mem} {filenames : List (List Byte)}
    (hboot : kernelMainWith env filenames (initial mem) = .ok (r, k))
    (hprograms : ∀ a s, k.program a = some s → IsBlank (message a) (text a) s.memory) (hroom : k.toSys.Room n)
    (hu : Resumed r u) (hrow : terminal.terminalRow.toNat ≤ 20) (hcol : terminal.terminalCol.toNat ≤ 80)
    (he : Execution env ⟨⟨k, terminal⟩, u⟩ as w)
    (ht : Turns env 8 k.processTasks.length w calls w') (hle : as.length + calls.length ≤ n) :
    (∀ a, (k.program a).isSome → a ∈ calls) ∧
    w'.console.terminal.shown = printedLines text terminal.shown (as ++ calls) := by
  have h : RunsBlank env message text ⟨⟨k, terminal⟩, u⟩ :=
    runsBlank_kernelMainWith hfill hboot hprograms hu ⟨hrow, hcol⟩
  have hroom' : k.toSys.Room (as.length + calls.length) := hroom.mono hle
  obtain ⟨h1, hqueue, -, hroom1⟩ := h.execution hfill he hroom'
  have hqueue : w.console.kernel.processTasks = k.processTasks := hqueue
  refine ⟨fun a ha => ?_, ?_⟩
  · have hmem : a ∈ k.processTasks := by
      unfold Kernel.program at ha
      rw [Option.isSome_map] at ha
      exact (reachable_agrees h.reachable).list.only a ha
    rw [← hqueue] at hmem ht
    exact h1.turns hfill ht hroom1 hmem (TimeShare.distance_lt hmem (Nat.le_refl _))
  · obtain ⟨-, -, hshown, -⟩ := h.execution hfill (he.append ht.execution) (n := 0)
      (by rw [List.length_append]; exact hroom')
    exact hshown

end

/-! ## A disk with one of them -/

section
variable {env : Env} {item : Fat16DirectoryItem} {k k' : Kernel}

theorem Started.ending {mem : Mem} {m : Nat} (h : Started env m k)
    (hstart : startPaging env (initial mem) = .ok (⟨⟩, k)) :
    k.fat16Private.rootDirectory.endingSectorPos =
    int32 (rootStart (diskHeader env) + rootSectors (diskHeader env)) := by
  unfold startPaging at hstart
  obtain ⟨_, k1, h1, hstart⟩ := Exec.of_bind_ok hstart
  obtain ⟨s1, hs1, rfl⟩ := of_onSys_ok h1
  obtain ⟨chunk, k2, h2, hstart⟩ := Exec.of_bind_ok hstart
  obtain ⟨s2, hs2, rfl⟩ := of_onSys_ok h2
  unfold diskSearchInit at hs1
  obtain ⟨res, s0, hs0, hs1⟩ := Exec.of_bind_ok hs1
  rw [Exec.modify_apply] at hs1
  cases hs1
  have hfiles := sameFiles_pagingNew4gb kernelFlags _ _ _ hs2
  split at hstart
  · cases hstart
  rw [Exec.modify_apply] at hstart
  cases hstart
  have hmounted : s2.filesystem = true := h.filesystem
  rw [hfiles.filesystem] at hmounted
  obtain rfl : res = 0 := of_decide_eq_true hmounted
  have hending : s0.fat16Private.rootDirectory.endingSectorPos = _ := ending_fat16Resolve hs0
  exact (congrArg (fun v : Fat16Private => v.rootDirectory.endingSectorPos) hfiles.fat16Private).trans hending

theorem Loaded.program_memory {filename : List Byte} {slot : Fin maxProcesses} {process ptr stack task chunk : Nat}
    {sz : BitVec 32} {s1 s2 s3 s4 s5 : Sys} {k5 : Kernel} (hok : TablesOk k.toSys) (hs' : Sound k')
    (h : Loaded env filename slot k k' process ptr stack task chunk sz s1 s2 s3 s4 s5 k5) :
    ∃ s, k'.program task = some s ∧
      (∀ i < pages sz.toNat * 4096,
        s.memory (BitVec.ofNat 32 programVirtualAddress + BitVec.ofNat 32 i) = some (s2.mem (ptr + i))) ∧
      (pages sz.toNat ≤ 511 → s.memory 0x5FF000 = none) := by
  obtain ⟨hp, ⟨t, ht, hspace, hprocess⟩, ⟨-, -, hend⟩, -⟩ := h.maps hok
  obtain ⟨p, hp', hplaced, e⟩ := hs'.program ht
  obtain ⟨q, hq, hmap⟩ := hs'.mapped.tasks _ t ht
  rw [hprocess, hp] at hp' hq
  cases hp'
  cases hq
  have hpages := pages_le_blockCount sz.toNat
  have hstart : programVirtualStackAddressStart = 0x3FF000 ∧ programVirtualAddress = 0x400000 := by decide
  refine ⟨_, e, fun i hi => ?_, fun hshort => ?_⟩
  · have hvirt : (BitVec.ofNat 32 programVirtualAddress + BitVec.ofNat 32 i).toNat = programVirtualAddress + i := by
      rw [BitVec.toNat_add, BitVec.toNat_ofNat, BitVec.toNat_ofNat]
      omega
    have haddr : (newProcess filename slot task ptr stack sz).writeAddr (programVirtualAddress + i) =
      some (ptr + i) := by
      unfold Process.writeAddr
      rw [if_neg (by omega), if_pos ⟨Nat.le_add_right .., Nat.add_lt_add_left hi _⟩, Nat.add_sub_cancel_left]
      rfl
    have hload := h.image_load hok hi
    unfold load at hload
    rw [← hspace, translate_userRead hmap hplaced (by omega), haddr] at hload
    show ((newProcess filename slot task ptr stack sz).writeAddr _).map k'.mem = _
    rw [hvirt, haddr]
    exact congrArg some (Except.ok.inj hload)
  · show ((newProcess filename slot task ptr stack sz).writeAddr 0x5FF000).map k'.mem = none
    have hnone : (newProcess filename slot task ptr stack sz).writeAddr 0x5FF000 = none := by
      unfold Process.writeAddr
      rw [if_neg (by omega), if_neg]
      show ¬ (_ ∧ 0x5FF000 < programVirtualAddress + pages sz.toNat * 4096)
      omega
    rw [hnone]
    rfl

/-- The one program of a disk is the first cluster over and over. -/
theorem OneProgram.image (ho : OneProgram env item) :
    ∃ k process k' slot ptr stack task chunk s1 s2 s3 s4 s5 k5, startPaging env (initial fun _ => 0) = .ok (⟨⟩, k) ∧
    Started env 1 k ∧
      processLoad env (onePart [0x41]) k = .ok ((0, some process), k') ∧
      Loaded env (onePart [0x41]) slot k k' process ptr stack task chunk item.filesize s1 s2 s3 s4 s5 k5 ∧
      k'.toSys.Room 1 ∧
      ∀ i < item.filesize.toNat, s2.mem (ptr + i) = env.byteAt (1536 + i % 512) := by
  obtain ⟨k, process, k', slot, ptr, stack, task, chunk, s1, s2, s3, s4, s5, k5, hstart, hstarted, hload, h, hroom⟩ :=
    ho.loaded
  refine ⟨k, process, k', slot, ptr, stack, task, chunk, s1, s2, s3, s4, s5, k5, hstart, hstarted, hload, h, hroom, ?_⟩
  -- the file that was read is the one of the disk
  obtain ⟨k0, _, _, t0, u0, fd0, hstart0, -, -, halloc, hopen, hfile, -⟩ := ho.loads fun _ => 0
  obtain ⟨-, rfl⟩ := Prod.mk.inj (Except.ok.inj (hstart0.symm.trans hstart))
  obtain ⟨-, rfl⟩ := Prod.mk.inj (Except.ok.inj (halloc.symm.trans h.processAlloc))
  obtain ⟨item', t1, t2, fd, pos, res, hsz, hb⟩ := of_processLoadBinary_ok h.imageAlloc
  obtain ⟨hfd, rfl⟩ := Prod.mk.inj (Except.ok.inj (hopen.symm.trans hb.opened))
  obtain rfl : fd0 = fd := Fin.ext (by exact_mod_cast hfd)
  obtain ⟨rfl, -⟩ := hfile.unique hb.holds
  have hsame := sameFiles_kzalloc env _ _ _ _ hb.allocated
  have hholds : HoldsFile t2 fd0 item 0 := by
    unfold HoldsFile at hfile ⊢
    rw [hsame.fileDescriptors]
    exact hfile
  have hn := hb.nonempty
  have hle : item.filesize.toNat ≤ blockCount item.filesize.toNat * 4096 := (blockCount_bounds _).1
  have hfits := ho.fits
  obtain ⟨-, hbytes⟩ := fread_image hholds hb.slot hn (by omega) hb.read hb.positive
  -- what is mounted is as it was
  have hvolume : SameVolume k0.toSys { t2 with fileDescriptors := k0.fileDescriptors } := by
    have v1 : SameVolume k0.toSys t0 := sameVolume_kzalloc _ _ _ _ _ halloc
    have v2 := fopen_volume hb.opened
    have v3 : SameVolume u0 t2 := sameVolume_kzalloc _ _ _ _ _ hb.allocated
    exact ⟨v3.filesystem.trans (v2.filesystem.trans v1.filesystem), v3.header.trans (v2.header.trans v1.header),
      v3.rootDirectory.trans (v2.rootDirectory.trans v1.rootDirectory), rfl⟩
  have hheader : t2.fat16Private.header = ⟨512, 1, 1, 1, 16, 1, 0⟩ := hvolume.header.trans (ho.mountedHeader hstarted)
  have hending : t2.fat16Private.rootDirectory.endingSectorPos = 3 := by
    have hroot : t2.fat16Private.rootDirectory = k0.fat16Private.rootDirectory := hvolume.rootDirectory
    rw [hroot, hstarted.ending hstart, ho.header]
    decide
  have hsize : sizeOfClusterInBytes t2.fat16Private = 512 := by
    unfold sizeOfClusterInBytes
    rw [hheader]
    decide
  have hentry : fatEntry env t2.fat16Private 2 = .ok 2 := by
    have hpos : fatEntryPos t2.fat16Private 2 = 516 := by
      unfold fatEntryPos fat16GetFirstFatSector
      rw [hheader]
      decide
    obtain ⟨res, -, e⟩ := diskStreamerRead_ok env (by decide : 516 < 2 ^ 32) (.inr (by decide) : InBuffer 516 2)
    unfold fatEntry readAt
    rw [hpos, e]
    have htable : bytesAt env 516 2 = [2, 0] := by
      show [env.byteAt 516, env.byteAt 517] = _
      rw [ho.table.1, ho.table.2]
    show Except.ok (uint16OfBytes (bytesAt env 516 2)) = _
    rw [htable]
    rfl
  have hfollow : ∀ n, follow (fatEntry env t2.fat16Private) n 2 = .ok 2 := by
    intro n
    induction n with
    | zero => rfl
    | succ n ih =>
      rw [follow, hentry]
      show (if Ends (int32 (2 : Nat)) then pure (-1) else follow (fatEntry env t2.fat16Private) n 2) = _
      rw [if_neg (by decide), ih]
  intro i hi
  obtain ⟨cl, hcl, -, hbyte⟩ := hbytes i hi
  unfold clusterForOffset at hcl
  rw [hsize, if_neg (by decide), ho.cluster] at hcl
  have hcl : follow (fatEntry env t2.fat16Private) _ 2 = .ok cl := hcl
  rw [hfollow] at hcl
  cases hcl
  have hsector : fat16ClusterToSector t2.fat16Private 2 = 3 := by
    unfold fat16ClusterToSector
    rw [hending, hheader]
    decide
  rw [hbyte, hsize]
  refine congrArg env.byteAt ?_
  unfold clusterPos uint32 sectorSize
  rw [hsector]
  omega

end

/-- The disk with this file. -/
def blankDisk : Env where
  image sector i := match sector with
    | 3 => (blankFile [] (processMessage 0x30)).getD i 0
    | _ => smallDisk.image sector i
  overread := smallDisk.overread
  nullFill := smallDisk.nullFill
  nullStore := smallDisk.nullStore

theorem noFill_blankDisk : NoFill blankDisk := ⟨fun _ _ => rfl, nofun⟩

theorem oneProgram_blankDisk : OneProgram blankDisk smallItem where
  signature := by decide +kernel
  header := by decide +kernel
  marker := by
    refine ⟨by decide +kernel, fun j hj => ?_⟩
    obtain rfl : j = 0 := by omega
    decide +kernel
  live := by decide +kernel
  name := ⟨rfl, rfl, rfl⟩
  entry := fun mem a h => (itemAt_firstItem h).trans (by decide)
  file := by decide
  nonempty := by decide
  fits := by decide
  cluster := by decide
  table := ⟨rfl, rfl⟩

theorem isBlank_blankDisk {memory : BitVec 32 → Option Byte} (hend : memory 0x5FF000 = none)
    (hmem : ∀ i < 4096, memory (BitVec.ofNat 32 programVirtualAddress + BitVec.ofNat 32 i) =
      some (blankDisk.byteAt (1536 + i % 512))) :
    IsBlank 0x40001F (processMessage 0x30) memory := by
  have hlength : (blankFile [] (processMessage 0x30)).length = 49 := rfl
  refine isBlank_of_file [] (fun j b hj => ?_) (fun i hi => ?_) hend (by decide) (by decide) (by decide)
  · have hlt := (List.getElem?_eq_some_iff.1 hj).1
    have hsector : (1536 + j % 512) / 512 = 3 := by omega
    have hoffset : (1536 + j % 512) % 512 = j := by omega
    rw [hmem j (by omega)]
    unfold Env.byteAt
    simp only [hsector, hoffset]
    show some ((blankFile [] (processMessage 0x30)).getD j 0) = some b
    rw [List.getD_eq_getElem?_getD, hj]
    rfl
  · rw [hmem i (Nat.lt_of_lt_of_le hi (by decide))]
    rfl

theorem blankDisk_boots : ∃ r k, kernelMainWith blankDisk [onePart [0x41]] (initial fun _ => 0) = .ok (r, k) ∧
    (∀ a s, k.program a = some s → IsBlank 0x40001F (processMessage 0x30) s.memory) ∧ k.toSys.Room 1 ∧
    k.processTasks.length = 1 := by
  obtain ⟨k, process, k', slot, ptr, stack, task, chunk, s1, s2, s3, s4, s5, k5, hstart, hstarted, hload, h,
    hroom, hbytes⟩ :=
    oneProgram_blankDisk.image
  have hfill : FillsBelow blankDisk kernelBlocks := noFill_blankDisk.below _
  have hs : Sound k := reachable_sound hfill (.start hstart)
  have hs' : Sound k' := step_sound hfill hs (.load _ _ hload)
  have hloads : processLoads blankDisk [onePart [0x41]] k = .ok ([0], k') := by
    unfold processLoads
    rw [Exec.bind_of_ok hload]
    rfl
  -- the program is the only one
  obtain ⟨-, -, _, _, -, -, hinitial⟩ := tablesOk_startPaging hstart
  obtain ⟨s, hprog, himage, hend⟩ := h.program_memory hstarted.ok hs'
  have hsize : smallItem.filesize.toNat = 4096 ∧ pages smallItem.filesize.toNat = 1 := by decide
  have hprograms : ∀ a s, k'.program a = some s → IsBlank 0x40001F (processMessage 0x30) s.memory := by
    intro a s' ha
    obtain ⟨t', ht', -⟩ := Option.map_eq_some_iff.1 ha
    rcases h.tasks_of_some ht' with ⟨rfl, -⟩ | ⟨t, -, ht, -⟩
    · rw [hprog] at ha
      cases ha
      refine isBlank_blankDisk (hend (by rw [hsize.2]; decide)) fun i hi => ?_
      rw [himage i (by rw [hsize.2]; exact hi), hbytes i (by rw [hsize.1]; exact hi)]
    · rw [hinitial] at ht
      cases ht
  have hqueue : k'.processTasks.length = 1 := by
    have hnil : k.processTasks = [] := by
      refine List.eq_nil_iff_forall_not_mem.2 fun a ha => ?_
      obtain ⟨i, p, hne, -⟩ := mem_processTasks.1 ha
      exact hne (congrFun hstarted.processes i)
    rcases load_shared hfill hs hload with ⟨hr, -⟩ | ⟨_, p, _, -, -, -, -, e⟩
    · exact absurd hr (by simp)
    · have hq : k'.processTasks = k.processTasks ++ [p.task] := congrArg TimeShare.Shared.queue e
      rw [hq, hnil]
      rfl
  obtain ⟨t, ht, -⟩ := Option.map_eq_some_iff.1 hprog
  have hhead : k'.taskHead = task ∧ k'.currentTask = task := by
    rw [h.result]
    rcases h.link with ⟨-, rfl⟩ | ⟨hhead, -⟩
    · exact ⟨rfl, rfl⟩
    · exact absurd hstarted.taskHead hhead
  have hrun := taskRunFirstEverTask_of (by rw [hhead.2]; exact h.taskNe) (hhead.1 ▸ ht)
  exact ⟨_, _, (Exec.bind_of_ok hstart).trans ((Exec.bind_of_ok hloads).trans hrun), hprograms, hroom, hqueue⟩

theorem runsBlank_blankDisk {r : Registers} {k : Kernel}
    (hboot : kernelMainWith blankDisk [onePart [0x41]] (initial fun _ => 0) = .ok (r, k))
    (hprograms : ∀ a s, k.program a = some s → IsBlank 0x40001F (processMessage 0x30) s.memory) :
    RunsBlank blankDisk (fun _ => 0x40001F) (fun _ => processMessage 0x30) ⟨⟨k, .cleared⟩, r⟩ :=
  runsBlank_kernelMainWith (noFill_blankDisk.below _) hboot hprograms rfl ⟨by decide, by decide⟩

/-- Its first call prints `I am in Process 0`. -/
theorem blank_disk_prints : ∃ r k a w, kernelMainWith blankDisk [onePart [0x41]] (initial fun _ => 0) = .ok (r, k) ∧
    Execution blankDisk ⟨⟨k, .cleared⟩, r⟩ [a] w ∧
    w.console.terminal.shown = printedLines (fun _ => processMessage 0x30) Terminal.cleared.shown [a] := by
  obtain ⟨r, k, hboot, hprograms, hroom, -⟩ := blankDisk_boots
  have hfill : FillsBelow blankDisk kernelBlocks := noFill_blankDisk.below _
  have h := runsBlank_blankDisk hboot hprograms
  obtain ⟨i, hat⟩ := h.runs
  obtain ⟨w, hsteps, -⟩ := h.calls_next hfill hat (n := 0) hroom
  have hresumed : Resumed r r := rfl
  obtain ⟨hshown, -⟩ := blank_programs_print hfill hboot hprograms hroom hresumed (by decide)
    (by decide) hsteps.execution (Nat.le_refl 1)
  exact ⟨r, k, _, w, hboot, hsteps.execution, hshown⟩

theorem blank_disk_turn : ∃ r k calls w, kernelMainWith blankDisk [onePart [0x41]] (initial fun _ => 0) = .ok (r, k) ∧
    Turns blankDisk 8 1 ⟨⟨k, .cleared⟩, r⟩ calls w ∧ (∀ a, (k.program a).isSome → a ∈ calls) ∧
    w.console.terminal.shown = printedLines (fun _ => processMessage 0x30) Terminal.cleared.shown calls := by
  obtain ⟨r, k, hboot, hprograms, hroom, hqueue⟩ := blankDisk_boots
  have hfill : FillsBelow blankDisk kernelBlocks := noFill_blankDisk.below _
  have h := runsBlank_blankDisk hboot hprograms
  obtain ⟨i, hat⟩ := h.runs
  obtain ⟨w, hsteps, h1, hat1, -⟩ := h.calls_next hfill hat (n := 0) hroom
  -- up to the call again
  obtain ⟨u, hmore, h2, -⟩ := h1.instructions hfill (d := 7) hat1 fun j hj => by omega
  obtain ⟨t, ht, -⟩ := h2.user
  obtain ⟨r', k', htick⟩ := (reachable_agrees h2.reachable).tick_returns ht (stoppedFrame u)
  have hfirst : Resumed r r := rfl
  have hresumed : Resumed r' r' := rfl
  have hturn : Turns blankDisk 8 1 ⟨⟨k, .cleared⟩, r⟩ ([k.currentTask] ++ [] ++ []) ⟨⟨k', w.console.terminal⟩, r'⟩ :=
    .cons (by omega) (hsteps.append hmore) (.tick rfl htick hresumed) (.nil _)
  have hturns := hturn
  rw [← hqueue] at hturns
  obtain ⟨hall, hshown⟩ := every_program_prints hfill hboot hprograms hroom hfirst (by decide) (by decide)
    (.nil _) hturns (Nat.le_refl 1)
  exact ⟨r, k, _, _, hboot, hturn, hall, hshown⟩

end SimpleMicrokernel.Tasking
