/-
`task/task.asm` and the entry of the timer interrupt in `idt/idt.asm`, on a processor that goes through the
loaded page directory for every access. What the processor and the wrapper push is a `struct
interrupt_frame`; `task_return` leaves the processor to user code with what it pushed and loaded.
-/
import SimpleMicrokernel.Task.State

namespace SimpleMicrokernel.Tasking

open Memory

/-! ## The processor -/

/-- The registers of the processor, memory, and where the loaded directory maps an address to. -/
structure Machine where
  edi : BitVec 32
  esi : BitVec 32
  ebp : BitVec 32
  ebx : BitVec 32
  edx : BitVec 32
  ecx : BitVec 32
  eax : BitVec 32
  esp : BitVec 32
  eflags : BitVec 32
  ds : BitVec 16
  es : BitVec 16
  fs : BitVec 16
  gs : BitVec 16
  mem : Mem
  page : Nat → Nat

/-- Memory as the loaded directory shows it. -/
def Machine.seen (m : Machine) : Mem := fun x => m.mem (m.page x)

/-- `dword [a]`. -/
def Machine.word (m : Machine) (a : BitVec 32) : BitVec 32 := uint32At m.seen a.toNat

/-- `mov dword [a], v`. -/
def Machine.setWord (m : Machine) (a : Nat) (v : BitVec 32) : Machine :=
  { m with mem := fun y =>
      if y = m.page a then v.extractLsb' 0 8
      else if y = m.page (a + 1) then v.extractLsb' 8 8
      else if y = m.page (a + 2) then v.extractLsb' 16 8
      else if y = m.page (a + 3) then v.extractLsb' 24 8
      else m.mem y }

def Machine.push (m : Machine) (v : BitVec 32) : Machine := { m with esp := m.esp - 4 }.setWord (m.esp - 4).toNat v

/-- `ret`, and `add esp, 4`. -/
def Machine.drop (m : Machine) : Machine := { m with esp := m.esp + 4 }

/-- `mov ax, v`, and `mov al, v`. -/
def Machine.setAx (m : Machine) (v : BitVec 16) : Machine := { m with eax := m.eax.extractLsb' 16 16 ++ v }
def Machine.setAl (m : Machine) (v : BitVec 8) : Machine := { m with eax := m.eax.extractLsb' 8 24 ++ v }

/-! ## Stopping user code -/

/-- `tss.esp0`. -/
def tssEsp0 : BitVec 32 := 0x600000

/-- The flags that a gate of type `0xEE` clears: `TF`, `IF`, `NT`, `RF` and `VM`. -/
def gateClears : BitVec 32 := 0x34300

/-- An interrupt stops user code that has these registers: the processor takes the stack of the kernel. -/
def Machine.interrupt (m : Machine) (u : Registers) : Machine :=
  let m := { m with
    edi := u.edi, esi := u.esi, ebp := u.ebp, ebx := u.ebx, edx := u.edx, ecx := u.ecx, eax := u.eax
    esp := tssEsp0, eflags := u.flags &&& ~~~gateClears }
  let m := m.push u.ss
  let m := m.push u.esp
  let m := m.push u.flags
  let m := m.push u.cs
  m.push u.ip

def Machine.pushad (m : Machine) : Machine :=
  let esp := m.esp
  let m := m.push m.eax
  let m := m.push m.ecx
  let m := m.push m.edx
  let m := m.push m.ebx
  let m := m.push esp
  let m := m.push m.ebp
  let m := m.push m.esi
  m.push m.edi

/-- `isr_0x20_wrapper` up to its call of `isr_0x20_handler`. -/
def isr0x20Wrapper (m : Machine) : Machine :=
  let m := m.pushad
  m.push m.esp

/-- `isr80h_wrapper` up to its call of `isr80h_handler`. -/
def isr80hWrapperCall (m : Machine) : Machine :=
  let m := m.pushad
  let m := m.push m.esp
  m.push m.eax

/-- The frame at an address. -/
def Machine.frameAt (m : Machine) (a : BitVec 32) : InterruptFrame where
  edi := m.word a
  esi := m.word (a + 4)
  ebp := m.word (a + 8)
  reserved := m.word (a + 12)
  ebx := m.word (a + 16)
  edx := m.word (a + 20)
  ecx := m.word (a + 24)
  eax := m.word (a + 28)
  ip := m.word (a + 32)
  cs := m.word (a + 36)
  flags := m.word (a + 40)
  esp := m.word (a + 44)
  ss := m.word (a + 48)

/-! ## Going back to user code -/

/-- The return address is on the stack below the argument. -/
def restoreGeneralPurposeRegisters (m : Machine) : Machine :=
  let m := m.push m.ebp
  let m := { m with ebp := m.esp }
  let m := { m with ebx := m.word (m.ebp + 8) }
  let m := { m with edi := m.word m.ebx }
  let m := { m with esi := m.word (m.ebx + 4) }
  let m := { m with ebp := m.word (m.ebx + 8) }
  let m := { m with edx := m.word (m.ebx + 16) }
  let m := { m with ecx := m.word (m.ebx + 20) }
  let m := { m with eax := m.word (m.ebx + 24) }
  let m := { m with ebx := m.word (m.ebx + 12) }
  -- `pop ebp` takes back what the first line pushed
  let m := { m with ebp := m.word m.esp }.drop
  m.drop

/-- Up to `iretd`. The flags that `or` and `add` leave are not looked at again, and the port written to by
`out` is not part of the machine; `ret` is the address that the call pushes. -/
def taskReturn (ret : BitVec 32) (m : Machine) : Machine :=
  let m := { m with ebp := m.esp }
  let m := { m with ebx := m.word (m.ebp + 4) }
  let m := m.push (m.word (m.ebx + 44))
  let m := m.push (m.word (m.ebx + 40))
  let m := m.push m.eflags
  let m := { m with eax := m.word m.esp }.drop
  let m := { m with eax := m.eax ||| 0x200 }
  let m := m.push m.eax
  let m := m.push (m.word (m.ebx + 32))
  let m := m.push (m.word (m.ebx + 28))
  let m := m.setAx ((m.word (m.ebx + 44)).extractLsb' 0 16)
  let m := { m with
    ds := m.eax.extractLsb' 0 16, es := m.eax.extractLsb' 0 16, fs := m.eax.extractLsb' 0 16, gs :=
      m.eax.extractLsb' 0 16 }
  let m := m.push (m.word (m.ebp + 4))
  let m := m.setAl 0x20
  let m := restoreGeneralPurposeRegisters (m.push ret)
  m.drop

/-- The registers user code goes on with after `iretd`. -/
def iretd (m : Machine) : Registers where
  edi := m.edi
  esi := m.esi
  ebp := m.ebp
  ebx := m.ebx
  edx := m.edx
  ecx := m.ecx
  eax := m.eax
  ip := m.word m.esp
  cs := m.word (m.esp + 4)
  flags := m.word (m.esp + 8)
  esp := m.word (m.esp + 12)
  ss := m.word (m.esp + 16)

/-- The `struct registers` at an address. -/
def Machine.registersAt (m : Machine) (a : BitVec 32) : Registers where
  edi := m.word a
  esi := m.word (a + 4)
  ebp := m.word (a + 8)
  ebx := m.word (a + 12)
  edx := m.word (a + 16)
  ecx := m.word (a + 20)
  eax := m.word (a + 24)
  ip := m.word (a + 28)
  cs := m.word (a + 32)
  flags := m.word (a + 36)
  esp := m.word (a + 40)
  ss := m.word (a + 44)

/-! ## The stack -/

/-- The directory maps these addresses to themselves. -/
def Machine.Own (m : Machine) (lo hi : Nat) : Prop := ∀ x, lo ≤ x → x < hi → m.page x = x

/-- Since `m0` the words of `l` were pushed from `top` down, the last one first; nothing below `low` and
nothing from `top` on was stored to. -/
structure Machine.Stacked (m0 : Machine) (low top : Nat) (l : List (BitVec 32)) (m : Machine) : Prop where
  esp : m.esp = BitVec.ofNat 32 (top - 4 * l.length)
  page : m.page = m0.page
  words : ∀ i v, l[i]? = some v → uint32At m.mem (top - 4 * l.length + 4 * i) = v
  other : ∀ x, x < low ∨ top ≤ x → m.mem x = m0.mem x

section
variable {m m' m0 : Machine} {low top a d i : Nat} {l : List (BitVec 32)} {v w : BitVec 32}

theorem toNat_offset (h : a + d < 2 ^ 32) : (BitVec.ofNat 32 a + BitVec.ofNat 32 d).toNat = a + d := by
  rw [BitVec.toNat_add, BitVec.toNat_ofNat, BitVec.toNat_ofNat]
  omega

theorem word_own (h : m.Own v.toNat (v.toNat + 4)) : m.word v = uint32At m.mem v.toNat :=
  uint32At_congr fun x h1 h2 => congrArg m.mem (h x h1 h2)

theorem setWord_own (h : m.Own a (a + 4)) : (m.setWord a v).mem = setUint32 m.mem a v := by
  unfold Machine.setWord setUint32
  rw [h a (by omega) (by omega), h (a + 1) (by omega) (by omega), h (a + 2) (by omega) (by omega),
    h (a + 3) (by omega) (by omega)]

theorem Machine.Stacked.registers (h : m0.Stacked low top l m) (hesp : m'.esp = m.esp) (hpage : m'.page = m.page)
    (hmem : m'.mem = m.mem) :
    m0.Stacked low top l m' := by
  refine ⟨hesp.trans h.esp, hpage.trans h.page, fun i v hv => ?_, fun x hx => ?_⟩
  · rw [hmem]
    exact h.words i v hv
  · rw [hmem]
    exact h.other x hx

theorem Machine.Stacked.push (h : m0.Stacked low top l m) (hown : m0.Own low top) (htop : top < 2 ^ 32)
    (hroom : low + 4 * (l.length + 1) ≤ top) (v : BitVec 32) : m0.Stacked low top (v :: l) (m.push v) := by
  have hsub : (m.esp - 4).toNat = top - 4 * (l.length + 1) := by
    have hesp : m.esp.toNat = top - 4 * l.length := by
      rw [h.esp, BitVec.toNat_ofNat]
      omega
    rw [BitVec.toNat_sub, hesp]
    have h4 : (4 : BitVec 32).toNat = 4 := rfl
    omega
  have hmem : (m.push v).mem = setUint32 m.mem (top - 4 * (l.length + 1)) v := by
    unfold Machine.push
    rw [hsub]
    refine setWord_own fun x h1 h2 => ?_
    show m.page x = x
    rw [h.page]
    exact hown x (by omega) (by omega)
  refine ⟨?_, h.page, fun i w hw => ?_, fun x hx => ?_⟩
  · show m.esp - 4 = _
    refine BitVec.eq_of_toNat_eq ?_
    rw [hsub, BitVec.toNat_ofNat, List.length_cons]
    omega
  · rw [hmem]
    cases i with
    | zero =>
      obtain rfl : v = w := by simpa using hw
      exact uint32At_setUint32 ..
    | succ i =>
      have hw : l[i]? = some w := by simpa using hw
      have hi := (List.getElem?_eq_some_iff.1 hw).1
      rw [List.length_cons, uint32At_setUint32_of_ne _ _ (.inr (by omega)), ← h.words i w hw]
      congr 1
      omega
  · rw [hmem, setUint32_apply _ _ (by omega)]
    exact h.other x hx

theorem Machine.Stacked.drop (h : m0.Stacked low top (v :: l) m) (hlen : 4 * (l.length + 1) ≤ top) :
    m0.Stacked low top l m.drop := by
  refine ⟨?_, h.page, fun i w hw => ?_, h.other⟩
  · show m.esp + 4 = _
    rw [h.esp, List.length_cons]
    refine BitVec.eq_of_toNat_eq ?_
    rw [BitVec.toNat_add, BitVec.toNat_ofNat, BitVec.toNat_ofNat]
    have h4 : (4 : BitVec 32).toNat = 4 := rfl
    omega
  · rw [← h.words (i + 1) w (by simpa using hw)]
    show uint32At m.mem _ = uint32At m.mem _
    congr 1
    rw [List.length_cons]
    omega

theorem Machine.Stacked.word (h : m0.Stacked low top l m) (hown : m0.Own low top) (htop : top < 2 ^ 32)
    (hlen : low + 4 * l.length ≤ top) (hv : l[i]? = some v) : m.word (m.esp + BitVec.ofNat 32 (4 * i)) = v := by
  have hi := (List.getElem?_eq_some_iff.1 hv).1
  have haddr : (m.esp + BitVec.ofNat 32 (4 * i)).toNat = top - 4 * l.length + 4 * i := by
    rw [h.esp]
    exact toNat_offset (by omega)
  rw [word_own, haddr]
  · exact h.words i v hv
  · intro x h1 h2
    rw [h.page]
    exact hown x (by omega) (by omega)

theorem Machine.Stacked.word_top (h : m0.Stacked low top (v :: l) m) (hown : m0.Own low top) (htop : top < 2 ^ 32)
    (hlen : low + 4 * (l.length + 1) ≤ top) : m.word m.esp = v :=
  (congrArg m.word (BitVec.add_zero _).symm).trans (h.word (i := 0) hown htop hlen rfl)

theorem Machine.Stacked.word_apart (h : m0.Stacked low top l m) (hown : m0.Own v.toNat (v.toNat + 4))
    (hout : v.toNat + 4 ≤ low ∨ top ≤ v.toNat) : m.word v = m0.word v := by
  have hown' : m.Own v.toNat (v.toNat + 4) := by
    unfold Machine.Own
    rw [h.page]
    exact hown
  rw [word_own hown', word_own hown]
  exact uint32At_congr fun x h1 h2 => h.other x (by omega)

/-! ## What is pushed and taken back -/

/-- The words of a frame, as they stand in memory. -/
def frameWords (u : Registers) (reserved : BitVec 32) : List (BitVec 32) :=
  [u.edi, u.esi, u.ebp, reserved, u.ebx, u.edx, u.ecx, u.eax, u.ip, u.cs, u.flags, u.esp, u.ss]

/-- The frame of user code that was stopped. -/
def stoppedFrame (u : Registers) : InterruptFrame where
  edi := u.edi
  esi := u.esi
  ebp := u.ebp
  reserved := tssEsp0 - 20
  ebx := u.ebx
  edx := u.edx
  ecx := u.ecx
  eax := u.eax
  ip := u.ip
  cs := u.cs
  flags := u.flags
  esp := u.esp
  ss := u.ss

theorem Machine.Stacked.pushes (h : m0.Stacked low top l m) (hown : m0.Own low top) (htop : top < 2 ^ 32)
    (ws : List (BitVec 32)) (hroom : low + 4 * (l.length + ws.length) ≤ top) :
    m0.Stacked low top (ws.reverse ++ l) (ws.foldl Machine.push m) := by
  induction ws generalizing l m with
  | nil => exact h
  | cons w ws ih =>
    rw [List.length_cons] at hroom
    rw [List.foldl_cons, List.reverse_cons, List.append_assoc]
    exact ih (h.push hown htop (by omega) w) (by rw [List.length_append, List.length_singleton]; omega)

/-- The stack of the kernel as the wrapper leaves it: the frame, and its address on top. -/
theorem stacked_wrapper (m : Machine) (u : Registers) (hown : m.Own (0x600000 - 56) 0x600000) :
    m.Stacked (0x600000 - 56) 0x600000 ((tssEsp0 - 52) :: frameWords u (tssEsp0 - 20))
    (isr0x20Wrapper (m.interrupt u)) := by
  have h0 : m.Stacked (0x600000 - 56) 0x600000 [] { m with
      edi := u.edi, esi := u.esi, ebp := u.ebp, ebx := u.ebx, edx := u.edx, ecx := u.ecx, eax := u.eax
      esp := tssEsp0, eflags := u.flags &&& ~~~gateClears } :=
    ⟨rfl, rfl, fun i v hv => by simp at hv, fun x _ => rfl⟩
  have h1 : m.Stacked _ _ [u.ip, u.cs, u.flags, u.esp, u.ss] (m.interrupt u) :=
    h0.pushes hown (by decide) [u.ss, u.esp, u.flags, u.cs, u.ip] (by simp)
  have h2 : m.Stacked _ _ (frameWords u (m.interrupt u).esp) (m.interrupt u).pushad :=
    h1.pushes hown (by decide) [u.eax, u.ecx, u.edx, u.ebx, (m.interrupt u).esp, u.ebp, u.esi, u.edi] (by simp)
  have hesp : (m.interrupt u).esp = tssEsp0 - 20 := by
    rw [h1.esp]
    simp only [List.length_cons, List.length_nil]
    decide
  have hframe : (m.interrupt u).pushad.esp = tssEsp0 - 52 := by
    rw [h2.esp]
    simp only [frameWords, List.length_cons, List.length_nil]
    decide
  rw [hesp] at h2
  show m.Stacked _ _ _ ((m.interrupt u).pushad.push (m.interrupt u).pushad.esp)
  rw [hframe]
  exact h2.push hown (by decide) (by simp [frameWords]) (tssEsp0 - 52)

/-- The handler finds the frame of the user code, in the kernel's directory, at the address it is given, when both
directories map the stack to itself. -/
theorem frameAt_wrapper {m m' : Machine} {u : Registers} (hown : m.Own (0x600000 - 56) 0x600000)
    (hown' : m'.Own (0x600000 - 56) 0x600000) (hesp : m'.esp = (isr0x20Wrapper (m.interrupt u)).esp)
    (hmem : m'.mem = (isr0x20Wrapper (m.interrupt u)).mem) : m'.frameAt (m'.word m'.esp) = stoppedFrame u := by
  have hwrapper := stacked_wrapper m u hown
  have h : Machine.Stacked { m with page := m'.page } _ _ ((tssEsp0 - 52) :: frameWords u (tssEsp0 - 20)) m' :=
    ⟨hesp.trans hwrapper.esp, rfl, fun i v hv => hmem ▸ hwrapper.words i v hv, fun x hx => hmem ▸ hwrapper.other x hx⟩
  have hword : ∀ i v, ((tssEsp0 - 52) :: frameWords u (tssEsp0 - 20))[i]? = some v →
    m'.word (m'.esp + BitVec.ofNat 32 (4 * i)) = v :=
    fun i v hv => h.word hown' (by decide) (by simp [frameWords]) hv
  have hptr : m'.word m'.esp = tssEsp0 - 52 := (congrArg m'.word (BitVec.add_zero _).symm).trans (hword 0 _ rfl)
  have hnext : tssEsp0 - 52 = m'.esp + 4 := by
    rw [h.esp]
    simp only [frameWords, List.length_cons, List.length_nil]
    decide
  have hframe : ∀ i v, (frameWords u (tssEsp0 - 20))[i]? = some v →
    m'.word (tssEsp0 - 52 + BitVec.ofNat 32 (4 * i)) = v := by
    intro i v hv
    rw [hnext, ← hword (i + 1) v hv]
    congr 1
    rw [BitVec.add_assoc]
    congr 1
    refine BitVec.eq_of_toNat_eq ?_
    rw [BitVec.toNat_add, BitVec.toNat_ofNat, BitVec.toNat_ofNat]
    have h4 : (4 : BitVec 32).toNat = 4 := rfl
    omega
  rw [hptr]
  unfold Machine.frameAt stoppedFrame
  have h0 : m'.word (tssEsp0 - 52) = u.edi := (congrArg m'.word (BitVec.add_zero _).symm).trans (hframe 0 _ rfl)
  rw [h0, show m'.word (tssEsp0 - 52 + 4) = _ from hframe 1 _ rfl,
    show m'.word (tssEsp0 - 52 + 8) = _ from hframe 2 _ rfl, show m'.word (tssEsp0 - 52 + 12) = _ from hframe 3 _ rfl,
    show m'.word (tssEsp0 - 52 + 16) = _ from hframe 4 _ rfl,
    show m'.word (tssEsp0 - 52 + 20) = _ from hframe 5 _ rfl, show m'.word (tssEsp0 - 52 + 24) = _ from hframe 6 _ rfl,
    show m'.word (tssEsp0 - 52 + 28) = _ from hframe 7 _ rfl, show m'.word (tssEsp0 - 52 + 32) = _ from hframe 8 _ rfl,
    show m'.word (tssEsp0 - 52 + 36) = _ from hframe 9 _ rfl, show m'.word (tssEsp0 - 52 + 40) = _ from hframe 10 _ rfl,
    show m'.word (tssEsp0 - 52 + 44) = _ from hframe 11 _ rfl,
      show m'.word (tssEsp0 - 52 + 48) = _ from hframe 12 _ rfl]

/-- What is loaded is loaded through the argument, and `ebp` is taken back last. -/
theorem restoreGeneralPurposeRegisters_eq (m : Machine) : restoreGeneralPurposeRegisters m =
    { m.push m.ebp with
      edi := (m.push m.ebp).word ((m.push m.ebp).word ((m.push m.ebp).esp + 8))
      esi := (m.push m.ebp).word ((m.push m.ebp).word ((m.push m.ebp).esp + 8) + 4)
      ebx := (m.push m.ebp).word ((m.push m.ebp).word ((m.push m.ebp).esp + 8) + 12)
      edx := (m.push m.ebp).word ((m.push m.ebp).word ((m.push m.ebp).esp + 8) + 16)
      ecx := (m.push m.ebp).word ((m.push m.ebp).word ((m.push m.ebp).esp + 8) + 20)
      eax := (m.push m.ebp).word ((m.push m.ebp).word ((m.push m.ebp).esp + 8) + 24)
      ebp := (m.push m.ebp).word (m.push m.ebp).esp
      esp := (m.push m.ebp).esp + 4 + 4 } := rfl

/-- The processor with the general registers of `r`, `ebp` apart. -/
structure Machine.Loads (m : Machine) (r : Registers) (ebp : BitVec 32) : Prop where
  edi : m.edi = r.edi
  esi : m.esi = r.esi
  ebp : m.ebp = ebp
  ebx : m.ebx = r.ebx
  edx : m.edx = r.edx
  ecx : m.ecx = r.ecx
  eax : m.eax = r.eax

/-- The `struct registers` at an address is apart from a part of the stack. -/
structure Machine.Apart (m : Machine) (low top a : Nat) : Prop where
  bound : a + 48 ≤ 2 ^ 32
  own : m.Own a (a + 48)
  out : a + 48 ≤ low ∨ top ≤ a

theorem Machine.Stacked.read (h : m0.Stacked low top l m) (ha : m0.Apart low top a) (hd : d + 4 ≤ 48) :
    m.word (BitVec.ofNat 32 a + BitVec.ofNat 32 d) = m0.word (BitVec.ofNat 32 a + BitVec.ofNat 32 d) := by
  have haddr := toNat_offset (a := a) (d := d) (by have := ha.bound; omega)
  have hout := ha.out
  exact h.word_apart (fun x h1 h2 => ha.own x (by omega) (by omega)) (by omega)

/-- Every general register but `ebp` comes out of the `struct registers`. -/
theorem restoreGeneralPurposeRegisters_loads {ret : BitVec 32}
    (h : m0.Stacked low top (ret :: BitVec.ofNat 32 a :: l) m) (hown : m0.Own low top) (htop : top < 2 ^ 32)
    (hroom : low + 4 * (l.length + 3) ≤ top) (ha : m0.Apart low top a) :
    m0.Stacked low top (BitVec.ofNat 32 a :: l) (restoreGeneralPurposeRegisters m) ∧
      (restoreGeneralPurposeRegisters m).Loads (m0.registersAt (BitVec.ofNat 32 a)) m.ebp := by
  have h1 := h.push hown htop (by simpa using hroom) m.ebp
  have hlen : low + 4 * (m.ebp :: ret :: BitVec.ofNat 32 a :: l).length ≤ top := by simpa using hroom
  have harg : (m.push m.ebp).word ((m.push m.ebp).esp + 8) = BitVec.ofNat 32 a := h1.word (i := 2) hown htop hlen rfl
  have hebp := h1.word_top hown htop hlen
  have hfirst : (m.push m.ebp).word (BitVec.ofNat 32 a) = m0.word (BitVec.ofNat 32 a) := by
    have h0 := h1.read (d := 0) ha (by decide)
    rwa [BitVec.add_zero] at h0
  rw [restoreGeneralPurposeRegisters_eq, harg, hebp, hfirst]
  refine ⟨?_, rfl, h1.read (d := 4) ha (by decide), rfl, h1.read (d := 12) ha (by decide),
    h1.read (d := 16) ha (by decide), h1.read (d := 20) ha (by decide), h1.read (d := 24) ha (by decide)⟩
  have h2 := (h1.drop (by simp at hlen ⊢; omega)).drop (by simp at hlen ⊢; omega)
  exact h2.registers rfl rfl rfl

/-- The machine calls `task_return` for the `struct registers` at an address; the loaded directory maps the
stack and the structure to themselves. -/
structure Machine.Calls (m : Machine) (n a : Nat) (r : Registers) : Prop where
  esp : m.esp = BitVec.ofNat 32 (n + 32)
  top : n + 40 ≤ 2 ^ 32
  own : m.Own n (n + 40)
  argument : m.word (m.esp + 4) = BitVec.ofNat 32 a
  apart : m.Apart n (n + 40) a
  registers : m.registersAt (BitVec.ofNat 32 a) = r

/-- Inside `task_return`: what it has pushed, and the registers it goes by. -/
structure Machine.Returning (m : Machine) (n a : Nat) (l : List (BitVec 32)) (m1 : Machine) : Prop where
  stacked : m.Stacked n (n + 32) l m1
  ebx : m1.ebx = BitVec.ofNat 32 a
  ebp : m1.ebp = m.esp
  eflags : m1.eflags = m.eflags

section
variable {n : Nat} {m1 : Machine} {r : Registers}

theorem Machine.Calls.ownStack (h : m.Calls n a r) : m.Own n (n + 32) := fun x h1 h2 => h.own x h1 (by omega)

theorem Machine.Returning.push (h : m.Returning n a l m1) (hc : m.Calls n a r) (hroom : 4 * (l.length + 1) ≤ 32)
    (hv : v = w) :
    m.Returning n a (w :: l) (m1.push v) := by
  have htop := hc.top
  subst hv
  exact ⟨h.stacked.push hc.ownStack (by omega) (by omega) v, h.ebx, h.ebp, h.eflags⟩

theorem Machine.Returning.pop (h : m.Returning n a (v :: l) m1) (hc : m.Calls n a r) (hroom : 4 * (l.length + 1) ≤ 32) :
    m.Returning n a l { m1 with eax := m1.word m1.esp }.drop ∧ m1.word m1.esp = v := by
  have htop := hc.top
  have hdrop := h.stacked.drop (by omega)
  exact ⟨⟨hdrop.registers rfl rfl rfl, h.ebx, h.ebp, h.eflags⟩, h.stacked.word_top hc.ownStack (by omega) (by omega)⟩

theorem Machine.Returning.read (h : m.Returning n a l m1) (hc : m.Calls n a r) (hd : d + 4 ≤ 48) :
    m1.word (m1.ebx + BitVec.ofNat 32 d) = m.word (BitVec.ofNat 32 a + BitVec.ofNat 32 d) := by
  rw [h.ebx]
  exact h.stacked.read ⟨hc.apart.bound, hc.apart.own, by have := hc.apart.out; omega⟩ hd

theorem Machine.Returning.argument (h : m.Returning n a l m1) (hc : m.Calls n a r) :
    m1.word (m1.ebp + 4) = BitVec.ofNat 32 a := by
  have htop := hc.top
  have haddr : (m.esp + 4).toNat = n + 32 + 4 := by
    rw [hc.esp]
    exact toNat_offset (d := 4) (by omega)
  rw [h.ebp, ← hc.argument]
  refine h.stacked.word_apart ?_ ?_
  · rw [haddr]
    exact fun x h1 h2 => hc.own x (by omega) (by omega)
  · rw [haddr]
    omega

/-- Up to its call `task_return` pushes the frame for `iretd` and the argument, with the flags of the kernel. -/
theorem taskReturn_call (ret : BitVec 32) (hc : m.Calls n a r) : ∃ m1,
    taskReturn ret m = (restoreGeneralPurposeRegisters (m1.push ret)).drop ∧
      m.Returning n a [BitVec.ofNat 32 a, r.ip, r.cs, m.eflags ||| 0x200, r.esp, r.ss] m1 := by
  obtain ⟨m0, e0, h0⟩ : ∃ m0, m0 = { m with ebp := m.esp, ebx := m.word (m.esp + 4) } ∧ m.Returning n a [] m0 := by
    refine ⟨_, rfl, ⟨hc.esp, rfl, fun i v hv => by simp at hv, fun x _ => rfl⟩, ?_, rfl, rfl⟩
    exact hc.argument
  obtain ⟨m1, e1, h1⟩ : ∃ m1, m1 = m0.push (m0.word (m0.ebx + 44)) ∧ m.Returning n a [r.ss] m1 :=
    ⟨_, rfl, h0.push hc (by decide) ((h0.read (d := 44) hc (by decide)).trans (congrArg Registers.ss hc.registers))⟩
  obtain ⟨m2, e2, h2⟩ : ∃ m2, m2 = m1.push (m1.word (m1.ebx + 40)) ∧ m.Returning n a [r.esp, r.ss] m2 :=
    ⟨_, rfl, h1.push hc (by simp) ((h1.read (d := 40) hc (by decide)).trans (congrArg Registers.esp hc.registers))⟩
  -- `pushf` and `pop eax`
  obtain ⟨m3, e3, h3⟩ : ∃ m3, m3 = m2.push m2.eflags ∧ m.Returning n a [m.eflags, r.esp, r.ss] m3 :=
    ⟨_, rfl, h2.push hc (by simp) h2.eflags⟩
  obtain ⟨hpop, heax⟩ := h3.pop hc (by simp)
  obtain ⟨m4, e4, h4, heax⟩ : ∃ m4, m4 = { m3 with eax := m3.word m3.esp }.drop ∧ m.Returning n a [r.esp, r.ss] m4 ∧
    m4.eax = m.eflags :=
    ⟨_, rfl, hpop, heax⟩
  obtain ⟨m5, e5, h5⟩ : ∃ m5, m5 = { m4 with eax := m4.eax ||| 0x200 }.push (m4.eax ||| 0x200) ∧
      m.Returning n a [m.eflags ||| 0x200, r.esp, r.ss] m5 := by
    have hor : m.Returning n a [r.esp, r.ss] { m4 with eax := m4.eax ||| 0x200 } :=
      ⟨h4.stacked.registers rfl rfl rfl, h4.ebx, h4.ebp, h4.eflags⟩
    exact ⟨_, rfl, hor.push hc (by simp) (by rw [heax])⟩
  obtain ⟨m6, e6, h6⟩ : ∃ m6, m6 = m5.push (m5.word (m5.ebx + 32)) ∧
    m.Returning n a [r.cs, m.eflags ||| 0x200, r.esp, r.ss] m6 :=
    ⟨_, rfl, h5.push hc (by simp) ((h5.read (d := 32) hc (by decide)).trans (congrArg Registers.cs hc.registers))⟩
  obtain ⟨m7, e7, h7⟩ : ∃ m7, m7 = m6.push (m6.word (m6.ebx + 28)) ∧
      m.Returning n a [r.ip, r.cs, m.eflags ||| 0x200, r.esp, r.ss] m7 :=
    ⟨_, rfl, h6.push hc (by simp) ((h6.read (d := 28) hc (by decide)).trans (congrArg Registers.ip hc.registers))⟩
  -- the segment registers
  obtain ⟨m8, e8, h8⟩ : ∃ m8, (let m := m7.setAx ((m7.word (m7.ebx + 44)).extractLsb' 0 16)
        { m with
          ds := m.eax.extractLsb' 0 16, es := m.eax.extractLsb' 0 16, fs := m.eax.extractLsb' 0 16, gs :=
            m.eax.extractLsb' 0 16 }) = m8 ∧
      m.Returning n a [r.ip, r.cs, m.eflags ||| 0x200, r.esp, r.ss] m8 := by
    refine ⟨_, rfl, ?_⟩
    exact ⟨h7.stacked.registers rfl rfl rfl, h7.ebx, h7.ebp, h7.eflags⟩
  have h9 := h8.push hc (by simp) (h8.argument hc)
  refine ⟨(m8.push (m8.word (m8.ebp + 4))).setAl 0x20, ?_, h9.stacked.registers rfl rfl rfl, h9.ebx, h9.ebp, h9.eflags⟩
  subst e8 e7 e6 e5 e4 e3 e2 e1 e0
  rfl

/-- User code goes on with the registers it is given, but for `ebp` and the flags: these are the kernel's. -/
theorem iretd_taskReturn (ret : BitVec 32) (hc : m.Calls n a r) :
    iretd (taskReturn ret m) = { r with ebp := m.esp, flags := m.eflags ||| 0x200 } := by
  have htop := hc.top
  obtain ⟨m1, e, h1⟩ := taskReturn_call ret hc
  have hret := h1.push hc (by simp) (rfl : ret = ret)
  obtain ⟨hstack, hloads⟩ := restoreGeneralPurposeRegisters_loads hret.stacked hc.ownStack (by omega) (by simp)
    ⟨hc.apart.bound, hc.apart.own, by have := hc.apart.out; omega⟩
  have hdrop := hstack.drop (by simp)
  have hword : ∀ i v, [r.ip, r.cs, m.eflags ||| 0x200, r.esp, r.ss][i]? = some v →
      (taskReturn ret m).word ((taskReturn ret m).esp + BitVec.ofNat 32 (4 * i)) = v := by
    rw [e]
    exact fun i v hv => hdrop.word hc.ownStack (by omega) (by simp) hv
  have hip := hword 0 _ rfl
  rw [Nat.mul_zero, BitVec.add_zero] at hip
  rw [hc.registers, hret.ebp] at hloads
  obtain ⟨edi, esi, ebp, ebx, edx, ecx, eax⟩ := hloads
  unfold iretd
  rw [hip, show (taskReturn ret m).word ((taskReturn ret m).esp + 4) = _ from hword 1 _ rfl,
    show (taskReturn ret m).word ((taskReturn ret m).esp + 8) = _ from hword 2 _ rfl,
    show (taskReturn ret m).word ((taskReturn ret m).esp + 12) = _ from hword 3 _ rfl,
    show (taskReturn ret m).word ((taskReturn ret m).esp + 16) = _ from hword 4 _ rfl, e]
  show Registers.mk _ _ _ _ _ _ _ _ _ _ _ _ = _
  unfold Machine.drop
  rw [edi, esi, ebp, ebx, edx, ecx, eax]

end

/-! ## A call -/

theorem registersAt_congr (h : ∀ d, d + 4 ≤ 48 →
      m.word (BitVec.ofNat 32 a + BitVec.ofNat 32 d) = m'.word (BitVec.ofNat 32 a + BitVec.ofNat 32 d)) :
    m.registersAt (BitVec.ofNat 32 a) = m'.registersAt (BitVec.ofNat 32 a) := by
  have h0 := h 0 (by decide)
  rw [BitVec.add_zero] at h0
  unfold Machine.registersAt
  rw [h0, show m.word (BitVec.ofNat 32 a + 4) = _ from h 4 (by decide),
    show m.word (BitVec.ofNat 32 a + 8) = _ from h 8 (by decide),
    show m.word (BitVec.ofNat 32 a + 12) = _ from h 12 (by decide),
    show m.word (BitVec.ofNat 32 a + 16) = _ from h 16 (by decide),
    show m.word (BitVec.ofNat 32 a + 20) = _ from h 20 (by decide),
    show m.word (BitVec.ofNat 32 a + 24) = _ from h 24 (by decide),
    show m.word (BitVec.ofNat 32 a + 28) = _ from h 28 (by decide),
    show m.word (BitVec.ofNat 32 a + 32) = _ from h 32 (by decide),
    show m.word (BitVec.ofNat 32 a + 36) = _ from h 36 (by decide),
    show m.word (BitVec.ofNat 32 a + 40) = _ from h 40 (by decide),
    show m.word (BitVec.ofNat 32 a + 44) = _ from h 44 (by decide)]
  rfl

/-- Registers that are pushed are a `struct registers`. -/
theorem registersAt_pushed (r : Registers)
    (h : m0.Stacked a (a + 48) [r.edi, r.esi, r.ebp, r.ebx, r.edx, r.ecx, r.eax, r.ip, r.cs, r.flags, r.esp, r.ss] m)
    (hown : m0.Own a (a + 48)) (htop : a + 48 < 2 ^ 32) : m.registersAt (BitVec.ofNat 32 a) = r := by
  have hesp : m.esp = BitVec.ofNat 32 a := by
    rw [h.esp]
    congr 1
  have hword : ∀ i v, [r.edi, r.esi, r.ebp, r.ebx, r.edx, r.ecx, r.eax, r.ip, r.cs, r.flags, r.esp, r.ss][i]? = some v →
      m.word (BitVec.ofNat 32 a + BitVec.ofNat 32 (4 * i)) = v := by
    intro i v hv
    rw [← hesp]
    exact h.word hown htop (by simp) hv
  have h0 := hword 0 _ rfl
  rw [Nat.mul_zero, BitVec.add_zero] at h0
  unfold Machine.registersAt
  rw [h0, show m.word (BitVec.ofNat 32 a + 4) = _ from hword 1 _ rfl,
    show m.word (BitVec.ofNat 32 a + 8) = _ from hword 2 _ rfl,
    show m.word (BitVec.ofNat 32 a + 12) = _ from hword 3 _ rfl,
    show m.word (BitVec.ofNat 32 a + 16) = _ from hword 4 _ rfl,
    show m.word (BitVec.ofNat 32 a + 20) = _ from hword 5 _ rfl,
    show m.word (BitVec.ofNat 32 a + 24) = _ from hword 6 _ rfl,
    show m.word (BitVec.ofNat 32 a + 28) = _ from hword 7 _ rfl,
    show m.word (BitVec.ofNat 32 a + 32) = _ from hword 8 _ rfl,
    show m.word (BitVec.ofNat 32 a + 36) = _ from hword 9 _ rfl,
    show m.word (BitVec.ofNat 32 a + 40) = _ from hword 10 _ rfl,
    show m.word (BitVec.ofNat 32 a + 44) = _ from hword 11 _ rfl]

/-- A machine with `task_return` called for registers that are pushed at `a`. -/
theorem exists_call (page : Nat → Nat) (r : Registers) {n : Nat} (hown : ∀ x, n ≤ x → x < n + 8 → page x = x)
    (hstruct : ∀ x, a ≤ x → x < a + 48 → page x = x) (hout : n + 8 ≤ a) (htop : a + 48 < 2 ^ 32) :
    ∃ m : Machine, m.page = page ∧ m.eflags = 2 ∧ m.esp = BitVec.ofNat 32 n ∧ m.word (m.esp + 4) = BitVec.ofNat 32 a ∧
      m.registersAt (BitVec.ofNat 32 a) = r := by
  let m0 : Machine := ⟨0, 0, 0, 0, 0, 0, 0, BitVec.ofNat 32 (a + 48), 0, 0, 0, 0, 0, fun _ => 0, page⟩
  have h0 : m0.Stacked a (a + 48) [] m0 := ⟨rfl, rfl, fun i v hv => by simp at hv, fun x _ => rfl⟩
  have h1 := h0.pushes hstruct htop [r.ss, r.esp, r.flags, r.cs, r.ip, r.eax, r.ecx, r.edx, r.ebx, r.ebp, r.esi,
    r.edi] (by simp)
  have hregisters := registersAt_pushed r h1 hstruct htop
  generalize [r.ss, r.esp, r.flags, r.cs, r.ip, r.eax, r.ecx, r.edx, r.ebx, r.ebp, r.esi, r.edi].foldl Machine.push m0 =
    m1 at h1 hregisters
  let m2 : Machine := ⟨0, 0, 0, 0, 0, 0, 0, BitVec.ofNat 32 (n + 8), 2, 0, 0, 0, 0, m1.mem, page⟩
  have hpage : m2.page = m1.page := h1.page.symm
  have hregisters2 : m2.registersAt (BitVec.ofNat 32 a) = r := by
    rw [← hregisters]
    refine registersAt_congr fun d _ => ?_
    unfold Machine.word Machine.seen
    rw [hpage]
  have h2 : m2.Stacked n (n + 8) [] m2 := ⟨rfl, rfl, fun i v hv => by simp at hv, fun x _ => rfl⟩
  have h3 := h2.pushes hown (by omega) [BitVec.ofNat 32 a, 0] (by simp)
  have hargument : _ = BitVec.ofNat 32 a := h3.word (i := 1) hown (by omega) (by simp) rfl
  refine ⟨[BitVec.ofNat 32 a, 0].foldl Machine.push m2, h3.page, rfl, h3.esp, hargument, ?_⟩
  rw [← hregisters2]
  exact registersAt_congr fun d hd => h3.read ⟨Nat.le_of_lt htop, hstruct, .inr hout⟩ hd

end

end SimpleMicrokernel.Tasking
