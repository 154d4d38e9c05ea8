/-
`idt/idt.c`: the gates and what the processor reads back from them, and the table of the commands of the system
call. A gate is eight bytes; the address it leads to is spread over the first and the last two of them.
-/
import SimpleMicrokernel.Kernel.Kernel
import Mathlib.Tactic.IntervalCases

namespace SimpleMicrokernel.Idt

open Memory Tasking

/-! ## The gates -/

/-- `TOTAL_INTERRUPTS`, `KERNEL_CODE_SELECTOR`, `sizeof(struct idt_desc)`. -/
abbrev totalInterrupts : Nat := 512
def kernelCodeSelector : BitVec 16 := 0x08
abbrev sizeofIdtDesc : Nat := 8

/-- `struct idtr_desc`, which `lidt` loads. -/
structure IdtrDesc where
  limit : BitVec 16
  base : BitVec 32
deriving DecidableEq, Repr

def idtSet (mem : Mem) (idtDescriptors interruptNo : Nat) (address : BitVec 32) : Mem :=
  let desc := idtDescriptors + sizeofIdtDesc * interruptNo
  let mem := setUint16 mem desc ((address &&& 0x0000ffff).setWidth 16)
  let mem := setUint16 mem (desc + 2) kernelCodeSelector
  let mem := Function.update mem (desc + 4) 0x00
  let mem := Function.update mem (desc + 5) 0xEE
  setUint16 mem (desc + 6) ((address >>> 16).setWidth 16)

/-- The routines that are given to `idt_set`. -/
inductive Routine where
  | noInterrupt
  | idtZero
  | isr80hWrapper
  | isr0x20Wrapper
deriving DecidableEq, Repr

/-- The first `n` turns of the loop of `idt_init`. -/
def idtLoop (mem : Mem) (idtDescriptors : Nat) (address : BitVec 32) : Nat → Mem
  | 0 => mem
  | i + 1 => idtSet (idtLoop mem idtDescriptors address i) idtDescriptors i address

/-- Where the linker puts the globals of `idt.c`. -/
structure IdtGlobals where
  idtDescriptors : Nat
  idtrDescriptor : Nat
  fit : idtDescriptors + sizeofIdtDesc * totalInterrupts ≤ 2 ^ 32
  apart : idtrDescriptor + 6 ≤ idtDescriptors ∨ idtDescriptors + sizeofIdtDesc * totalInterrupts ≤ idtrDescriptor

def idtLoad (mem : Mem) (ptr : Nat) : IdtrDesc := ⟨uint16At mem ptr, uint32At mem (ptr + 2)⟩

def idtInit (mem : Mem) (globals : IdtGlobals) (address : Routine → BitVec 32) : Mem × IdtrDesc :=
  let mem := memset mem globals.idtDescriptors 0 (sizeofIdtDesc * totalInterrupts)
  let mem := setUint16 mem globals.idtrDescriptor (BitVec.ofNat 16 (sizeofIdtDesc * totalInterrupts - 1))
  let mem := setUint32 mem (globals.idtrDescriptor + 2) (BitVec.ofNat 32 globals.idtDescriptors)
  let mem := idtLoop mem globals.idtDescriptors (address .noInterrupt) totalInterrupts
  let mem := idtSet mem globals.idtDescriptors 0 (address .idtZero)
  let mem := idtSet mem globals.idtDescriptors 0x80 (address .isr80hWrapper)
  let mem := idtSet mem globals.idtDescriptors 0x20 (address .isr0x20Wrapper)
  (mem, idtLoad mem globals.idtrDescriptor)

/-! ## What the processor reads -/

/-- A gate as the processor takes it from the table. -/
structure Gate where
  offset : BitVec 32
  selector : BitVec 16
  present : Bool
  dpl : BitVec 2
  type : BitVec 5
deriving DecidableEq, Repr

/-- The gate of a vector; one that the limit cuts off is none. -/
def gateAt (mem : Mem) (idtr : IdtrDesc) (vector : Nat) : Option Gate :=
  let a := idtr.base.toNat + sizeofIdtDesc * vector
  if sizeofIdtDesc * vector + 7 ≤ idtr.limit.toNat then
    some {
      offset := uint16At mem (a + 6) ++ uint16At mem a
      selector := uint16At mem (a + 2)
      present := (mem (a + 5)).getLsbD 7
      dpl := (mem (a + 5)).extractLsb' 5 2
      type := (mem (a + 5)).extractLsb' 0 5 }
  else none

/-- What `idt_init` gives a vector to. -/
def routineOf (vector : Nat) : Routine :=
  if vector = 0x20 then .isr0x20Wrapper else if vector = 0x80 then .isr80hWrapper else if vector = 0 then .idtZero else
    .noInterrupt

/-- An interrupt gate of 32 bits that user code may use too, into the kernel's code. -/
def kernelGate (address : BitVec 32) : Gate := ⟨address, kernelCodeSelector, true, 3, 0xE⟩

section
variable {mem : Mem} {idt n : Nat} {address : BitVec 32}

theorem idtSet_apply {x : Nat} (h : x < idt + sizeofIdtDesc * n ∨ idt + sizeofIdtDesc * n + sizeofIdtDesc ≤ x) :
    idtSet mem idt n address x = mem x := by
  unfold idtSet
  unfold sizeofIdtDesc at *
  rw [setUint16_apply _ _ (by omega), Function.update_of_ne (by omega), Function.update_of_ne (by omega),
    setUint16_apply _ _ (by omega), setUint16_apply _ _ (by omega)]

/-- The bytes of a gate, by their place in it. -/
def gateByte (address : BitVec 32) : Nat → Byte
  | 0 => address.extractLsb' 0 8
  | 1 => address.extractLsb' 8 8
  | 2 => 0x08
  | 5 => 0xEE
  | 6 => address.extractLsb' 16 8
  | 7 => address.extractLsb' 24 8
  | _ => 0x00

theorem extract_low (address : BitVec 32) {k : Nat} (hk : k ≤ 8) :
    ((address &&& 0x0000ffff).setWidth 16).extractLsb' k 8 = address.extractLsb' k 8 := by
  have hlow : (address &&& 0x0000ffff).setWidth 16 = address.setWidth 16 := by
    refine BitVec.eq_of_toNat_eq ?_
    rw [BitVec.toNat_setWidth, BitVec.toNat_setWidth, BitVec.toNat_and]
    show (address.toNat &&& 2 ^ 16 - 1) % 2 ^ 16 = _
    rw [Nat.and_two_pow_sub_one_eq_mod, Nat.mod_mod]
  rw [hlow]
  refine BitVec.eq_of_getLsbD_eq fun i hi => ?_
  simp only [BitVec.getLsbD_extractLsb', BitVec.getLsbD_setWidth]
  grind

theorem extract_high (address : BitVec 32) {k : Nat} :
    ((address >>> 16).setWidth 16).extractLsb' k 8 = address.extractLsb' (16 + k) 8 := by
  refine BitVec.eq_of_getLsbD_eq fun i hi => ?_
  simp only [BitVec.getLsbD_extractLsb', BitVec.getLsbD_setWidth, BitVec.getLsbD_ushiftRight, Nat.add_assoc]
  grind

theorem idtSet_byte {k : Nat} (hk : k < sizeofIdtDesc) :
    idtSet mem idt n address (idt + sizeofIdtDesc * n + k) = gateByte address k := by
  unfold idtSet
  generalize idt + sizeofIdtDesc * n = desc
  unfold sizeofIdtDesc at hk
  have hlow := extract_low address (Nat.zero_le 8)
  have hlow' := extract_low address (Nat.le_refl 8)
  have hhigh := extract_high address (k := 0)
  have hhigh' := extract_high address (k := 8)
  generalize (address &&& 0x0000ffff).setWidth 16 = low at *
  generalize (address >>> 16).setWidth 16 = high at *
  interval_cases k <;> simp [setUint16, Nat.add_assoc, gateByte, kernelCodeSelector, hlow, hlow', hhigh, hhigh']

/-- The processor reads back the address that a gate was made from. -/
theorem gate_of_bytes {idtr : IdtrDesc} {vector : Nat} (hlimit : sizeofIdtDesc * vector + 7 ≤ idtr.limit.toNat)
    (h : ∀ k < sizeofIdtDesc, mem (idtr.base.toNat + sizeofIdtDesc * vector + k) = gateByte address k) :
    gateAt mem idtr vector = some (kernelGate address) := by
  unfold gateAt
  rw [if_pos hlimit]
  generalize idtr.base.toNat + sizeofIdtDesc * vector = a at h
  have h0 := h 0 (by decide)
  rw [Nat.add_zero] at h0
  have hoffset : uint16At mem (a + 6) ++ uint16At mem a = address := by
    unfold uint16At
    rw [h 7 (by decide), h 6 (by decide), h 1 (by decide), h0]
    refine BitVec.eq_of_getLsbD_eq fun i hi => ?_
    simp only [gateByte, BitVec.getLsbD_append, BitVec.getLsbD_extractLsb']
    grind
  have hselector : uint16At mem (a + 2) = kernelCodeSelector := by
    unfold uint16At
    rw [h 3 (by decide), h 2 (by decide)]
    show (0x00 : Byte) ++ (0x08 : Byte) = kernelCodeSelector
    decide
  have htype : mem (a + 5) = 0xEE := h 5 (by decide)
  simp only [hoffset, hselector, htype]
  rfl

theorem gateAt_idtSet_self {idtr : IdtrDesc} (hbase : idtr.base.toNat = idt)
    (hlimit : sizeofIdtDesc * n + 7 ≤ idtr.limit.toNat) :
    gateAt (idtSet mem idt n address) idtr n = some (kernelGate address) :=
  gate_of_bytes hlimit fun _ hk => hbase ▸ idtSet_byte hk

theorem gateAt_idtSet_of_ne {idtr : IdtrDesc} (hbase : idtr.base.toNat = idt) {vector : Nat} (hne : vector ≠ n) :
    gateAt (idtSet mem idt n address) idtr vector = gateAt mem idtr vector := by
  have hsame : ∀ k < 8, idtSet mem idt n address (idt + 8 * vector + k) = mem (idt + 8 * vector + k) := by
    intro k hk
    refine idtSet_apply ?_
    unfold sizeofIdtDesc
    omega
  have h0 := hsame 0 (by decide)
  rw [Nat.add_zero] at h0
  unfold gateAt sizeofIdtDesc uint16At
  rw [hbase]
  simp only [Nat.add_assoc] at hsame h0 ⊢
  simp only [h0, hsame 1 (by decide), hsame 2 (by decide), hsame 3 (by decide), hsame 5 (by decide),
    hsame 6 (by decide), hsame 7 (by decide), Nat.reduceAdd]

theorem gateAt_idtLoop {idtr : IdtrDesc} (hbase : idtr.base.toNat = idt) {vector : Nat}
    (hlimit : sizeofIdtDesc * vector + 7 ≤ idtr.limit.toNat) (h : vector < n) :
    gateAt (idtLoop mem idt address n) idtr vector = some (kernelGate address) := by
  induction n with
  | zero => omega
  | succ n ih =>
    rw [idtLoop]
    by_cases hv : vector = n
    · subst hv
      exact gateAt_idtSet_self hbase hlimit
    · rw [gateAt_idtSet_of_ne hbase hv]
      exact ih (by omega)

theorem idtLoop_apply {x : Nat} (h : x < idt ∨ idt + sizeofIdtDesc * n ≤ x) : idtLoop mem idt address n x = mem x := by
  induction n with
  | zero => rfl
  | succ n ih =>
    unfold sizeofIdtDesc at h
    rw [idtLoop, idtSet_apply (by unfold sizeofIdtDesc; omega), ih (by unfold sizeofIdtDesc; omega)]

end

/-! ## After `idt_init` -/

section
variable (mem : Mem) (globals : IdtGlobals) (address : Routine → BitVec 32)

theorem idtInit_other {x : Nat}
    (htable : x < globals.idtDescriptors ∨ globals.idtDescriptors + sizeofIdtDesc * totalInterrupts ≤ x) :
    (idtInit mem globals address).1 x =
      setUint32 (setUint16 mem globals.idtrDescriptor 4095) (globals.idtrDescriptor + 2)
      (BitVec.ofNat 32 globals.idtDescriptors) x := by
  show idtSet (idtSet (idtSet (idtLoop _ _ _ _) _ _ _) _ _ _) _ _ _ x = _
  unfold sizeofIdtDesc totalInterrupts at htable
  have hfill : memset mem globals.idtDescriptors 0 (sizeofIdtDesc * totalInterrupts) x = mem x := by
    rw [memset_apply, if_neg (by unfold sizeofIdtDesc totalInterrupts; omega)]
  rw [idtSet_apply (by unfold sizeofIdtDesc; omega), idtSet_apply (by unfold sizeofIdtDesc; omega),
    idtSet_apply (by unfold sizeofIdtDesc; omega), idtLoop_apply (by unfold sizeofIdtDesc totalInterrupts; omega)]
  unfold setUint32 setUint16
  rw [hfill]
  rfl

theorem idtInit_idtr : (idtInit mem globals address).2 = ⟨4095, BitVec.ofNat 32 globals.idtDescriptors⟩ := by
  have hapart := globals.apart
  have hother {x : Nat} (h1 : globals.idtrDescriptor ≤ x) (h2 : x < globals.idtrDescriptor + 6) :=
    idtInit_other mem globals address (x := x) (by omega)
  show idtLoad (idtInit mem globals address).1 globals.idtrDescriptor = _
  unfold idtLoad
  have hlimit : uint16At (idtInit mem globals address).1 globals.idtrDescriptor = 4095 := by
    unfold uint16At
    rw [hother (by omega) (by omega), hother (by omega) (by omega), setUint32_apply _ _ (by omega),
      setUint32_apply _ _ (by omega)]
    exact uint16At_setUint16 mem globals.idtrDescriptor 4095
  have hbase : uint32At (idtInit mem globals address).1 (globals.idtrDescriptor + 2) =
    BitVec.ofNat 32 globals.idtDescriptors :=
    (uint32At_congr fun x h1 h2 => hother (by omega) (by omega)).trans (uint32At_setUint32 ..)
  rw [hlimit, hbase]

theorem gateAt_idtInit (vector : Nat) :
    gateAt (idtInit mem globals address).1 (idtInit mem globals address).2 vector =
      if vector < totalInterrupts then some (kernelGate (address (routineOf vector))) else none := by
  have hbase : (idtInit mem globals address).2.base.toNat = globals.idtDescriptors := by
    rw [idtInit_idtr]
    exact Nat.mod_eq_of_lt (by have := globals.fit; unfold sizeofIdtDesc totalInterrupts at this; omega)
  have hlimit : (idtInit mem globals address).2.limit.toNat = 4095 := by
    rw [idtInit_idtr]
    rfl
  by_cases hv : vector < totalInterrupts
  · have hin : sizeofIdtDesc * vector + 7 ≤ (idtInit mem globals address).2.limit.toNat := by
      rw [hlimit]
      unfold sizeofIdtDesc totalInterrupts at *
      omega
    rw [if_pos hv]
    unfold routineOf
    by_cases h20 : vector = 0x20
    · subst h20
      exact gateAt_idtSet_self hbase hin
    · rw [if_neg h20]
      refine (gateAt_idtSet_of_ne hbase h20).trans ?_
      by_cases h80 : vector = 0x80
      · subst h80
        exact gateAt_idtSet_self hbase hin
      · rw [if_neg h80]
        refine (gateAt_idtSet_of_ne hbase h80).trans ?_
        by_cases h0 : vector = 0
        · subst h0
          exact gateAt_idtSet_self hbase hin
        · rw [if_neg h0]
          exact (gateAt_idtSet_of_ne hbase h0).trans (gateAt_idtLoop hbase hin hv)
  · rw [if_neg hv]
    unfold gateAt
    rw [hlimit, if_neg (by unfold sizeofIdtDesc totalInterrupts at *; omega)]

/-- Whatever was in memory, after `idt_init` the processor finds a gate for each of the 512 vectors and for no other;
it is present, leads into the kernel's code at the routine of the vector with interrupts off, and user code may use
it; and nothing in memory has changed but the table and `idtr_descriptor`. -/
theorem idt_gates :
    (∀ vector, gateAt (idtInit mem globals address).1 (idtInit mem globals address).2 vector =
      if vector < totalInterrupts then some (kernelGate (address (routineOf vector))) else none) ∧
    ∀ x, (x < globals.idtDescriptors ∨ globals.idtDescriptors + sizeofIdtDesc * totalInterrupts ≤ x) →
      (x < globals.idtrDescriptor ∨ globals.idtrDescriptor + 6 ≤ x) → (idtInit mem globals address).1 x = mem x := by
  refine ⟨gateAt_idtInit mem globals address, fun x htable hdescriptor => ?_⟩
  rw [idtInit_other mem globals address htable, setUint32_apply _ _ (by omega), setUint16_apply _ _ (by omega)]

end

/-- Globals that the linker may give. -/
def someGlobals : IdtGlobals := ⟨0x101000, 0x100000, by decide, by decide⟩

theorem idt_gates_filled : gateAt (idtInit (fun _ => 0xFF) someGlobals fun _ => 0x104321).1
    (idtInit (fun _ => 0xFF) someGlobals fun _ => 0x104321).2 0x80 = some (kernelGate 0x104321) :=
  (idt_gates (fun _ => 0xFF) someGlobals fun _ => 0x104321).1 0x80

/-! ## The commands of the system call -/

section
variable {C : Type}

/-- `isr80h_commands`; a command that is null is none. -/
abbrev Isr80hCommands (C : Type) := Int → Option C

/-- The table as the kernel finds it. -/
def noCommands : Isr80hCommands C := fun _ => none

def isr80hRegisterCommand (isr80hCommands : Isr80hCommands C) (commandId : Int) (command : Option C) :
    Except Halt (Isr80hCommands C) :=
  if commandId < 0 ∨ maxIsr80hCommands ≤ commandId then
    throw .panic
  else if (isr80hCommands commandId).isSome then
    throw .panic
  else
    return Function.update isr80hCommands commandId command

/-- One registration after the other. -/
def registerAll (isr80hCommands : Isr80hCommands C) (registrations : List (Int × Option C)) :
    Except Halt (Isr80hCommands C) :=
  registrations.foldlM (fun commands r => isr80hRegisterCommand commands r.1 r.2) isr80hCommands

def isr80hHandleCommand (isr80hCommands : Isr80hCommands (KM Nat)) (command : Int) : KM Nat :=
  if command < 0 ∨ maxIsr80hCommands ≤ command then
    return 0
  else
    (isr80hCommands command).elim (return 0) id

/-- What a kernel registers, in order. -/
def isr80hRegisterCommands (env : Env) : List (Int × Option (KM Nat)) :=
  [(systemCommand0Sum, some isr80hCommand0Sum), (systemCommand4SysWrite, some (isr80hCommand4SysWrite env))]

/-- The command that a list of registrations has for a number. -/
def registered (registrations : List (Int × Option C)) (command : Int) : Option C :=
  registrations.findSome? fun r => if r.1 = command then r.2 else none

/-- A registration that the table takes, given the ones before it. -/
def Registrable (isr80hCommands : Isr80hCommands C) (registrations : List (Int × Option C)) : Prop :=
  (∀ r ∈ registrations, 0 ≤ r.1 ∧ r.1 < maxIsr80hCommands ∧ isr80hCommands r.1 = none) ∧
    registrations.Pairwise fun r r' => r.2 = none ∨ r.1 ≠ r'.1

theorem isr80hRegisterCommand_eq_ok_iff {isr80hCommands commands' : Isr80hCommands C} {commandId : Int}
    {command : Option C} :
    isr80hRegisterCommand isr80hCommands commandId command = .ok commands' ↔
      (0 ≤ commandId ∧ commandId < maxIsr80hCommands ∧ isr80hCommands commandId = none) ∧
        commands' = Function.update isr80hCommands commandId command := by
  unfold isr80hRegisterCommand
  by_cases hrange : commandId < 0 ∨ maxIsr80hCommands ≤ commandId
  · rw [if_pos hrange]
    refine iff_of_false nofun fun ⟨⟨h0, h1, _⟩, _⟩ => ?_
    omega
  · rw [if_neg hrange]
    cases hslot : isr80hCommands commandId with
    | some c => simp
    | none =>
      rw [if_neg (by simp)]
      refine ⟨fun h => ⟨⟨by omega, by omega, rfl⟩, (Except.ok.inj h).symm⟩, fun ⟨_, h⟩ => h ▸ rfl⟩

theorem registrable_cons {isr80hCommands : Isr80hCommands C} {r : Int × Option C}
    {registrations : List (Int × Option C)} :
    Registrable isr80hCommands (r :: registrations) ↔
      (0 ≤ r.1 ∧ r.1 < maxIsr80hCommands ∧ isr80hCommands r.1 = none) ∧
        Registrable (Function.update isr80hCommands r.1 r.2) registrations := by
  unfold Registrable
  rw [List.forall_mem_cons, List.pairwise_cons]
  constructor
  · rintro ⟨⟨hr, hrest⟩, hfirst, hpairs⟩
    refine ⟨hr, fun r' hr' => ?_, hpairs⟩
    obtain ⟨h0, h1, hnone⟩ := hrest r' hr'
    refine ⟨h0, h1, ?_⟩
    by_cases hid : r'.1 = r.1
    · rw [hid, Function.update_self]
      exact (hfirst r' hr').resolve_right fun h => h hid.symm
    · rw [Function.update_of_ne hid, hnone]
  · rintro ⟨hr, hrest, hpairs⟩
    refine ⟨⟨hr, fun r' hr' => ?_⟩, fun r' hr' => ?_, hpairs⟩
    · obtain ⟨h0, h1, hnone⟩ := hrest r' hr'
      refine ⟨h0, h1, ?_⟩
      by_cases hid : r'.1 = r.1
      · rw [hid, hr.2.2]
      · rwa [Function.update_of_ne hid] at hnone
    · by_cases hid : r.1 = r'.1
      · have hnone := (hrest r' hr').2.2
        rw [← hid, Function.update_self] at hnone
        exact .inl hnone
      · exact .inr hid

/-- Registering goes through exactly where it may, and each command is then where it was registered. -/
theorem registerAll_eq_ok_iff {isr80hCommands commands' : Isr80hCommands C} {registrations : List (Int × Option C)} :
    registerAll isr80hCommands registrations = .ok commands' ↔
      Registrable isr80hCommands registrations ∧
        commands' = fun command => (isr80hCommands command).or (registered registrations command) := by
  induction registrations generalizing isr80hCommands with
  | nil =>
    have hsame : (fun command => (isr80hCommands command).or (registered [] command)) = isr80hCommands := by
      funext command
      exact Option.or_none
    rw [hsame]
    exact ⟨fun h => ⟨⟨nofun, .nil⟩, (Except.ok.inj h).symm⟩, fun h => h.2 ▸ rfl⟩
  | cons r registrations ih =>
    have hstep : registerAll isr80hCommands (r :: registrations) =
        (isr80hRegisterCommand isr80hCommands r.1 r.2).bind fun commands => registerAll commands registrations := rfl
    have hfound (hnone : isr80hCommands r.1 = none) :
        (fun command => (Function.update isr80hCommands r.1 r.2 command).or (registered registrations command)) =
          fun command => (isr80hCommands command).or (registered (r :: registrations) command) := by
      funext command
      unfold registered
      rw [List.findSome?_cons]
      by_cases hid : command = r.1
      · subst hid
        rw [Function.update_self, if_pos rfl, hnone]
        cases r.2 <;> rfl
      · rw [Function.update_of_ne hid, if_neg (Ne.symm hid)]
    rw [hstep, registrable_cons]
    constructor
    · intro h
      cases hr : isr80hRegisterCommand isr80hCommands r.1 r.2 with
      | error e => rw [hr] at h; cases h
      | ok commands =>
        rw [hr] at h
        obtain ⟨hslot, rfl⟩ := isr80hRegisterCommand_eq_ok_iff.1 hr
        obtain ⟨hrest, rfl⟩ := ih.1 h
        exact ⟨⟨hslot, hrest⟩, hfound hslot.2.2⟩
    · rintro ⟨⟨hslot, hrest⟩, rfl⟩
      rw [isr80hRegisterCommand_eq_ok_iff.2 ⟨hslot, rfl⟩]
      exact ih.2 ⟨hrest, (hfound hslot.2.2).symm⟩

end

theorem registered_mem {C : Type} {registrations : List (Int × Option C)} {command : Int} {c : C}
    (h : registered registrations command = some c) : (command, some c) ∈ registrations := by
  obtain ⟨⟨id, c'⟩, hr, hif⟩ := List.exists_of_findSome?_eq_some h
  by_cases hid : id = command
  · rw [if_pos hid] at hif
    obtain rfl := hid
    obtain rfl : c' = some c := hif
    exact hr
  · rw [if_neg hid] at hif
    cases hif

/-- A call that goes through the table the registrations made. -/
theorem handleCommand_registered {registrations : List (Int × Option (KM Nat))} {commands : Isr80hCommands (KM Nat)}
    (h : registerAll noCommands registrations = .ok commands) (command : Int) :
    isr80hHandleCommand commands command = (registered registrations command).elim (return 0) id := by
  obtain ⟨⟨hrange, _⟩, rfl⟩ := registerAll_eq_ok_iff.1 h
  unfold isr80hHandleCommand
  by_cases hcommand : command < 0 ∨ maxIsr80hCommands ≤ command
  · rw [if_pos hcommand]
    cases hr : registered registrations command with
    | none => rfl
    | some c =>
      obtain ⟨h0, h1, _⟩ := hrange _ (registered_mem hr)
      omega
  · rw [if_neg hcommand]
    rfl

/-- A list of commands is registered at boot without a panic if and only if every number is below 1024 and none comes
after a command of the same number; a call then runs the command of its number, whatever the state, or does nothing
and gives 0. What the kernel registers is such a list. -/
theorem commands_registered (env : Env) (registrations : List (Int × Option (KM Nat))) :
    ((∃ commands, registerAll noCommands registrations = .ok commands) ↔
      (∀ r ∈ registrations, 0 ≤ r.1 ∧ r.1 < maxIsr80hCommands) ∧ registrations.Pairwise fun r r' => r.2 = none ∨
      r.1 ≠ r'.1) ∧
    (∀ commands, registerAll noCommands registrations = .ok commands → ∀ command,
      isr80hHandleCommand commands command = (registered registrations command).elim (return 0) id) ∧
    ∃ commands, registerAll noCommands (isr80hRegisterCommands env) = .ok commands ∧
      ∀ command, isr80hHandleCommand commands command = Tasking.isr80hHandleCommand env command := by
  have haccepted {registrations : List (Int × Option (KM Nat))} :
    (∃ commands, registerAll noCommands registrations = .ok commands) ↔
      (∀ r ∈ registrations, 0 ≤ r.1 ∧ r.1 < maxIsr80hCommands) ∧ registrations.Pairwise fun r r' => r.2 = none ∨
        r.1 ≠ r'.1 := by
    constructor
    · rintro ⟨commands, h⟩
      obtain ⟨⟨hrange, hpairs⟩, _⟩ := registerAll_eq_ok_iff.1 h
      exact ⟨fun r hr => ⟨(hrange r hr).1, (hrange r hr).2.1⟩, hpairs⟩
    · rintro ⟨hrange, hpairs⟩
      exact ⟨_, registerAll_eq_ok_iff.2 ⟨⟨fun r hr => ⟨(hrange r hr).1, (hrange r hr).2, rfl⟩, hpairs⟩, rfl⟩⟩
  refine ⟨haccepted, fun commands h => handleCommand_registered h, ?_⟩
  have hown : (∀ r ∈ isr80hRegisterCommands env, 0 ≤ r.1 ∧ r.1 < maxIsr80hCommands) ∧
      (isr80hRegisterCommands env).Pairwise fun r r' => r.2 = none ∨ r.1 ≠ r'.1 := by
    unfold isr80hRegisterCommands systemCommand0Sum systemCommand4SysWrite maxIsr80hCommands
    simp
  obtain ⟨commands, h⟩ := haccepted.2 hown
  refine ⟨commands, h, fun command => (handleCommand_registered h command).trans ?_⟩
  unfold Tasking.isr80hHandleCommand registered isr80hRegisterCommands
  by_cases h0 : command = systemCommand0Sum
  · subst h0
    rfl
  · by_cases h4 : command = systemCommand4SysWrite
    · subst h4
      rfl
    · rw [List.findSome?_cons, if_neg (Ne.symm h0), List.findSome?_cons, if_neg (Ne.symm h4), if_neg h0, if_neg h4]
      exact (ite_self _).symm

end SimpleMicrokernel.Idt
