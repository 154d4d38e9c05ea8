/-
`disk/disk.c` at the ports of the controller, and the reader of `boot/boot.asm`. The controller takes a command when
it is idle, is busy for as long as it likes before each sector, and then gives the sector word by word.
-/
import SimpleMicrokernel.Disk.Streamer
import SimpleMicrokernel.Lib.Polled
import Mathlib.Tactic.IntervalCases

namespace SimpleMicrokernel.Disk.Ata

open Memory Polled

/-! ## The controller -/

/-- Between commands; `wait` more answers before the sector `lba` is there; the next word of the sector. `left` counts
the sectors of the command from this one on. -/
inductive Phase where
  | idle
  | busy (wait lba left : Nat)
  | ready (word lba left : Nat)

/-- The controller with its disk. How long it is busy before the `n`th sector it ever gives is `latency n`. -/
structure Controller where
  image : Nat → Fin 512 → Byte
  latency : Nat → Nat
  served : Nat
  sectorCount : Byte
  lbaLow : Byte
  lbaMid : Byte
  lbaHigh : Byte
  device : Byte
  phase : Phase

theorem mod_512_lt (i : Nat) : i % 512 < 512 := Nat.mod_lt i (by decide)

/-- A byte of a sector. -/
def sectorIndex (i : Nat) : Fin 512 := ⟨i % 512, mod_512_lt i⟩

/-- The sector number that is set, and the count, where 0 is 256. -/
def Controller.lba (c : Controller) : Nat := (c.device.extractLsb' 0 4 ++ c.lbaHigh ++ c.lbaMid ++ c.lbaLow).toNat
def Controller.count (c : Controller) : Nat := if c.sectorCount = 0 then 256 else c.sectorCount.toNat

/-- READ SECTORS. The bit of the second drive, which is not there, is 4. -/
def Controller.start (c : Controller) : Controller :=
  if c.device.getLsbD 4 then c else { c with phase := .busy (c.latency c.served) c.lba c.count }

def Controller.outb (c : Controller) (port : BitVec 16) (v : Byte) : Controller :=
  match c.phase with
  | .idle =>
    if port = 0x1F2 then { c with sectorCount := v }
    else if port = 0x1F3 then { c with lbaLow := v }
    else if port = 0x1F4 then { c with lbaMid := v }
    else if port = 0x1F5 then { c with lbaHigh := v }
    else if port = 0x1F6 then { c with device := v }
    else if port = 0x1F7 ∧ v = 0x20 then c.start
    else c
  | _ => c

/-- The status register; `DRQ` is bit 3. -/
def Controller.inb (c : Controller) : Byte × Controller :=
  match c.phase with
  | .idle => (0x50, c)
  | .busy 0 lba left => (0x58, { c with phase := .ready 0 lba left })
  | .busy (wait + 1) lba left => (0x80, { c with phase := .busy wait lba left })
  | .ready _ _ _ => (0x58, c)

/-- The next of `left` sectors. -/
def Controller.reading (c : Controller) (lba left : Nat) : Controller :=
  { c with phase := if left = 0 then .idle else .busy (c.latency c.served) lba left }

/-- The data register. -/
def Controller.inw (c : Controller) : BitVec 16 × Controller :=
  match c.phase with
  | .ready word lba left =>
    (c.image lba (sectorIndex (2 * word + 1)) ++ c.image lba (sectorIndex (2 * word)),
      if word + 1 = 256 then Controller.reading { c with served := c.served + 1 } (lba + 1) (left - 1)
      else { c with phase := .ready (word + 1) lba left })
  | _ => (0, c)

/-! ## The readers -/

/-- The controller, memory and where the next word goes. -/
structure Transfer where
  controller : Controller
  mem : Mem
  ptr : Nat

/-- `inb(0x1F7) & 0x08`. -/
def Transfer.status (s : Transfer) : Bool × Transfer :=
  (s.controller.inb.1.getLsbD 3, { s with controller := s.controller.inb.2 })

/-- `*ptr = inw(0x1F0); ptr++`. -/
def Transfer.copyWord (s : Transfer) : Transfer :=
  ⟨s.controller.inw.2, setUint16 s.mem s.ptr s.controller.inw.1, s.ptr + 2⟩

def Transfer.copyWords : Nat → Transfer → Transfer
  | 0, s => s
  | n + 1, s => Transfer.copyWords n s.copyWord

def select (c : Controller) (lba total : BitVec 32) : Controller :=
  let c := c.outb 0x1F6 0xE0
  let c := c.outb 0x1F2 (total.extractLsb' 0 8)
  let c := c.outb 0x1F3 (lba.extractLsb' 0 8)
  let c := c.outb 0x1F4 ((lba >>> 8).extractLsb' 0 8)
  let c := c.outb 0x1F5 ((lba >>> 16).extractLsb' 0 8)
  c.outb 0x1F7 0x20

/-- It returns 0 when it returns. -/
def diskReadSectors (fuel : Nat) (c : Controller) (mem : Mem) (lba total : BitVec 32) (buffer : Nat) :
    Option Transfer :=
  transfer Transfer.status (Transfer.copyWords 256) fuel total.toNat ⟨select c lba total, mem, buffer⟩

/-- The disk there is at `disk`. -/
def diskReadBlock (fuel : Nat) (disk idisk : Nat) (c : Controller) (mem : Mem) (lba total : BitVec 32) (buf : Nat) :
    Option (Int × Transfer) :=
  if idisk ≠ disk then some (-1, ⟨c, mem, buf⟩)
  else (diskReadSectors fuel c mem lba total buf).map fun s => (1, s)

/-- What `ata_lba_read` sends before the sectors come. -/
def ataSelect (c : Controller) (eax ecx : BitVec 32) : Controller :=
  let c := c.outb 0x1F6 ((eax >>> 24 ||| 0xE0).extractLsb' 0 8)
  let c := c.outb 0x1F2 (ecx.extractLsb' 0 8)
  let c := c.outb 0x1F3 (eax.extractLsb' 0 8)
  let c := c.outb 0x1F4 ((eax >>> 8).extractLsb' 0 8)
  let c := c.outb 0x1F5 ((eax >>> 16).extractLsb' 0 8)
  c.outb 0x1F7 0x20

/-- `loop` counts down before it looks, so 0 is `2^32` turns. -/
def ataLbaRead (fuel : Nat) (c : Controller) (mem : Mem) (eax ecx : BitVec 32) (edi : Nat) : Option Transfer :=
  transfer Transfer.status (Transfer.copyWords 256) fuel (if ecx = 0 then 2 ^ 32 else ecx.toNat)
    ⟨ataSelect c eax ecx, mem, edi⟩

/-! ## One sector -/

section
variable {c : Controller} {mem : Mem} {ptr word lba left wait n fuel : Nat} {s s' : Transfer}

/-- `n` sectors of a disk, from `lba` on, at an address. -/
def written (image : Nat → Fin 512 → Byte) (lba n ptr : Nat) (mem : Mem) : Mem := fun x =>
  if ptr ≤ x ∧ x < ptr + n * 512 then image (lba + (x - ptr) / 512) (sectorIndex (x - ptr)) else mem x

theorem drq : (0x58 : Byte).getLsbD 3 = true ∧ (0x80 : Byte).getLsbD 3 = false ∧
    (0x50 : Byte).getLsbD 3 = false := by decide

theorem ready_of_busy (wait : Nat) : Ready Transfer.status ⟨{ c with phase := .busy wait lba left }, mem, ptr⟩
    ⟨{ c with phase := .ready 0 lba left }, mem, ptr⟩ := by
  induction wait with
  | zero =>
    refine .now ?_
    show (Controller.inb { c with phase := .busy 0 lba left }).1.getLsbD 3 = true
    exact drq.1
  | succ wait ih =>
    refine .later ?_ ih
    show (Controller.inb { c with phase := .busy (wait + 1) lba left }).1.getLsbD 3 = false
    exact drq.2.1

theorem not_ready_idle (h : s.controller.phase = .idle) : ¬ Ready Transfer.status s s' := by
  refine not_ready (P := fun s => s.controller.phase = .idle) (fun s h => ?_) h
  have hin : s.controller.inb = (0x50, s.controller) := by
    unfold Controller.inb
    rw [h]
  constructor
  · show s.controller.inb.1.getLsbD 3 = false
    rw [hin]
    exact drq.2.2
  · show s.controller.inb.2.phase = .idle
    rw [hin]
    exact h

theorem setUint16_word (image : Fin 512 → Byte) (word : Nat) (mem : Mem) (ptr x : Nat) :
    setUint16 mem ptr (image (sectorIndex (2 * word + 1)) ++ image (sectorIndex (2 * word))) x =
      if ptr ≤ x ∧ x < ptr + 2 then image (sectorIndex (2 * word + (x - ptr))) else mem x := by
  by_cases hx : ptr ≤ x ∧ x < ptr + 2
  · rw [if_pos hx]
    unfold setUint16
    rcases (by omega : x = ptr ∨ x = ptr + 1) with rfl | rfl
    · rw [if_pos rfl, Nat.sub_self, BitVec.extractLsb'_append_eq_right]
      rfl
    · rw [if_neg (by omega), if_pos rfl, Nat.add_sub_cancel_left, BitVec.extractLsb'_append_eq_left]
  · rw [if_neg hx]
    exact setUint16_apply _ _ (by omega)

theorem copyWords_ready (hw : word + (n + 1) = 256) :
    Transfer.copyWords (n + 1) ⟨{ c with phase := .ready word lba left }, mem, ptr⟩ =
      ⟨Controller.reading { c with served := c.served + 1 } (lba + 1) (left - 1),
        fun x => if ptr ≤ x ∧ x < ptr + 2 * (n + 1) then c.image lba (sectorIndex (2 * word + (x - ptr))) else mem x,
        ptr + 2 * (n + 1)⟩ := by
  induction n generalizing word mem ptr with
  | zero =>
    rw [Transfer.copyWords, Transfer.copyWord, Transfer.copyWords]
    unfold Controller.inw
    dsimp only
    rw [if_pos hw, funext (setUint16_word (c.image lba) word mem ptr)]
    rfl
  | succ n ih =>
    rw [Transfer.copyWords, Transfer.copyWord]
    unfold Controller.inw
    dsimp only
    rw [if_neg (by omega), funext (setUint16_word (c.image lba) word mem ptr), ih (by omega)]
    have hmem : (fun x => if ptr + 2 ≤ x ∧
      x < ptr + 2 + 2 * (n + 1) then c.image lba (sectorIndex (2 * (word + 1) + (x - (ptr + 2))))
        else if ptr ≤ x ∧ x < ptr + 2 then c.image lba (sectorIndex (2 * word + (x - ptr))) else mem x) =
        fun x => if ptr ≤ x ∧ x < ptr + 2 * (n + 1 + 1) then
          c.image lba (sectorIndex (2 * word + (x - ptr))) else mem x := by
      funext x
      by_cases hrest : ptr + 2 ≤ x ∧ x < ptr + 2 + 2 * (n + 1)
      · rw [if_pos hrest, if_pos (by omega), show 2 * (word + 1) + (x - (ptr + 2)) = 2 * word + (x - ptr) by omega]
      · rw [if_neg hrest]
        by_cases hfirst : ptr ≤ x ∧ x < ptr + 2
        · rw [if_pos hfirst, if_pos (by omega)]
        · rw [if_neg hfirst, if_neg (by omega)]
    rw [hmem, show ptr + 2 + 2 * (n + 1) = ptr + 2 * (n + 1 + 1) by omega]

/-! ## A command -/

/-- The controller after some sectors. -/
def Controller.after (c : Controller) (n : Nat) : Controller := { c with served := c.served + n }

theorem written_one (image : Nat → Fin 512 → Byte) (lba ptr : Nat) (mem : Mem) :
    (fun x => if ptr ≤ x ∧ x < ptr + 2 * (255 + 1) then image lba (sectorIndex (2 * 0 + (x - ptr))) else mem x) =
      written image lba 1 ptr mem := by
  funext x
  unfold written
  by_cases hx : ptr ≤ x ∧ x < ptr + 1 * 512
  · rw [if_pos (by omega), if_pos hx, Nat.div_eq_of_lt (by omega), Nat.mul_zero, Nat.zero_add, Nat.add_zero]
  · rw [if_neg (by omega), if_neg hx]

theorem written_succ (image : Nat → Fin 512 → Byte) (lba n ptr : Nat) (mem : Mem) :
    written image (lba + 1) n (ptr + 512) (written image lba 1 ptr mem) = written image lba (n + 1) ptr mem := by
  funext x
  unfold written
  by_cases hrest : ptr + 512 ≤ x ∧ x < ptr + 512 + n * 512
  · have hdiv : lba + 1 + (x - (ptr + 512)) / 512 = lba + (x - ptr) / 512 := by omega
    have hfin : sectorIndex (x - (ptr + 512)) = sectorIndex (x - ptr) :=
      Fin.ext (by unfold sectorIndex; simp only; omega)
    rw [if_pos hrest, if_pos (by omega), hdiv, hfin]
  · rw [if_neg hrest]
    have hsum : ptr + (n + 1) * 512 = ptr + n * 512 + 512 := by rw [Nat.succ_mul, Nat.add_assoc]
    by_cases hfirst : ptr ≤ x ∧ x < ptr + 1 * 512
    · rw [if_pos hfirst, hsum, if_pos (by omega)]
    · rw [if_neg hfirst, hsum, if_neg (by omega)]

theorem serves_one (hleft : 0 < left) : Serves Transfer.status (Transfer.copyWords 256) 1 ⟨c.reading lba left, mem, ptr⟩
    ⟨(c.after 1).reading (lba + 1) (left - 1), written c.image lba 1 ptr mem, ptr + 512⟩ := by
  have hreading : c.reading lba left = { c with phase := .busy (c.latency c.served) lba left } := by
    unfold Controller.reading
    rw [if_neg (by omega)]
  have hwords : Transfer.copyWords (255 + 1) ⟨{ c with phase := .ready 0 lba left }, mem, ptr⟩ = _ :=
    copyWords_ready rfl
  rw [written_one] at hwords
  rw [hreading]
  refine .block (ready_of_busy _) ?_
  rw [hwords]
  exact .done _

/-- As many sectors as the command is for, or fewer. -/
theorem serves_reading (hn : n ≤ left) :
    Serves Transfer.status (Transfer.copyWords 256) n ⟨c.reading lba left, mem, ptr⟩
    ⟨(c.after n).reading (lba + n) (left - n), written c.image lba n ptr mem, ptr + n * 512⟩ := by
  induction n generalizing c lba left mem ptr with
  | zero =>
    have hmem : written c.image lba 0 ptr mem = mem := by
      funext x
      unfold written
      exact if_neg (by omega)
    rw [hmem]
    exact .done _
  | succ n ih =>
    have hone : Serves Transfer.status (Transfer.copyWords 256) 1 ⟨c.reading lba left, mem, ptr⟩ _ :=
      serves_one (by omega)
    have hrest := hone.append (ih (by omega))
    have hafter : (c.after 1).after n = c.after (n + 1) := by
      unfold Controller.after
      rw [Nat.add_assoc, Nat.add_comm 1 n]
    rw [hafter, Nat.add_comm 1 n] at hrest
    have hmem := written_succ c.image lba n ptr mem
    rw [show lba + 1 + n = lba + (n + 1) by omega, show left - 1 - n = left - (n + 1) by omega,
      show ptr + 512 + n * 512 = ptr + (n + 1) * 512 by omega] at hrest
    rw [← hmem]
    exact hrest

/-- A reader comes back exactly when the command is for as many sectors as it waits for. -/
theorem transfer_reading : (∃ fuel,
      transfer Transfer.status (Transfer.copyWords 256) fuel n ⟨c.reading lba left, mem, ptr⟩ = some s) ↔
    n ≤ left ∧ s = ⟨(c.after n).reading (lba + n) (left - n), written c.image lba n ptr mem, ptr + n * 512⟩ := by
  rw [transfer_iff]
  constructor
  · intro h
    have hn : n ≤ left := by
      by_contra hlt
      obtain ⟨m, rfl⟩ : ∃ m, n = left + (m + 1) := ⟨n - left - 1, by omega⟩
      obtain ⟨s1, h1, h2⟩ := h.split
      obtain rfl := (serves_reading (Nat.le_refl left)).unique h1
      cases h2 with
      | block hready _ =>
        refine not_ready_idle ?_ hready
        unfold Controller.reading
        rw [Nat.sub_self]
        rfl
    exact ⟨hn, (serves_reading hn).unique h |>.symm⟩
  · rintro ⟨hn, rfl⟩
    exact serves_reading hn

/-! ## What is sent -/

/-- The sectors that the controller is asked for. -/
def sectors (total : BitVec 32) : Nat := if total.toNat % 256 = 0 then 256 else total.toNat % 256

/-- The registers as a reader sets them. -/
def Controller.set (c : Controller) (device : Byte) (lba total : BitVec 32) : Controller :=
  { c with
    device := device, sectorCount := total.extractLsb' 0 8, lbaLow := lba.extractLsb' 0 8
    lbaMid := (lba >>> 8).extractLsb' 0 8, lbaHigh := (lba >>> 16).extractLsb' 0 8 }

/-- The command of a reader, with what it sends for the drive. -/
theorem command_eq (hidle : c.phase = .idle) (device : Byte) (lba total : BitVec 32) :
    (((((c.outb 0x1F6 device).outb 0x1F2 (total.extractLsb' 0 8)).outb 0x1F3 (lba.extractLsb' 0 8)).outb 0x1F4
      ((lba >>> 8).extractLsb' 0 8)).outb 0x1F5 ((lba >>> 16).extractLsb' 0 8)).outb 0x1F7 0x20 =
      (c.set device lba total).start := by
  unfold Controller.outb
  simp [hidle, Controller.set]

theorem toNat_append_add {n m : Nat} (x : BitVec n) (y : BitVec m) : (x ++ y).toNat = x.toNat * 2 ^ m + y.toNat := by
  rw [BitVec.toNat_append, ← Nat.shiftLeft_add_eq_or_of_lt y.isLt, Nat.shiftLeft_eq]

theorem lba_set (c : Controller) (device : Byte) (lba total : BitVec 32) :
    (c.set device lba total).lba = device.toNat % 16 * 2 ^ 24 + lba.toNat % 2 ^ 24 := by
  show (device.extractLsb' 0 4 ++ (lba >>> 16).extractLsb' 0 8 ++ (lba >>> 8).extractLsb' 0 8 ++
    lba.extractLsb' 0 8).toNat = _
  simp only [toNat_append_add, BitVec.extractLsb'_toNat, BitVec.toNat_ushiftRight, Nat.shiftRight_eq_div_pow]
  omega

theorem count_set (c : Controller) (device : Byte) (lba total : BitVec 32) :
    (c.set device lba total).count = sectors total := by
  have hbyte : (total.extractLsb' 0 8).toNat = total.toNat % 256 := by
    rw [BitVec.extractLsb'_toNat, Nat.shiftRight_zero]
  have hzero : total.extractLsb' 0 8 = 0 ↔ total.toNat % 256 = 0 := by
    rw [← BitVec.toNat_inj, hbyte]
    rfl
  show (if total.extractLsb' 0 8 = 0 then 256 else (total.extractLsb' 0 8).toNat) = _
  simp only [hzero, hbyte]
  rfl

theorem start_set (hidle : c.phase = .idle) (device : Byte) (lba total : BitVec 32) : (c.set device lba total).start =
    if device.getLsbD 4 then (c.set device lba total).reading 0 0
    else (c.set device lba total).reading (device.toNat % 16 * 2 ^ 24 + lba.toNat % 2 ^ 24) (sectors total) := by
  have hpos : sectors total ≠ 0 := by
    unfold sectors
    split <;> omega
  unfold Controller.start Controller.reading
  rw [lba_set, count_set, if_neg hpos, if_pos rfl]
  by_cases hdrive : device.getLsbD 4
  · rw [if_pos hdrive]
    have hdrive : (c.set device lba total).device.getLsbD 4 := hdrive
    rw [if_pos hdrive]
    unfold Controller.set
    rw [hidle]
  · rw [if_neg hdrive]
    have hdrive : ¬ (c.set device lba total).device.getLsbD 4 := hdrive
    rw [if_neg hdrive]

theorem select_eq (hidle : c.phase = .idle) (lba total : BitVec 32) :
    select c lba total = (c.set 0xE0 lba total).reading (lba.toNat % 2 ^ 24) (sectors total) := by
  refine (command_eq hidle 0xE0 lba total).trans ((start_set hidle 0xE0 lba total).trans ?_)
  rw [if_neg (by decide), show (0xE0 : Byte).toNat % 16 = 0 from rfl, Nat.zero_mul, Nat.zero_add]

end

/-! ## The reader of the kernel -/

section
variable {c : Controller}

theorem le_sectors (total : BitVec 32) : total.toNat ≤ sectors total ↔ total.toNat ≤ 256 := by
  unfold sectors
  split <;> omega

/-- How a read ends. -/
theorem diskReadSectors_iff (hidle : c.phase = .idle) (mem : Mem) (lba total : BitVec 32) (buffer : Nat)
    (s : Transfer) :
    (∃ fuel, diskReadSectors fuel c mem lba total buffer = some s) ↔ total.toNat ≤ sectors total ∧
      s = ⟨((c.set 0xE0 lba total).after total.toNat).reading (lba.toNat % 2 ^ 24 + total.toNat)
        (sectors total - total.toNat),
        written c.image (lba.toNat % 2 ^ 24) total.toNat buffer mem, buffer + total.toNat * 512⟩ := by
  unfold diskReadSectors
  rw [select_eq hidle]
  exact transfer_reading

/-- From a controller that is idle, and however long it takes, a read comes back exactly when it is for at most 256
sectors. Memory then holds the sectors of the disk whose number is given by the low 24 bits of `lba`, and is the same
elsewhere; the controller is idle again unless the read was for no sector. -/
theorem disk_read_sectors_iff (hidle : c.phase = .idle) (mem : Mem) (lba total : BitVec 32) (buffer : Nat) :
    ((∃ fuel s, diskReadSectors fuel c mem lba total buffer = some s) ↔ total.toNat ≤ 256) ∧
    ∀ fuel s, diskReadSectors fuel c mem lba total buffer = some s →
      s.mem = written c.image (lba.toNat % 2 ^ 24) total.toNat buffer mem ∧ s.controller.image = c.image ∧
      (s.controller.phase = .idle ↔ 0 < total.toNat) := by
  have hreads := diskReadSectors_iff hidle mem lba total buffer
  constructor
  · constructor
    · rintro ⟨fuel, s, h⟩
      exact (le_sectors total).1 ((hreads s).1 ⟨fuel, h⟩).1
    · intro hle
      obtain ⟨fuel, h⟩ := (hreads _).2 ⟨(le_sectors total).2 hle, rfl⟩
      exact ⟨fuel, _, h⟩
  · intro fuel s h
    obtain ⟨hle, rfl⟩ := (hreads s).1 ⟨fuel, h⟩
    refine ⟨rfl, rfl, ?_⟩
    unfold Controller.reading
    have hsectors : sectors total - total.toNat = 0 ↔ 0 < total.toNat := by
      have hle := (le_sectors total).1 hle
      unfold sectors
      split <;> omega
    rw [← hsectors]
    constructor
    · intro hphase
      by_contra hne
      have hbusy : (if sectors total - total.toNat = 0 then Phase.idle else _) = Phase.idle := hphase
      rw [if_neg hne] at hbusy
      cases hbusy
    · exact fun hzero => if_pos hzero

/-- A controller that is busy for longer each time; every sector holds its number. -/
def slowController : Controller := ⟨fun sector _ => BitVec.ofNat 8 sector, fun n => 1000 * n, 0, 0, 0, 0, 0, 0, .idle⟩

theorem boot_sector_read : ∃ fuel s, diskReadSectors fuel slowController (fun _ => 0) 0 1 0x200000 = some s :=
  (disk_read_sectors_iff rfl (fun _ => 0) 0 1 0x200000).1.2 (by decide)

/-! ## The blocks of a stream -/

/-- Blocks read one after the other. -/
def readBlocks (fuel disk : Nat) : List (BitVec 32 × Nat) → Controller → Mem → Option (Controller × Mem)
  | [], c, mem => some (c, mem)
  | (lba, buf) :: reads, c, mem =>
    (diskReadBlock fuel disk disk c mem lba 1 buf).bind fun r => readBlocks fuel disk reads r.2.controller r.2.mem

/-- Memory after a block was read as the streams see it. -/
def blockRead (env : Env) (mem : Mem) (read : BitVec 32 × Nat) : Mem := fun x =>
  if read.2 ≤ x ∧ x < read.2 + 512 then (Disk.diskReadBlock env read.1.toNat).2 (sectorIndex (x - read.2)) else mem x

theorem written_block (env : Env) (mem : Mem) (read : BitVec 32 × Nat) :
    written env.image (read.1.toNat % 2 ^ 24) 1 read.2 mem = blockRead env mem read := by
  funext x
  unfold written blockRead
  by_cases hx : read.2 ≤ x ∧ x < read.2 + 1 * 512
  · rw [if_pos hx, if_pos (by omega), Nat.div_eq_of_lt (by omega)]
    rfl
  · rw [if_neg hx, if_neg (by omega)]

theorem diskReadBlock_refines (env : Env) (hidle : c.phase = .idle) (himage : c.image = env.image) (disk : Nat)
    (read : BitVec 32 × Nat) (mem : Mem) : ∃ fuel s, s.controller.phase = .idle ∧ s.controller.image = env.image ∧
      s.mem = blockRead env mem read ∧
      ∀ fuel', fuel ≤ fuel' → diskReadBlock fuel' disk disk c mem read.1 1 read.2 = some (1, s) := by
  obtain ⟨s, e, fuel, h⟩ : ∃ s, s = Transfer.mk _ _ _ ∧ ∃ fuel, diskReadSectors fuel c mem read.1 1 read.2 = some s :=
    ⟨_, rfl, (diskReadSectors_iff hidle mem read.1 1 read.2 _).2 ⟨by decide, rfl⟩⟩
  refine ⟨fuel, s, by rw [e]; rfl, by rw [e]; exact himage, ?_, fun fuel' hle => ?_⟩
  · rw [e]
    show written c.image (read.1.toNat % 2 ^ 24) 1 read.2 mem = _
    rw [himage]
    exact written_block env mem read
  · unfold diskReadBlock
    rw [if_neg fun hne => hne rfl]
    exact congrArg (Option.map _) (transfer_mono hle h)

/-- Whatever blocks are read, in whatever order, and however long the controller takes for each: every read comes back,
and memory is as if the streams had read the blocks of the disk. -/
theorem block_reads_refine (env : Env) (hidle : c.phase = .idle) (himage : c.image = env.image) (disk : Nat)
    (reads : List (BitVec 32 × Nat)) (mem : Mem) : ∃ fuel c', c'.phase = .idle ∧ c'.image = env.image ∧
      ∀ fuel', fuel ≤ fuel' → readBlocks fuel' disk reads c mem = some (c', reads.foldl (blockRead env) mem) := by
  induction reads generalizing c mem with
  | nil => exact ⟨0, c, hidle, himage, fun _ _ => rfl⟩
  | cons read reads ih =>
    obtain ⟨f1, s, hidle1, himage1, hmem, h1⟩ := diskReadBlock_refines env hidle himage disk read mem
    obtain ⟨f2, c', hidle', himage', h2⟩ := ih hidle1 himage1 s.mem
    refine ⟨max f1 f2, c', hidle', himage', fun fuel hfuel => ?_⟩
    rw [readBlocks, h1 fuel (by omega), List.foldl_cons, ← hmem]
    exact h2 fuel (by omega)

/-- The disk of the slow controller. -/
def slowDisk : Env := ⟨slowController.image, fun _ _ => .error .outOfBounds, fun _ mem => .ok mem,
  fun _ _ _ => .error .nullDeref⟩

theorem blocks_read_slowly : ∃ fuel c', c'.phase = .idle ∧ c'.image = slowDisk.image ∧ ∀ fuel', fuel ≤ fuel' →
    readBlocks fuel' 0x120000 [(7, 0x200000), (3, 0x200000)] slowController (fun _ => 0) =
      some (c', [(7, 0x200000), (3, 0x200000)].foldl (blockRead slowDisk) (fun _ => 0)) :=
  block_reads_refine slowDisk rfl rfl 0x120000 [(7, 0x200000), (3, 0x200000)] (fun _ => 0)

/-! ## The reader of the boot loader -/

/-- What the loader sends for the drive: four bits of the sector number, and one that selects the drive. -/
def loaderDevice (lba : BitVec 32) : Byte := (lba >>> 24 ||| 0xE0).extractLsb' 0 8

theorem getLsbD_loaderDevice (lba : BitVec 32) {i : Nat} (hi : i < 5) :
    (loaderDevice lba).getLsbD i = lba.getLsbD (24 + i) := by
  unfold loaderDevice
  rw [BitVec.getLsbD_extractLsb', BitVec.getLsbD_or, BitVec.getLsbD_ushiftRight, Nat.zero_add]
  have hlow : (0xE0 : BitVec 32).getLsbD i = false := by
    interval_cases i <;> decide
  rw [hlow, Bool.or_false, decide_eq_true (by omega : i < 8), Bool.true_and]

theorem loaderDevice_low (lba : BitVec 32) : (loaderDevice lba).toNat % 16 = lba.toNat / 2 ^ 24 % 16 := by
  have hbits : (loaderDevice lba).extractLsb' 0 4 = lba.extractLsb' 24 4 := by
    refine BitVec.eq_of_getLsbD_eq fun i hi => ?_
    rw [BitVec.getLsbD_extractLsb', BitVec.getLsbD_extractLsb', Nat.zero_add, getLsbD_loaderDevice lba (by omega)]
  have hnat := congrArg BitVec.toNat hbits
  rwa [BitVec.extractLsb'_toNat, BitVec.extractLsb'_toNat, Nat.shiftRight_zero, Nat.shiftRight_eq_div_pow] at hnat

theorem loaderDevice_drive (lba : BitVec 32) : (loaderDevice lba).getLsbD 4 ↔ lba.toNat / 2 ^ 28 % 2 = 1 := by
  rw [getLsbD_loaderDevice lba (by decide)]
  show lba.toNat.testBit 28 = true ↔ _
  rw [Nat.testBit_eq_decide_div_mod_eq, decide_eq_true_iff]

theorem ataSelect_eq (hidle : c.phase = .idle) (lba total : BitVec 32) : ataSelect c lba total =
    if (loaderDevice lba).getLsbD 4 then (c.set (loaderDevice lba) lba total).reading 0 0
    else (c.set (loaderDevice lba) lba total).reading (lba.toNat % 2 ^ 28) (sectors total) := by
  refine (command_eq hidle (loaderDevice lba) lba total).trans ((start_set hidle (loaderDevice lba) lba total).trans ?_)
  rw [loaderDevice_low, show lba.toNat / 2 ^ 24 % 16 * 2 ^ 24 + lba.toNat % 2 ^ 24 = lba.toNat % 2 ^ 28 by omega]

/-- How the loader's read of some sectors ends. -/
theorem ataLbaRead_iff (hidle : c.phase = .idle) (mem : Mem) (lba total : BitVec 32) (edi : Nat) (s : Transfer)
    (h0 : 0 < total.toNat) :
    (∃ fuel, ataLbaRead fuel c mem lba total edi = some s) ↔ lba.toNat / 2 ^ 28 % 2 = 0 ∧ total.toNat ≤ sectors total ∧
      s = ⟨((c.set (loaderDevice lba) lba total).after total.toNat).reading (lba.toNat % 2 ^ 28 + total.toNat)
        (sectors total - total.toNat),
        written c.image (lba.toNat % 2 ^ 28) total.toNat edi mem, edi + total.toNat * 512⟩ := by
  have hpasses : (if total = 0 then 2 ^ 32 else total.toNat) = total.toNat := by
    refine if_neg fun h => ?_
    rw [h] at h0
    exact absurd h0 (by decide)
  unfold ataLbaRead
  rw [hpasses, ataSelect_eq hidle]
  by_cases hdrive : (loaderDevice lba).getLsbD 4
  · rw [if_pos hdrive]
    have hbit := (loaderDevice_drive lba).1 hdrive
    refine iff_of_false (fun h => ?_) (by omega)
    have hle := (transfer_reading.1 h).1
    omega
  · rw [if_neg hdrive]
    have hbit : ¬ lba.toNat / 2 ^ 28 % 2 = 1 := fun h => hdrive ((loaderDevice_drive lba).2 h)
    refine transfer_reading.trans ⟨fun h => ⟨by omega, h⟩, fun h => h.2⟩

/-- For up to 256 sectors the boot loader and the kernel read the same from every disk exactly when the bits 24 to 28 of
the sector number are clear: the loader sends four of them, and the last selects the second drive. -/
theorem loader_agrees_iff (lba total : BitVec 32) (h0 : 0 < total.toNat) (h256 : total.toNat ≤ 256) :
    (∀ c : Controller, c.phase = .idle → ∀ mem buffer, ∃ fuel s s', ataLbaRead fuel c mem lba total buffer = some s ∧
      diskReadSectors fuel c mem lba total buffer = some s' ∧ s.mem = s'.mem) ↔ lba.toNat / 2 ^ 24 % 32 = 0 := by
  have hsectors := (le_sectors total).2 h256
  constructor
  · intro h
    -- a disk that tells the sector of the kernel from all others
    let c : Controller := ⟨fun sector _ => if sector = lba.toNat % 2 ^ 24 then 1 else 0, fun _ => 0, 0, 0, 0, 0,
      0, 0, .idle⟩
    obtain ⟨fuel, s, s', h1, h2, hmem⟩ := h c rfl (fun _ => 0) 0
    obtain ⟨hbit, -, rfl⟩ := (ataLbaRead_iff rfl _ lba total 0 s h0).1 ⟨fuel, h1⟩
    obtain ⟨-, rfl⟩ := (diskReadSectors_iff rfl _ lba total 0 s').1 ⟨fuel, h2⟩
    have hbyte : (if lba.toNat % 2 ^ 28 = lba.toNat % 2 ^ 24 then 1 else 0 : Byte) = 1 := by
      have hfirst : written c.image (lba.toNat % 2 ^ 28) total.toNat 0 (fun _ => 0) 0 =
          written c.image (lba.toNat % 2 ^ 24) total.toNat 0 (fun _ => 0) 0 := congrFun hmem 0
      unfold written at hfirst
      rw [if_pos (by omega), if_pos (by omega)] at hfirst
      exact hfirst.trans (if_pos rfl)
    by_contra hne
    rw [if_neg (by omega)] at hbyte
    exact absurd hbyte (by decide)
  · intro hbits c hidle mem buffer
    obtain ⟨f1, h1⟩ := (ataLbaRead_iff hidle mem lba total buffer _ h0).2 ⟨by omega, hsectors, rfl⟩
    obtain ⟨f2, h2⟩ := (diskReadSectors_iff hidle mem lba total buffer _).2 ⟨hsectors, rfl⟩
    refine ⟨max f1 f2, _, _, transfer_mono (Nat.le_max_left ..) h1, transfer_mono (Nat.le_max_right ..) h2, ?_⟩
    show written _ (lba.toNat % 2 ^ 28) _ _ _ = written _ (lba.toNat % 2 ^ 24) _ _ _
    rw [show lba.toNat % 2 ^ 28 = lba.toNat % 2 ^ 24 by omega]

/-- The kernel itself is read as the kernel would read it. -/
theorem kernel_loaded : ∃ fuel s s', ataLbaRead fuel slowController (fun _ => 0) 1 100 0x100000 = some s ∧
    diskReadSectors fuel slowController (fun _ => 0) 1 100 0x100000 = some s' ∧ s.mem = s'.mem :=
  (loader_agrees_iff 1 100 (by decide) (by decide)).2 (by decide) slowController rfl (fun _ => 0) 0x100000

end

end SimpleMicrokernel.Disk.Ata
