/-
What user code can do with the descriptor table: every segment register is loaded through a check of privilege, and
a far transfer may lead to other rings, call gates and tasks. With the table of the kernel none of it leads anywhere, so
that user code keeps its ring and its flat segments whatever it loads. The bit the processor sets in a descriptor that
was used is left out.
-/
import SimpleMicrokernel.Gdt.Gdt

namespace SimpleMicrokernel.Gdt

open Memory

/-! ## Descriptors and selectors -/

/-- The attributes in the type byte. -/
def Segment.present (s : Segment) : Bool := s.type.getLsbD 7
def Segment.dpl (s : Segment) : Nat := (s.type.extractLsb' 5 2).toNat
def Segment.isSystem (s : Segment) : Bool := !s.type.getLsbD 4
def Segment.isCode (s : Segment) : Bool := s.type.getLsbD 3
def Segment.isConforming (s : Segment) : Bool := s.type.getLsbD 2

/-- Code that can be read, data that can be written. -/
def Segment.access (s : Segment) : Bool := s.type.getLsbD 1

def rpl (selector : BitVec 16) : Nat := selector.toNat % 4

/-- What `gdt_load` gives to the processor. -/
structure Gdtr where
  base : Nat
  limit : Nat

/-- The descriptor of a selector. The first of the table is none, and there is no local table. -/
def descriptorOf (mem : Mem) (gdtr : Gdtr) (selector : BitVec 16) : Option Segment :=
  if selector.toNat / 8 = 0 ∨ selector.toNat / 4 % 2 = 1 ∨ gdtr.limit < sizeofGdt * (selector.toNat / 8) + 7 then none
  else some (decodeSegment mem (gdtr.base + sizeofGdt * (selector.toNat / 8)))

/-- `DS`, `ES`, `FS` and `GS` take data, and code that can be read. -/
structure TakesData (cpl : Nat) (selector : BitVec 16) (s : Segment) : Prop where
  present : s.present
  memory : ¬ s.isSystem
  readable : s.isCode → s.access
  privilege : (s.isCode ∧ s.isConforming) ∨ (cpl ≤ s.dpl ∧ rpl selector ≤ s.dpl)

/-- `SS` takes data of the ring that can be written. -/
structure TakesStack (cpl : Nat) (selector : BitVec 16) (s : Segment) : Prop where
  present : s.present
  memory : ¬ s.isSystem
  data : ¬ s.isCode
  writable : s.access
  privilege : rpl selector = cpl ∧ s.dpl = cpl

/-- A far jump or call stays in its ring. -/
structure Jumps (cpl : Nat) (selector : BitVec 16) (s : Segment) : Prop where
  present : s.present
  memory : ¬ s.isSystem
  code : s.isCode
  privilege : (s.isConforming ∧ s.dpl ≤ cpl) ∨ (¬ s.isConforming ∧ rpl selector ≤ cpl ∧ s.dpl = cpl)

/-- A far return goes to the ring of its selector, which is no inner one. -/
structure Returns (cpl : Nat) (selector : BitVec 16) (s : Segment) : Prop where
  present : s.present
  memory : ¬ s.isSystem
  code : s.isCode
  outward : cpl ≤ rpl selector
  privilege : (s.isConforming ∧ s.dpl ≤ rpl selector) ∨ (¬ s.isConforming ∧ s.dpl = rpl selector)

/-- A far jump or call leads through a task, a task gate or a call gate. -/
structure LeadsOut (cpl : Nat) (selector : BitVec 16) (s : Segment) : Prop where
  present : s.present
  system : s.isSystem
  type : s.type.extractLsb' 0 4 ∈ [0x1#4, 0x4#4, 0x5#4, 0x9#4, 0xC#4]
  privilege : cpl ≤ s.dpl ∧ rpl selector ≤ s.dpl

/-- The ring and the segments the processor runs with; a data segment may be null. -/
structure Segments where
  cpl : Nat
  cs : Segment
  ss : Segment
  data : Fin 4 → Option Segment

/-- What a program can do to them. A load that is refused is a fault. Where a gate or a task leads is not said. -/
inductive Reload (mem : Mem) (gdtr : Gdtr) : Segments → Segments → Prop where
  | null (w : Segments) (i : Fin 4) : Reload mem gdtr w { w with data := Function.update w.data i none }
  | data {w : Segments} {selector : BitVec 16} {s : Segment} (i : Fin 4) : descriptorOf mem gdtr selector = some s →
      TakesData w.cpl selector s → Reload mem gdtr w { w with data := Function.update w.data i (some s) }
  | stack {w : Segments} {selector : BitVec 16} {s : Segment} : descriptorOf mem gdtr selector = some s →
      TakesStack w.cpl selector s → Reload mem gdtr w { w with ss := s }
  | jump {w : Segments} {selector : BitVec 16} {s : Segment} : descriptorOf mem gdtr selector = some s →
      Jumps w.cpl selector s → Reload mem gdtr w { w with cs := s }
  | ret {w : Segments} {selector stack : BitVec 16} {s t : Segment} : descriptorOf mem gdtr selector = some s →
      Returns w.cpl selector s → descriptorOf mem gdtr stack = some t → TakesStack (rpl selector) stack t →
      Reload mem gdtr w { w with cpl := rpl selector, cs := s, ss := t }
  | out {w : Segments} {selector : BitVec 16} {s : Segment} (w' : Segments) : descriptorOf mem gdtr selector = some s →
      LeadsOut w.cpl selector s → Reload mem gdtr w w'

/-- The segments of user code. -/
def userCode : Segment := ⟨0, 0xffffffff, 0xf8, true⟩
def userData : Segment := ⟨0, 0xffffffff, 0xf2, true⟩

/-- User code runs with its own segments. -/
structure Segments.User (w : Segments) : Prop where
  cpl : w.cpl = 3
  cs : w.cs = userCode
  ss : w.ss = userData
  data : ∀ i, w.data i = none ∨ w.data i = some userData

/-! ## The table of the kernel -/

/-- The table in memory when user code runs. -/
structure Table (mem : Mem) (gdtr : Gdtr) (tss : BitVec 32) : Prop where
  limit : gdtr.limit = sizeofGdt * totalGdtSegments
  entries : ∀ i < 5, decodeSegment mem (gdtr.base + sizeofGdt * i) = (gdtStructured tss i).segment
  task : decodeSegment mem (gdtr.base + sizeofGdt * 5) = { (gdtStructured tss 5).segment with type := 0xEB }

section
variable {mem : Mem} {gdtr : Gdtr} {tss : BitVec 32} {selector : BitVec 16} {s : Segment} {w w' : Segments}

theorem Table.of_descriptorOf (h : Table mem gdtr tss) (hs : descriptorOf mem gdtr selector = some s) :
    selector.toNat / 4 % 2 = 0 ∧
    ((selector.toNat / 8 = 1 ∧ s = ⟨0, 0xffffffff, 0x9a, true⟩) ∨
      (selector.toNat / 8 = 2 ∧ s = ⟨0, 0xffffffff, 0x92, true⟩) ∨
      (selector.toNat / 8 = 3 ∧ s = userCode) ∨ (selector.toNat / 8 = 4 ∧ s = userData) ∨
      (selector.toNat / 8 = 5 ∧ s = ⟨tss.toNat, 100, 0xEB, true⟩)) := by
  unfold descriptorOf at hs
  split at hs
  · cases hs
  · rename_i hin
    rw [not_or, not_or, h.limit] at hin
    obtain ⟨hnull, hlocal, hlimit⟩ := hin
    obtain rfl := Option.some.inj hs
    unfold sizeofGdt totalGdtSegments at hlimit
    refine ⟨by omega, ?_⟩
    generalize hn : selector.toNat / 8 = n at *
    have hlt : n < 6 := by omega
    interval_cases n
    · exact absurd rfl hnull
    · exact .inl ⟨rfl, h.entries 1 (by decide)⟩
    · exact .inr (.inl ⟨rfl, h.entries 2 (by decide)⟩)
    · exact .inr (.inr (.inl ⟨rfl, h.entries 3 (by decide)⟩))
    · exact .inr (.inr (.inr (.inl ⟨rfl, h.entries 4 (by decide)⟩)))
    · exact .inr (.inr (.inr (.inr ⟨rfl, h.task⟩)))

theorem Table.data (h : Table mem gdtr tss) (hs : descriptorOf mem gdtr selector = some s)
    (ht : TakesData 3 selector s) :
    s = userData := by
  obtain ⟨-, ⟨-, rfl⟩ | ⟨-, rfl⟩ | ⟨-, rfl⟩ | ⟨-, rfl⟩ | ⟨-, rfl⟩⟩ := h.of_descriptorOf hs
  · rcases ht.privilege with ⟨-, hconforming⟩ | ⟨hle, -⟩
    · exact absurd hconforming (by decide)
    · exact absurd hle (by decide)
  · rcases ht.privilege with ⟨hcode, -⟩ | ⟨hle, -⟩
    · exact absurd hcode (by decide)
    · exact absurd hle (by decide)
  · exact absurd (ht.readable (by decide)) (by decide)
  · rfl
  · exact (ht.memory (show (!(0xEB : Byte).getLsbD 4) = true by decide)).elim

theorem Table.stack (h : Table mem gdtr tss) (hs : descriptorOf mem gdtr selector = some s)
    (ht : TakesStack 3 selector s) :
    s = userData := by
  obtain ⟨-, ⟨-, rfl⟩ | ⟨-, rfl⟩ | ⟨-, rfl⟩ | ⟨-, rfl⟩ | ⟨-, rfl⟩⟩ := h.of_descriptorOf hs
  · exact absurd ht.privilege.2 (by decide)
  · exact absurd ht.privilege.2 (by decide)
  · exact absurd (by decide) ht.data
  · rfl
  · exact (ht.memory (show (!(0xEB : Byte).getLsbD 4) = true by decide)).elim

theorem Table.code (h : Table mem gdtr tss) (hs : descriptorOf mem gdtr selector = some s) (hcode : s.isCode)
    (hmemory : ¬ s.isSystem) (hdpl : s.isConforming ∨ s.dpl = 3) : s = userCode := by
  obtain ⟨-, ⟨-, rfl⟩ | ⟨-, rfl⟩ | ⟨-, rfl⟩ | ⟨-, rfl⟩ | ⟨-, rfl⟩⟩ := h.of_descriptorOf hs
  · exact absurd hdpl (by decide)
  · exact absurd hcode (by decide)
  · rfl
  · exact absurd hcode (by decide)
  · exact (hmemory (show (!(0xEB : Byte).getLsbD 4) = true by decide)).elim

theorem Table.no_way_out (h : Table mem gdtr tss) (hs : descriptorOf mem gdtr selector = some s) :
    ¬ LeadsOut 3 selector s := by
  intro hout
  obtain ⟨-, ⟨-, rfl⟩ | ⟨-, rfl⟩ | ⟨-, rfl⟩ | ⟨-, rfl⟩ | ⟨-, rfl⟩⟩ := h.of_descriptorOf hs
  · exact absurd hout.system (by decide)
  · exact absurd hout.system (by decide)
  · exact absurd hout.system (by decide)
  · exact absurd hout.system (by decide)
  · exact absurd hout.type (show (0xEB : Byte).extractLsb' 0 4 ∉ _ by decide)

theorem data_update {data : Fin 4 → Option Segment} {v : Option Segment}
    (hdata : ∀ i, data i = none ∨ data i = some userData) (hv : v = none ∨ v = some userData) (i j : Fin 4) :
    Function.update data i v j = none ∨ Function.update data i v j = some userData := by
  by_cases hj : j = i
  · subst hj
    rw [Function.update_self]
    exact hv
  · rw [Function.update_of_ne hj]
    exact hdata j

/-- A load that is not refused leaves user code with its own segments. -/
theorem Reload.user (h : Table mem gdtr tss) (hw : w.User) (hr : Reload mem gdtr w w') : w'.User := by
  obtain ⟨hcpl, hcs, hss, hdata⟩ := hw
  cases hr with
  | null i => exact ⟨hcpl, hcs, hss, data_update hdata (.inl rfl) i⟩
  | data i hs ht =>
    rw [hcpl] at ht
    obtain rfl := h.data hs ht
    exact ⟨hcpl, hcs, hss, data_update hdata (.inr rfl) i⟩
  | stack hs ht =>
    rw [hcpl] at ht
    exact ⟨hcpl, hcs, h.stack hs ht, hdata⟩
  | jump hs ht =>
    rw [hcpl] at ht
    exact ⟨hcpl, h.code hs ht.code ht.memory (ht.privilege.imp And.left fun hp => hp.2.2), hss, hdata⟩
  | @ret selector stack s t hs ht hstack htake =>
    -- the ring of the selector is the outer one
    have hrpl : rpl selector = 3 := by
      have hout := ht.outward
      have hlt : rpl selector < 4 := Nat.mod_lt _ (by decide)
      omega
    rw [hrpl] at htake
    exact ⟨hrpl, h.code hs ht.code ht.memory (ht.privilege.imp And.left fun hp => hp.2.trans hrpl),
      h.stack hstack htake, hdata⟩
  | out w' hs ht =>
    rw [hcpl] at ht
    exact absurd ht (h.no_way_out hs)

end

end SimpleMicrokernel.Gdt
