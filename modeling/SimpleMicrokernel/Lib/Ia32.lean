/-
A fragment of the IA-32 instruction set, as bytes and back: constants moved to registers, additions, software
interrupts and short jumps. Code is instructions one after another, and what is found where one of them starts is
that one (`decode_code`).
-/
import Mathlib.Data.List.Basic

namespace Ia32

inductive Reg where
  | eax
  | ecx
  | edx
  | ebx
  | esp
  | ebp
  | esi
  | edi
deriving DecidableEq, Repr

def Reg.number : Reg → BitVec 3
  | eax => 0
  | ecx => 1
  | edx => 2
  | ebx => 3
  | esp => 4
  | ebp => 5
  | esi => 6
  | edi => 7

def Reg.ofNumber (n : BitVec 3) : Reg :=
  if n = 0 then eax else if n = 1 then ecx else if n = 2 then edx else if n = 3 then ebx
  else if n = 4 then esp else if n = 5 then ebp else if n = 6 then esi else edi

theorem ofNumber_number (r : Reg) : Reg.ofNumber r.number = r := by
  cases r <;> rfl

inductive Instruction where
  | mov (r : Reg) (v : BitVec 32)
  | add (dst src : Reg)
  | int (vector : BitVec 8)
  /-- The distance is from the next instruction on. -/
  | jmp (distance : BitVec 8)
deriving DecidableEq, Repr

def Instruction.encode : Instruction → List (BitVec 8)
  | mov r v => [0b10111#5 ++ r.number, v.extractLsb' 0 8, v.extractLsb' 8 8, v.extractLsb' 16 8, v.extractLsb' 24 8]
  | add dst src => [0x01, 0b11#2 ++ src.number ++ dst.number]
  | int vector => [0xCD, vector]
  | jmp distance => [0xEB, distance]

/-- The dword at an address. -/
def dword (fetch : BitVec 32 → Option (BitVec 8)) (a : BitVec 32) : Option (BitVec 32) := do
  let b0 ← fetch a
  let b1 ← fetch (a + 1)
  let b2 ← fetch (a + 2)
  let b3 ← fetch (a + 3)
  return b3 ++ b2 ++ b1 ++ b0

/-- The instruction at an address, when it is one of the fragment and none of its bytes is missing. -/
def decode (fetch : BitVec 32 → Option (BitVec 8)) (ip : BitVec 32) : Option Instruction := do
  let opcode ← fetch ip
  if opcode.extractLsb' 3 5 = 0b10111 then
    let v ← dword fetch (ip + 1)
    return .mov (.ofNumber (opcode.extractLsb' 0 3)) v
  else
    let b ← fetch (ip + 1)
    if opcode = 0x01 ∧ b.extractLsb' 6 2 = 0b11 then
      return .add (.ofNumber (b.extractLsb' 0 3)) (.ofNumber (b.extractLsb' 3 3))
    else if opcode = 0xCD then
      return .int b
    else if opcode = 0xEB then
      return .jmp b
    else
      none

def code (is : List Instruction) : List (BitVec 8) := is.flatMap Instruction.encode

/-- Bytes are found one after another from an address on. -/
def Found (fetch : BitVec 32 → Option (BitVec 8)) (a : BitVec 32) (bytes : List (BitVec 8)) : Prop :=
  ∀ j b, bytes[j]? = some b → fetch (a + BitVec.ofNat 32 j) = some b

section
variable {fetch : BitVec 32 → Option (BitVec 8)} {a ip : BitVec 32} {bytes bytes' : List (BitVec 8)}
    {is js : List Instruction}
  {i : Instruction}

theorem Found.append : Found fetch a (bytes ++ bytes') ↔ Found fetch a bytes ∧ Found fetch
    (a + BitVec.ofNat 32 bytes.length) bytes' := by
  refine ⟨fun h => ⟨fun j b hj => ?_, fun j b hj => ?_⟩, fun h j b hj => ?_⟩
  · exact h j b (by rw [List.getElem?_append_left (List.getElem?_eq_some_iff.1 hj).1]; exact hj)
  · have h' := h (bytes.length + j) b (by rw [List.getElem?_append_right
      (Nat.le_add_right ..), Nat.add_sub_cancel_left]; exact hj)
    rwa [BitVec.ofNat_add, ← BitVec.add_assoc] at h'
  · obtain ⟨h1, h2⟩ := h
    by_cases hlt : j < bytes.length
    · rw [List.getElem?_append_left hlt] at hj
      exact h1 j b hj
    · rw [List.getElem?_append_right (Nat.le_of_not_lt hlt)] at hj
      have h' := h2 _ b hj
      rwa [BitVec.add_assoc, ← BitVec.ofNat_add, Nat.add_sub_cancel' (Nat.le_of_not_lt hlt)] at h'

theorem Found.head {b : BitVec 8} (h : Found fetch a (b :: bytes)) : fetch a = some b := by
  have h0 := h 0 b rfl
  rwa [BitVec.add_zero] at h0

theorem Found.tail {b : BitVec 8} (h : Found fetch a (b :: bytes)) : Found fetch (a + 1) bytes := by
  have h' : Found fetch a ([b] ++ bytes) := h
  exact (Found.append.1 h').2

theorem dword_found {v : BitVec 32}
    (h : Found fetch a [v.extractLsb' 0 8, v.extractLsb' 8 8, v.extractLsb' 16 8, v.extractLsb' 24 8]) :
    dword fetch a = some v := by
  have h1 : fetch (a + 1) = _ := h 1 _ rfl
  have h2 : fetch (a + 2) = _ := h 2 _ rfl
  have h3 : fetch (a + 3) = _ := h 3 _ rfl
  unfold dword
  rw [h.head, h1, h2, h3]
  refine congrArg some (BitVec.eq_of_getLsbD_eq fun i hi => ?_)
  simp only [BitVec.getLsbD_append, BitVec.getLsbD_extractLsb']
  grind

/-- What is encoded is decoded. -/
theorem decode_encode (h : Found fetch ip i.encode) : decode fetch ip = some i := by
  unfold decode
  cases i with
  | mov r v =>
    have hreg : (0b10111#5 ++ r.number : BitVec 8).extractLsb' 3 5 = 0b10111 ∧
      (0b10111#5 ++ r.number : BitVec 8).extractLsb' 0 3 = r.number := by
      cases r <;> decide
    have hv : dword fetch (ip + 1) = some v := dword_found h.tail
    rw [h.head, Option.bind_eq_bind, Option.bind_some, if_pos hreg.1, hreg.2, hv, ofNumber_number]
    rfl
  | add dst src =>
    have hb : (0b11#2 ++ src.number ++ dst.number : BitVec 8).extractLsb' 6 2 = 0b11 ∧
        Reg.ofNumber ((0b11#2 ++ src.number ++ dst.number : BitVec 8).extractLsb' 0 3) = dst ∧
        Reg.ofNumber ((0b11#2 ++ src.number ++ dst.number : BitVec 8).extractLsb' 3 3) = src := by
      cases src <;> cases dst <;> decide
    rw [h.head, Option.bind_eq_bind, Option.bind_some, if_neg (by decide), h.tail.head, Option.bind_some,
      if_pos ⟨rfl, hb.1⟩, hb.2.1, hb.2.2]
    rfl
  | int vector =>
    rw [h.head, h.tail.head]
    rfl
  | jmp distance =>
    rw [h.head, h.tail.head]
    rfl

theorem code_append (is js : List Instruction) : code (is ++ js) = code is ++ code js := List.flatMap_append

theorem decode_code (h : Found fetch a (code (is ++ i :: js))) :
    decode fetch (a + BitVec.ofNat 32 (code is).length) = some i := by
  rw [code_append, Found.append] at h
  exact decode_encode (Found.append.1 h.2).1

end

end Ia32
