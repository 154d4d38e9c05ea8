/-
`kernel.c`: printing to the screen. A character goes to the cell under the cursor, which is looked at before
and moved after; a line end moves it without a look at the screen. The cells are those from `video_memory` on,
where `terminal_init` lets it point; a store outside of the screen stops.
-/
import SimpleMicrokernel.Lib.Exec
import SimpleMicrokernel.Fs.PathParser

namespace SimpleMicrokernel.Printing

open Memory Fs

/-- `VGA_WIDTH`, `VGA_HEIGHT`. -/
abbrev vgaWidth : Nat := 80
abbrev vgaHeight : Nat := 20

/-- The screen and `terminal_row`, `terminal_col`. -/
structure Terminal where
  videoMemory : Fin (vgaWidth * vgaHeight) → BitVec 16
  terminalRow : BitVec 16
  terminalCol : BitVec 16

/-- A computation on the terminal that may stop. -/
abbrev TermM := Exec Halt Terminal

/-- `char` is signed, and is widened to `int` before the two are put together. -/
def terminalMakeChar (a colour : Byte) : BitVec 16 :=
  let temp : BitVec 16 := colour.signExtend 16
  ((temp.setWidth 32 <<< 8) ||| a.signExtend 32).setWidth 16

/-- Column first, then row. -/
def terminalPutChar (y x : Nat) (c colour : Byte) : TermM Unit := fun t =>
  if h : x * vgaWidth + y < vgaWidth * vgaHeight then
    .ok ((), { t with videoMemory := Function.update t.videoMemory ⟨x * vgaWidth + y, h⟩ (terminalMakeChar c colour) })
  else .error .outOfBounds

/-- The first `n` turns of the inner loop of `terminal_init`, and of the outer one. -/
def initRow (x : Nat) : Nat → TermM Unit
  | 0 => pure ()
  | y + 1 => do
    initRow x y
    terminalPutChar y x 0x20 0

def initRows : Nat → TermM Unit
  | 0 => pure ()
  | x + 1 => do
    initRows x
    initRow x vgaWidth

def terminalInit : TermM Unit := do
  modify fun t => { t with terminalRow := 0, terminalCol := 0 }
  initRows vgaHeight

def kernelTerminalPrintChar (a : Byte) : TermM Unit := do
  modify fun t =>
    if vgaWidth ≤ t.terminalCol.toNat then { t with terminalCol := 0, terminalRow := t.terminalRow + 1 } else t
  let t ← get
  if vgaHeight ≤ t.terminalRow.toNat then
    terminalInit
  let t ← get
  terminalPutChar t.terminalCol.toNat t.terminalRow.toNat a 15
  modify fun t => { t with terminalCol := t.terminalCol + 1 }

/-- The first `n` turns of the loop of `kernel_print_string`. -/
def printLoop (str : Nat → Byte) : Nat → TermM Unit
  | 0 => pure ()
  | i + 1 => do
    printLoop str i
    kernelTerminalPrintChar (str i)

/-- `str` gives what is found from the pointer on; the index is compared as `len` is, unsigned. -/
def kernelPrintString (str : Nat → Byte) (len : BitVec 32) : TermM Unit := do
  printLoop str len.toNat
  modify fun t => { t with terminalRow := t.terminalRow + 1, terminalCol := 0 }

/-- The characters of the string up to its NUL. -/
def kernelStrLenght : List Byte → BitVec 32
  | [] => 0
  | c :: cs => if c = 0 then 0 else kernelStrLenght cs + 1

def kernelPrint (str : List Byte) : TermM Unit := kernelPrintString (charAt str) (kernelStrLenght str)

/-- `0123456789ABCDEF`. -/
def toHex : List Byte := [0x30, 0x31, 0x32, 0x33, 0x34, 0x35, 0x36, 0x37, 0x38, 0x39, 0x41, 0x42, 0x43,
      0x44, 0x45, 0x46]

def kernelPrintCharHex (hex : Byte) : TermM Unit := do
  kernelTerminalPrintChar (charAt toHex (hex >>> 4).toNat)
  kernelTerminalPrintChar (charAt toHex (hex &&& 15).toNat)
  kernelTerminalPrintChar 0x20

/-- The first `n` turns of the loop of `kernel_print_str_hex`. -/
def strHexLoop (buffer : Nat → Byte) : Nat → TermM Unit
  | 0 => pure ()
  | i + 1 => do
    strHexLoop buffer i
    kernelPrintCharHex (buffer i)

def kernelPrintStrHex (buffer : Nat → Byte) (length : BitVec 32) : TermM Unit := strHexLoop buffer length.toNat

/-! ## Numbers -/

/-- A store to an array on the stack, and a load. -/
def putAt (a : List Byte) (i : Nat) (c : Byte) : Except Halt (List Byte) :=
  if i < a.length then .ok (a.set i c) else .error .outOfBounds

def loadAt (a : List Byte) (i : Nat) : Except Halt Byte :=
  match a[i]? with
  | some c => .ok c
  | none => .error .outOfBounds

/-- `digits`. -/
def digits : List Byte := [0x30, 0x31, 0x32, 0x33, 0x34, 0x35, 0x36, 0x37, 0x38, 0x39]

/-- The loop that takes the digits off, the last one first. -/
def digitLoop (a : List Byte) (toPrint i : Nat) : Except Halt (List Byte × Nat) :=
  if toPrint ≠ 0 then do
    let c ← loadAt digits (toPrint % 10)
    let a ← putAt a i c
    digitLoop a (toPrint / 10) (i + 1)
  else .ok (a, i)
termination_by toPrint

/-- The loop that turns the digits around; with none, `end` starts at -1. -/
def reverseLoop (a : List Byte) (start : Nat) («end» : Int) : Except Halt (List Byte) :=
  if start < «end» then do
    let cTemp ← loadAt a start
    let c ← loadAt a «end».toNat
    let a ← putAt a start c
    let a ← putAt a «end».toNat cTemp
    reverseLoop a (start + 1) («end» - 1)
  else .ok a
termination_by («end» - start).toNat

/-- The size of `a`. -/
abbrev sizeofDigits : Nat := 13

/-- `a` is on the stack and holds what is there. -/
def kernelPrintUint (a : Fin sizeofDigits → Byte) (toPrint : BitVec 32) : TermM Unit := do
  if toPrint = 0 then
    kernelPrintString (charAt [0x30]) 1
  let (a, i) ← (digitLoop (List.ofFn a) toPrint.toNat 0 : Except Halt (List Byte × Nat))
  let a ← (putAt a i 0 : Except Halt (List Byte))
  let a ← (reverseLoop a 0 ((i : Int) - 1) : Except Halt (List Byte))
  kernelPrintString (charAt a) (BitVec.ofNat 32 i)

end SimpleMicrokernel.Printing
