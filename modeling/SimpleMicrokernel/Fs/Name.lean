/-
`string/string.c` on names, and the 8.3 name of a directory entry. Names are read from memory up
to the first space or NUL and copied into a buffer of fixed size; a store past the buffer stops.
-/
import SimpleMicrokernel.Fs.State

namespace SimpleMicrokernel.Fs

open Memory

/-- `char` is signed. -/
def toUpper (a : Byte) : Byte := if a.toInt < 97 ∨ a.toInt > 127 then a else a - 32

/-- Two strings compared over `n` characters; a string that is shorter is read past its end. -/
def istrncmp : List Byte → List Byte → Nat → Except Halt Int
  | _, _, 0 => .ok 0
  | a :: as, b :: bs, n + 1 =>
    if a ≠ b ∧ toUpper a ≠ toUpper b then .ok (a.toInt - b.toInt) else istrncmp as bs n
  | _, _, _ + 1 => .error .outOfBounds

/-- `MAX_PATH_NAME`. -/
def maxPathName : Nat := 108

/-- A `char` buffer and the place in it that a pointer has come to. -/
structure NameBuffer where
  chars : List Byte
  pos : Nat

/-- A store through the pointer. -/
def NameBuffer.put (out : NameBuffer) (c : Byte) : Except Halt NameBuffer :=
  if out.pos < out.chars.length then .ok { out with chars := out.chars.set out.pos c } else .error .outOfBounds

def NameBuffer.advance (out : NameBuffer) : NameBuffer := { out with pos := out.pos + 1 }

/-- `*(*out) = *in; *out += 1` until a NUL or a space, and a NUL stored for a space. -/
def fat16ToProperString (mem : Mem) (out : NameBuffer) (inp : Nat) : Except Halt NameBuffer :=
  if mem inp ≠ 0x00 ∧ mem inp ≠ 0x20 then
    if out.pos < out.chars.length then
      fat16ToProperString mem ⟨out.chars.set out.pos (mem inp), out.pos + 1⟩ (inp + 1)
    else .error .outOfBounds
  else if mem inp = 0x20 then out.put 0x00
  else .ok out
termination_by out.chars.length - out.pos
decreasing_by
  simp only [List.length_set]
  omega

/-- The offsets of `filename` and `ext` in `struct fat16_directory_item`. -/
def filenameOffset : Nat := 0
def extOffset : Nat := 8

/-- The name buffer after the call, for the item at an address. -/
def fat16GetRelativePathName (mem : Mem) (item maxLen : Nat) : Except Halt (List Byte) := do
  let out : NameBuffer := ⟨List.replicate maxLen 0, 0⟩
  let out ← fat16ToProperString mem out (item + filenameOffset)
  if mem (item + extOffset) ≠ 0x00 ∧ mem (item + extOffset) ≠ 0x20 then
    let out ← out.put 0x2E
    let out ← fat16ToProperString mem out.advance (item + extOffset)
    return out.chars
  else
    return out.chars

end SimpleMicrokernel.Fs
