/-
What each print does to the terminal, from any state. A character is stored after both tests of the cursor,
so it goes to a cell of the screen however far line ends have moved the row, and no print stops.
-/
import SimpleMicrokernel.Terminal.Terminal

namespace SimpleMicrokernel.Printing

open Memory Fs

/-- The cell `terminal_init` fills the screen with. -/
def blankCell : BitVec 16 := terminalMakeChar 0x20 0

namespace Terminal

/-- The terminal as `terminal_init` leaves it. -/
def cleared : Terminal := ⟨fun _ => blankCell, 0, 0⟩

/-- Past the last column the cursor goes to the next row. -/
def wrap (t : Terminal) : Terminal :=
  if vgaWidth ≤ t.terminalCol.toNat then { t with terminalCol := 0, terminalRow := t.terminalRow + 1 } else t

/-- Past the last row the screen is cleared. -/
def home (t : Terminal) : Terminal := if vgaHeight ≤ t.terminalRow.toNat then cleared else t

/-- A line end. -/
def newLine (t : Terminal) : Terminal := { t with terminalRow := t.terminalRow + 1, terminalCol := 0 }

/-- The cell under the cursor. -/
def cursor (t : Terminal) : Nat := t.terminalRow.toNat * vgaWidth + t.terminalCol.toNat

end Terminal

section
variable {t : Terminal}

/-! ## Clearing -/

theorem terminalPutChar_apply (t : Terminal) {x y : Nat} (c colour : Byte)
    (h : x * vgaWidth + y < vgaWidth * vgaHeight) :
    terminalPutChar y x c colour t =
      .ok ((), { t with videoMemory := Function.update t.videoMemory ⟨x *
        vgaWidth + y, h⟩ (terminalMakeChar c colour) }) := by
  unfold terminalPutChar
  rw [dif_pos h]

/-- The cells of a row are blanked one after another. -/
theorem initRow_apply (t : Terminal) {x : Nat} (hx : x < vgaHeight) : ∀ {n : Nat}, n ≤ vgaWidth →
    initRow x n t = .ok ((), { t with videoMemory := fun i => if x * vgaWidth ≤ i.val ∧
      i.val < x * vgaWidth + n then blankCell else t.videoMemory i })
  | 0, _ => by
    have hnone : (fun i : Fin (vgaWidth * vgaHeight) => if x * vgaWidth ≤ i.val ∧
      i.val < x * vgaWidth + 0 then blankCell else t.videoMemory i) =
        t.videoMemory := funext fun i => if_neg (by omega)
    rw [hnone]
    rfl
  | y + 1, hy => by
    unfold vgaWidth vgaHeight at *
    rw [initRow, Exec.bind_of_ok (initRow_apply t hx (Nat.le_of_succ_le hy)),
      terminalPutChar_apply _ _ _ (by unfold vgaWidth vgaHeight; omega)]
    congr 3
    funext i
    rw [Function.update_apply]
    by_cases hi : i.val = x * 80 + y
    · rw [if_pos (Fin.ext hi), if_pos (by omega)]
      rfl
    · rw [if_neg fun he => hi (congrArg Fin.val he)]
      simp only
      by_cases hin : x * 80 ≤ i.val ∧ i.val < x * 80 + y
      · rw [if_pos hin, if_pos (by omega)]
      · rw [if_neg hin, if_neg (by omega)]

theorem initRows_apply (t : Terminal) : ∀ {n : Nat}, n ≤ vgaHeight →
    initRows n t = .ok ((), { t with videoMemory := fun i =>
      if i.val < n * vgaWidth then blankCell else t.videoMemory i })
  | 0, _ => by
    have hnone : (fun i : Fin (vgaWidth * vgaHeight) => if i.val < 0 * vgaWidth then blankCell else t.videoMemory i) =
      t.videoMemory :=
      funext fun i => if_neg (by omega)
    rw [hnone]
    rfl
  | x + 1, hx => by
    rw [initRows, Exec.bind_of_ok (initRows_apply t (Nat.le_of_succ_le hx)), initRow_apply _ (by omega) (Nat.le_refl _)]
    congr 3
    funext i
    unfold vgaWidth
    by_cases hin : x * 80 ≤ i.val ∧ i.val < x * 80 + 80
    · rw [if_pos hin, if_pos (by omega)]
    · rw [if_neg hin]
      simp only
      by_cases hlt : i.val < x * 80
      · rw [if_pos hlt, if_pos (by omega)]
      · rw [if_neg hlt, if_neg (by omega)]

theorem terminalInit_apply (t : Terminal) : terminalInit t = .ok ((), .cleared) := by
  unfold terminalInit
  rw [Exec.bind_of_ok (Exec.modify_apply _ t), initRows_apply _ (Nat.le_refl _)]
  unfold Terminal.cleared
  congr 3
  funext i
  exact if_pos (by have := i.isLt; unfold vgaWidth vgaHeight at *; omega)

/-! ## One character -/

theorem home_lt (t : Terminal) : t.wrap.home.terminalRow.toNat < vgaHeight ∧
    t.wrap.home.terminalCol.toNat < vgaWidth := by
  have hcol : t.wrap.terminalCol.toNat < vgaWidth := by
    unfold Terminal.wrap
    split
    · exact Nat.zero_lt_succ _
    · omega
  unfold Terminal.home
  split
  · exact ⟨Nat.zero_lt_succ _, Nat.zero_lt_succ _⟩
  · exact ⟨by omega, hcol⟩

theorem cursor_lt (t : Terminal) : t.wrap.home.cursor < vgaWidth * vgaHeight := by
  have h := home_lt t
  unfold Terminal.cursor vgaWidth vgaHeight at *
  omega

/-- The terminal after a character. -/
def Terminal.print (t : Terminal) (a : Byte) : Terminal where
  videoMemory := Function.update t.wrap.home.videoMemory ⟨t.wrap.home.cursor, cursor_lt t⟩ (terminalMakeChar a 15)
  terminalRow := t.wrap.home.terminalRow
  terminalCol := t.wrap.home.terminalCol + 1

theorem kernelTerminalPrintChar_apply (a : Byte) (t : Terminal) :
    kernelTerminalPrintChar a t = .ok ((), t.print a) := by
  unfold kernelTerminalPrintChar
  have hstore : (do
      let t ← get
      terminalPutChar t.terminalCol.toNat t.terminalRow.toNat a 15
      modify fun t => { t with terminalCol := t.terminalCol + 1 } : TermM Unit) t.wrap.home = .ok ((), t.print a) := by
    rw [Exec.bind_of_ok (Exec.get_apply _), Exec.bind_of_ok (terminalPutChar_apply _ a 15 (cursor_lt t))]
    rfl
  rw [Exec.bind_of_ok (Exec.modify_apply _ t), Exec.bind_of_ok (Exec.get_apply _)]
  show (if vgaHeight ≤ t.wrap.terminalRow.toNat then _ else _ : TermM Unit) t.wrap = _
  by_cases hrow : vgaHeight ≤ t.wrap.terminalRow.toNat
  · have hhome : t.wrap.home = .cleared := if_pos hrow
    rw [hhome] at hstore
    rw [if_pos hrow]
    exact (Exec.bind_of_ok (terminalInit_apply _)).trans hstore
  · have hhome : t.wrap.home = t.wrap := if_neg hrow
    rw [hhome] at hstore
    rw [if_neg hrow]
    exact hstore

/-! ## Strings -/

/-- The terminal after the first `n` characters. -/
def Terminal.printAll (t : Terminal) (str : Nat → Byte) : Nat → Terminal
  | 0 => t
  | i + 1 => (t.printAll str i).print (str i)

theorem printLoop_apply (str : Nat → Byte) (t : Terminal) : ∀ n, printLoop str n t = .ok ((), t.printAll str n)
  | 0 => rfl
  | i + 1 => by
    rw [printLoop, Exec.bind_of_ok (printLoop_apply str t i), kernelTerminalPrintChar_apply]
    rfl

theorem kernelPrintString_apply (str : Nat → Byte) (len : BitVec 32) (t : Terminal) :
    kernelPrintString str len t = .ok ((), (t.printAll str len.toNat).newLine) := by
  unfold kernelPrintString
  rw [Exec.bind_of_ok (printLoop_apply str t _)]
  rfl

theorem printAll_congr {str str' : Nat → Byte} : ∀ {n : Nat}, (∀ i < n, str i = str' i) →
    t.printAll str n = t.printAll str' n
  | 0, _ => rfl
  | n + 1, h => by
    rw [Terminal.printAll, Terminal.printAll, printAll_congr fun i hi => h i (Nat.lt_succ_of_lt hi),
      h n (Nat.lt_succ_self n)]

/-- The terminal after a byte in hexadecimal. -/
def Terminal.printHex (t : Terminal) (hex : Byte) : Terminal :=
  ((t.print (charAt toHex (hex >>> 4).toNat)).print (charAt toHex (hex &&& 15).toNat)).print 0x20

theorem kernelPrintCharHex_apply (hex : Byte) (t : Terminal) : kernelPrintCharHex hex t = .ok ((), t.printHex hex) := by
  unfold kernelPrintCharHex
  rw [Exec.bind_of_ok (kernelTerminalPrintChar_apply _ t), Exec.bind_of_ok (kernelTerminalPrintChar_apply _ _),
    kernelTerminalPrintChar_apply]
  rfl

end

end SimpleMicrokernel.Printing
