/-
What a string looks like on the screen, against a reference terminal. Cursor and clearing are those of the
reference. A byte from 0x80 on is negative as a `char`, and its sign bits come to the attribute of its cell,
which shows as long as the screen is not cleared after it.
-/
import SimpleMicrokernel.Terminal.Bounds
import SimpleMicrokernel.Terminal.Screen

namespace SimpleMicrokernel.Printing

open Memory Fs

/-- A cell as the screen shows it. -/
structure Cell where
  char : Byte
  attr : Byte
deriving DecidableEq, Repr

/-- The low byte is the character, the high byte its attribute. -/
def cellOf (x : BitVec 16) : Cell := ⟨x.setWidth 8, (x >>> 8).setWidth 8⟩

/-- What the reference terminal does with a string: the screen is cleared to black, and each byte is a cell of
its own with the attribute of bright white. -/
def referencePrint (s : Screen Cell) (bytes : List Byte) : Screen Cell :=
  s.printLine ⟨0x20, 0⟩ (bytes.map fun b => ⟨b, 15⟩)

/-- The bytes a string of some length gives. -/
def bytesOf (str : Nat → Byte) (len : Nat) : List Byte := (List.range len).map str

namespace Terminal

/-- The terminal as a screen of the cells in memory, and of the cells that show. -/
def words (t : Terminal) : Screen (BitVec 16) where
  cells i j := t.videoMemory ⟨i.val * vgaWidth + j.val, by unfold vgaWidth vgaHeight; omega⟩
  row := t.terminalRow.toNat
  col := t.terminalCol.toNat

def shown (t : Terminal) : Screen Cell := t.words.map cellOf

end Terminal

section
variable {t : Terminal}

/-! ## The cursor -/

theorem words_wrap (ht : t.words.Inside) : t.wrap.words = t.words.wrap := by
  have hrow : t.terminalRow.toNat ≤ 20 := ht.row
  unfold Terminal.wrap Screen.wrap
  by_cases hlast : vgaWidth ≤ t.terminalCol.toNat
  · have hnext : (t.terminalRow + 1).toNat = t.terminalRow.toNat + 1 := by bv_omega
    rw [if_pos hlast, if_pos (show vgaWidth ≤ t.words.col from hlast)]
    show (⟨t.words.cells, (t.terminalRow + 1).toNat, 0⟩ : Screen (BitVec 16)) = _
    rw [hnext]
    rfl
  · rw [if_neg hlast, if_neg (show ¬ vgaWidth ≤ t.words.col from hlast)]

theorem words_home (t : Terminal) : t.home.words = t.words.home blankCell := by
  unfold Terminal.home Screen.home
  by_cases hend : vgaHeight ≤ t.terminalRow.toNat
  · rw [if_pos hend, if_pos (show vgaHeight ≤ t.words.row from hend)]
    rfl
  · rw [if_neg hend, if_neg (show ¬ vgaHeight ≤ t.words.row from hend)]

/-- While the cursor is on the screen or just past its end, a character is a cell put. -/
theorem words_print (ht : t.words.Inside) (a : Byte) :
    (t.print a).words = t.words.put blankCell (terminalMakeChar a 15) := by
  obtain ⟨hrow, hcol⟩ := home_lt t
  unfold Screen.put
  rw [← words_wrap ht, ← words_home]
  have hnext : (t.wrap.home.terminalCol + 1).toNat = t.wrap.home.terminalCol.toNat + 1 := by
    unfold vgaWidth at hcol
    bv_omega
  refine Screen.ext (funext fun i => funext fun j => ?_) rfl hnext
  have hj := j.isLt
  show Function.update t.wrap.home.videoMemory _ _ _ =
    if i.val = t.wrap.home.terminalRow.toNat ∧ j.val = t.wrap.home.terminalCol.toNat then _ else _
  rw [Function.update_apply]
  refine if_congr ?_ rfl rfl
  rw [Fin.ext_iff]
  show i.val * vgaWidth + j.val = t.wrap.home.terminalRow.toNat * vgaWidth + t.wrap.home.terminalCol.toNat ↔ _
  unfold vgaWidth at *
  omega

theorem words_printAll (ht : t.words.Inside) (str : Nat → Byte) : ∀ n,
    (t.printAll str n).words = t.words.putAll blankCell ((bytesOf str n).map (terminalMakeChar · 15)) ∧
    (t.printAll str n).words.Inside
  | 0 => ⟨rfl, ht⟩
  | n + 1 => by
    obtain ⟨e, hin⟩ := words_printAll ht str n
    have hbytes : bytesOf str (n + 1) = bytesOf str n ++ [str n] := by
      unfold bytesOf
      rw [List.range_succ, List.map_append, List.map_singleton]
    have hprint := words_print hin (str n)
    refine ⟨?_, ?_⟩
    · rw [Terminal.printAll, hprint, e, hbytes, List.map_append, List.map_singleton, Screen.putAll_append]
    · rw [Terminal.printAll, hprint]
      exact (Screen.put_cases _ _ hin).1

/-! ## The cells -/

theorem cellOf_blankCell : cellOf blankCell = ⟨0x20, 0⟩ := by decide

theorem cellOf_terminalMakeChar :
    ∀ a : Byte, cellOf (terminalMakeChar a 15) = ⟨a, if a.toNat < 128 then 15 else 0xFF⟩ := by
  decide +kernel

/-- What shows after a string is what a line of its cells leaves. -/
theorem shown_printString (ht : t.words.Inside) (str : Nat → Byte) (n : Nat) :
    (t.printAll str n).newLine.shown =
      t.shown.printLine ⟨0x20, 0⟩ ((bytesOf str n).map fun a => ⟨a, if a.toNat < 128 then 15 else 0xFF⟩) := by
  obtain ⟨e, hin⟩ := words_printAll ht str n
  have hrow : (t.printAll str n).terminalRow.toNat ≤ 20 := hin.row
  have hnext : ((t.printAll str n).terminalRow + 1).toNat = (t.printAll str n).terminalRow.toNat + 1 := by bv_omega
  have hline : (t.printAll str n).newLine.shown = ((t.printAll str n).words.map cellOf).newLine :=
    Screen.ext rfl hnext rfl
  rw [hline, e, Screen.map_putAll, cellOf_blankCell, List.map_map]
  unfold Screen.printLine Terminal.shown
  congr 2
  exact List.map_congr_left fun a _ => cellOf_terminalMakeChar a

theorem newLine_inj {γ : Type} {s s' : Screen γ} (hrow : s.row = s'.row) (hcol : s.col = s'.col) :
    s.newLine = s'.newLine ↔ s = s' := by
  refine ⟨fun h => ?_, fun h => by rw [h]⟩
  have hcells := congrArg Screen.cells h
  exact Screen.ext hcells hrow hcol

/-- A string is printed as the reference prints it exactly when every byte since the screen was last cleared is
below 0x80. -/
theorem kernelPrintString_iff (str : Nat → Byte) (len : BitVec 32) (hrow : t.terminalRow.toNat ≤ 20)
    (hcol : t.terminalCol.toNat ≤ 80) :
    (∃ t', kernelPrintString str len t = .ok ((), t') ∧ t'.shown = referencePrint t.shown (bytesOf str len.toNat)) ↔
      ∀ i < len.toNat, len.toNat ≤ i + Screen.shownAfter t.cursor len.toNat → (str i).toNat < 128 := by
  have ht : t.words.Inside := ⟨hrow, hcol⟩
  have hs : t.shown.Inside := ⟨hrow, hcol⟩
  have hlen : (bytesOf str len.toNat).length = len.toNat := by
    unfold bytesOf
    rw [List.length_map, List.length_range]
  have hfinal : (∃ t', kernelPrintString str len t = .ok ((), t') ∧
    t'.shown = referencePrint t.shown (bytesOf str len.toNat)) ↔
      (t.printAll str len.toNat).newLine.shown = referencePrint t.shown (bytesOf str len.toNat) := by
    rw [kernelPrintString_apply]
    constructor
    · rintro ⟨t', e, h⟩
      cases e
      exact h
    · intro h
      exact ⟨_, rfl, h⟩
  rw [hfinal, shown_printString ht, referencePrint, Screen.printLine, Screen.printLine]
  generalize hgs : (bytesOf str len.toNat).map (fun a => (⟨a, if a.toNat < 128 then 15 else 0xFF⟩ : Cell)) = gs
  generalize hgs' : (bytesOf str len.toNat).map (fun a => (⟨a, 15⟩ : Cell)) = gs'
  have h1 : gs.length = len.toNat := by rw [← hgs, List.length_map, hlen]
  have h2 : gs'.length = len.toNat := by rw [← hgs', List.length_map, hlen]
  obtain ⟨⟨hr, hc⟩, -⟩ := Screen.putAll_rest (⟨0x20, 0⟩ : Cell) hs h1 h2
  rw [newLine_inj hr hc, Screen.putAll_eq_iff _ hs h1 h2]
  refine forall_congr' fun i => forall_congr' fun hi => forall_congr' fun _ => ?_
  have hat : (bytesOf str len.toNat)[i]? = some (str i) := by
    unfold bytesOf
    rw [List.getElem?_map, List.getElem?_range hi]
    rfl
  rw [← hgs, ← hgs', List.getElem?_map, List.getElem?_map, hat, Option.map_some, Option.map_some, Option.some.injEq,
    Cell.mk.injEq]
  constructor
  · rintro ⟨-, h⟩
    by_contra hge
    rw [if_neg hge] at h
    exact absurd h (by decide)
  · intro hlt
    rw [if_pos hlt]
    exact ⟨rfl, rfl⟩

end

/-- Two bytes from the end of a cleared screen on, the second after it was cleared again. -/
theorem kernelPrintString_last_cell :
    (∃ t', kernelPrintString (charAt [0xE9, 0x61]) 2 { Terminal.cleared with terminalRow := 19, terminalCol := 79 } =
      .ok ((), t') ∧
        t'.shown = referencePrint { Terminal.cleared with terminalRow := 19, terminalCol := 79 : Terminal }.shown
          (bytesOf (charAt [0xE9, 0x61]) (2 : BitVec 32).toNat)) ↔
      ∀ i < (2 : BitVec 32).toNat, (2 : BitVec 32).toNat ≤ i +
        Screen.shownAfter { Terminal.cleared with terminalRow := 19, terminalCol := 79 : Terminal }.cursor
          (2 : BitVec 32).toNat →
          (charAt [0xE9, 0x61] i).toNat < 128 :=
  kernelPrintString_iff (charAt [0xE9, 0x61]) 2 (by decide) (by decide)

/-- The byte 0xE9 gets the attribute 0xFF. -/
theorem kernelPrintString_negative : ¬ ∀ (t : Terminal) (str : Nat → Byte) (len : BitVec 32),
    t.terminalRow.toNat ≤ 20 → t.terminalCol.toNat ≤ 80 →
    ∃ t', kernelPrintString str len t = .ok ((), t') ∧ t'.shown = referencePrint t.shown (bytesOf str len.toNat) := by
  intro h
  obtain ⟨t', e, hshown⟩ := h .cleared (fun _ => 0xE9) 1 (by decide) (by decide)
  rw [kernelPrintString_apply] at e
  cases e
  have hcell := congrFun (congrFun (congrArg Screen.cells hshown) ⟨0, by decide⟩) ⟨0, by decide⟩
  revert hcell
  decide +kernel

end SimpleMicrokernel.Printing
