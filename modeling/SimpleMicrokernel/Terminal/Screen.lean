/-
A screen that is printed on cell by cell: the cursor wraps at the last column and the screen is cleared past
the last row. What two prints of one length leave is the same exactly when they agree since it was cleared.
-/
import SimpleMicrokernel.Terminal.Terminal

namespace SimpleMicrokernel.Printing

open Memory

/-- Cells by row and column, and the cursor. -/
@[ext] structure Screen (γ : Type) where
  cells : Fin vgaHeight → Fin vgaWidth → γ
  row : Nat
  col : Nat

namespace Screen

variable {γ δ : Type}

/-- At the last column the cursor goes to column 0 of the next row. -/
def wrap (s : Screen γ) : Screen γ := if vgaWidth ≤ s.col then { s with row := s.row + 1, col := 0 } else s

/-- At the last row the screen is cleared, and the cursor is home. -/
def home (blank : γ) (s : Screen γ) : Screen γ := if vgaHeight ≤ s.row then ⟨fun _ _ => blank, 0, 0⟩ else s

/-- The cell under the cursor is stored, and the cursor advanced. -/
def store (g : γ) (s : Screen γ) : Screen γ :=
  { s with cells := fun i j => if i.val = s.row ∧ j.val = s.col then g else s.cells i j, col := s.col + 1 }

def put (blank : γ) (s : Screen γ) (g : γ) : Screen γ := (s.wrap.home blank).store g

def newLine (s : Screen γ) : Screen γ := { s with row := s.row + 1, col := 0 }

/-- The screen after cells one after another. -/
def putAll (blank : γ) (s : Screen γ) (gs : List γ) : Screen γ := gs.foldl (put blank) s

/-- A line: cells and a line end. -/
def printLine (blank : γ) (s : Screen γ) (gs : List γ) : Screen γ := (s.putAll blank gs).newLine

/-- Each cell looked at through `f`. -/
def map (f : γ → δ) (s : Screen γ) : Screen δ := ⟨fun i j => f (s.cells i j), s.row, s.col⟩

/-- The place of the cursor, counted along the rows. -/
def pos (s : Screen γ) : Nat := s.row * vgaWidth + s.col

/-- The cursor is on the screen, or just past its end. -/
structure Inside (s : Screen γ) : Prop where
  row : s.row ≤ vgaHeight
  col : s.col ≤ vgaWidth

/-- The cells of the screen. -/
abbrev size : Nat := vgaWidth * vgaHeight

section
variable {s t : Screen γ}

/-! ## One cell -/

/-- The screen is cleared when the cursor is past the last cell; the cell stored is the one counted. -/
theorem put_cases (blank g : γ) (hs : s.Inside) : (s.put blank g).Inside ∧
    (size ≤ s.pos ∧ (s.put blank g).pos = 1 ∧
      (∀ i j, (s.put blank g).cells i j = if i.val * vgaWidth + j.val = 0 then g else blank) ∨
      s.pos < size ∧ (s.put blank g).pos = s.pos + 1 ∧
        ∀ i j, (s.put blank g).cells i j = if i.val * vgaWidth + j.val = s.pos then g else s.cells i j) := by
  obtain ⟨hrow, hcol⟩ := hs
  unfold put wrap home store pos size vgaWidth vgaHeight at *
  by_cases hlast : 80 ≤ s.col
  · simp only [if_pos hlast]
    by_cases hend : 20 ≤ s.row + 1
    · simp only [if_pos hend]
      refine ⟨⟨Nat.zero_le 20, show 0 + 1 ≤ 80 by omega⟩, .inl ⟨by omega, trivial, fun i j => ?_⟩⟩
      exact if_congr (by omega) rfl rfl
    · simp only [if_neg hend]
      refine ⟨⟨show s.row + 1 ≤ 20 by omega, show 0 + 1 ≤ 80 by omega⟩, .inr ⟨by omega, ?_, fun i j => ?_⟩⟩
      · show (s.row + 1) * 80 + (0 + 1) = _
        omega
      · exact if_congr (by have := j.isLt; omega) rfl rfl
  · simp only [if_neg hlast]
    by_cases hend : 20 ≤ s.row
    · simp only [if_pos hend]
      refine ⟨⟨Nat.zero_le 20, show 0 + 1 ≤ 80 by omega⟩, .inl ⟨by omega, trivial, fun i j => ?_⟩⟩
      exact if_congr (by omega) rfl rfl
    · simp only [if_neg hend]
      refine ⟨⟨show s.row ≤ 20 by omega, show s.col + 1 ≤ 80 by omega⟩, .inr ⟨by omega, ?_, fun i j => ?_⟩⟩
      · show s.row * 80 + (s.col + 1) = _
        omega
      · exact if_congr (by have := j.isLt; omega) rfl rfl

theorem put_cursor (blank : γ) (h : s.row = t.row ∧ s.col = t.col) (g g' : γ) :
    (s.put blank g).row = (t.put blank g').row ∧ (s.put blank g).col = (t.put blank g').col := by
  unfold put wrap home store
  obtain ⟨hrow, hcol⟩ := h
  rw [hcol]
  by_cases hlast : vgaWidth ≤ t.col
  · simp only [if_pos hlast]
    rw [hrow]
    split
    · exact ⟨rfl, rfl⟩
    · exact ⟨rfl, rfl⟩
  · simp only [if_neg hlast]
    rw [hrow]
    split
    · exact ⟨rfl, rfl⟩
    · exact ⟨hrow, congrArg (· + 1) hcol⟩

theorem exists_cell {p : Nat} (h : p < size) :
    ∃ (i : Fin vgaHeight) (j : Fin vgaWidth), i.val * vgaWidth + j.val = p := by
  unfold size vgaWidth vgaHeight at *
  exact ⟨⟨p / 80, by omega⟩, ⟨p % 80, by omega⟩, by simp only; omega⟩

/-- Screens with one cursor, and the same under it, differ after a cell in what they differed in before, unless they
are cleared, and in the cell. -/
theorem put_eq_iff (blank g g' : γ) (hs : s.Inside) (ht : t.Inside) (hcursor : s.row = t.row ∧ s.col = t.col)
    (hunder : ∀ i j, i.val * vgaWidth + j.val = s.pos → s.cells i j = t.cells i j) :
    s.put blank g = t.put blank g' ↔ g = g' ∧ (s.pos < size → s = t) := by
  have hpos : s.pos = t.pos := by
    unfold pos
    rw [hcursor.1, hcursor.2]
  have hcursor' := put_cursor blank hcursor g g'
  have hcells : s.put blank g = t.put blank g' ↔ ∀ i j, (s.put blank g).cells i j = (t.put blank g').cells i j :=
    ⟨fun h i j => by rw [h], fun h => Screen.ext (funext fun i => funext fun j => h i j) hcursor'.1 hcursor'.2⟩
  have hsame : s = t ↔ ∀ i j, s.cells i j = t.cells i j :=
    ⟨fun h i j => by rw [h], fun h => Screen.ext (funext fun i => funext fun j => h i j) hcursor.1 hcursor.2⟩
  rw [hcells]
  obtain ⟨-, ⟨hfull, -, hput⟩ | ⟨hroom, -, hput⟩⟩ := put_cases blank g hs
  · obtain ⟨-, ⟨-, -, hput'⟩ | ⟨hroom', -, -⟩⟩ := put_cases blank g' ht
    · simp only [hput, hput']
      obtain ⟨i, j, hij⟩ := exists_cell (show 0 < size by decide)
      refine ⟨fun h => ⟨?_, fun hlt => absurd hlt (by omega)⟩, fun h i j => by rw [h.1]⟩
      have h := h i j
      rwa [if_pos hij, if_pos hij] at h
    · omega
  · obtain ⟨-, ⟨hfull', -, -⟩ | ⟨-, -, hput'⟩⟩ := put_cases blank g' ht
    · omega
    · simp only [hput, hput', ← hpos]
      obtain ⟨i, j, hij⟩ := exists_cell hroom
      refine ⟨fun h => ⟨?_, fun _ => hsame.2 fun i' j' => ?_⟩, fun h i j => by rw [h.1, h.2 hroom]⟩
      · have h := h i j
        rwa [if_pos hij, if_pos hij] at h
      · by_cases hat : i'.val * vgaWidth + j'.val = s.pos
        · exact hunder i' j' hat
        · have h := h i' j'
          rwa [if_neg hat, if_neg hat] at h

end

/-! ## Cells one after another -/

/-- The place of the cursor after `n` cells, from the place `p`. -/
def posAfter (p n : Nat) : Nat := if n ≤ size - p then p + n else (n - 1 - (size - p)) % size + 1

/-- How many of `n` cells are stored after the screen was last cleared. -/
def shownAfter (p n : Nat) : Nat := if n ≤ size - p then n else (n - 1 - (size - p)) % size + 1

theorem posAfter_succ (p n : Nat) : posAfter p (n + 1) = if size ≤ posAfter p n then 1 else posAfter p n + 1 := by
  unfold posAfter size vgaWidth vgaHeight
  split <;> split <;> split <;> omega

theorem shownAfter_succ (p n : Nat) : shownAfter p (n + 1) = if size ≤ posAfter p n then 1 else shownAfter p n + 1 := by
  unfold shownAfter posAfter size vgaWidth vgaHeight
  split <;> split <;> split <;> omega

section
variable {s : Screen γ}

theorem putAll_append (blank : γ) (s : Screen γ) (gs : List γ) (g : γ) :
    s.putAll blank (gs ++ [g]) = (s.putAll blank gs).put blank g := List.foldl_append ..

theorem inside_putAll (blank : γ) (hs : s.Inside) : ∀ gs : List γ, (s.putAll blank gs).Inside := by
  intro gs
  induction gs using List.reverseRecOn with
  | nil => exact hs
  | append_singleton gs g ih =>
    rw [putAll_append]
    exact (put_cases blank g ih).1

theorem pos_putAll (blank : γ) (hs : s.Inside) : ∀ gs : List γ, (s.putAll blank gs).pos = posAfter s.pos gs.length := by
  intro gs
  induction gs using List.reverseRecOn with
  | nil =>
    unfold posAfter
    rw [List.length_nil, if_pos (Nat.zero_le _)]
    rfl
  | append_singleton gs g ih =>
    rw [putAll_append, List.length_append, List.length_singleton, posAfter_succ, ← ih]
    obtain ⟨-, ⟨hfull, e, -⟩ | ⟨hroom, e, -⟩⟩ := put_cases blank g (inside_putAll blank hs gs)
    · rw [e, if_pos hfull]
    · rw [e, if_neg (Nat.not_le_of_lt hroom)]

/-- Lists of one length come to one cursor, and to the same cells from there on. -/
theorem putAll_rest (blank : γ) (hs : s.Inside) : ∀ {n : Nat} {gs gs' : List γ}, gs.length = n → gs'.length = n →
    ((s.putAll blank gs).row = (s.putAll blank gs').row ∧ (s.putAll blank gs).col = (s.putAll blank gs').col) ∧
      ∀ i j, (s.putAll blank gs).pos ≤ i.val * vgaWidth + j.val →
      (s.putAll blank gs).cells i j = (s.putAll blank gs').cells i j
  | 0, gs, gs', h, h' => by
    rw [List.eq_nil_of_length_eq_zero h, List.eq_nil_of_length_eq_zero h']
    exact ⟨⟨rfl, rfl⟩, fun _ _ _ => rfl⟩
  | n + 1, gs, gs', h, h' => by
    obtain ⟨gs, g, rfl⟩ := (List.eq_nil_or_concat' gs).resolve_left fun e => by rw [e] at h; cases h
    obtain ⟨gs', g', rfl⟩ := (List.eq_nil_or_concat' gs').resolve_left fun e => by rw [e] at h'; cases h'
    rw [List.length_append, List.length_singleton] at h h'
    obtain ⟨hcursor, hrest⟩ := putAll_rest blank hs (Nat.succ.inj h) (Nat.succ.inj h')
    rw [putAll_append, putAll_append]
    refine ⟨put_cursor blank hcursor g g', fun i j hij => ?_⟩
    have hin := inside_putAll blank hs gs
    have hin' := inside_putAll blank hs gs'
    have hpos : (s.putAll blank gs).pos = (s.putAll blank gs').pos := by
      rw [pos_putAll blank hs, pos_putAll blank hs, Nat.succ.inj h, Nat.succ.inj h']
    obtain ⟨-, ⟨hfull, e, hput⟩ | ⟨hroom, e, hput⟩⟩ := put_cases blank g hin
    · obtain ⟨-, ⟨-, -, hput'⟩ | ⟨hroom', -, -⟩⟩ := put_cases blank g' hin'
      · rw [e] at hij
        rw [hput, hput', if_neg (by omega), if_neg (by omega)]
      · omega
    · obtain ⟨-, ⟨hfull', -, -⟩ | ⟨-, -, hput'⟩⟩ := put_cases blank g' hin'
      · omega
      · rw [e] at hij
        rw [hput, hput', if_neg (by omega), if_neg (by omega), hrest i j (by omega)]

/-- What is left of the lists is what came after the screen was last cleared. -/
theorem putAll_eq_iff (blank : γ) (hs : s.Inside) : ∀ {n : Nat} {gs gs' : List γ}, gs.length = n → gs'.length = n →
    (s.putAll blank gs = s.putAll blank gs' ↔ ∀ i < n, n ≤ i + shownAfter s.pos n → gs[i]? = gs'[i]?)
  | 0, gs, gs', h, h' => by
    rw [List.eq_nil_of_length_eq_zero h, List.eq_nil_of_length_eq_zero h']
    exact iff_of_true rfl fun i hi => absurd hi (Nat.not_lt_zero i)
  | n + 1, gs, gs', h, h' => by
    obtain ⟨gs, g, rfl⟩ := (List.eq_nil_or_concat' gs).resolve_left fun e => by rw [e] at h; cases h
    obtain ⟨gs', g', rfl⟩ := (List.eq_nil_or_concat' gs').resolve_left fun e => by rw [e] at h'; cases h'
    rw [List.length_append, List.length_singleton] at h h'
    have hn := Nat.succ.inj h
    have hn' := Nat.succ.inj h'
    obtain ⟨hcursor, hrest⟩ := putAll_rest blank hs hn hn'
    have hput := put_eq_iff blank g g' (inside_putAll blank hs gs) (inside_putAll blank hs gs') hcursor
      fun i j hij => hrest i j (Nat.le_of_eq hij.symm)
    have hlast : (gs ++ [g])[n]? = some g ∧ (gs' ++ [g'])[n]? = some g' := by
      rw [← hn, List.getElem?_concat_length, hn, ← hn', List.getElem?_concat_length]
      exact ⟨rfl, rfl⟩
    have hbefore (i : Nat) (hi : i < n) : (gs ++ [g])[i]? = gs[i]? ∧ (gs' ++ [g'])[i]? = gs'[i]? :=
      ⟨List.getElem?_append_left (by omega), List.getElem?_append_left (by omega)⟩
    rw [putAll_append, putAll_append, hput, putAll_eq_iff blank hs hn hn', shownAfter_succ, pos_putAll blank hs, hn]
    constructor
    · rintro ⟨rfl, hall⟩ i hi hshown
      rcases Nat.lt_or_eq_of_le (Nat.le_of_lt_succ hi) with hlt | rfl
      · rw [(hbefore i hlt).1, (hbefore i hlt).2]
        split at hshown
        · omega
        · exact hall (by omega) i hlt (by omega)
      · rw [hlast.1, hlast.2]
    · intro hall
      have hg := hall n (Nat.lt_succ_self n) (by split <;> omega)
      rw [hlast.1, hlast.2] at hg
      refine ⟨Option.some.inj hg, fun hroom i hi hshown => ?_⟩
      have hi' := hall i (Nat.lt_succ_of_lt hi) (by rw [if_neg (Nat.not_le_of_lt hroom)]; omega)
      rwa [(hbefore i hi).1, (hbefore i hi).2] at hi'

/-- Printing cells and looking at them through `f` is printing what they look like. -/
theorem map_putAll (f : γ → δ) (blank : γ) (s : Screen γ) : ∀ gs : List γ,
    (s.putAll blank gs).map f = (s.map f).putAll (f blank) (gs.map f) := by
  have hput (s : Screen γ) (g : γ) : (s.put blank g).map f = (s.map f).put (f blank) (f g) := by
    unfold put wrap home store map
    simp only
    by_cases hlast : vgaWidth ≤ s.col
    · simp only [if_pos hlast]
      by_cases hend : vgaHeight ≤ s.row + 1
      · simp only [if_pos hend, apply_ite f]
      · simp only [if_neg hend, apply_ite f]
    · simp only [if_neg hlast]
      by_cases hend : vgaHeight ≤ s.row
      · simp only [if_pos hend, apply_ite f]
      · simp only [if_neg hend, apply_ite f]
  intro gs
  induction gs using List.reverseRecOn with
  | nil => rfl
  | append_singleton gs g ih => rw [putAll_append, hput, ih, List.map_append, List.map_singleton, putAll_append]

end

end Screen

end SimpleMicrokernel.Printing
