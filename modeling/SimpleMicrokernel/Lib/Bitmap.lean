/-
Bitmaps packed into machine words: bit `i` is bit `i % w` of word `i / w`. Setting and clearing
one bit, filling a range, and the number of set bits below a bound. Nothing here depends on who
uses the bitmap; two bitmaps with the same bits are the same words.
-/
import Mathlib.Data.Finset.Card
import Mathlib.Data.Finset.Range
import Mathlib.Data.BitVec
import Mathlib.Tactic.Ring

namespace Bitmap

/-- The words of a bitmap, indexed from zero. -/
abbrev Words (w : Nat) := Nat → BitVec w

variable {w : Nat}

/-- Bit `i` of a bitmap. -/
def bit (m : Words w) (i : Nat) : Bool := (m (i / w)).getLsbD (i % w)

/-- Bit `i` set. -/
def setBit (m : Words w) (i : Nat) : Words w :=
  Function.update m (i / w) (m (i / w) ||| 1#w <<< (i % w))

/-- Bit `i` cleared. -/
def clearBit (m : Words w) (i : Nat) : Words w :=
  Function.update m (i / w) (m (i / w) &&& ~~~(1#w <<< (i % w)))

theorem getLsbD_one_shiftLeft (k j : Nat) :
    (1#w <<< k).getLsbD j = (decide (j < w) && decide (j = k)) := by
  rw [BitVec.getLsbD_shiftLeft, BitVec.getLsbD_one]
  by_cases hj : j < w <;> by_cases hk : j < k <;> by_cases he : j = k <;> simp_all <;> omega

theorem div_mod_ext {i j : Nat} (hd : j / w = i / w) (hm : j % w = i % w) : j = i := by
  rw [← Nat.div_add_mod j w, ← Nat.div_add_mod i w, hd, hm]

section
variable (hw : 0 < w)
include hw

theorem bit_setBit (m : Words w) (i j : Nat) : bit (setBit m i) j = (decide (j = i) || bit m j) := by
  unfold bit setBit
  rw [Function.update_apply]
  have hj : j % w < w := Nat.mod_lt j hw
  split
  · rename_i hd
    rw [BitVec.getLsbD_or, getLsbD_one_shiftLeft, ← hd]
    have : (j % w = i % w) ↔ j = i := ⟨div_mod_ext hd, fun h => by rw [h]⟩
    simp [hj, this, Bool.or_comm]
  · rename_i hd
    have : j ≠ i := fun h => hd (by rw [h])
    simp [this]

theorem bit_clearBit (m : Words w) (i j : Nat) : bit (clearBit m i) j = (!decide (j = i) && bit m j) := by
  unfold bit clearBit
  rw [Function.update_apply]
  have hj : j % w < w := Nat.mod_lt j hw
  split
  · rename_i hd
    rw [BitVec.getLsbD_and, BitVec.getLsbD_not, getLsbD_one_shiftLeft, ← hd]
    have : (j % w = i % w) ↔ j = i := ⟨div_mod_ext hd, fun h => by rw [h]⟩
    simp [hj, this, Bool.and_comm]
  · rename_i hd
    have : j ≠ i := fun h => hd (by rw [h])
    simp [this]

theorem ext_bit {m m' : Words w} (h : ∀ i, bit m i = bit m' i) : m = m' := by
  funext k
  refine BitVec.eq_of_getLsbD_eq fun j hj => ?_
  have := h (k * w + j)
  unfold bit at this
  rwa [Nat.mul_comm k w, Nat.mul_add_div hw, Nat.mul_add_mod, Nat.div_eq_of_lt hj, Nat.mod_eq_of_lt hj,
    Nat.add_zero] at this

end

/-! ## Ranges -/

/-- Bits `start`, …, `start + n - 1` set, in order. -/
def setRange (m : Words w) (start : Nat) : Nat → Words w
  | 0 => m
  | n + 1 => setBit (setRange m start n) (start + n)

/-- Bits `start`, …, `start + n - 1` cleared, in order. -/
def clearRange (m : Words w) (start : Nat) : Nat → Words w
  | 0 => m
  | n + 1 => clearBit (clearRange m start n) (start + n)

section
variable (hw : 0 < w)
include hw

theorem bit_setRange (m : Words w) (start n j : Nat) :
    bit (setRange m start n) j = (decide (start ≤ j ∧ j < start + n) || bit m j) := by
  induction n with
  | zero => simp [setRange]
  | succ n ih =>
    rw [setRange, bit_setBit hw, ih, ← Bool.or_assoc, ← Bool.decide_or]
    congr 2
    exact propext ⟨by omega, by omega⟩

theorem bit_clearRange (m : Words w) (start n j : Nat) :
    bit (clearRange m start n) j = (!decide (start ≤ j ∧ j < start + n) && bit m j) := by
  induction n with
  | zero => simp [clearRange]; intros; omega
  | succ n ih =>
    rw [clearRange, bit_clearBit hw, ih, ← Bool.and_assoc, ← Bool.not_or, ← Bool.decide_or]
    congr 3
    exact propext ⟨by omega, by omega⟩

theorem clearRange_setRange {m : Words w} {start n : Nat}
    (h : ∀ j, start ≤ j → j < start + n → bit m j = false) : clearRange (setRange m start n) start n = m := by
  refine ext_bit hw fun j => ?_
  rw [bit_clearRange hw, bit_setRange hw]
  by_cases hj : start ≤ j ∧ j < start + n
  · rw [h j hj.1 hj.2]; simp [hj]
  · simp [hj]

theorem setRange_eq_self_iff {m : Words w} {start n : Nat} :
    setRange m start n = m ↔ ∀ j, start ≤ j → j < start + n → bit m j = true := by
  constructor
  · intro h j h1 h2
    rw [← h, bit_setRange hw]; simp [h1, h2]
  · intro h
    refine ext_bit hw fun j => ?_
    rw [bit_setRange hw]
    by_cases hj : start ≤ j ∧ j < start + n
    · rw [h j hj.1 hj.2]; simp
    · simp [hj]

end

/-! ## Counting -/

/-- The set bits below `n`. -/
def used (m : Words w) (n : Nat) : Finset Nat := (Finset.range n).filter fun i => bit m i = true

/-- The number of set bits below `n`. -/
def popcount (m : Words w) (n : Nat) : Nat := (used m n).card

theorem mem_used {m : Words w} {n i : Nat} : i ∈ used m n ↔ i < n ∧ bit m i = true := by
  simp [used]

theorem popcount_le (m : Words w) (n : Nat) : popcount m n ≤ n := by
  have := Finset.card_filter_le (Finset.range n) fun i => bit m i = true
  rwa [Finset.card_range] at this

theorem popcount_congr {m m' : Words w} {n : Nat} (h : ∀ i < n, bit m i = bit m' i) :
    popcount m n = popcount m' n := by
  unfold popcount
  congr 1
  ext i
  rw [mem_used, mem_used]
  constructor
  · rintro ⟨h1, h2⟩; exact ⟨h1, by rw [← h i h1]; exact h2⟩
  · rintro ⟨h1, h2⟩; exact ⟨h1, by rw [h i h1]; exact h2⟩

theorem popcount_mono {m m' : Words w} {n : Nat} (h : ∀ i, bit m i = true → bit m' i = true) :
    popcount m n ≤ popcount m' n := by
  refine Finset.card_le_card fun i hi => ?_
  rw [mem_used] at hi ⊢
  exact ⟨hi.1, h i hi.2⟩

theorem popcount_eq_iff {m : Words w} {n : Nat} : popcount m n = n ↔ ∀ i < n, bit m i = true := by
  have hcard := Finset.card_filter_eq_iff (s := Finset.range n) (p := fun i => bit m i = true)
  rw [Finset.card_range] at hcard
  simp only [Finset.mem_range] at hcard
  exact hcard

theorem card_clear (m : Words w) (n : Nat) :
    ((Finset.range n).filter fun i => bit m i = false).card = n - popcount m n := by
  have h := Finset.card_filter_add_card_filter_not (s := Finset.range n) fun i => bit m i = true
  rw [Finset.card_range] at h
  simp only [Bool.not_eq_true] at h
  have hp : popcount m n = ((Finset.range n).filter fun i => bit m i = true).card := rfl
  omega

section
variable (hw : 0 < w)
include hw

theorem popcount_setBit {m : Words w} {n i : Nat} (hi : i < n) (h : bit m i = false) :
    popcount (setBit m i) n = popcount m n + 1 := by
  have : used (setBit m i) n = insert i (used m n) := by
    ext j
    rw [Finset.mem_insert, mem_used, mem_used, bit_setBit hw]
    by_cases hj : j = i
    · subst hj; simp [hi]
    · simp [hj]
  rw [popcount, this, Finset.card_insert_of_notMem (by rw [mem_used]; simp [h]), popcount]

theorem popcount_clearBit {m : Words w} {n i : Nat} (hi : i < n) (h : bit m i = true) :
    popcount (clearBit m i) n + 1 = popcount m n := by
  have hc : bit (clearBit m i) i = false := by rw [bit_clearBit hw]; simp
  rw [← popcount_setBit hw hi hc]
  refine popcount_congr fun j _ => ?_
  rw [bit_setBit hw, bit_clearBit hw]
  by_cases hj : j = i
  · subst hj; simp [h]
  · simp [hj]

theorem popcount_setRange {m : Words w} {start n len : Nat} (hlen : start + len ≤ n)
    (h : ∀ j, start ≤ j → j < start + len → bit m j = false) :
    popcount (setRange m start len) n = popcount m n + len := by
  induction len with
  | zero => simp [setRange]
  | succ len ih =>
    rw [setRange, popcount_setBit hw (by omega), ih (by omega) fun j h1 h2 => h j h1 (by omega), Nat.add_assoc]
    rw [bit_setRange hw, h _ (by omega) (by omega)]
    simp

theorem popcount_clearRange {m : Words w} {start n len : Nat} (hlen : start + len ≤ n)
    (h : ∀ j, start ≤ j → j < start + len → bit m j = true) :
    popcount (clearRange m start len) n + len = popcount m n := by
  induction len with
  | zero => simp [clearRange]
  | succ len ih =>
    have hb : bit (clearRange m start len) (start + len) = true := by
      rw [bit_clearRange hw, h _ (by omega) (by omega)]; simp
    have h1 := ih (by omega) fun j h1 h2 => h j h1 (by omega)
    have h2 := popcount_clearBit hw (n := n) (by omega) hb
    rw [clearRange]
    omega

/-- Filling a range never lowers the count, and keeps it exactly when the part below the bound
was set already. -/
theorem popcount_setRange_eq_iff {m : Words w} {start n len : Nat} :
    popcount (setRange m start len) n = popcount m n ↔
      ∀ j, start ≤ j → j < start + len → j < n → bit m j = true := by
  have hsub : used m n ⊆ used (setRange m start len) n := by
    intro j
    rw [mem_used, mem_used, bit_setRange hw]
    rintro ⟨h1, h2⟩; exact ⟨h1, by simp [h2]⟩
  constructor
  · intro h j h1 h2 h3
    have he := Finset.eq_of_subset_of_card_le hsub (le_of_eq h)
    have : j ∈ used (setRange m start len) n := by
      rw [mem_used, bit_setRange hw]; simp [h1, h2, h3]
    rw [← he, mem_used] at this
    exact this.2
  · intro h
    refine popcount_congr fun j hj => ?_
    rw [bit_setRange hw]
    by_cases hr : start ≤ j ∧ j < start + len
    · rw [h j hr.1 hr.2 hj]; simp
    · simp [hr]

end

end Bitmap
