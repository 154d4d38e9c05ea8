/-
What `istrncmp` takes for equal. `to_upper` moves every byte from `a` to the end of ASCII down by 32: the
letters to their upper case, and the five bytes after `z` to the five after `Z`.
-/
import SimpleMicrokernel.Fs.PathParser

namespace SimpleMicrokernel.Fs

open Memory

/-- One of the bytes lies in the range, and the other is the byte 32 below it. -/
def FoldedFrom (lo hi : Nat) (a b : Byte) : Prop :=
  (lo ≤ a.toNat ∧ a.toNat ≤ hi ∧ b.toNat + 32 = a.toNat) ∨ (lo ≤ b.toNat ∧ b.toNat ≤ hi ∧ a.toNat + 32 = b.toNat)

instance (lo hi : Nat) (a b : Byte) : Decidable (FoldedFrom lo hi a b) := by
  unfold FoldedFrom
  infer_instance

/-- The bytes are the upper- and lower-case forms of one ASCII letter. -/
abbrev SameLetter (a b : Byte) : Prop := FoldedFrom 97 122 a b

/-- One of the bytes is one of the five after `z`, and the other is the one at its place after `Z`. -/
abbrev SameSymbol (a b : Byte) : Prop := FoldedFrom 123 127 a b

section
variable {a b : Byte} {as bs : List Byte} {n : Nat}

theorem toNat_toUpper : ∀ a : Byte, (toUpper a).toNat = if 97 ≤ a.toNat ∧
    a.toNat ≤ 127 then a.toNat - 32 else a.toNat := by
  decide +kernel

/-- Two bytes fold to one exactly when they are equal, one letter, or one of the five pairs after the letters. -/
theorem toUpper_eq_iff : toUpper a = toUpper b ↔ a = b ∨ SameLetter a b ∨ SameSymbol a b := by
  unfold SameLetter SameSymbol FoldedFrom
  rw [← BitVec.toNat_inj, ← BitVec.toNat_inj, toNat_toUpper, toNat_toUpper]
  constructor
  · intro h
    split at h <;> split at h <;> omega
  · intro h
    split <;> split <;> omega

theorem toInt_sub_ne_zero (h : a ≠ b) : a.toInt - b.toInt ≠ 0 := by
  intro h0
  exact h (BitVec.eq_of_toInt_eq (by omega))

/-- The comparison gives 0 exactly when every byte folds to the one at its place. -/
theorem istrncmp_eq_zero_iff : ∀ {n : Nat} {as bs : List Byte}, n ≤ as.length → n ≤ bs.length →
    (istrncmp as bs n = .ok 0 ↔ ∀ i < n, toUpper (charAt as i) = toUpper (charAt bs i))
  | 0, as, bs, _, _ => by
    refine ⟨fun _ i hi => absurd hi (Nat.not_lt_zero i), fun _ => ?_⟩
    cases as <;> rfl
  | n + 1, [], _, ha, _ => absurd ha (Nat.not_succ_le_zero n)
  | n + 1, _ :: _, [], _, hb => absurd hb (Nat.not_succ_le_zero n)
  | n + 1, a :: as, b :: bs, ha, hb => by
    have ih := istrncmp_eq_zero_iff (Nat.le_of_succ_le_succ ha) (Nat.le_of_succ_le_succ hb)
    have hall : (∀ i < n + 1, toUpper (charAt (a :: as) i) = toUpper (charAt (b :: bs) i)) ↔
        toUpper a = toUpper b ∧ ∀ i < n, toUpper (charAt as i) = toUpper (charAt bs i) := Nat.forall_lt_succ_left
    rw [hall, ← ih, istrncmp]
    by_cases hup : toUpper a = toUpper b
    · rw [if_neg fun h => h.2 hup]
      exact (and_iff_right hup).symm
    · have hne : a ≠ b := fun h => hup (by rw [h])
      rw [if_pos ⟨hne, hup⟩]
      refine ⟨fun h => ?_, fun h => absurd h.1 hup⟩
      exact absurd (Except.ok.inj h) (toInt_sub_ne_zero hne)

/-- The comparison is exact unless a pair after the letters decides it: no position holds one, or some other
position tells the strings apart anyway. -/
theorem istrncmp_exact_iff (ha : n ≤ as.length) (hb : n ≤ bs.length) :
    (istrncmp as bs n = .ok 0 ↔ ∀ i < n, charAt as i = charAt bs i ∨ SameLetter (charAt as i) (charAt bs i)) ↔
      (∀ i < n, ¬ SameSymbol (charAt as i) (charAt bs i)) ∨
        ∃ i < n, charAt as i ≠ charAt bs i ∧ ¬ SameLetter (charAt as i) (charAt bs i) ∧
        ¬ SameSymbol (charAt as i) (charAt bs i) := by
  rw [istrncmp_eq_zero_iff ha hb]
  simp only [toUpper_eq_iff]
  constructor
  · intro h
    by_cases hfold : ∀ i < n, charAt as i = charAt bs i ∨ SameLetter (charAt as i) (charAt bs i) ∨
      SameSymbol (charAt as i) (charAt bs i)
    · refine .inl fun i hi hsym => ?_
      -- a pair after the letters is neither one byte nor one letter
      rcases h.1 hfold i hi with heq | hletter
      · unfold SameSymbol FoldedFrom at hsym
        rw [heq] at hsym
        omega
      · unfold SameLetter SameSymbol FoldedFrom at *
        omega
    · push Not at hfold
      exact .inr hfold
  · rintro (hno | ⟨i, hi, hne, hletter, hsym⟩)
    · refine forall_congr' fun i => forall_congr' fun hi => ?_
      rw [or_iff_left (hno i hi)]
    · refine ⟨fun h => ?_, fun h => ?_⟩
      · rcases h i hi with h | h | h
        · exact absurd h hne
        · exact absurd h hletter
        · exact absurd h hsym
      · rcases h i hi with h | h
        · exact absurd h hne
        · exact absurd h hletter

end

/-- `{` and `[` are told apart by what comes after them. -/
theorem istrncmp_exact_brace :
    (istrncmp [0x7B, 0x41] [0x5B, 0x42] 2 = .ok 0 ↔
        ∀ i < 2, charAt [0x7B, 0x41] i = charAt [0x5B, 0x42] i ∨
        SameLetter (charAt [0x7B, 0x41] i) (charAt [0x5B, 0x42] i)) ↔
      (∀ i < 2, ¬ SameSymbol (charAt [0x7B, 0x41] i) (charAt [0x5B, 0x42] i)) ∨
        ∃ i < 2, charAt [0x7B, 0x41] i ≠ charAt [0x5B, 0x42] i ∧
        ¬ SameLetter (charAt [0x7B, 0x41] i) (charAt [0x5B, 0x42] i) ∧
          ¬ SameSymbol (charAt [0x7B, 0x41] i) (charAt [0x5B, 0x42] i) :=
  istrncmp_exact_iff (by decide) (by decide)

/-- The names `{` and `[` compare equal. -/
theorem istrncmp_brace : ¬ ∀ (as bs : List Byte) (n : Nat), n ≤ as.length → n ≤ bs.length →
    (istrncmp as bs n = .ok 0 ↔ ∀ i < n, charAt as i = charAt bs i ∨ SameLetter (charAt as i) (charAt bs i)) := by
  intro h
  have hpair := (h [0x7B] [0x5B] 1 (by decide) (by decide)).1 rfl 0 (by decide)
  revert hpair
  decide

end SimpleMicrokernel.Fs
