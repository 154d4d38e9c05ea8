/-
The name of a directory entry is its two fields, each up to its first space or NUL. The copy of a field
has no bound: a field that is full runs on into what follows it in the entry.
-/
import SimpleMicrokernel.Fs.Name

namespace SimpleMicrokernel.Fs

open Memory

/-! ## Fields -/

/-- The bytes a copy of a field stops at. -/
def IsStop (b : Byte) : Prop := b = 0x00 ∨ b = 0x20

instance (b : Byte) : Decidable (IsStop b) := inferInstanceAs (Decidable (_ ∨ _))

/-- The bytes of a field of `n` bytes up to its first space or NUL. -/
def fieldName (mem : Mem) : Nat → Nat → List Byte
  | _, 0 => []
  | a, n + 1 => if IsStop (mem a) then [] else mem a :: fieldName mem (a + 1) n

/-- The 8.3 name of the item at an address. -/
def name83 (mem : Mem) (item : Nat) : List Byte :=
  fieldName mem (item + filenameOffset) 8 ++
    if IsStop (mem (item + extOffset)) then [] else 0x2E :: fieldName mem (item + extOffset) 3

/-- A buffer that holds a string and is zero after it. -/
def cString (maxLen : Nat) (str : List Byte) : List Byte := str ++ List.replicate (maxLen - str.length) 0

/-- Whatever stands after the 11 bytes of the name, the buffer holds the name, in its first 13 bytes. -/
def NameDecodes (mem : Mem) (item : Nat) : Prop :=
  ∀ mem', (∀ i < 11, mem' (item + i) = mem (item + i)) → ∀ maxLen, 13 ≤ maxLen →
    fat16GetRelativePathName mem' item maxLen = .ok (cString maxLen (name83 mem item))

section
variable {mem mem' : Mem} {a n : Nat}

theorem length_fieldName_le : (fieldName mem a n).length ≤ n := by
  induction n generalizing a with
  | zero => exact le_refl 0
  | succ n ih =>
    rw [fieldName]
    split
    · exact Nat.zero_le _
    · exact Nat.succ_le_succ ih

theorem length_fieldName_mono {m : Nat} (h : n ≤ m) : (fieldName mem a n).length ≤ (fieldName mem a m).length := by
  induction n generalizing a m with
  | zero => exact Nat.zero_le _
  | succ n ih =>
    obtain ⟨m, rfl⟩ : ∃ k, m = k + 1 := ⟨m - 1, by omega⟩
    rw [fieldName, fieldName]
    split
    · exact le_refl _
    · exact Nat.succ_le_succ (ih (by omega))

theorem length_fieldName_full (h : ∀ i < n, ¬ IsStop (mem (a + i))) : (fieldName mem a n).length = n := by
  induction n generalizing a with
  | zero => rfl
  | succ n ih =>
    have h0 : ¬ IsStop (mem a) := h 0 (by omega)
    rw [fieldName, if_neg h0, List.length_cons, ih fun i hi => ?_]
    rw [Nat.add_assoc, Nat.add_comm 1 i]
    exact h (i + 1) (by omega)

theorem fieldName_congr (h : ∀ i < n, mem' (a + i) = mem (a + i)) : fieldName mem' a n = fieldName mem a n := by
  induction n generalizing a with
  | zero => rfl
  | succ n ih =>
    have h0 : mem' a = mem a := h 0 (by omega)
    rw [fieldName, fieldName, h0, ih fun i hi => ?_]
    rw [Nat.add_assoc, Nat.add_comm 1 i]
    exact h (i + 1) (by omega)

/-- One byte more makes no difference to a field that has come to its stop, there at the latest. -/
theorem fieldName_succ (h : ∃ i < n + 1, IsStop (mem (a + i))) : fieldName mem a (n + 1) = fieldName mem a n := by
  induction n generalizing a with
  | zero =>
    obtain ⟨i, hi, hstop⟩ := h
    obtain rfl : i = 0 := by omega
    have h0 : IsStop (mem a) := hstop
    rw [fieldName.eq_2, if_pos h0, fieldName]
  | succ n ih =>
    rw [fieldName, fieldName.eq_2 mem a n]
    split
    · rfl
    · rename_i h0
      obtain ⟨i, hi, hstop⟩ := h
      cases i with
      | zero => exact absurd hstop h0
      | succ i =>
        rw [ih ⟨i, by omega, by rwa [Nat.add_assoc, Nat.add_comm 1 i]⟩]

theorem length_fieldName_lt (h : ∃ i < n, IsStop (mem (a + i))) : (fieldName mem a n).length < n := by
  obtain ⟨i, hi, hstop⟩ := h
  obtain ⟨k, rfl⟩ : ∃ k, n = k + 1 := ⟨n - 1, by omega⟩
  rw [fieldName_succ ⟨i, hi, hstop⟩]
  exact Nat.lt_succ_of_le length_fieldName_le

theorem ne_zero_of_mem_fieldName {b : Byte} (hb : b ∈ fieldName mem a n) : b ≠ 0 := by
  induction n generalizing a with
  | zero => cases hb
  | succ n ih =>
    rw [fieldName] at hb
    split at hb
    · cases hb
    · rename_i h
      rcases List.mem_cons.1 hb with rfl | hb
      · exact fun h0 => h (.inl h0)
      · exact ih hb

theorem ne_zero_of_mem_name {item m : Nat} {b : Byte} (hb : b ∈ fieldName mem (item + filenameOffset) m ++
    if IsStop (mem (item + extOffset)) then [] else 0x2E :: fieldName mem (item + extOffset) n) : b ≠ 0 := by
  rcases List.mem_append.1 hb with hb | hb
  · exact ne_zero_of_mem_fieldName hb
  · split at hb
    · cases hb
    · rcases List.mem_cons.1 hb with rfl | hb
      · decide
      · exact ne_zero_of_mem_fieldName hb

/-! ## Buffers -/

theorem cString_inj {maxLen : Nat} {str str' : List Byte} (h0 : ∀ b ∈ str, b ≠ 0) (h0' : ∀ b ∈ str', b ≠ 0)
    (h : cString maxLen str = cString maxLen str') : str = str' := by
  have htake : ∀ str : List Byte, (∀ b ∈ str, b ≠ 0) → (cString maxLen str).takeWhile (· ≠ 0) = str := by
    intro str h0
    unfold cString
    rw [List.takeWhile_append_of_pos (by simpa using h0), List.takeWhile_replicate]
    simp
  rw [← htake str h0, h, htake str' h0']

/-- The buffer after a string was copied into it, the pointer behind the string. -/
def holding (maxLen : Nat) (str : List Byte) : NameBuffer := ⟨cString maxLen str, str.length⟩

theorem length_cString {maxLen : Nat} {str : List Byte} (h : str.length ≤ maxLen) :
    (cString maxLen str).length = maxLen := by
  rw [cString, List.length_append, List.length_replicate]
  omega

theorem cString_set {maxLen : Nat} {str : List Byte} (h : str.length < maxLen) (c : Byte) :
    (cString maxLen str).set str.length c = cString maxLen (str ++ [c]) := by
  obtain ⟨k, hk⟩ : ∃ k, maxLen - str.length = k + 1 := ⟨maxLen - str.length - 1, by omega⟩
  have hk' : maxLen - (str ++ [c]).length = k := by
    rw [List.length_append, List.length_singleton]
    omega
  rw [cString, cString, hk, hk', List.replicate_succ, List.set_append_right _ _ (le_refl _), Nat.sub_self,
    List.append_assoc]
  rfl

theorem cString_concat_zero {maxLen : Nat} {str : List Byte} (h : str.length < maxLen) :
    cString maxLen (str ++ [0]) = cString maxLen str := by
  obtain ⟨k, hk⟩ : ∃ k, maxLen - str.length = k + 1 := ⟨maxLen - str.length - 1, by omega⟩
  have hk' : maxLen - (str ++ [(0 : Byte)]).length = k := by
    rw [List.length_append, List.length_singleton]
    omega
  rw [cString, cString, hk, hk', List.replicate_succ, List.append_assoc]
  rfl

theorem holding_put {maxLen : Nat} {str : List Byte} (h : str.length < maxLen) (c : Byte) :
    (holding maxLen str).put c = .ok ⟨cString maxLen (str ++ [c]), str.length⟩ := by
  unfold NameBuffer.put holding
  rw [if_pos (by rwa [length_cString (Nat.le_of_lt h)]), cString_set h]

theorem advance_holding {maxLen : Nat} (str : List Byte) (c : Byte) :
    NameBuffer.advance ⟨cString maxLen (str ++ [c]), str.length⟩ = holding maxLen (str ++ [c]) := by
  unfold NameBuffer.advance holding
  rw [List.length_append, List.length_singleton]

/-- A copy that comes to a space or NUL within `n` bytes, with room for them. -/
theorem fat16ToProperString_holding {maxLen : Nat} {str : List Byte} (hstop : ∃ i < n, IsStop (mem (a + i)))
    (hroom : str.length + n ≤ maxLen) :
    fat16ToProperString mem (holding maxLen str) a = .ok (holding maxLen (str ++ fieldName mem a n)) := by
  induction n generalizing a str with
  | zero =>
    obtain ⟨i, hi, -⟩ := hstop
    omega
  | succ n ih =>
    rw [fat16ToProperString, fieldName]
    by_cases h0 : IsStop (mem a)
    · rw [if_pos h0, List.append_nil, if_neg (by rcases h0 with h0 | h0 <;> simp [h0])]
      split
      · rw [holding_put (by omega), cString_concat_zero (by omega)]
        rfl
      · rfl
    · have hgo : mem a ≠ 0x00 ∧ mem a ≠ 0x20 := not_or.1 h0
      obtain ⟨i, hi, hi'⟩ := hstop
      obtain ⟨j, rfl⟩ : ∃ j, i = j + 1 := ⟨i - 1, by
        have : i ≠ 0 := fun h => h0 (by rwa [h] at hi')
        omega⟩
      have hlen : (holding maxLen str).pos < (holding maxLen str).chars.length := by
        show str.length < (cString maxLen str).length
        rw [length_cString (by omega)]
        omega
      have hnext : (⟨(holding maxLen str).chars.set (holding maxLen str).pos (mem a),
        (holding maxLen str).pos + 1⟩ : NameBuffer) =
          holding maxLen (str ++ [mem a]) := by
        rw [← advance_holding, ← cString_set (by omega)]
        rfl
      rw [if_pos hgo, if_pos hlen, hnext, if_neg h0, List.append_cons str (mem a) (fieldName mem (a + 1) n)]
      refine ih ⟨j, by omega, by rwa [Nat.add_assoc, Nat.add_comm 1 j]⟩ ?_
      rw [List.length_append, List.length_singleton]
      omega

/-- The name of an item whose two fields come to a space or NUL within `m` and `n` bytes. -/
theorem fat16GetRelativePathName_holding {maxLen item m : Nat} (hname : ∃ i < m, IsStop (mem (item + i)))
    (hext : ∃ i < n, IsStop (mem (item + 8 + i))) (hroom : m + n ≤ maxLen) :
    fat16GetRelativePathName mem item maxLen = .ok (cString maxLen (fieldName mem (item + filenameOffset) m ++
      if IsStop (mem (item + extOffset)) then [] else 0x2E :: fieldName mem (item + extOffset) n)) := by
  have hclear : (⟨List.replicate maxLen 0, 0⟩ : NameBuffer) = holding maxLen [] := rfl
  have hcopy : fat16ToProperString mem (holding maxLen []) (item + filenameOffset) =
      .ok (holding maxLen (fieldName mem (item + filenameOffset) m)) :=
    fat16ToProperString_holding hname (by rw [List.length_nil]; omega)
  have hlen : (fieldName mem (item + filenameOffset) m).length < m := length_fieldName_lt hname
  unfold fat16GetRelativePathName
  simp only
  rw [hclear, hcopy]
  simp only [bind, Except.bind]
  by_cases h0 : IsStop (mem (item + extOffset))
  · rw [if_neg (by rcases h0 with h0 | h0 <;> simp [h0]), if_pos h0, List.append_nil]
    rfl
  · have hgo : mem (item + extOffset) ≠ 0x00 ∧ mem (item + extOffset) ≠ 0x20 := not_or.1 h0
    have hdot := holding_put (show (fieldName mem (item + filenameOffset) m).length < maxLen by omega) 0x2E
    have hcopyExt : fat16ToProperString mem (holding maxLen (fieldName mem (item + filenameOffset) m ++ [0x2E]))
      (item + extOffset) =
        .ok (holding maxLen (fieldName mem (item + filenameOffset) m ++ [0x2E] ++
          fieldName mem (item + extOffset) n)) :=
      fat16ToProperString_holding hext (by rw [List.length_append, List.length_singleton]; omega)
    rw [if_pos hgo, if_neg h0, hdot]
    simp only
    rw [advance_holding, hcopyExt, List.append_cons _ 0x2E (fieldName mem (item + extOffset) n)]
    rfl

end

/-! ## The decoded name -/

/-- The memory with the 11 bytes of a name, and after them a letter and then NULs. -/
def runOn (mem : Mem) (item : Nat) : Mem := fun x =>
  if x < item + 11 then mem x else if x = item + 11 then 0x41 else 0x00

theorem runOn_name (mem : Mem) (item : Nat) {i : Nat} (hi : i < 11) : runOn mem item (item + i) = mem (item + i) := by
  unfold runOn
  rw [if_pos (by omega)]

/-- The name is decoded, whatever follows it, exactly when a space or NUL is among the 8 bytes of `filename`
and the one after them, and one among the 3 of `ext`. -/
theorem nameDecodes_iff (mem : Mem) (item : Nat) :
    NameDecodes mem item ↔ (∃ i < 9, IsStop (mem (item + i))) ∧ ∃ i < 3, IsStop (mem (item + 8 + i)) := by
  constructor
  · intro h
    by_contra hcond
    have hname : ∃ i < 13, IsStop (runOn mem item (item + i)) :=
      ⟨12, by decide, .inl (by unfold runOn; rw [if_neg (by omega), if_neg (by omega)])⟩
    have hext : ∃ i < 5, IsStop (runOn mem item (item + 8 + i)) :=
      ⟨4, by decide, .inl (by unfold runOn; rw [if_neg (by omega), if_neg (by omega)])⟩
    have hrun := fat16GetRelativePathName_holding hname hext (show 13 + 5 ≤ 18 by decide)
    rw [h (runOn mem item) (fun i hi => runOn_name mem item hi) 18 (by decide)] at hrun
    injection hrun with hrun
    have hlen := congrArg List.length (cString_inj (fun _ => ne_zero_of_mem_name) (fun _ => ne_zero_of_mem_name) hrun)
    -- with no space or NUL the name is longer than what its fields hold
    by_cases hstop : IsStop (mem (item + 8))
    · exact hcond ⟨⟨8, by decide, hstop⟩, 0, by decide, hstop⟩
    have hstop' : ¬ IsStop (runOn mem item (item + 8)) := by rwa [runOn_name mem item (by decide)]
    rw [show item + extOffset = item + 8 from rfl, show item + filenameOffset = item from rfl, if_neg hstop,
      if_neg hstop', List.length_append, List.length_append, List.length_cons, List.length_cons] at hlen
    have hname8 : fieldName (runOn mem item) item 8 = fieldName mem item 8 :=
      fieldName_congr fun i hi => runOn_name mem item (by omega)
    have hext3 : fieldName (runOn mem item) (item + 8) 3 = fieldName mem (item + 8) 3 := fieldName_congr fun i hi => by
      rw [Nat.add_assoc]
      exact runOn_name mem item (by omega)
    have h1 : (fieldName (runOn mem item) item 8).length ≤ (fieldName (runOn mem item) item 13).length :=
      length_fieldName_mono (by decide)
    rw [hname8] at h1
    have h2 : (fieldName (runOn mem item) (item + 8) 3).length ≤ (fieldName (runOn mem item) (item + 8) 5).length :=
      length_fieldName_mono (by decide)
    rw [hext3] at h2
    rcases not_and_or.1 hcond with hfull | hfull
    · -- the name runs on into the extension
      have hfull' : (fieldName (runOn mem item) item 9).length = 9 := length_fieldName_full fun i hi hi' =>
        hfull ⟨i, hi, by rwa [← runOn_name mem item (show i < 11 by omega)]⟩
      have h3 : (fieldName (runOn mem item) item 9).length ≤ (fieldName (runOn mem item) item 13).length :=
        length_fieldName_mono (by decide)
      have h4 : (fieldName mem item 8).length ≤ 8 := length_fieldName_le
      omega
    · -- the extension runs on into the letter after it
      have hfull' : (fieldName (runOn mem item) (item + 8) 4).length = 4 := length_fieldName_full fun i hi hi' => by
        rw [Nat.add_assoc] at hi'
        by_cases h3 : i < 3
        · rw [runOn_name mem item (by omega), ← Nat.add_assoc] at hi'
          exact hfull ⟨i, h3, hi'⟩
        · obtain rfl : i = 3 := by omega
          unfold runOn at hi'
          rw [if_neg (by omega), if_pos (by omega)] at hi'
          exact absurd hi' (by decide)
      have h3 : (fieldName (runOn mem item) (item + 8) 4).length ≤ (fieldName (runOn mem item) (item + 8) 5).length :=
        length_fieldName_mono (by decide)
      have h4 : (fieldName mem (item + 8) 3).length ≤ 3 := length_fieldName_le
      omega
  · rintro ⟨hname, hext⟩ mem' hmem maxLen hlen
    have hname' : ∃ i < 9, IsStop (mem' (item + i)) := by
      obtain ⟨i, hi, hstop⟩ := hname
      exact ⟨i, hi, by rwa [hmem i (by omega)]⟩
    have hext' : ∃ i < 3, IsStop (mem' (item + 8 + i)) := by
      obtain ⟨i, hi, hstop⟩ := hext
      exact ⟨i, hi, by rwa [Nat.add_assoc, hmem (8 + i) (by omega), ← Nat.add_assoc]⟩
    have hnine : fieldName mem' item 9 = fieldName mem item 8 := by
      rw [fieldName_succ hname', fieldName_congr fun i hi => hmem i (by omega)]
    have hthree : fieldName mem' (item + 8) 3 = fieldName mem (item + 8) 3 := fieldName_congr fun i hi => by
      rw [Nat.add_assoc]
      exact hmem (8 + i) (by omega)
    have hfirst : mem' (item + extOffset) = mem (item + extOffset) := hmem 8 (by decide)
    rw [fat16GetRelativePathName_holding hname' hext' (by omega), hfirst]
    unfold name83
    rw [show item + extOffset = item + 8 from rfl, show item + filenameOffset = item from rfl, hnine, hthree]

/-- The item of a file with eight letters and three, its attribute a space. -/
def longName : Mem := fun x => if x < 11 then 0x41 else if x = 11 then 0x20 else 0x00

/-- The extension is in the name twice. -/
theorem longName_runs_on : longName 0 ≠ 0 ∧ ¬ NameDecodes longName 0 := by
  refine ⟨by decide, fun h => ?_⟩
  have hname : ∃ i < 12, IsStop (longName (0 + i)) := ⟨11, by decide, by decide⟩
  have hext : ∃ i < 4, IsStop (longName (0 + 8 + i)) := ⟨3, by decide, by decide⟩
  have hrun := fat16GetRelativePathName_holding hname hext (show 12 + 4 ≤ 108 by decide)
  rw [h longName (fun _ _ => rfl) 108 (by decide)] at hrun
  injection hrun with hrun
  have heq := cString_inj (fun _ => ne_zero_of_mem_name) (fun _ => ne_zero_of_mem_name) hrun
  exact absurd heq (by decide)

end SimpleMicrokernel.Fs
