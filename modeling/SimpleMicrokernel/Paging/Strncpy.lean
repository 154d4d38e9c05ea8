/-
What `strncpy` stores when it runs through a page directory: the string up to its NUL, at most one character
less than the room there is, and a NUL. The bytes stored to may be none of those read, and none of those the
translation goes through.
-/
import SimpleMicrokernel.Paging.Access

namespace SimpleMicrokernel.Paging

open Memory

/-! ## Strings -/

/-- The longest prefix without a NUL of the `n` characters from index `i` on. -/
def cString (c : Nat → Byte) (i n : Nat) : List Byte := ((List.range' i n).map c).takeWhile (· ≠ 0)

section
variable {c c' : Nat → Byte} {i n : Nat}

theorem cString_succ (c : Nat → Byte) (i n : Nat) :
    cString c i (n + 1) = if c i = 0 then [] else c i :: cString c (i + 1) n := by
  unfold cString
  rw [List.range'_succ, List.map_cons, List.takeWhile_cons]
  by_cases h : c i = 0
  · simp [h]
  · simp

theorem length_cString (c : Nat → Byte) (n : Nat) : ∀ i, (cString c i n).length ≤ n := by
  induction n with
  | zero => exact fun i => Nat.le_refl 0
  | succ n ih =>
    intro i
    rw [cString_succ]
    split
    · exact Nat.zero_le _
    · exact Nat.succ_le_succ (ih (i + 1))

theorem cString_congr (h : ∀ j, i ≤ j → j < i + n → c' j = c j) : cString c' i n = cString c i n := by
  unfold cString
  rw [List.map_congr_left fun j hj => ?_]
  obtain ⟨h1, h2⟩ := List.mem_range'_1.1 hj
  exact h j h1 h2

/-- A string read back from where it was stored with its NUL. -/
theorem cString_stored (n : Nat) : ∀ {i : Nat}, (∀ j b, (cString c i n ++ [0])[j]? = some b → c' (i + j) = b) →
    cString c' i n = cString c i n := by
  induction n with
  | zero => exact fun _ => rfl
  | succ n ih =>
    intro i h
    rw [cString_succ] at h ⊢
    have h0 := h 0
    by_cases hc : c i = 0
    · rw [if_pos hc] at h0
      have hnul : c' i = 0 := h0 0 rfl
      rw [cString_succ, if_pos hnul, if_pos hc]
    · rw [if_neg hc] at h h0
      have hfirst : c' i = c i := h0 (c i) rfl
      have hrest : cString c' (i + 1) n = cString c (i + 1) n := by
        refine ih fun j b hj => ?_
        rw [Nat.add_assoc, Nat.add_comm 1 j]
        exact h (j + 1) b hj
      rw [cString_succ, if_neg (hfirst ▸ hc), if_neg hc, hfirst, hrest]

theorem strncpyFrom_eq (mem : Mem) (src n : Nat) :
    ∀ i, strncpyFrom mem (src + i) n = cString (fun j => mem (src + j)) i n ++ [0] := by
  induction n with
  | zero => exact fun i => rfl
  | succ n ih =>
    intro i
    rw [strncpyFrom, cString_succ]
    split
    · rfl
    · exact congrArg (mem (src + i) :: ·) (ih (i + 1))

end

/-! ## The copy -/

/-- The two memories differ at most in the `count` bytes at `out`. -/
def SameOutside (out count : Nat) (m m' : Mem) : Prop := ∀ x, x < out ∨ out + count ≤ x → m' x = m x

/-- The directory takes the addresses from `virt` on to these bytes, whatever is in the `count` bytes at `out`. -/
def Sees (mem : Mem) (directory out count virt n : Nat) (addr : Nat → Nat) : Prop :=
  ∀ m, SameOutside out count mem m → ∀ i < n, translate m directory supervisor ((virt + i) % 2 ^ 32) = some (addr i)

section
variable {mem m : Mem} {directory dest src out count : Nat} {addr : Nat → Nat}

theorem SameOutside.store (h : SameOutside out count mem m) {i : Nat} (hi : i < count) (c : Byte) :
    SameOutside out count mem (Function.update m (out + i) c) := by
  intro x hx
  rw [Function.update_of_ne (by omega)]
  exact h x hx

theorem strncpyLoop_store (hdest : Sees mem directory out count dest count (out + ·))
    (hsrc : Sees mem directory out count src (count - 1) addr)
    (hout : ∀ i < count - 1, addr i < out ∨ out + count ≤ addr i) (n : Nat) : ∀ {i : Nat} {m : Mem}, i + n < count →
    SameOutside out count mem m →
    strncpyLoop directory dest src n i m = .ok (store m (out + i) (cString (fun j => mem (addr j)) i n ++ [0])) := by
  have hput : ∀ {i : Nat} {m : Mem} (c : Byte), i < count → SameOutside out count mem m →
      storeByte m directory supervisor ((dest + i) % 2 ^ 32) c = .ok (Function.update m (out + i) c) := by
    intro i m c hi hsame
    unfold storeByte
    rw [hdest m hsame i hi]
  induction n with
  | zero => exact fun {i m} hi hsame => hput 0 hi hsame
  | succ n ih =>
    intro i m hi hsame
    have hload : load m directory supervisor ((src + i) % 2 ^ 32) = .ok (mem (addr i)) := by
      unfold load
      rw [hsrc m hsame i (by omega)]
      exact congrArg Except.ok (hsame _ (hout i (by omega)))
    rw [strncpyLoop, hload, cString_succ]
    by_cases h0 : mem (addr i) = 0
    · simp only [bind, Except.bind, if_pos h0]
      exact hput 0 (by omega) hsame
    · have hput' := hput (mem (addr i)) (show i < count by omega) hsame
      simp only [bind, Except.bind, if_neg h0, hput']
      exact ih (by omega) (hsame.store (by omega) _)

theorem strncpy_store (hdest : Sees mem directory out count dest count (out + ·))
    (hsrc : Sees mem directory out count src (count - 1) addr)
    (hout : ∀ i < count - 1, addr i < out ∨ out + count ≤ addr i) (h1 : 1 ≤ count) :
    strncpy mem directory dest src count = .ok (store mem out (cString (fun j => mem (addr j)) 0 (count - 1) ++ [0])) :=
  strncpyLoop_store hdest hsrc hout (count - 1) (by omega) fun _ _ => rfl

end

end SimpleMicrokernel.Paging
