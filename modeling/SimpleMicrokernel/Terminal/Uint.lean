/-
Printing a number. The loop takes the digits off from the last one on, and the second loop turns them around,
so the string is the decimal numeral. Zero has a string of its own, printed before the loops, which then print
an empty one.
-/
import SimpleMicrokernel.Terminal.Bounds

namespace SimpleMicrokernel.Printing

open Memory Fs

/-- The decimal numeral, without leading zeros. -/
def numeral (n : Nat) : List Byte := (Nat.toDigits 10 n).map fun c => BitVec.ofNat 8 c.toNat

/-- The character of a digit. -/
def digitChar (d : Nat) : Byte := BitVec.ofNat 8 (48 + d)

theorem digitChar_spec : ∀ d < 10, loadAt digits d = .ok (digitChar d) ∧
    BitVec.ofNat 8 d.digitChar.toNat = digitChar d ∧ digitChar d ≠ 0 := by
  decide

/-- The last digit is the remainder. -/
theorem numeral_last (n : Nat) : numeral n = (if n < 10 then [] else numeral (n / 10)) ++ [digitChar (n % 10)] := by
  unfold numeral
  rw [Nat.toDigits_eq_if (by decide)]
  split
  · rename_i hlt
    rw [Nat.mod_eq_of_lt hlt, ← (digitChar_spec n hlt).2.1]
    rfl
  · rw [List.map_append, ← (digitChar_spec (n % 10) (Nat.mod_lt n (by decide))).2.1]
    rfl

theorem zero_not_mem_numeral : ∀ (n : Nat), 0 ∉ numeral n
  | n, h => by
    rw [numeral_last, List.mem_append, List.mem_singleton] at h
    rcases h with h | h
    · split at h
      · cases h
      · exact zero_not_mem_numeral (n / 10) h
    · exact (digitChar_spec (n % 10) (Nat.mod_lt n (by decide))).2.2 h.symm
termination_by n => n
decreasing_by omega

theorem length_numeral_le {n : Nat} (h : n < 2 ^ 32) : (numeral n).length ≤ 10 := by
  unfold numeral
  rw [List.length_map, Nat.length_toDigits_le_iff (by decide) (by decide)]
  omega

/-- The digits in the order the loop stores them. -/
def lastFirst (n : Nat) : List Byte := if n = 0 then [] else (numeral n).reverse

theorem lastFirst_eq {n : Nat} (h : n ≠ 0) : lastFirst n = digitChar (n % 10) :: lastFirst (n / 10) := by
  unfold lastFirst
  rw [if_neg h, numeral_last, List.reverse_append, List.reverse_singleton, List.singleton_append]
  by_cases hlt : n < 10
  · rw [if_pos hlt, if_pos (by omega), List.reverse_nil]
  · rw [if_neg hlt, if_neg (by omega)]

/-! ## The buffer -/

theorem loadAt_append (u v : List Byte) (c : Byte) : loadAt (u ++ c :: v) u.length = .ok c := by
  unfold loadAt
  rw [List.getElem?_append_right (Nat.le_refl _), Nat.sub_self, List.getElem?_cons_zero]

theorem putAt_append (u v : List Byte) (c d : Byte) : putAt (u ++ c :: v) u.length d = .ok (u ++ d :: v) := by
  unfold putAt
  rw [if_pos (by rw [List.length_append, List.length_cons]; omega), List.set_append_right _ _ (Nat.le_refl _),
    Nat.sub_self, List.set_cons_zero]

theorem exists_cons {u v : List Byte} {n : Nat} (h : (u ++ v).length = n) (hlt : u.length < n) : ∃ c w, v = c :: w := by
  rw [List.length_append] at h
  exact List.exists_cons_of_length_pos (by omega)

/-- The digits are stored one after another. -/
theorem digitLoop_apply : ∀ (n : Nat) {u v : List Byte}, u.length + (lastFirst n).length ≤ (u ++ v).length →
    ∃ w, digitLoop (u ++ v) n u.length = .ok (u ++ lastFirst n ++ w, u.length + (lastFirst n).length) ∧
      (u ++ lastFirst n ++ w).length = (u ++ v).length
  | n, u, v, hlen => by
    by_cases hn : n = 0
    · subst hn
      refine ⟨v, ?_, by rw [lastFirst, if_pos rfl, List.append_nil]⟩
      rw [digitLoop, if_neg (by decide), lastFirst, if_pos rfl, List.append_nil]
      rfl
    · rw [lastFirst_eq hn, List.length_cons] at hlen
      obtain ⟨c, v, rfl⟩ := exists_cons (n := (u ++ v).length) rfl (by omega)
      have hstep : digitLoop (u ++ c :: v) n u.length =
          digitLoop ((u ++ [digitChar (n % 10)]) ++ v) (n / 10) (u ++ [digitChar (n % 10)]).length := by
        rw [digitLoop, if_pos hn, (digitChar_spec (n % 10) (Nat.mod_lt n (by decide))).1]
        show (putAt (u ++ c :: v) u.length (digitChar (n % 10)) >>= fun a => digitLoop a (n / 10) (u.length + 1)) = _
        rw [putAt_append, List.append_assoc, List.length_append]
        rfl
      have hcons : (u ++ [digitChar (n % 10)]) ++ lastFirst (n / 10) = u ++ lastFirst n := by
        rw [lastFirst_eq hn, List.append_assoc, List.singleton_append]
      have hsame : ((u ++ [digitChar (n % 10)]) ++ v).length = (u ++ c :: v).length := by
        simp only [List.length_append, List.length_cons, List.length_nil]
        omega
      obtain ⟨w, e, hw⟩ := digitLoop_apply (n / 10) (u := u ++ [digitChar (n % 10)]) (v := v)
        (by rw [hsame, List.length_append, List.length_singleton]; omega)
      refine ⟨w, ?_, by rw [← hcons, hw, hsame]⟩
      rw [hstep, e, hcons, lastFirst_eq hn]
      simp only [List.length_append, List.length_cons, List.length_nil, Except.ok.injEq, Prod.mk.injEq, true_and]
      omega
termination_by n => n
decreasing_by omega

theorem reverseLoop_apply : ∀ (n : Nat) {u m v : List Byte}, m.length = n →
    reverseLoop (u ++ m ++ v) u.length ((u.length : Int) + m.length - 1) = .ok (u ++ m.reverse ++ v)
  | 0, u, m, v, hn => by
    rw [List.eq_nil_of_length_eq_zero hn, reverseLoop, if_neg (by rw [List.length_nil]; omega)]
    rfl
  | 1, u, m, v, hn => by
    obtain ⟨c, rfl⟩ := List.length_eq_one_iff.1 hn
    rw [reverseLoop, if_neg (by rw [List.length_singleton]; omega)]
    rfl
  | n + 2, u, m, v, hn => by
    obtain ⟨x, m', rfl⟩ := List.exists_cons_of_length_pos (show 0 < m.length by omega)
    obtain ⟨m, y, rfl⟩ := (List.eq_nil_or_concat m').resolve_left fun h => by rw [h] at hn; cases hn
    rw [List.concat_eq_append] at hn ⊢
    have hm : m.length = n := by
      rw [List.length_cons, List.length_append, List.length_singleton] at hn
      omega
    have hend : ((u.length : Int) + (x :: (m ++ [y])).length - 1).toNat = (u ++ x :: m).length := by
      simp only [List.length_append, List.length_cons, List.length_nil]
      omega
    have hlist (x y : Byte) : u ++ x :: (m ++ [y]) ++ v = (u ++ x :: m) ++ y :: v := by
      simp only [List.append_assoc, List.cons_append, List.nil_append]
    have hfront (x y : Byte) : (u ++ x :: m) ++ y :: v = u ++ x :: (m ++ y :: v) := by
      simp only [List.append_assoc, List.cons_append]
    have hlen (c d : Byte) : (u ++ c :: m).length = (u ++ d :: m).length := by
      rw [List.length_append, List.length_append, List.length_cons, List.length_cons]
    -- the two ends are exchanged
    have hstep : reverseLoop (u ++ x :: (m ++ [y]) ++ v) u.length ((u.length : Int) + (x :: (m ++ [y])).length - 1) =
        reverseLoop ((u ++ [y]) ++ m ++ x :: v) (u ++ [y]).length (((u ++ [y]).length : Int) + m.length - 1) := by
      rw [reverseLoop, if_pos (by simp only [List.length_cons, List.length_append, List.length_nil]; omega), hend,
        hlist, loadAt_append, hfront x y, loadAt_append]
      show (putAt (u ++ x :: (m ++ y :: v)) u.length y >>= fun a => _) = _
      rw [putAt_append, ← hfront y y, hlen x y]
      show (putAt ((u ++ y :: m) ++ y :: v) (u ++ y :: m).length x >>= fun a => _) = _
      rw [putAt_append]
      show reverseLoop _ _ _ = _
      congr 1
      · simp only [List.append_assoc, List.cons_append, List.nil_append]
      · rw [List.length_append, List.length_singleton]
      · simp only [List.length_cons, List.length_append, List.length_nil]
        omega
    rw [hstep, reverseLoop_apply n hm]
    simp only [List.reverse_cons, List.reverse_append, List.reverse_nil, List.append_assoc, List.cons_append,
      List.nil_append]

/-! ## The number -/

section
variable {t : Terminal}

theorem kernelStrLenght_of_not_mem : ∀ {str : List Byte}, 0 ∉ str → kernelStrLenght str = BitVec.ofNat 32 str.length
  | [], _ => rfl
  | c :: cs, h => by
    rw [List.mem_cons, not_or] at h
    rw [kernelStrLenght, if_neg (Ne.symm h.1), kernelStrLenght_of_not_mem h.2, List.length_cons, BitVec.ofNat_add]
    rfl

theorem charAt_append {u v : List Byte} {i : Nat} (h : i < u.length) : charAt (u ++ v) i = charAt u i := by
  unfold charAt
  rw [List.getElem?_append_left h]

theorem kernelPrint_numeral (n : BitVec 32) (v : List Byte) (t : Terminal) :
    kernelPrint (numeral n.toNat) t =
      kernelPrintString (charAt (numeral n.toNat ++ v)) (BitVec.ofNat 32 (numeral n.toNat).length) t := by
  have hlen := length_numeral_le n.isLt
  unfold kernelPrint
  rw [kernelStrLenght_of_not_mem (zero_not_mem_numeral _), kernelPrintString_apply, kernelPrintString_apply,
    BitVec.toNat_ofNat, Nat.mod_eq_of_lt (by omega), printAll_congr fun i hi => (charAt_append (v := v) hi).symm]

/-- The two loops leave the numeral at the beginning of the buffer. -/
theorem kernelPrintUint_of_ne {n : BitVec 32} (a : Fin sizeofDigits → Byte) (h : n ≠ 0) (t : Terminal) :
    kernelPrintUint a n t = kernelPrint (numeral n.toNat) t := by
  have hn : n.toNat ≠ 0 := fun h0 => h (BitVec.eq_of_toNat_eq h0)
  have hlast : lastFirst n.toNat = (numeral n.toNat).reverse := if_neg hn
  have hlen := length_numeral_le n.isLt
  obtain ⟨w, e1, hw⟩ := digitLoop_apply n.toNat (u := []) (v := List.ofFn a)
    (by rw [hlast, List.length_reverse, List.length_nil, List.nil_append, List.length_ofFn]; unfold sizeofDigits; omega)
  rw [hlast, List.nil_append, List.nil_append, List.length_nil, Nat.zero_add, List.length_reverse] at e1
  rw [hlast, List.nil_append, List.nil_append, List.length_append, List.length_reverse, List.length_ofFn] at hw
  obtain ⟨c, w, rfl⟩ := List.exists_cons_of_length_pos (show 0 < w.length by unfold sizeofDigits at hw; omega)
  have e2 : putAt ((numeral n.toNat).reverse ++ c :: w) (numeral n.toNat).length 0 =
    .ok ((numeral n.toNat).reverse ++ 0 :: w) := by
    have hput := putAt_append (numeral n.toNat).reverse w c 0
    rwa [List.length_reverse] at hput
  have e3 : reverseLoop ((numeral n.toNat).reverse ++ 0 :: w) 0 (((numeral n.toNat).length : Int) - 1) =
    .ok (numeral n.toNat ++ 0 :: w) := by
    have hreverse := reverseLoop_apply _ (u := []) (m := (numeral n.toNat).reverse) (v := 0 :: w) rfl
    rwa [List.reverse_reverse, List.length_reverse, List.length_nil, List.nil_append, List.nil_append, Int.natCast_zero,
      Int.zero_add] at hreverse
  unfold kernelPrintUint
  rw [if_neg h, e1, kernelPrint_numeral n (0 :: w) t]
  show (do
    let a ← liftM (putAt ((numeral n.toNat).reverse ++ c :: w) (numeral n.toNat).length 0)
    let a ← liftM (reverseLoop a 0 (((numeral n.toNat).length : Int) - 1))
    kernelPrintString (charAt a) (BitVec.ofNat 32 (numeral n.toNat).length) : TermM Unit) t = _
  rw [e2]
  show (do
    let a ← liftM (reverseLoop ((numeral n.toNat).reverse ++ 0 :: w) 0 (((numeral n.toNat).length : Int) - 1))
    kernelPrintString (charAt a) (BitVec.ofNat 32 (numeral n.toNat).length) : TermM Unit) t = _
  rw [e3]
  rfl

/-- For zero a line with `0` is printed, and then an empty one. -/
theorem kernelPrintUint_zero (a : Fin sizeofDigits → Byte) (t : Terminal) :
    kernelPrintUint a 0 t = .ok ((), (t.print 0x30).newLine.newLine) := by
  obtain ⟨c, w, hofFn⟩ := List.exists_cons_of_length_pos
    (show 0 < (List.ofFn a).length by rw [List.length_ofFn]; decide)
  have e1 : digitLoop (List.ofFn a) (0 : BitVec 32).toNat 0 = .ok (c :: w, 0) := by
    rw [hofFn, digitLoop, if_neg (by decide)]
  have e2 : putAt (c :: w) 0 0 = .ok (0 :: w) := putAt_append [] w c 0
  have e3 : reverseLoop (0 :: w) 0 (((0 : Nat) : Int) - 1) = .ok (0 :: w) := by
    rw [reverseLoop, if_neg (by decide)]
  unfold kernelPrintUint
  rw [if_pos rfl, Exec.bind_of_ok (kernelPrintString_apply _ 1 t), e1]
  show (do
    let a ← liftM (putAt (c :: w) 0 0)
    let a ← liftM (reverseLoop a 0 (((0 : Nat) : Int) - 1))
    kernelPrintString (charAt a) (BitVec.ofNat 32 0) : TermM Unit) _ = _
  rw [e2]
  show (do
    let a ← liftM (reverseLoop (0 :: w) 0 (((0 : Nat) : Int) - 1))
    kernelPrintString (charAt a) (BitVec.ofNat 32 0) : TermM Unit) _ = _
  rw [e3]
  show kernelPrintString (charAt (0 :: w)) 0 (t.print 0x30).newLine = _
  rw [kernelPrintString_apply]
  rfl

theorem kernelPrint_zero (t : Terminal) : kernelPrint (numeral 0) t = .ok ((), (t.print 0x30).newLine) := by
  have hzero : numeral 0 = [0x30] := rfl
  rw [hzero, kernelPrint, kernelPrintString_apply]
  rfl

theorem newLine_newLine_ne (t : Terminal) : t.newLine.newLine ≠ t.newLine := by
  intro h
  have hrow : t.terminalRow + 1 + 1 = t.terminalRow + 1 := congrArg Terminal.terminalRow h
  bv_omega

/-- A number is printed as its numeral is, and within the buffer, exactly when it is not zero. -/
theorem kernelPrintUint_iff (a : Fin sizeofDigits → Byte) (n : BitVec 32) (t : Terminal) :
    kernelPrintUint a n t = kernelPrint (numeral n.toNat) t ∧ kernelPrintUint a n t ≠ .error .outOfBounds ↔ n ≠ 0 := by
  constructor
  · rintro ⟨h, -⟩ rfl
    rw [kernelPrintUint_zero, show (0 : BitVec 32).toNat = 0 from rfl, kernelPrint_zero, Except.ok.injEq,
      Prod.mk.injEq] at h
    exact newLine_newLine_ne _ h.2
  · intro h
    refine ⟨kernelPrintUint_of_ne a h t, ?_⟩
    rw [kernelPrintUint_of_ne a h t, kernelPrint, kernelPrintString_apply]
    exact Exec.ok_ne _

/-- Zero takes two lines. -/
theorem kernelPrintUint_two_lines : ¬ ∀ (a : Fin sizeofDigits → Byte) (n : BitVec 32) (t : Terminal),
    kernelPrintUint a n t = kernelPrint (numeral n.toNat) t ∧ kernelPrintUint a n t ≠ .error .outOfBounds := by
  intro h
  have hzero := (h (fun _ => 0) 0 .cleared).1
  rw [kernelPrintUint_zero, show (0 : BitVec 32).toNat = 0 from rfl, kernelPrint_zero, Except.ok.injEq,
    Prod.mk.injEq] at hzero
  exact newLine_newLine_ne _ hzero.2

end

/-! ## Any prints -/

/-- A call of one of the print functions, with what it is given. -/
inductive PrintCall where
  | terminalPrintChar (a : Byte)
  | print (str : List Byte)
  | printString (str : Nat → Byte) (len : BitVec 32)
  | printUint (a : Fin sizeofDigits → Byte) (toPrint : BitVec 32)
  | printCharHex (hex : Byte)
  | printStrHex (buffer : Nat → Byte) (length : BitVec 32)

def PrintCall.run : PrintCall → TermM Unit
  | .terminalPrintChar a => kernelTerminalPrintChar a
  | .print str => kernelPrint str
  | .printString str len => kernelPrintString str len
  | .printUint a toPrint => kernelPrintUint a toPrint
  | .printCharHex hex => kernelPrintCharHex hex
  | .printStrHex buffer length => kernelPrintStrHex buffer length

theorem strHexLoop_returns (buffer : Nat → Byte) (t : Terminal) : ∀ n, ∃ t', strHexLoop buffer n t = .ok ((), t')
  | 0 => ⟨t, rfl⟩
  | i + 1 => by
    obtain ⟨t', e⟩ := strHexLoop_returns buffer t i
    refine ⟨t'.printHex (buffer i), ?_⟩
    rw [strHexLoop, Exec.bind_of_ok e, kernelPrintCharHex_apply]

theorem PrintCall.run_returns (call : PrintCall) (t : Terminal) : ∃ t', call.run t = .ok ((), t') := by
  cases call with
  | terminalPrintChar a => exact ⟨_, kernelTerminalPrintChar_apply a t⟩
  | print str => exact ⟨_, kernelPrintString_apply _ _ t⟩
  | printString str len => exact ⟨_, kernelPrintString_apply str len t⟩
  | printUint a toPrint =>
    by_cases h : toPrint = 0
    · subst h
      exact ⟨_, kernelPrintUint_zero a t⟩
    · exact ⟨_, (kernelPrintUint_of_ne a h t).trans (kernelPrintString_apply _ _ t)⟩
  | printCharHex hex => exact ⟨_, kernelPrintCharHex_apply hex t⟩
  | printStrHex buffer length => exact strHexLoop_returns buffer t length.toNat

theorem calls_return : ∀ (calls : List PrintCall) (t : Terminal),
    ∃ t', (calls.forM PrintCall.run : TermM Unit) t = .ok ((), t')
  | [], t => ⟨t, rfl⟩
  | call :: calls, t => by
    obtain ⟨t1, e1⟩ := call.run_returns t
    obtain ⟨t2, e2⟩ := calls_return calls t1
    exact ⟨t2, (Exec.bind_of_ok e1).trans e2⟩

/-- After `terminal_init` no sequence of prints stores outside of the screen, or stops for another reason. -/
theorem prints_inside (t : Terminal) (calls : List PrintCall) :
    ∃ t', (do terminalInit; calls.forM PrintCall.run : TermM Unit) t = .ok ((), t') := by
  obtain ⟨t', e⟩ := calls_return calls .cleared
  exact ⟨t', (Exec.bind_of_ok (terminalInit_apply t)).trans e⟩

end SimpleMicrokernel.Printing
