/-
`memory.c`: byte memory and the fill over it. Memory is a function from addresses to bytes; the fill is
the C loop, one byte at a time.
-/
import Mathlib.Data.BitVec
import Mathlib.Logic.Function.Basic

namespace SimpleMicrokernel.Memory

/-- One byte of memory or disk. -/
abbrev Byte := BitVec 8

/-- Physical memory. -/
abbrev Mem := Nat → Byte

/-- `memset`: the loop `for (i = 0; i < size; i++) c_ptr[i] = c`. -/
def memset (m : Mem) (ptr : Nat) (c : Byte) : Nat → Mem
  | 0 => m
  | i + 1 => Function.update (memset m ptr c i) (ptr + i) c

theorem memset_apply (m : Mem) (ptr : Nat) (c : Byte) (size a : Nat) :
    memset m ptr c size a = if ptr ≤ a ∧ a < ptr + size then c else m a := by
  induction size with
  | zero => rw [memset, if_neg (by omega)]
  | succ n ih =>
    rw [memset, Function.update_apply, ih]
    by_cases ha : a = ptr + n
    · rw [if_pos ha, if_pos (by omega)]
    · rw [if_neg ha]
      by_cases hb : ptr ≤ a ∧ a < ptr + n
      · rw [if_pos hb, if_pos (by omega)]
      · rw [if_neg hb, if_neg (by omega)]

theorem memset_eq_self_iff {m : Mem} {ptr size : Nat} {c : Byte} :
    memset m ptr c size = m ↔ ∀ a, ptr ≤ a → a < ptr + size → m a = c := by
  constructor
  · intro h a h1 h2
    rw [← h, memset_apply, if_pos ⟨h1, h2⟩]
  · intro h
    funext a
    rw [memset_apply]
    split
    · rename_i ha; exact (h a ha.1 ha.2).symm
    · rfl

/-- `uint16_t` and `uint32_t` in memory, low byte first. -/
def uint16At (m : Mem) (a : Nat) : BitVec 16 := m (a + 1) ++ m a

def uint32At (m : Mem) (a : Nat) : BitVec 32 := m (a + 3) ++ m (a + 2) ++ m (a + 1) ++ m a

/-- A store of a `uint16_t`. -/
def setUint16 (m : Mem) (a : Nat) (v : BitVec 16) : Mem := fun x =>
  if x = a then v.extractLsb' 0 8
  else if x = a + 1 then v.extractLsb' 8 8
  else m x

theorem setUint16_apply (m : Mem) {a x : Nat} (v : BitVec 16) (h : x < a ∨ a + 2 ≤ x) : setUint16 m a v x = m x := by
  unfold setUint16
  rw [if_neg (by omega), if_neg (by omega)]

theorem uint16At_setUint16 (m : Mem) (a : Nat) (v : BitVec 16) : uint16At (setUint16 m a v) a = v := by
  unfold uint16At setUint16
  rw [if_pos rfl, if_neg (by omega), if_pos rfl]
  refine BitVec.eq_of_getLsbD_eq fun i hi => ?_
  simp only [BitVec.getLsbD_append, BitVec.getLsbD_extractLsb']
  grind

/-- The bytes of a `uint32_t`. -/
def uint32Bytes (v : BitVec 32) : List Byte :=
  [v.extractLsb' 0 8, v.extractLsb' 8 8, v.extractLsb' 16 8, v.extractLsb' 24 8]

/-- A store of a `uint32_t`. -/
def setUint32 (m : Mem) (a : Nat) (v : BitVec 32) : Mem := fun x =>
  if x = a then v.extractLsb' 0 8
  else if x = a + 1 then v.extractLsb' 8 8
  else if x = a + 2 then v.extractLsb' 16 8
  else if x = a + 3 then v.extractLsb' 24 8
  else m x

theorem setUint32_apply (m : Mem) {a x : Nat} (v : BitVec 32) (h : x < a ∨ a + 4 ≤ x) : setUint32 m a v x = m x := by
  unfold setUint32
  rw [if_neg (by omega), if_neg (by omega), if_neg (by omega), if_neg (by omega)]

theorem uint32At_congr {m m' : Mem} {a : Nat} (h : ∀ x, a ≤ x → x < a + 4 → m x = m' x) :
    uint32At m a = uint32At m' a := by
  unfold uint32At
  rw [h a (by omega) (by omega), h (a + 1) (by omega) (by omega), h (a + 2) (by omega) (by omega),
    h (a + 3) (by omega) (by omega)]

theorem uint32At_setUint32 (m : Mem) (a : Nat) (v : BitVec 32) : uint32At (setUint32 m a v) a = v := by
  unfold uint32At setUint32
  simp only [if_true, Nat.add_eq_left, Nat.succ_ne_self, if_false, Nat.add_left_cancel_iff, OfNat.ofNat_ne_one]
  refine BitVec.eq_of_getLsbD_eq fun i hi => ?_
  simp only [BitVec.getLsbD_append, BitVec.getLsbD_extractLsb']
  grind

theorem uint32At_setUint32_of_ne (m : Mem) {a b : Nat} (v : BitVec 32) (h : b + 4 ≤ a ∨ a + 4 ≤ b) :
    uint32At (setUint32 m a v) b = uint32At m b :=
  uint32At_congr fun x h1 h2 => setUint32_apply m v (by omega)

/-- Putting a word back as it was in `m'` puts its four bytes back. -/
theorem setUint32_uint32At (m m' : Mem) (a x : Nat) :
    setUint32 m a (uint32At m' a) x = if a ≤ x ∧ x < a + 4 then m' x else m x := by
  have hbyte : (uint32At m' a).extractLsb' 0 8 = m' a ∧ (uint32At m' a).extractLsb' 8 8 = m' (a + 1) ∧
      (uint32At m' a).extractLsb' 16 8 = m' (a + 2) ∧ (uint32At m' a).extractLsb' 24 8 = m' (a + 3) := by
    unfold uint32At
    refine ⟨?_, ?_, ?_, ?_⟩
    all_goals
      refine BitVec.eq_of_getLsbD_eq fun i hi => ?_
      simp only [BitVec.getLsbD_extractLsb', BitVec.getLsbD_append]
      grind
  unfold setUint32
  by_cases h0 : x = a
  · rw [if_pos h0, if_pos (by omega), hbyte.1, h0]
  · rw [if_neg h0]
    by_cases h1 : x = a + 1
    · rw [if_pos h1, if_pos (by omega), hbyte.2.1, h1]
    · rw [if_neg h1]
      by_cases h2 : x = a + 2
      · rw [if_pos h2, if_pos (by omega), hbyte.2.2.1, h2]
      · rw [if_neg h2]
        by_cases h3 : x = a + 3
        · rw [if_pos h3, if_pos (by omega), hbyte.2.2.2, h3]
        · rw [if_neg h3, if_neg (by omega)]

/-- The copy of bytes to memory from `out` on, one at a time. -/
def store (m : Mem) (out : Nat) : List Byte → Mem
  | [] => m
  | b :: bs => store (Function.update m out b) (out + 1) bs

theorem store_apply (m : Mem) (out : Nat) (bs : List Byte) (a : Nat) :
    store m out bs a = if out ≤ a then (bs[a - out]?).getD (m a) else m a := by
  induction bs generalizing m out with
  | nil => simp [store]
  | cons b bs ih =>
    rw [store, ih, Function.update_apply]
    rcases Nat.lt_trichotomy a out with hlt | heq | hgt
    · rw [if_neg (by omega), if_neg (by omega), if_neg (by omega)]
    · rw [if_neg (by omega), if_pos heq, if_pos (by omega), heq, Nat.sub_self]
      rfl
    · rw [if_pos (by omega), if_neg (by omega), if_pos (by omega), show a - out = a - (out + 1) + 1 by omega,
        List.getElem?_cons_succ]

theorem store_append (m : Mem) (out : Nat) (bs bs' : List Byte) :
    store (store m out bs) (out + bs.length) bs' = store m out (bs ++ bs') := by
  induction bs generalizing m out with
  | nil => rfl
  | cons b bs ih =>
    rw [store, List.length_cons, List.cons_append, store, ← ih,
      show out + (bs.length + 1) = out + 1 + bs.length by omega]

theorem store_store_of_le (m : Mem) {out k : Nat} {bs bs' : List Byte} (hk : k ≤ bs.length)
    (hlen : k + bs'.length = bs.length) : store (store m out bs) (out + k) bs' = store m out (bs.take k ++ bs') := by
  funext a
  rw [store_apply, store_apply, store_apply]
  by_cases h1 : out + k ≤ a
  · rw [if_pos h1, if_pos (by omega), if_pos (by omega), List.getElem?_append_right (by rw [List.length_take]; omega),
      List.length_take, Nat.min_eq_left hk, Nat.sub_sub]
    by_cases h2 : a - (out + k) < bs'.length
    · rw [List.getElem?_eq_getElem h2]; rfl
    · rw [List.getElem?_eq_none (by omega), List.getElem?_eq_none (by omega)]; rfl
  · rw [if_neg h1]
    by_cases h2 : out ≤ a
    · rw [if_pos h2, if_pos h2, List.getElem?_append_left (by rw [List.length_take]; omega),
        List.getElem?_take_of_lt (by omega)]
    · rw [if_neg h2, if_neg h2]

theorem store_inj {m : Mem} {out : Nat} {bs bs' : List Byte} (hlen : bs.length = bs'.length) :
    store m out bs = store m out bs' ↔ bs = bs' := by
  refine ⟨fun h => List.ext_getElem hlen fun i h1 h2 => ?_, fun h => by rw [h]⟩
  have hi := congrFun h (out + i)
  rw [store_apply, store_apply, if_pos (by omega), if_pos (by omega), Nat.add_sub_cancel_left,
    List.getElem?_eq_getElem h1, List.getElem?_eq_getElem h2] at hi
  exact hi

end SimpleMicrokernel.Memory
