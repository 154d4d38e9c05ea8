/-
`gdt/gdt.c`: the segment descriptors, and what the processor reads back from them. An entry is eight bytes;
its limit is spread over three of them, one of which holds the flags too.
-/
import SimpleMicrokernel.Env
import Mathlib.Tactic.IntervalCases

namespace SimpleMicrokernel.Gdt

open Memory

/-- `struct gdt_structured`. -/
structure GdtStructured where
  base : BitVec 32
  limit : BitVec 32
  type : Byte
deriving DecidableEq, Repr

/-- `sizeof(struct gdt)`. -/
abbrev sizeofGdt : Nat := 8

/-- `x & 0xFF` as a byte. -/
def lowByte (x : BitVec 32) : Byte := (x &&& 0xFF).setWidth 8

/-- The stores one after another; a limit over 65536 is taken in pages. -/
def encodeGdtEntry (mem : Mem) (target : Nat) (source : GdtStructured) : Except Halt Mem :=
  if source.limit > 65536 ∧ source.limit &&& 0xFFF ≠ 0xFFF then .error .panic
  else
    let mem := Function.update mem (target + 6) 0x40
    let limit := if source.limit > 65536 then source.limit >>> 12 else source.limit
    let mem := if source.limit > 65536 then Function.update mem (target + 6) 0xC0 else mem
    let mem := Function.update mem target (lowByte limit)
    let mem := Function.update mem (target + 1) (lowByte (limit >>> 8))
    let mem := Function.update mem (target + 6) (mem (target + 6) ||| ((limit >>> 16) &&& 0x0F).setWidth 8)
    let mem := Function.update mem (target + 2) (lowByte source.base)
    let mem := Function.update mem (target + 3) (lowByte (source.base >>> 8))
    let mem := Function.update mem (target + 4) (lowByte (source.base >>> 16))
    let mem := Function.update mem (target + 7) (lowByte (source.base >>> 24))
    .ok (Function.update mem (target + 5) source.type)

/-- The first `n` turns of the loop of `gdt_structured_to_gdt`. -/
def structuredLoop (mem : Mem) (gdt : Nat) (structuredGdt : Nat → GdtStructured) : Nat → Except Halt Mem
  | 0 => .ok mem
  | i + 1 => do
    let mem ← structuredLoop mem gdt structuredGdt i
    encodeGdtEntry mem (gdt + sizeofGdt * i) (structuredGdt i)

def gdtStructuredToGdt (mem : Mem) (gdt : Nat) (structuredGdt : Nat → GdtStructured) (totalEntires : Int) :
    Except Halt Mem :=
  structuredLoop mem gdt structuredGdt totalEntires.toNat

/-! ## What the processor reads -/

/-- A segment as the processor takes it from its descriptor. -/
structure Segment where
  base : Nat
  limit : Nat
  type : Byte
  is32Bit : Bool
deriving DecidableEq, Repr

/-- The 20 bits of the limit. -/
def limitBits (mem : Mem) (a : Nat) : Nat :=
    (mem a).toNat + 2 ^ 8 * (mem (a + 1)).toNat + 2 ^ 16 * ((mem (a + 6)).toNat % 16)

/-- With the granularity bit the limit is in pages of 4096 bytes, the last one taken whole. -/
def decodeSegment (mem : Mem) (a : Nat) : Segment where
  base := (mem (a + 2)).toNat + 2 ^ 8 * (mem (a + 3)).toNat + 2 ^ 16 * (mem (a + 4)).toNat +
    2 ^ 24 * (mem (a + 7)).toNat
  limit := if (mem (a + 6)).getLsbD 7 then limitBits mem a * 4096 + 4095 else limitBits mem a
  type := mem (a + 5)
  is32Bit := (mem (a + 6)).getLsbD 6

/-- What an entry describes. -/
def GdtStructured.segment (source : GdtStructured) : Segment :=
    ⟨source.base.toNat, source.limit.toNat, source.type, true⟩

/-! ## One entry -/

section
variable {mem mem' : Mem} {target : Nat} {source : GdtStructured}

theorem toNat_lowByte (x : BitVec 32) (k : Nat) : (lowByte (x >>> k)).toNat = x.toNat / 2 ^ k % 256 := by
  unfold lowByte
  rw [BitVec.toNat_setWidth, BitVec.toNat_and, BitVec.toNat_ushiftRight, Nat.shiftRight_eq_div_pow]
  show (x.toNat / 2 ^ k &&& 2 ^ 8 - 1) % 2 ^ 8 = _
  rw [Nat.and_two_pow_sub_one_eq_mod, Nat.mod_mod]

theorem toNat_lowByte_zero (x : BitVec 32) : (lowByte x).toNat = x.toNat % 256 := by
  have h := toNat_lowByte x 0
  rwa [BitVec.ushiftRight_zero, Nat.pow_zero, Nat.div_one] at h

/-- The flags, with the high bits of the limit below them. -/
theorem flags_or (flags : Byte) (hflags : flags = 0x40 ∨ flags = 0xC0) (x : BitVec 32) :
    (flags ||| (x &&& 0x0F).setWidth 8).toNat % 16 = x.toNat % 16 ∧
      (flags ||| (x &&& 0x0F).setWidth 8).getLsbD 7 = flags.getLsbD 7 ∧
      (flags ||| (x &&& 0x0F).setWidth 8).getLsbD 6 = true := by
  have hlow : ((x &&& 0x0F).setWidth 8).toNat = x.toNat % 2 ^ 4 := by
    rw [BitVec.toNat_setWidth, BitVec.toNat_and]
    show (x.toNat &&& 2 ^ 4 - 1) % 2 ^ 8 = _
    rw [Nat.and_two_pow_sub_one_eq_mod]
    omega
  have hclear : ∀ i, 4 ≤ i → ((x &&& 0x0F).setWidth 8).getLsbD i = false := by
    intro i hi
    rw [← BitVec.testBit_toNat, hlow]
    exact Nat.testBit_lt_two_pow (Nat.lt_of_lt_of_le (Nat.mod_lt _ (by decide)) (Nat.pow_le_pow_right (by decide) hi))
  have hflag : flags.toNat % 2 ^ 4 = 0 ∧ flags.getLsbD 6 = true := by
    rcases hflags with rfl | rfl
    · exact ⟨rfl, rfl⟩
    · exact ⟨rfl, rfl⟩
  refine ⟨?_, ?_, ?_⟩
  · show _ % 2 ^ 4 = _ % 2 ^ 4
    rw [BitVec.toNat_or, Nat.or_mod_two_pow, hflag.1, Nat.zero_or, hlow, Nat.mod_mod]
  · rw [BitVec.getLsbD_or, hclear 7 (by decide), Bool.or_false]
  · rw [BitVec.getLsbD_or, hflag.2, Bool.true_or]

/-- An entry is accepted when its limit is small or ends a page. -/
def Accepts (source : GdtStructured) : Prop := source.limit.toNat ≤ 65536 ∨ source.limit.toNat % 4096 = 4095

theorem not_accepts_iff : source.limit > 65536 ∧ source.limit &&& 0xFFF ≠ 0xFFF ↔ ¬ Accepts source := by
  have hlow : source.limit &&& 0xFFF = 0xFFF ↔ source.limit.toNat % 4096 = 4095 := by
    rw [← BitVec.toNat_inj, BitVec.toNat_and]
    show (source.limit.toNat &&& 2 ^ 12 - 1) = 4095 ↔ _
    rw [Nat.and_two_pow_sub_one_eq_mod]
  have hlarge : source.limit > 65536 ↔ 65536 < source.limit.toNat := BitVec.lt_def
  unfold Accepts
  rw [hlarge, ne_eq, hlow]
  omega

/-- The bytes of an entry, by their place in it. -/
def entryByte (source : GdtStructured) : Nat → Byte
  | 0 => lowByte (if source.limit > 65536 then source.limit >>> 12 else source.limit)
  | 1 => lowByte ((if source.limit > 65536 then source.limit >>> 12 else source.limit) >>> 8)
  | 2 => lowByte source.base
  | 3 => lowByte (source.base >>> 8)
  | 4 => lowByte (source.base >>> 16)
  | 5 => source.type
  | 6 => (if source.limit > 65536 then (0xC0 : Byte) else 0x40) |||
      (((if source.limit > 65536 then source.limit >>> 12 else source.limit) >>> 16) &&& 0x0F).setWidth 8
  | _ => lowByte (source.base >>> 24)

/-- An entry that is accepted is its eight bytes, and the rest of memory is as it was. -/
theorem encodeGdtEntry_apply (mem : Mem) (target : Nat) (h : Accepts source) :
    encodeGdtEntry mem target source =
      .ok fun x => if target ≤ x ∧ x < target + sizeofGdt then entryByte source (x - target) else mem x := by
  unfold encodeGdtEntry
  rw [if_neg fun hno => not_accepts_iff.1 hno h]
  simp only
  refine congrArg Except.ok (funext fun x => ?_)
  by_cases hin : target ≤ x ∧ x < target + sizeofGdt
  · rw [if_pos hin]
    obtain ⟨k, rfl⟩ := Nat.exists_eq_add_of_le hin.1
    have hk : k < 8 := by have := hin.2; unfold sizeofGdt at this; omega
    rw [Nat.add_sub_cancel_left]
    interval_cases k <;> simp [entryByte]
    split <;> simp
  · rw [if_neg hin]
    unfold sizeofGdt at hin
    have hne : ∀ k < 8, x ≠ target + k := fun k hk => by omega
    have h0 : x ≠ target := hne 0 (by decide)
    simp only [Function.update_apply, if_neg h0, if_neg (hne 1 (by decide)), if_neg (hne 2 (by decide)),
      if_neg (hne 3 (by decide)), if_neg (hne 4 (by decide)), if_neg (hne 5 (by decide)), if_neg (hne 6 (by decide)),
      if_neg (hne 7 (by decide))]
    split <;> simp [hne 6]

theorem limitBits_eq {limit : BitVec 32} {flags : Byte} (hflags : flags = 0x40 ∨ flags = 0xC0)
    (hlt : limit.toNat < 2 ^ 20) (h0 : mem target = lowByte limit) (h1 : mem (target + 1) = lowByte (limit >>> 8))
    (h6 : mem (target + 6) = flags ||| ((limit >>> 16) &&& 0x0F).setWidth 8) : limitBits mem target = limit.toNat := by
  unfold limitBits
  rw [h0, h1, h6, (flags_or flags hflags _).1, toNat_lowByte_zero, toNat_lowByte, BitVec.toNat_ushiftRight,
    Nat.shiftRight_eq_div_pow]
  omega

/-- The processor reads back what an accepted entry was made from. -/
theorem decodeSegment_of_bytes (h : Accepts source) (hbytes : ∀ k < 8, mem (target + k) = entryByte source k) :
    decodeSegment mem target = source.segment := by
  have h0 := hbytes 0 (by decide)
  have h1 := hbytes 1 (by decide)
  have h6 := hbytes 6 (by decide)
  have hbase : (decodeSegment mem target).base = source.base.toNat := by
    have hlt := source.base.isLt
    simp only [decodeSegment]
    rw [hbytes 2 (by decide), hbytes 3 (by decide), hbytes 4 (by decide), hbytes 7 (by decide)]
    simp only [entryByte, toNat_lowByte]
    simp only [toNat_lowByte_zero]
    omega
  have htype : (decodeSegment mem target).type = source.type := hbytes 5 (by decide)
  have hlimit : (decodeSegment mem target).limit = source.limit.toNat ∧ (decodeSegment mem target).is32Bit = true := by
    have hlt := source.limit.isLt
    have hlarge : source.limit > 65536 ↔ 65536 < source.limit.toNat := BitVec.lt_def
    simp only [entryByte, Nat.add_zero] at h0 h1 h6
    simp only [decodeSegment]
    by_cases hbig : source.limit > 65536
    · rw [if_pos hbig] at h0 h1
      rw [if_pos hbig, if_pos hbig] at h6
      have hpages : (source.limit >>> 12).toNat = source.limit.toNat / 2 ^ 12 := by
        rw [BitVec.toNat_ushiftRight, Nat.shiftRight_eq_div_pow]
      have hend : source.limit.toNat % 4096 = 4095 := h.resolve_left (Nat.not_le_of_lt (hlarge.1 hbig))
      rw [limitBits_eq (.inr rfl) (by omega) h0 h1 h6, h6, (flags_or 0xC0 (.inr rfl) _).2.1,
        (flags_or 0xC0 (.inr rfl) _).2.2, hpages]
      refine ⟨?_, rfl⟩
      rw [if_pos (by decide)]
      omega
    · have hsmall := Nat.le_of_not_lt fun h => hbig (hlarge.2 h)
      rw [if_neg hbig] at h0 h1
      rw [if_neg hbig, if_neg hbig] at h6
      rw [limitBits_eq (.inl rfl) (by omega) h0 h1 h6, h6, (flags_or 0x40 (.inl rfl) _).2.1,
        (flags_or 0x40 (.inl rfl) _).2.2]
      exact ⟨if_neg (by decide), rfl⟩
  calc decodeSegment mem target
      = ⟨(decodeSegment mem target).base, (decodeSegment mem target).limit, (decodeSegment mem target).type,
          (decodeSegment mem target).is32Bit⟩ := rfl
    _ = source.segment := by
      rw [hbase, htype, hlimit.1, hlimit.2]
      rfl

theorem of_encodeGdtEntry_ok (h : encodeGdtEntry mem target source = .ok mem') : Accepts source := by
  by_contra hno
  unfold encodeGdtEntry at h
  rw [if_pos (not_accepts_iff.2 hno)] at h
  cases h

theorem decodeSegment_encodeGdtEntry (h : encodeGdtEntry mem target source = .ok mem') :
    decodeSegment mem' target = source.segment := by
  have haccepts := of_encodeGdtEntry_ok h
  rw [encodeGdtEntry_apply mem target haccepts] at h
  cases h
  refine decodeSegment_of_bytes haccepts fun k hk => ?_
  rw [if_pos ⟨by omega, by unfold sizeofGdt; omega⟩, Nat.add_sub_cancel_left]

end

/-! ## The table -/

section
variable {mem : Mem} {gdt : Nat} {structuredGdt : Nat → GdtStructured}

/-- Entries that are accepted fill the table, each at its place. -/
theorem structuredLoop_apply (mem : Mem) (gdt : Nat) : ∀ {n : Nat}, (∀ i < n, Accepts (structuredGdt i)) →
    structuredLoop mem gdt structuredGdt n = .ok fun x =>
      if gdt ≤ x ∧ x < gdt + sizeofGdt * n then
      entryByte (structuredGdt ((x - gdt) / sizeofGdt)) ((x - gdt) % sizeofGdt) else mem x
  | 0, _ => by
    refine congrArg Except.ok (funext fun x => ?_)
    rw [if_neg (by omega)]
  | n + 1, h => by
    rw [structuredLoop, structuredLoop_apply mem gdt fun i hi => h i (Nat.lt_succ_of_lt hi)]
    show encodeGdtEntry _ _ _ = _
    rw [encodeGdtEntry_apply _ _ (h n (Nat.lt_succ_self n))]
    refine congrArg Except.ok (funext fun x => ?_)
    unfold sizeofGdt
    by_cases hlast : gdt + 8 * n ≤ x ∧ x < gdt + 8 * n + 8
    · have hdiv : (x - gdt) / 8 = n := by omega
      have hmod : (x - gdt) % 8 = x - (gdt + 8 * n) := by omega
      rw [if_pos hlast, if_pos (by omega), hdiv, hmod]
    · rw [if_neg hlast]
      by_cases hin : gdt ≤ x ∧ x < gdt + 8 * n
      · rw [if_pos hin, if_pos (by omega)]
      · rw [if_neg hin, if_neg (by omega)]

end

/-- Decoding an entry that is encoded gives back what it was made from, and the table holds each entry at its
place, as encoded there alone, and touches nothing else. -/
theorem gdt_roundTrip (mem : Mem) :
    (∀ (target : Nat) (source : GdtStructured) (mem' : Mem), encodeGdtEntry mem target source = .ok mem' →
      decodeSegment mem' target = source.segment) ∧
    ∀ (gdt : Nat) (structuredGdt : Nat → GdtStructured) (totalEntires : Int),
      (∀ i < totalEntires.toNat, ∃ mem', encodeGdtEntry mem (gdt + sizeofGdt * i) (structuredGdt i) = .ok mem') →
      ∃ mem', gdtStructuredToGdt mem gdt structuredGdt totalEntires = .ok mem' ∧
        (∀ i < totalEntires.toNat, ∀ m, encodeGdtEntry mem (gdt + sizeofGdt * i) (structuredGdt i) = .ok m →
          ∀ x, gdt + sizeofGdt * i ≤ x → x < gdt + sizeofGdt * (i + 1) → mem' x = m x) ∧
        ∀ x, x < gdt ∨ gdt + sizeofGdt * totalEntires.toNat ≤ x → mem' x = mem x := by
  refine ⟨fun target source mem' h => decodeSegment_encodeGdtEntry h, fun gdt structuredGdt totalEntires h => ?_⟩
  have haccepts : ∀ i < totalEntires.toNat, Accepts (structuredGdt i) :=
    fun i hi => of_encodeGdtEntry_ok (h i hi).choose_spec
  refine ⟨_, structuredLoop_apply mem gdt haccepts, fun i hi m hm x h1 h2 => ?_, fun x hx => ?_⟩
  · rw [encodeGdtEntry_apply _ _ (haccepts i hi)] at hm
    cases hm
    unfold sizeofGdt at h1 h2 ⊢
    have hdiv : (x - gdt) / 8 = i := by omega
    have hmod : (x - gdt) % 8 = x - (gdt + 8 * i) := by omega
    rw [if_pos (by omega), hdiv, hmod]
    exact (if_pos (by omega)).symm
  · exact if_neg (by omega)

/-! ## The table of the kernel -/

/-- `TOTAL_GDT_SEGMENTS`. -/
abbrev totalGdtSegments : Nat := 6

/-- `gdt_structured` of `kernel.c`, with `tss` at an address. -/
def gdtStructured (tss : BitVec 32) : Nat → GdtStructured
  | 0 => ⟨0x00, 0x00, 0x00⟩
  | 1 => ⟨0x00, 0xffffffff, 0x9a⟩
  | 2 => ⟨0x00, 0xffffffff, 0x92⟩
  | 3 => ⟨0x00, 0xffffffff, 0xf8⟩
  | 4 => ⟨0x00, 0xffffffff, 0xf2⟩
  | _ => ⟨tss, 100, 0xE9⟩

/-- A segment of 65536 and one byte is the largest that is not taken in pages. -/
theorem gdt_roundTrip_threshold :
    decodeSegment (fun x => if 0 ≤ x ∧ x < 0 + sizeofGdt then entryByte ⟨0, 65536, 0x92⟩ (x - 0) else 0) 0 =
    ⟨0, 65536, 0x92, true⟩ :=
  (gdt_roundTrip fun _ => 0).1 0 ⟨0, 65536, 0x92⟩ _ (encodeGdtEntry_apply _ 0 (.inl (by decide)))

end SimpleMicrokernel.Gdt
