/-
What a request of a file's bytes gives, byte by byte: the step that leaves a byte starts at the place on
the disk its offset walks to, and the byte is as far from there as it is into the step. A request
comes through when every step finds its cluster and can read all that is left.
-/
import SimpleMicrokernel.Fat16.Contents

namespace SimpleMicrokernel.Fat16

open Memory Disk Fs

/-! ## The bytes of a stream -/

/-- Byte `i` of a read of a stream that starts at `pos`, in the sector its step of 512 bytes reads. -/
def streamByte (env : Env) (pos i : Nat) : Except Halt Byte :=
  let start := (pos + i / 512 * 512) % 2 ^ 32
  bufferAt env start (diskReadSectors env (start / 512)) (start % 512 + i % 512)

section
variable {env : Env} {fat16Private : Fat16Private}

theorem streamByte_add (env : Env) (pos i : Nat) :
    streamByte env pos (512 + i) = streamByte env ((pos + 512) % 2 ^ 32) i := by
  unfold streamByte
  have hdiv : (512 + i) / 512 * 512 = 512 + i / 512 * 512 := by omega
  have hmod : (512 + i) % 512 = i % 512 := by omega
  have hstart : (pos + (512 + i / 512 * 512)) % 2 ^ 32 = ((pos + 512) % 2 ^ 32 + i / 512 * 512) % 2 ^ 32 := by omega
  rw [hdiv, hmod, hstart]

theorem readAt_eq_mapM (env : Env) {pos : Nat} (total : Nat) (hpos : pos < 2 ^ 32) :
    readAt env pos total = (List.range total).mapM (streamByte env pos) := by
  induction total using Nat.strong_induction_on generalizing pos with
  | _ total ih =>
    have hfirst : ∀ n ≤ 512, (List.range n).mapM (fun i =>
      bufferAt env pos (diskReadSectors env (pos / 512)) (pos % 512 + i)) =
        (List.range n).mapM (streamByte env pos) := by
      intro n hn
      refine Exec.mapM_congr fun i hi => ?_
      have hi : i < n := List.mem_range.1 hi
      unfold streamByte
      have hdiv : i / 512 * 512 = 0 := by omega
      have hmod : i % 512 = i := by omega
      rw [hdiv, hmod, Nat.add_zero, Nat.mod_eq_of_lt hpos]
    have hstep := diskStreamerRead_eq env pos total
    rw [hfirst _ (Nat.min_le_right ..)] at hstep
    unfold readAt
    rw [hstep]
    by_cases hbig : total > 512
    · obtain ⟨m, rfl⟩ : ∃ m, total = 512 + m := ⟨total - 512, by omega⟩
      have hrest := ih m (by omega) (show (pos + 512) % 2 ^ 32 < 2 ^ 32 from Nat.mod_lt _ (by decide))
      have hlater : streamByte env ((pos + 512) % 2 ^ 32) = streamByte env pos ∘ fun i => 512 + i :=
        funext fun i => (streamByte_add env pos i).symm
      rw [hlater] at hrest
      unfold readAt at hrest
      rw [Nat.min_eq_right (by omega), List.range_add, List.mapM_append, List.mapM_map, ← hrest]
      simp only [if_pos hbig, Nat.add_sub_cancel_left]
      cases (List.range 512).mapM (streamByte env pos) with
      | error => rfl
      | ok bs =>
        cases diskStreamerRead env ⟨(pos + 512) % 2 ^ 32⟩ m with
        | error => rfl
        | ok r => rfl
    · rw [Nat.min_eq_left (by omega)]
      simp only [if_neg hbig]
      cases (List.range total).mapM (streamByte env pos) with
      | error => rfl
      | ok bs => rfl

theorem readAt_ok_iff (env : Env) {pos : Nat} (total : Nat) (hpos : pos < 2 ^ 32) :
    (∃ bytes, readAt env pos total = .ok bytes) ↔ ∀ i < total, ∃ b, streamByte env pos i = .ok b := by
  rw [readAt_eq_mapM env total hpos]
  constructor
  · rintro ⟨bytes, h⟩ i hi
    obtain ⟨b, hb, -⟩ := Exec.getElem?_of_mapM_ok h (List.getElem?_range hi)
    exact ⟨b, hb⟩
  · intro h
    exact Exec.exists_mapM_ok fun i hi => h i (List.mem_range.1 hi)

theorem readAt_mono {pos m total : Nat} (hpos : pos < 2 ^ 32) (hle : m ≤ total) {bytes : List Byte}
    (h : readAt env pos total = .ok bytes) :
    ∃ bytes', readAt env pos m = .ok bytes' := by
  have hall := (readAt_ok_iff env total hpos).1 ⟨bytes, h⟩
  exact (readAt_ok_iff env m hpos).2 fun i hi => hall i (by omega)

theorem length_readAt {pos total : Nat} (hpos : pos < 2 ^ 32) {bytes : List Byte}
    (h : readAt env pos total = .ok bytes) :
    bytes.length = total := by
  rw [readAt_eq_mapM env total hpos] at h
  rw [Exec.length_of_mapM_ok h, List.length_range]

theorem ofBytes_readAt {pos total : Nat} (hpos : pos < 2 ^ 32) {bytes : List Byte}
    (h : readAt env pos total = .ok bytes) {i : Nat} (hi : i < total) :
    ofBytes bytes i = (streamByte env pos i).toOption := by
  rw [readAt_eq_mapM env total hpos] at h
  obtain ⟨b, hb, hget⟩ := Exec.getElem?_of_mapM_ok h (List.getElem?_range hi)
  rw [hb]
  exact hget

/-! ## The steps of a request -/

/-- Where the step at an `int` offset starts on the disk, if its offset walks to a cluster. -/
def stepStart (env : Env) (fat16Private : Fat16Private) (c offset : Int) : Option Nat :=
  match clusterForOffset env fat16Private c offset with
  | .error _ => none
  | .ok cl =>
    if cl < 0 then none else some (clusterPos fat16Private cl (offset.tmod (sizeOfClusterInBytes fat16Private)))

/-- What a request at `offset` leaves as its byte `t`: the byte that many bytes into its step. -/
def leftByte (env : Env) (fat16Private : Fat16Private) (c : Int) (len : Nat) (offset : Int) (t : Nat) :
    Option Byte := do
  let start ← stepStart env fat16Private c (stepOffset len offset t)
  (streamByte env start (t % len)).toOption

/-- Every step of a request of `n` bytes finds its cluster, and can read from there all that is left. -/
def ComesThrough (env : Env) (fat16Private : Fat16Private) (c : Int) (len : Nat) (offset : Int) (n : Nat) : Prop :=
  ∀ t < n, ∃ start, stepStart env fat16Private c (stepOffset len offset t) = some start ∧
    ∀ i < n - t / len * len, ∃ b, streamByte env start i = .ok b

theorem stepStart_lt {c offset : Int} {start : Nat} (h : stepStart env fat16Private c offset = some start) :
    start < 2 ^ 32 := by
  unfold stepStart at h
  cases hcl : clusterForOffset env fat16Private c offset with
  | error e =>
    rw [hcl] at h
    cases h
  | ok cl =>
    rw [hcl] at h
    simp only at h
    split at h
    · cases h
    · cases h
      exact uint32_lt _

/-- The steps of a read that comes through. -/
theorem readFrom_ok_iff {c offset total : Int} {w : Written} : readFrom env fat16Private c offset total = .ok (0, w) ↔
    ∃ start bytes, stepStart env fat16Private c offset = some start ∧ readAt env start (uint32 total) = .ok bytes ∧
      if total > sizeOfClusterInBytes fat16Private then
        ∃ rest, readFrom env fat16Private c (int32 (offset + sizeOfClusterInBytes fat16Private))
          (total - sizeOfClusterInBytes fat16Private) = .ok (0, rest) ∧
          w = (ofBytes bytes).followed (sizeOfClusterInBytes fat16Private) rest
      else w = ofBytes bytes := by
  rw [readFrom]
  unfold stepStart
  by_cases h0 : sizeOfClusterInBytes fat16Private = 0
  · have hcl : clusterForOffset env fat16Private c offset = .error .divByZero := by
      unfold clusterForOffset
      rw [if_pos h0]
    rw [if_pos h0, hcl]
    constructor
    · intro h
      cases h
    · rintro ⟨start, bytes, h, -⟩
      cases h
  rw [if_neg h0]
  cases hcl : clusterForOffset env fat16Private c offset with
  | error e =>
    constructor
    · intro h
      cases h
    · rintro ⟨start, bytes, h, -⟩
      cases h
  | ok cl =>
    simp only [bind, Except.bind]
    by_cases hneg : cl < 0
    · rw [if_pos hneg, if_pos hneg]
      constructor
      · intro h
        cases h
      · rintro ⟨start, bytes, h, -⟩
        cases h
    rw [if_neg hneg, if_neg hneg]
    cases hb : readAt env (clusterPos fat16Private cl (offset.tmod (sizeOfClusterInBytes fat16Private)))
      (uint32 total) with
    | error e =>
      constructor
      · intro h
        cases h
      · rintro ⟨start, bytes, h, h', -⟩
        cases h
        rw [hb] at h'
        cases h'
    | ok bytes =>
      simp only
      by_cases hmore : total > sizeOfClusterInBytes fat16Private
      · simp only [if_pos hmore]
        cases hr : readFrom env fat16Private c (int32 (offset + sizeOfClusterInBytes fat16Private))
            (total - sizeOfClusterInBytes fat16Private) with
        | error e =>
          constructor
          · intro h
            cases h
          · rintro ⟨start, bytes, -, -, rest, h, -⟩
            cases h
        | ok r =>
          obtain ⟨res, rest⟩ := r
          constructor
          · intro h
            cases h
            exact ⟨_, _, rfl, hb, rest, rfl, rfl⟩
          · rintro ⟨start, bytes', h, h', rest', hrest, rfl⟩
            cases h
            rw [hb] at h'
            cases h'
            cases hrest
            rfl
      · simp only [if_neg hmore]
        constructor
        · intro h
          cases h
          exact ⟨_, _, rfl, hb, rfl⟩
        · rintro ⟨start, bytes', h, h', rfl⟩
          cases h
          rw [hb] at h'
          cases h'
          rfl

theorem stepOffset_first {len t : Nat} {offset : Int} (ho : int32 offset = offset) (ht : t < len) :
    stepOffset len offset t = offset := by
  unfold stepOffset
  rw [Nat.div_eq_of_lt ht]
  simpa using ho

theorem comesThrough_one {c offset : Int} {len n : Nat} (ho : int32 offset = offset) (hn : 0 < n) (hle : n ≤ len) :
    ComesThrough env fat16Private c len offset n ↔
      ∃ start bytes, stepStart env fat16Private c offset = some start ∧ readAt env start n = .ok bytes := by
  unfold ComesThrough
  constructor
  · intro h
    obtain ⟨start, hstart, hall⟩ := h 0 hn
    rw [stepOffset_first ho (by omega)] at hstart
    rw [Nat.zero_div, Nat.zero_mul, Nat.sub_zero] at hall
    obtain ⟨bytes, hb⟩ := (readAt_ok_iff env n (stepStart_lt hstart)).2 hall
    exact ⟨start, bytes, hstart, hb⟩
  · rintro ⟨start, bytes, hstart, hb⟩ t ht
    rw [stepOffset_first ho (by omega), Nat.div_eq_of_lt (by omega), Nat.zero_mul, Nat.sub_zero]
    exact ⟨start, hstart, (readAt_ok_iff env n (stepStart_lt hstart)).1 ⟨bytes, hb⟩⟩

/-- A request of more than one step: the first reads everything, the others are a request of their own. -/
theorem comesThrough_add {c offset : Int} {len m : Nat} (ho : int32 offset = offset) (hlen : 0 < len) :
    ComesThrough env fat16Private c len offset (len + m) ↔
      (∃ start bytes, stepStart env fat16Private c offset = some start ∧ readAt env start (len + m) = .ok bytes) ∧
        ComesThrough env fat16Private c len (int32 (offset + len)) m := by
  unfold ComesThrough
  constructor
  · intro h
    refine ⟨?_, fun t ht => ?_⟩
    · obtain ⟨start, hstart, hall⟩ := h 0 (by omega)
      rw [stepOffset_first ho hlen] at hstart
      rw [Nat.zero_div, Nat.zero_mul, Nat.sub_zero] at hall
      obtain ⟨bytes, hb⟩ := (readAt_ok_iff env _ (stepStart_lt hstart)).2 hall
      exact ⟨start, bytes, hstart, hb⟩
    · obtain ⟨start, hstart, hall⟩ := h (len + t) (by omega)
      rw [stepOffset_add hlen] at hstart
      refine ⟨start, hstart, fun i hi => hall i ?_⟩
      rw [Nat.add_div_left t hlen, Nat.succ_mul]
      omega
  · rintro ⟨⟨start, bytes, hstart, hb⟩, hrest⟩ t ht
    by_cases hfirst : t < len
    · rw [stepOffset_first ho hfirst, Nat.div_eq_of_lt hfirst, Nat.zero_mul, Nat.sub_zero]
      exact ⟨start, hstart, (readAt_ok_iff env _ (stepStart_lt hstart)).1 ⟨bytes, hb⟩⟩
    · obtain ⟨u, rfl⟩ : ∃ u, t = len + u := ⟨t - len, by omega⟩
      obtain ⟨start', hstart', hall⟩ := hrest u (by omega)
      rw [stepOffset_add hlen]
      refine ⟨start', hstart', fun i hi => hall i ?_⟩
      rw [Nat.add_div_left u hlen, Nat.succ_mul] at hi
      omega

theorem leftByte_first {c offset : Int} {len t start : Nat} (ho : int32 offset = offset) (ht : t < len)
    (hstart : stepStart env fat16Private c offset = some start) :
    leftByte env fat16Private c len offset t = (streamByte env start t).toOption := by
  unfold leftByte
  rw [stepOffset_first ho ht, hstart, Nat.mod_eq_of_lt ht]
  rfl

theorem leftByte_add {c offset : Int} {len : Nat} (hlen : 0 < len) (t : Nat) :
    leftByte env fat16Private c len offset (len + t) = leftByte env fat16Private c len (int32 (offset + len)) t := by
  unfold leftByte
  rw [stepOffset_add hlen, Nat.add_mod_left]

theorem ComesThrough.leftByte {c offset : Int} {len n t : Nat} (h : ComesThrough env fat16Private c len offset n)
    (ht : t < n) :
    ∃ b, leftByte env fat16Private c len offset t = some b := by
  obtain ⟨start, hstart, hall⟩ := h t ht
  have hin := Nat.div_add_mod' t len
  obtain ⟨b, hb⟩ := hall (t % len) (by omega)
  refine ⟨b, ?_⟩
  unfold Fat16.leftByte
  rw [hstart]
  show (streamByte env start (t % len)).toOption = some b
  rw [hb]
  rfl

theorem sizeOfCluster_pos_of_stepStart {c offset : Int} {start : Nat}
    (h : stepStart env fat16Private c offset = some start) :
    0 < sizeOfClusterInBytes fat16Private := by
  by_contra h0
  unfold stepStart clusterForOffset at h
  rw [if_pos (by omega)] at h
  cases h

/-- A read of less than `2^31` bytes comes through when all its steps do, and leaves what they leave. -/
theorem readFrom_lt {c : Int} (n : Nat) : ∀ (offset : Int), 0 < n → n < 2 ^ 31 → int32 offset = offset →
    ((∃ w, readFrom env fat16Private c offset n = .ok (0, w)) ↔
      ComesThrough env fat16Private c (sizeOfClusterInBytes fat16Private) offset n) ∧
    ∀ w, readFrom env fat16Private c offset n = .ok (0, w) → ∀ t < n,
      w t = leftByte env fat16Private c (sizeOfClusterInBytes fat16Private) offset t := by
  induction n using Nat.strong_induction_on with
  | _ n ih =>
    intro offset hn hlt ho
    have htotal : uint32 n = n := uint32_of_lt (by omega)
    by_cases h0 : sizeOfClusterInBytes fat16Private = 0
    · -- nothing is read with clusters of no bytes
      have herror : readFrom env fat16Private c offset n = .error .divByZero := by
        rw [readFrom, if_pos h0]
      rw [herror]
      refine ⟨⟨?_, fun h => ?_⟩, ?_⟩
      · rintro ⟨w, h⟩
        cases h
      · obtain ⟨start, hstart, -⟩ := h 0 hn
        exact absurd (sizeOfCluster_pos_of_stepStart hstart) (by omega)
      · intro w h
        cases h
    have hsize : 0 < sizeOfClusterInBytes fat16Private := Nat.pos_of_ne_zero h0
    have hrun := @readFrom_ok_iff env fat16Private c offset n
    simp only [hrun, htotal]
    by_cases hmore : (n : Int) > sizeOfClusterInBytes fat16Private
    · obtain ⟨m, rfl⟩ : ∃ m, n = sizeOfClusterInBytes fat16Private + m :=
        ⟨n - sizeOfClusterInBytes fat16Private, by omega⟩
      have hrest : ((sizeOfClusterInBytes fat16Private + m : Nat) : Int) - sizeOfClusterInBytes fat16Private =
        (m : Int) := by omega
      obtain ⟨hiff, hbytes⟩ := ih m (by omega) (int32 (offset + sizeOfClusterInBytes fat16Private)) (by omega)
        (by omega) (by simpa using int32_int32_add (offset + sizeOfClusterInBytes fat16Private) 0)
      simp only [if_pos hmore, hrest]
      rw [comesThrough_add ho hsize, ← hiff]
      refine ⟨⟨?_, ?_⟩, ?_⟩
      · rintro ⟨w, start, bytes, hstart, hb, rest, hr, -⟩
        exact ⟨⟨start, bytes, hstart, hb⟩, rest, hr⟩
      · rintro ⟨⟨start, bytes, hstart, hb⟩, rest, hr⟩
        exact ⟨_, start, bytes, hstart, hb, rest, hr, rfl⟩
      · rintro w ⟨start, bytes, hstart, hb, rest, hr, rfl⟩ t ht
        unfold Written.followed
        by_cases hfirst : t < sizeOfClusterInBytes fat16Private
        · rw [if_neg (by omega), leftByte_first ho hfirst hstart]
          exact ofBytes_readAt (stepStart_lt hstart) hb ht
        · obtain ⟨u, rfl⟩ : ∃ u, t = sizeOfClusterInBytes fat16Private + u :=
            ⟨t - sizeOfClusterInBytes fat16Private, by omega⟩
          obtain ⟨b, hleft⟩ := (hiff.1 ⟨rest, hr⟩).leftByte (show u < m by omega)
          rw [if_pos (by omega), Nat.add_sub_cancel_left, leftByte_add hsize, hbytes rest hr u (by omega), hleft]
          rfl
    · simp only [if_neg hmore]
      rw [comesThrough_one ho hn (by omega)]
      refine ⟨⟨?_, ?_⟩, ?_⟩
      · rintro ⟨w, start, bytes, hstart, hb, -⟩
        exact ⟨start, bytes, hstart, hb⟩
      · rintro ⟨start, bytes, hstart, hb⟩
        exact ⟨_, start, bytes, hstart, hb, rfl⟩
      · rintro w ⟨start, bytes, hstart, hb, rfl⟩ t ht
        rw [leftByte_first ho (by omega) hstart]
        exact ofBytes_readAt (stepStart_lt hstart) hb ht

theorem readFrom_result (env : Env) (fat16Private : Fat16Private) (c : Int) (n : Nat) :
    ∀ {offset total res : Int} {w : Written},
    total.toNat = n → readFrom env fat16Private c offset total = .ok (res, w) → res < 0 ∨ res = 0 := by
  induction n using Nat.strong_induction_on with
  | _ n ih =>
    intro offset total res w hn h
    rw [readFrom] at h
    split at h
    · cases h
    cases hcl : clusterForOffset env fat16Private c offset with
    | error e =>
      rw [hcl] at h
      cases h
    | ok cl =>
      rw [hcl] at h
      simp only [bind, Except.bind] at h
      split at h
      · cases h
        exact .inl (by decide)
      cases hb : readAt env (clusterPos fat16Private cl (offset.tmod (sizeOfClusterInBytes fat16Private)))
        (uint32 total) with
      | error e =>
        rw [hb] at h
        cases h
      | ok bytes =>
        rw [hb] at h
        simp only at h
        split at h
        · cases hr : readFrom env fat16Private c (int32 (offset + sizeOfClusterInBytes fat16Private))
              (total - sizeOfClusterInBytes fat16Private) with
          | error e =>
            rw [hr] at h
            cases h
          | ok r =>
            rw [hr] at h
            cases h
            exact ih (total - sizeOfClusterInBytes fat16Private).toNat (by omega) rfl hr
        · cases h
          exact .inr rfl

/-- A request of any size, as the callers make it. -/
theorem readFrom_request {c offset : Int} {n : Nat} (hn : 0 < n) (hlt : n < 2 ^ 32) (ho : int32 offset = offset) :
    ((∃ w, readFrom env fat16Private c offset (int32 n) = .ok (0, w)) ↔
      ComesThrough env fat16Private c (stepLength fat16Private n) offset n) ∧
    ∀ w, readFrom env fat16Private c offset (int32 n) = .ok (0, w) → ∀ t < n,
      w t = leftByte env fat16Private c (stepLength fat16Private n) offset t := by
  unfold stepLength
  by_cases hsmall : n < 2 ^ 31
  · rw [if_pos hsmall, int32_of_lt (by omega) (by omega)]
    exact readFrom_lt n offset hn hsmall ho
  · rw [if_neg hsmall, comesThrough_one ho hn (le_refl n)]
    -- the size is negative as an `int`: one step reads everything
    have hneg : int32 n < 0 := by
      unfold int32
      rw [Int.bmod_def]
      split <;> omega
    have htotal : uint32 (int32 n) = n := by rw [uint32_int32, uint32_of_lt hlt]
    have hrun := @readFrom_ok_iff env fat16Private c offset (int32 n)
    simp only [hrun, htotal, if_neg (show ¬ int32 n > sizeOfClusterInBytes fat16Private by omega)]
    refine ⟨⟨?_, ?_⟩, ?_⟩
    · rintro ⟨w, start, bytes, hstart, hb, -⟩
      exact ⟨start, bytes, hstart, hb⟩
    · rintro ⟨start, bytes, hstart, hb⟩
      exact ⟨_, start, bytes, hstart, hb, rfl⟩
    · rintro w ⟨start, bytes, hstart, hb, rfl⟩ t ht
      rw [leftByte_first ho ht hstart]
      exact ofBytes_readAt (stepStart_lt hstart) hb ht

/-! ## The items of a read -/

/-- The result of the loop over items and what it writes. -/
def itemsFrom (env : Env) (fat16Private : Fat16Private) (c size : Nat) : Nat → Int → Except Halt (Int × Written)
  | 0, _ => return (0, Written.nothing)
  | n + 1, offset => do
    let (res, w) ← readFrom env fat16Private c offset (int32 size)
    if res < 0 then return (-1, w)
    else
      let (res', rest) ← itemsFrom env fat16Private c size n (int32 (offset + size))
      return (res', w.followed size rest)

theorem itemsFrom_stream {s s' : Sys} (h : SameButStreams s s') (env : Env) (c size n : Nat) : ∀ {offset : Int},
    itemsFrom env s'.fat16Private c size n offset = itemsFrom env s.fat16Private c size n offset := by
  induction n with
  | zero => intro offset; rfl
  | succ n ih =>
    intro offset
    rw [itemsFrom, itemsFrom, readFrom_stream h env c _ rfl]
    simp only [ih]

/-- The loop of the code reads these items. -/
theorem readItems_reads (env : Env) (c size n : Nat) : ∀ (offset : Int) (out : Nat) (s : Sys),
    Reads (readItems env c size n offset out) s out (itemsFrom env s.fat16Private c size n offset) := by
  induction n with
  | zero =>
    intro offset out s
    refine ⟨s, ?_, rfl⟩
    rw [put_nothing]
    rfl
  | succ n ih =>
    intro offset out s
    have hfirst : Reads (fat16ReadInternal env c offset (int32 size) out) s out
      (readFrom env s.fat16Private c offset (int32 size)) :=
      fat16ReadInternalFromStream_reads env .clusterRead c _ out s rfl
    rw [itemsFrom]
    cases hr : readFrom env s.fat16Private c offset (int32 size) with
    | error e =>
      rw [hr] at hfirst
      show readItems env c size (n + 1) offset out s = .error e
      rw [readItems]
      exact Exec.bind_of_error hfirst
    | ok r =>
      obtain ⟨res, w⟩ := r
      rw [hr] at hfirst
      obtain ⟨s1, hsame1, e1⟩ := hfirst
      have heq : readItems env c size (n + 1) offset out s =
          if res < 0 then .ok (-1, s1) else readItems env c size n (int32 (offset + size)) (out + size) s1 := by
        rw [readItems, Exec.bind_of_ok e1]
        split
        · rfl
        · rfl
      simp only [bind, Except.bind]
      by_cases hneg : res < 0
      · rw [if_pos hneg] at heq ⊢
        exact ⟨s1, hsame1, heq⟩
      rw [if_neg hneg] at heq ⊢
      have hrest := ih (int32 (offset + size)) (out + size) s1
      have hpriv : itemsFrom env s1.fat16Private c size n (int32 (offset + size)) =
          itemsFrom env s.fat16Private c size n (int32 (offset + size)) := itemsFrom_stream hsame1 env c size n
      rw [hpriv] at hrest
      cases hi : itemsFrom env s.fat16Private c size n (int32 (offset + size)) with
      | error e =>
        rw [hi] at hrest
        exact heq.trans hrest
      | ok r =>
        obtain ⟨res', rest⟩ := r
        rw [hi] at hrest
        obtain ⟨s2, hsame2, e2⟩ := hrest
        refine ⟨s2, ?_, heq.trans e2⟩
        have hmem : s1.mem = w.put s.mem out := by rw [hsame1]
        rw [← put_followed, ← hmem]
        unfold SameButStreams at *
        rw [hsame2, hsame1]

/-- What a read of items of `size` bytes from `pos` on leaves as its byte `t`. -/
def readByte (env : Env) (fat16Private : Fat16Private) (c pos size t : Nat) : Option Byte :=
  leftByte env fat16Private c (stepLength fat16Private size) (itemOffset pos size (t / size)) (t % size)

/-- Every item of a read from `pos` on comes through. -/
def ItemsComeThrough (env : Env) (fat16Private : Fat16Private) (c pos size n : Nat) : Prop :=
  ∀ i < n, ComesThrough env fat16Private c (stepLength fat16Private size) (itemOffset pos size i) size

/-- The loop over the items comes through when each of them does, and leaves what they leave. -/
theorem itemsFrom_ok_iff {c size n : Nat} (hsize : 0 < size) (hlt : size < 2 ^ 32) : ∀ (pos : Nat),
    ((∃ w, itemsFrom env fat16Private c size n (int32 pos) = .ok (0, w)) ↔
      ItemsComeThrough env fat16Private c pos size n) ∧
    ∀ w, itemsFrom env fat16Private c size n (int32 pos) = .ok (0, w) → ∀ t < size * n,
      w t = readByte env fat16Private c pos size t := by
  induction n with
  | zero =>
    intro pos
    refine ⟨⟨fun _ i hi => absurd hi (Nat.not_lt_zero i), fun _ => ⟨_, rfl⟩⟩, fun w _ t ht => ?_⟩
    rw [Nat.mul_zero] at ht
    exact absurd ht (Nat.not_lt_zero t)
  | succ n ih =>
    intro pos
    have ho : int32 (int32 pos) = int32 pos := by simpa using int32_int32_add pos 0
    obtain ⟨hfirst, hfirstBytes⟩ := @readFrom_request env fat16Private c (int32 pos) size hsize hlt ho
    obtain ⟨hrest, hrestBytes⟩ := ih (pos + size)
    have hsplit : ItemsComeThrough env fat16Private c pos size (n + 1) ↔
        ComesThrough env fat16Private c (stepLength fat16Private size) (int32 pos) size ∧
          ItemsComeThrough env fat16Private c (pos + size) size n := by
      unfold ItemsComeThrough
      constructor
      · intro h
        refine ⟨?_, fun i hi => ?_⟩
        · have := h 0 (by omega)
          rwa [itemOffset_zero] at this
        · rw [itemOffset_succ]
          exact h (i + 1) (by omega)
      · rintro ⟨h0, h⟩ i hi
        cases i with
        | zero => rwa [itemOffset_zero]
        | succ i =>
          rw [← itemOffset_succ]
          exact h i (by omega)
    have hstep : ∀ w, itemsFrom env fat16Private c size (n + 1) (int32 pos) = .ok (0, w) ↔
        ∃ w0 rest, readFrom env fat16Private c (int32 pos) (int32 size) = .ok (0, w0) ∧
          itemsFrom env fat16Private c size n (int32 (pos + size : Nat)) = .ok (0, rest) ∧
            w = w0.followed size rest := by
      intro w
      rw [itemsFrom]
      constructor
      · intro h
        cases hr : readFrom env fat16Private c (int32 pos) (int32 size) with
        | error e =>
          rw [hr] at h
          cases h
        | ok r =>
          obtain ⟨res, w0⟩ := r
          rw [hr] at h
          simp only [bind, Except.bind] at h
          rcases readFrom_result env fat16Private c _ rfl hr with hneg | rfl
          · rw [if_pos hneg] at h
            cases h
          rw [if_neg (by decide), int32_natCast_add] at h
          cases hi : itemsFrom env fat16Private c size n (int32 (pos + size : Nat)) with
          | error e =>
            rw [hi] at h
            cases h
          | ok r =>
            obtain ⟨res', rest⟩ := r
            rw [hi] at h
            cases h
            exact ⟨w0, rest, rfl, rfl, rfl⟩
      · rintro ⟨w0, rest, hr, hi, rfl⟩
        rw [hr]
        simp only [bind, Except.bind]
        rw [if_neg (by decide), int32_natCast_add, hi]
        rfl
    rw [hsplit, ← hfirst, ← hrest]
    simp only [hstep]
    refine ⟨⟨?_, ?_⟩, ?_⟩
    · rintro ⟨w, w0, rest, hr, hi, -⟩
      exact ⟨⟨w0, hr⟩, rest, hi⟩
    · rintro ⟨⟨w0, hr⟩, rest, hi⟩
      exact ⟨_, w0, rest, hr, hi, rfl⟩
    · rintro w ⟨w0, rest, hr, hi, rfl⟩ t ht
      unfold Written.followed readByte
      by_cases hin : t < size
      · rw [if_neg (by omega), Nat.div_eq_of_lt hin, Nat.mod_eq_of_lt hin, itemOffset_zero]
        exact hfirstBytes w0 hr t hin
      · obtain ⟨u, rfl⟩ : ∃ u, t = size + u := ⟨t - size, by omega⟩
        have hu : u < size * n := by
          rw [Nat.mul_succ] at ht
          omega
        have hitem : u / size < n := Nat.div_lt_of_lt_mul hu
        obtain ⟨b, hb⟩ := ((hrest.1 ⟨rest, hi⟩) (u / size) hitem).leftByte (Nat.mod_lt u hsize)
        have hbyte := hrestBytes rest hi u hu
        unfold readByte at hbyte
        rw [hb] at hbyte
        rw [if_pos (by omega), Nat.add_sub_cancel_left, Nat.add_div_left u hsize, Nat.add_mod_left,
          ← itemOffset_succ, hb, hbyte]
        rfl

end

end SimpleMicrokernel.Fat16
