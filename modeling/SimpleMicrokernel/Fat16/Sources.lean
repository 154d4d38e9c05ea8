/-
Where each byte of a read comes from. A read is gone through once more with, in place of the byte it
leaves, the offset its step starts at and how far into the step it is.
-/
import SimpleMicrokernel.Fat16.Requests

namespace SimpleMicrokernel.Fat16

open Memory Disk Fs

/-! ## The reads again -/

/-- For the bytes that come to stand in memory, the offset the step starts at and the byte of the step. -/
abbrev Sources := Nat → Option (Int × Nat)

/-- The sources of `readFrom`. -/
def sourcesFrom (env : Env) (fat16Private : Fat16Private) (cluster offset total : Int) : Except Halt (Int × Sources) :=
  if sizeOfClusterInBytes fat16Private = 0 then .error .divByZero
  else do
    let clusterToUse ← clusterForOffset env fat16Private cluster offset
    if clusterToUse < 0 then return (-1, fun _ => none)
    else
      let _ ← readAt env (clusterPos fat16Private clusterToUse (offset.tmod (sizeOfClusterInBytes fat16Private)))
        (uint32 total)
      let first : Sources := fun t => if t < uint32 total then some (offset, t) else none
      if total > sizeOfClusterInBytes fat16Private then
        let (res, rest) ← sourcesFrom env fat16Private cluster (int32 (offset + sizeOfClusterInBytes fat16Private))
          (total - sizeOfClusterInBytes fat16Private)
        return (res, fun t => if sizeOfClusterInBytes fat16Private ≤ t then
          (rest (t - sizeOfClusterInBytes fat16Private)).or (first t) else first t)
      else return (0, first)
termination_by total.toNat
decreasing_by omega

/-- The sources of `itemsFrom`. -/
def itemsSources (env : Env) (fat16Private : Fat16Private) (c size : Nat) : Nat → Int → Except Halt (Int × Sources)
  | 0, _ => return (0, fun _ => none)
  | n + 1, offset => do
    let (res, first) ← sourcesFrom env fat16Private c offset (int32 size)
    if res < 0 then return (-1, first)
    else
      let (res, rest) ← itemsSources env fat16Private c size n (int32 (offset + size))
      return (res, fun t => if size ≤ t then (rest (t - size)).or (first t) else first t)

/-- The byte of a source. -/
def sourceByte (env : Env) (fat16Private : Fat16Private) (c : Int) (source : Int × Nat) : Option Byte := do
  let start ← stepStart env fat16Private c source.1
  (streamByte env start source.2).toOption

/-- The two stop alike, or give the same result and the bytes of the sources. -/
inductive Tied (byte : Int × Nat → Option Byte) : Except Halt (Int × Written) → Except Halt (Int × Sources) → Prop where
  | error (e : Halt) : Tied byte (.error e) (.error e)
  | ok {res : Int} {w : Written} {sources : Sources} (hbyte : ∀ t, w t = (sources t).bind byte)
      (hsome : ∀ t source, sources t = some source → ∃ b, byte source = some b) :
        Tied byte (.ok (res, w)) (.ok (res, sources))

section
variable {env : Env} {fat16Private : Fat16Private} {byte : Int × Nat → Option Byte}

theorem tied_followed {w rest : Written} {first sources : Sources} (len : Nat) (hw : ∀ t, w t = (first t).bind byte)
    (hrest : ∀ t, rest t = (sources t).bind byte)
    (hsome : ∀ t source, sources t = some source → ∃ b, byte source = some b) (t : Nat) :
    w.followed len rest t = (if len ≤ t then (sources (t - len)).or (first t) else first t).bind byte := by
  unfold Written.followed
  split
  · rw [hrest, hw]
    cases h : sources (t - len) with
    | none => rfl
    | some source =>
      obtain ⟨b, hb⟩ := hsome _ _ h
      show (byte source).or _ = byte source
      rw [hb]
      rfl
  · exact hw t

theorem some_followed {first sources : Sources} (len : Nat)
    (hfirst : ∀ t source, first t = some source → ∃ b, byte source = some b)
    (hsome : ∀ t source, sources t = some source → ∃ b, byte source = some b) (t : Nat) (source : Int × Nat)
    (h : (if len ≤ t then (sources (t - len)).or (first t) else first t) = some source) :
    ∃ b, byte source = some b := by
  split at h
  · rcases Option.or_eq_some_iff.1 h with h | ⟨-, h⟩
    · exact hsome _ _ h
    · exact hfirst _ _ h
  · exact hfirst _ _ h

theorem readFrom_tied (c : Int) (n : Nat) : ∀ {offset total : Int}, total.toNat = n →
    Tied (sourceByte env fat16Private c) (readFrom env fat16Private c offset total)
    (sourcesFrom env fat16Private c offset total) := by
  induction n using Nat.strong_induction_on with
  | _ n ih =>
    intro offset total hn
    rw [readFrom, sourcesFrom]
    by_cases h0 : sizeOfClusterInBytes fat16Private = 0
    · rw [if_pos h0, if_pos h0]
      exact .error _
    rw [if_neg h0, if_neg h0]
    cases hcl : clusterForOffset env fat16Private c offset with
    | error e => exact .error e
    | ok cl =>
      simp only [bind, Except.bind]
      by_cases hneg : cl < 0
      · rw [if_pos hneg, if_pos hneg]
        exact .ok (fun _ => rfl) fun _ _ h => by cases h
      rw [if_neg hneg, if_neg hneg]
      have hstart : stepStart env fat16Private c offset =
          some (clusterPos fat16Private cl (offset.tmod (sizeOfClusterInBytes fat16Private))) := by
        unfold stepStart
        rw [hcl]
        exact if_neg hneg
      cases hb : readAt env (clusterPos fat16Private cl (offset.tmod (sizeOfClusterInBytes fat16Private)))
        (uint32 total) with
      | error e => exact .error e
      | ok bytes =>
        simp only
        have hlen := length_readAt (stepStart_lt hstart) hb
        have hsource : ∀ t < uint32 total, sourceByte env fat16Private c (offset, t) = ofBytes bytes t := by
          intro t ht
          unfold sourceByte
          rw [hstart, ofBytes_readAt (stepStart_lt hstart) hb ht]
          rfl
        have hfirst : ∀ t, ofBytes bytes t =
          (if t < uint32 total then some (offset, t) else none).bind (sourceByte env fat16Private c) := by
          intro t
          split
          · rename_i ht
            exact (hsource t ht).symm
          · exact List.getElem?_eq_none (by omega)
        have hsome : ∀ t source, (if t < uint32 total then some (offset, t) else none) = some source →
            ∃ b, sourceByte env fat16Private c source = some b := by
          intro t source h
          split at h
          · rename_i ht
            cases h
            exact ⟨_, (hsource t ht).trans (List.getElem?_eq_getElem (by omega))⟩
          · cases h
        by_cases hmore : total > sizeOfClusterInBytes fat16Private
        · rw [if_pos hmore, if_pos hmore]
          have hrest : Tied _ (readFrom env fat16Private c (int32 (offset + sizeOfClusterInBytes fat16Private))
              (total - sizeOfClusterInBytes fat16Private)) _ := ih (total -
                sizeOfClusterInBytes fat16Private).toNat (by omega) rfl
          generalize readFrom env fat16Private c (int32 (offset + sizeOfClusterInBytes fat16Private))
            (total - sizeOfClusterInBytes fat16Private) = x at hrest ⊢
          generalize sourcesFrom env fat16Private c (int32 (offset + sizeOfClusterInBytes fat16Private))
            (total - sizeOfClusterInBytes fat16Private) = y at hrest ⊢
          cases hrest with
          | error e => exact .error e
          | ok hbyte' hsome' => exact .ok (tied_followed _ hfirst hbyte' hsome') (some_followed _ hsome hsome')
        · rw [if_neg hmore, if_neg hmore]
          exact .ok hfirst hsome

theorem itemsFrom_tied (c size n : Nat) : ∀ (offset : Int),
    Tied (sourceByte env fat16Private c) (itemsFrom env fat16Private c size n offset)
    (itemsSources env fat16Private c size n offset) := by
  induction n with
  | zero => exact fun _ => .ok (fun _ => rfl) fun _ _ h => by cases h
  | succ n ih =>
    intro offset
    rw [itemsFrom, itemsSources]
    have hfirst : Tied _ (readFrom env fat16Private c offset (int32 size)) _ := readFrom_tied c _ rfl
    generalize readFrom env fat16Private c offset (int32 size) = x at hfirst ⊢
    generalize sourcesFrom env fat16Private c offset (int32 size) = y at hfirst ⊢
    cases hfirst with
    | error e => exact .error e
    | @ok res w first hbyte hsome =>
      simp only [bind, Except.bind]
      by_cases hneg : res < 0
      · rw [if_pos hneg, if_pos hneg]
        exact .ok hbyte hsome
      rw [if_neg hneg, if_neg hneg]
      have hrest := ih (int32 (offset + size))
      generalize itemsFrom env fat16Private c size n (int32 (offset + size)) = x at hrest ⊢
      generalize itemsSources env fat16Private c size n (int32 (offset + size)) = y at hrest ⊢
      cases hrest with
      | error e => exact .error e
      | ok hbyte' hsome' => exact .ok (tied_followed _ hbyte hbyte' hsome') (some_followed _ hsome hsome')

/-! ## The steps whose bytes stay -/

/-- Where step `j` of a request starts. -/
def stepAt (len : Nat) (offset : Int) (j : Nat) : Int := int32 (offset + len * j)

/-- The step at an offset finds its cluster. -/
def Finds (env : Env) (fat16Private : Fat16Private) (c offset : Int) : Prop :=
    ∃ start, stepStart env fat16Private c offset = some start

/-- Byte `t` of a request stays as step `j` reads it: all steps up to there find their clusters, and
the next one, which would go over the byte, does not start before the byte or finds no cluster. -/
def StaysFrom (env : Env) (fat16Private : Fat16Private) (c : Int) (len : Nat) (offset : Int) (j t : Nat) : Prop :=
  (∀ i ≤ j, Finds env fat16Private c (stepAt len offset i)) ∧ len * j ≤ t ∧
    (t < len * (j + 1) ∨ ¬ Finds env fat16Private c (stepAt len offset (j + 1)))

theorem stepAt_zero {len : Nat} {offset : Int} (ho : int32 offset = offset) : stepAt len offset 0 = offset := by
  unfold stepAt
  simpa using ho

theorem stepAt_succ (len : Nat) (offset : Int) (j : Nat) :
    stepAt len offset (j + 1) = stepAt len (int32 (offset + len)) j := by
  unfold stepAt
  rw [int32_int32_add]
  congr 1
  push_cast
  ring

/-- The sources of a read that returns. -/
theorem of_sourcesFrom {c offset total res : Int} {sources : Sources}
    (h : sourcesFrom env fat16Private c offset total = .ok (res, sources)) :
    (¬ Finds env fat16Private c offset ∧ res = -1 ∧ sources = fun _ => none) ∨
    (Finds env fat16Private c offset ∧ total ≤ sizeOfClusterInBytes fat16Private ∧
      res = 0 ∧ sources = fun t => if t < uint32 total then some (offset, t) else none) ∨
    Finds env fat16Private c offset ∧ total > sizeOfClusterInBytes fat16Private ∧
      ∃ rest, sourcesFrom env fat16Private c (int32 (offset + sizeOfClusterInBytes fat16Private))
          (total - sizeOfClusterInBytes fat16Private) = .ok (res, rest) ∧
        sources = fun t => if sizeOfClusterInBytes fat16Private ≤ t then
          (rest (t - sizeOfClusterInBytes fat16Private)).or (if t < uint32 total then some (offset, t) else none)
        else if t < uint32 total then some (offset, t) else none := by
  rw [sourcesFrom] at h
  split at h
  · cases h
  unfold Finds stepStart
  cases hcl : clusterForOffset env fat16Private c offset with
  | error e =>
    rw [hcl] at h
    cases h
  | ok cl =>
    rw [hcl] at h
    simp only [bind, Except.bind] at h
    by_cases hneg : cl < 0
    · rw [if_pos hneg] at h
      cases h
      refine .inl ⟨?_, rfl, rfl⟩
      rintro ⟨start, hstart⟩
      simp only [if_pos hneg] at hstart
      cases hstart
    rw [if_neg hneg] at h
    have hfinds : ∃ start, (if cl < 0 then none else
        some (clusterPos fat16Private cl (offset.tmod (sizeOfClusterInBytes fat16Private)))) = some start := ⟨_,
          if_neg hneg⟩
    cases hb : readAt env (clusterPos fat16Private cl (offset.tmod (sizeOfClusterInBytes fat16Private)))
      (uint32 total) with
    | error e =>
      rw [hb] at h
      cases h
    | ok bytes =>
      rw [hb] at h
      simp only at h
      by_cases hmore : total > sizeOfClusterInBytes fat16Private
      · rw [if_pos hmore] at h
        cases hr : sourcesFrom env fat16Private c (int32 (offset + sizeOfClusterInBytes fat16Private))
            (total - sizeOfClusterInBytes fat16Private) with
        | error e =>
          rw [hr] at h
          cases h
        | ok r =>
          rw [hr] at h
          cases h
          exact .inr (.inr ⟨hfinds, hmore, _, rfl, rfl⟩)
      · rw [if_neg hmore] at h
        cases h
        exact .inr (.inl ⟨hfinds, Int.not_lt.1 hmore, rfl, rfl⟩)

theorem sourcesFrom_covers {c offset total res : Int} {sources : Sources}
    (h : sourcesFrom env fat16Private c offset total = .ok (res, sources)) (hfinds : Finds env fat16Private c offset)
    {t : Nat} (ht : t < uint32 total) : ∃ source, sources t = some source := by
  rcases of_sourcesFrom h with ⟨hno, -⟩ | ⟨-, -, -, rfl⟩ | ⟨-, -, rest, -, rfl⟩
  · exact absurd hfinds hno
  · exact ⟨_, if_pos ht⟩
  · simp only [if_pos ht]
    split
    · cases rest (t - sizeOfClusterInBytes fat16Private) with
      | none => exact ⟨_, rfl⟩
      | some source => exact ⟨source, rfl⟩
    · exact ⟨_, rfl⟩

theorem staysFrom_zero {c offset : Int} {len t : Nat} (ho : int32 offset = offset) :
    StaysFrom env fat16Private c len offset 0 t ↔
    Finds env fat16Private c offset ∧ (t < len ∨ ¬ Finds env fat16Private c (int32 (offset + len))) := by
  have hnext : stepAt len offset 1 = int32 (offset + len) := by
    unfold stepAt
    simp
  unfold StaysFrom
  rw [Nat.zero_add, Nat.mul_one, Nat.mul_zero, hnext]
  constructor
  · rintro ⟨h, -, h'⟩
    have h0 := h 0 (le_refl 0)
    rw [stepAt_zero ho] at h0
    exact ⟨h0, h'⟩
  · rintro ⟨h, h'⟩
    refine ⟨fun i hi => ?_, Nat.zero_le t, h'⟩
    rw [Nat.le_zero.1 hi, stepAt_zero ho]
    exact h

theorem staysFrom_succ {c offset : Int} {len j t : Nat} (ho : int32 offset = offset) :
    StaysFrom env fat16Private c len offset (j + 1) t ↔
    Finds env fat16Private c offset ∧ len ≤ t ∧
    StaysFrom env fat16Private c len (int32 (offset + len)) j (t - len) := by
  unfold StaysFrom
  rw [stepAt_succ, Nat.mul_succ len (j + 1), Nat.mul_succ]
  constructor
  · rintro ⟨h, hle, h'⟩
    have h0 := h 0 (Nat.zero_le _)
    rw [stepAt_zero ho] at h0
    refine ⟨h0, by omega, fun i hi => ?_, by omega, h'.imp_left fun _ => by omega⟩
    rw [← stepAt_succ]
    exact h (i + 1) (by omega)
  · rintro ⟨h0, hle, h, hle', h'⟩
    refine ⟨fun i hi => ?_, by omega, h'.imp_left fun _ => by omega⟩
    cases i with
    | zero =>
      rw [stepAt_zero ho]
      exact h0
    | succ i =>
      rw [stepAt_succ]
      exact h i (by omega)

/-- The bytes no later step comes to. -/
theorem staysFrom_first {c offset : Int} {len n t : Nat} (ho : int32 offset = offset)
    (hfinds : Finds env fat16Private c offset) (hle : t < n → t < len) (source : Int × Nat) :
    (if t < n then some (offset, t) else none) = some source ↔
      t < n ∧ ∃ j, StaysFrom env fat16Private c len offset j t ∧ source = (stepAt len offset j, t - len * j) := by
  constructor
  · intro h
    split at h
    · rename_i ht
      cases h
      refine ⟨ht, 0, (staysFrom_zero ho).2 ⟨hfinds, .inl (by omega)⟩, ?_⟩
      rw [stepAt_zero ho, Nat.mul_zero, Nat.sub_zero]
    · cases h
  · rintro ⟨ht, j, hstays, rfl⟩
    cases j with
    | zero => rw [if_pos ht, stepAt_zero ho, Nat.mul_zero, Nat.sub_zero]
    | succ j =>
      have := ((staysFrom_succ ho).1 hstays).2.1
      omega

/-- A read of less than `2^31` bytes that returns: which steps' bytes stay, and whether all steps find their
clusters. -/
theorem sourcesFrom_lt {c res : Int} (n : Nat) : ∀ {offset : Int} {sources : Sources}, 0 < n → n < 2 ^ 31 →
    int32 offset = offset →
    sourcesFrom env fat16Private c offset n = .ok (res, sources) →
    (∀ t source, sources t = some source ↔ t < n ∧
      ∃ j, StaysFrom env fat16Private c (sizeOfClusterInBytes fat16Private) offset j t ∧
      source = (stepAt (sizeOfClusterInBytes fat16Private) offset j, t - sizeOfClusterInBytes fat16Private * j)) ∧
    (0 ≤ res ↔ ∀ j, sizeOfClusterInBytes fat16Private * j < n →
      Finds env fat16Private c (stepAt (sizeOfClusterInBytes fat16Private) offset j)) := by
  induction n using Nat.strong_induction_on with
  | _ n ih =>
    intro offset sources hn hlt ho h
    have htotal : uint32 n = n := uint32_of_lt (by omega)
    rcases of_sourcesFrom h with ⟨hno, rfl, rfl⟩ | ⟨hfinds, hless, rfl, rfl⟩ | ⟨hfinds, hmore, rest, hr, rfl⟩
    · -- the first step finds no cluster: nothing is read
      have hfirst : ¬ Finds env fat16Private c (stepAt (sizeOfClusterInBytes fat16Private) offset 0) := by
        rw [stepAt_zero ho]
        exact hno
      refine ⟨fun t source => ⟨nofun, ?_⟩, fun h => absurd h (by decide), fun h => absurd (h 0 (by omega)) hfirst⟩
      rintro ⟨-, j, hstays, -⟩
      exact absurd (hstays.1 0 (Nat.zero_le j)) hfirst
    · rw [htotal]
      refine ⟨fun t => staysFrom_first ho hfinds (by omega), fun _ j hj => ?_, fun _ => le_refl 0⟩
      have hj0 : j = 0 := by
        by_contra h0
        have := Nat.le_mul_of_pos_right (sizeOfClusterInBytes fat16Private) (Nat.pos_of_ne_zero h0)
        omega
      rw [hj0, stepAt_zero ho]
      exact hfinds
    · rw [htotal]
      obtain ⟨start, hstart⟩ := hfinds
      have hsize := sizeOfCluster_pos_of_stepStart hstart
      have hfinds : Finds env fat16Private c offset := ⟨start, hstart⟩
      obtain ⟨m, rfl⟩ : ∃ m, n = sizeOfClusterInBytes fat16Private + m :=
        ⟨n - sizeOfClusterInBytes fat16Private, by omega⟩
      have hm : ((sizeOfClusterInBytes fat16Private + m : Nat) : Int) - sizeOfClusterInBytes fat16Private =
        (m : Int) := by omega
      rw [hm] at hr
      have hnext : int32 (int32 (offset + sizeOfClusterInBytes fat16Private)) =
        int32 (offset + sizeOfClusterInBytes fat16Private) := by
        simpa using int32_int32_add (offset + sizeOfClusterInBytes fat16Private) 0
      obtain ⟨hiff, hres⟩ := ih m (by omega) (by omega) (by omega) hnext hr
      have hcovers : Finds env fat16Private c (int32 (offset + sizeOfClusterInBytes fat16Private)) →
        ∀ t < m, ∃ source, rest t = some source := by
        intro hf t ht
        exact sourcesFrom_covers hr hf (by rw [uint32_of_lt (by omega)]; exact ht)
      refine ⟨fun t source => ?_, ?_⟩
      · by_cases hin : sizeOfClusterInBytes fat16Private ≤ t
        · simp only [if_pos hin]
          constructor
          · intro h
            rcases Option.or_eq_some_iff.1 h with h | ⟨hnone, h⟩
            · obtain ⟨ht, j, hstays, rfl⟩ := (hiff _ _).1 h
              refine ⟨by omega, j + 1, (staysFrom_succ ho).2 ⟨hfinds, hin, hstays⟩, ?_⟩
              rw [stepAt_succ, Nat.mul_succ, Nat.sub_sub, Nat.add_comm]
            · split at h
              · rename_i ht
                cases h
                refine ⟨ht, 0, (staysFrom_zero ho).2 ⟨hfinds, .inr fun hf => ?_⟩, ?_⟩
                · obtain ⟨source, hsource⟩ := hcovers hf (t - sizeOfClusterInBytes fat16Private) (by omega)
                  rw [hnone] at hsource
                  cases hsource
                · rw [stepAt_zero ho, Nat.mul_zero, Nat.sub_zero]
              · cases h
          · rintro ⟨ht, j, hstays, rfl⟩
            cases j with
            | zero =>
              -- the next step finds no cluster: the bytes of the first stay
              obtain ⟨-, hno⟩ := (staysFrom_zero ho).1 hstays
              have hno := hno.resolve_left (by omega)
              have hnone : rest (t - sizeOfClusterInBytes fat16Private) = none := by
                refine Option.eq_none_iff_forall_ne_some.2 fun source h => ?_
                obtain ⟨-, i, hi, -⟩ := (hiff _ _).1 h
                have h0 := hi.1 0 (Nat.zero_le i)
                rw [stepAt_zero hnext] at h0
                exact hno h0
              rw [hnone, if_pos ht, stepAt_zero ho, Nat.mul_zero, Nat.sub_zero]
              rfl
            | succ j =>
              obtain ⟨-, -, hlater⟩ := (staysFrom_succ ho).1 hstays
              have hsource := (hiff (t - sizeOfClusterInBytes fat16Private) _).2 ⟨by omega, j, hlater, rfl⟩
              rw [hsource, stepAt_succ, Nat.mul_succ, Nat.sub_sub, Nat.add_comm]
              rfl
        · simp only [if_neg hin]
          exact staysFrom_first ho hfinds (by omega) source
      · rw [hres]
        constructor
        · intro h j hj
          cases j with
          | zero =>
            rw [stepAt_zero ho]
            exact hfinds
          | succ j =>
            rw [stepAt_succ]
            rw [Nat.mul_succ] at hj
            exact h j (by omega)
        · intro h j hj
          rw [← stepAt_succ]
          refine h (j + 1) ?_
          rw [Nat.mul_succ]
          omega

/-- All steps of a request of `n` bytes find their clusters. -/
def FindsAll (env : Env) (fat16Private : Fat16Private) (c : Int) (len : Nat) (offset : Int) (n : Nat) : Prop :=
  ∀ j, len * j < n → Finds env fat16Private c (stepAt len offset j)

theorem findsAll_one {c offset : Int} {len n : Nat} (ho : int32 offset = offset) (hn : 0 < n) (hle : n ≤ len) :
    FindsAll env fat16Private c len offset n ↔ Finds env fat16Private c offset := by
  unfold FindsAll
  constructor
  · intro h
    have h0 := h 0 (by rwa [Nat.mul_zero])
    rwa [stepAt_zero ho] at h0
  · intro h j hj
    have hj0 : j = 0 := by
      by_contra h0
      have := Nat.le_mul_of_pos_right len (Nat.pos_of_ne_zero h0)
      omega
    rw [hj0, stepAt_zero ho]
    exact h

/-- A request of any size, as the callers make it. -/
theorem sourcesFrom_request {c offset res : Int} {n : Nat} {sources : Sources} (hn : 0 < n) (hlt : n < 2 ^ 32)
    (ho : int32 offset = offset) (h : sourcesFrom env fat16Private c offset (int32 n) = .ok (res, sources)) :
    (∀ t source, sources t = some source ↔ t < n ∧
      ∃ j, StaysFrom env fat16Private c (stepLength fat16Private n) offset j t ∧
      source = (stepAt (stepLength fat16Private n) offset j, t - stepLength fat16Private n * j)) ∧
    (0 ≤ res ↔ FindsAll env fat16Private c (stepLength fat16Private n) offset n) := by
  unfold stepLength
  by_cases hsmall : n < 2 ^ 31
  · have htotal : int32 n = n := int32_of_lt (by omega) (by omega)
    rw [htotal] at h
    rw [if_pos hsmall]
    exact sourcesFrom_lt n hn hsmall ho h
  · rw [if_neg hsmall]
    -- the size is negative as an `int`: one step reads everything
    have hneg : int32 n < 0 := by
      unfold int32
      rw [Int.bmod_def]
      split <;> omega
    have htotal : uint32 (int32 n) = n := by rw [uint32_int32, uint32_of_lt hlt]
    rw [findsAll_one ho hn (le_refl n)]
    rcases of_sourcesFrom h with ⟨hno, rfl, rfl⟩ | ⟨hfinds, -, rfl, rfl⟩ | ⟨-, hmore, -⟩
    · refine ⟨fun t source => ⟨nofun, ?_⟩, fun h => absurd h (by decide), fun h => absurd h hno⟩
      rintro ⟨-, j, hstays, -⟩
      have h0 := hstays.1 0 (Nat.zero_le j)
      rw [stepAt_zero ho] at h0
      exact absurd h0 hno
    · rw [htotal]
      exact ⟨fun t => staysFrom_first ho hfinds id, fun _ => hfinds, fun _ => le_refl 0⟩
    · omega

/-- All steps of a read of `n` items find their clusters. -/
def ItemsFind (env : Env) (fat16Private : Fat16Private) (c pos size n : Nat) : Prop :=
  ∀ i < n, FindsAll env fat16Private c (stepLength fat16Private size) (itemOffset pos size i) size

/-- Byte `u` of item `i` stays as step `j` of the item reads it: the steps of the items before have all
found their clusters, and no later step goes over the byte. -/
def Stays (env : Env) (fat16Private : Fat16Private) (c pos size i j u : Nat) : Prop :=
  ItemsFind env fat16Private c pos size i ∧ u < size ∧
    StaysFrom env fat16Private c (stepLength fat16Private size) (itemOffset pos size i) j u

theorem itemsFind_succ (c pos size n : Nat) : ItemsFind env fat16Private c pos size (n + 1) ↔
    FindsAll env fat16Private c (stepLength fat16Private size) (int32 pos) size ∧
    ItemsFind env fat16Private c (pos + size) size n := by
  unfold ItemsFind
  constructor
  · intro h
    refine ⟨?_, fun i hi => ?_⟩
    · have h0 := h 0 (by omega)
      rwa [itemOffset_zero] at h0
    · rw [itemOffset_succ]
      exact h (i + 1) (by omega)
  · rintro ⟨h0, h⟩ i hi
    cases i with
    | zero =>
      rw [itemOffset_zero]
      exact h0
    | succ i =>
      rw [← itemOffset_succ]
      exact h i (by omega)

theorem stays_zero (c pos size j u : Nat) : Stays env fat16Private c pos size 0 j u ↔
    u < size ∧ StaysFrom env fat16Private c (stepLength fat16Private size) (int32 pos) j u := by
  unfold Stays
  rw [itemOffset_zero]
  exact ⟨fun h => h.2, fun h => ⟨fun i hi => absurd hi (Nat.not_lt_zero i), h⟩⟩

theorem stays_succ (c pos size i j u : Nat) : Stays env fat16Private c pos size (i + 1) j u ↔
    FindsAll env fat16Private c (stepLength fat16Private size) (int32 pos) size ∧
    Stays env fat16Private c (pos + size) size i j u := by
  unfold Stays
  rw [itemsFind_succ, itemOffset_succ, and_assoc]

/-- A read of items that returns: which steps' bytes stay, and whether all steps find their clusters. -/
theorem of_itemsSources {c size n : Nat} (hsize : 0 < size) (hlt : size < 2 ^ 32) :
    ∀ {pos : Nat} {res : Int} {sources : Sources},
    itemsSources env fat16Private c size n (int32 pos) = .ok (res, sources) →
    (∀ t source, sources t = some source ↔ t / size < n ∧
      ∃ j, Stays env fat16Private c pos size (t / size) j (t % size) ∧
      source = (stepAt (stepLength fat16Private size) (itemOffset pos size (t / size)) j,
        t % size - stepLength fat16Private size * j)) ∧
    (0 ≤ res ↔ ItemsFind env fat16Private c pos size n) := by
  induction n with
  | zero =>
    intro pos res sources h
    cases h
    refine ⟨fun t source => ⟨nofun, fun h => absurd h.1 (Nat.not_lt_zero _)⟩,
      fun _ i hi => absurd hi (Nat.not_lt_zero i), fun _ => le_refl 0⟩
  | succ n ih =>
    intro pos res sources h
    have ho : int32 (int32 pos) = int32 pos := by simpa using int32_int32_add pos 0
    rw [itemsSources] at h
    cases hr : sourcesFrom env fat16Private c (int32 pos) (int32 size) with
    | error e =>
      rw [hr] at h
      cases h
    | ok r =>
      obtain ⟨res0, first⟩ := r
      rw [hr] at h
      simp only [bind, Except.bind] at h
      obtain ⟨hfirst, hres0⟩ := sourcesFrom_request hsize hlt ho hr
      have hitem : ∀ t < size, ∀ source, first t = some source ↔ t / size < n + 1 ∧
          ∃ j, Stays env fat16Private c pos size (t / size) j (t % size) ∧
            source = (stepAt (stepLength fat16Private size) (itemOffset pos size (t / size)) j,
              t % size - stepLength fat16Private size * j) := by
        intro t ht source
        simp only [hfirst, Nat.div_eq_of_lt ht, Nat.mod_eq_of_lt ht, stays_zero, itemOffset_zero, ht,
          Nat.succ_pos, true_and]
      have hpast : ∀ u, first (size + u) = none := by
        intro u
        refine Option.eq_none_iff_forall_ne_some.2 fun source h => ?_
        have := ((hfirst _ _).1 h).1
        omega
      by_cases hneg : res0 < 0
      · -- a step of the first item finds no cluster: nothing of the later items stays
        have hno : ¬ FindsAll env fat16Private c (stepLength fat16Private size) (int32 pos) size := fun h => by
          have := hres0.2 h
          omega
        rw [if_pos hneg] at h
        cases h
        refine ⟨fun t source => ?_, fun h => absurd h (by decide), fun h => absurd ((itemsFind_succ ..).1 h).1 hno⟩
        by_cases hin : t < size
        · exact hitem t hin source
        · obtain ⟨u, rfl⟩ : ∃ u, t = size + u := ⟨t - size, by omega⟩
          rw [hpast, Nat.add_div_left u hsize]
          refine ⟨nofun, ?_⟩
          rintro ⟨-, j, hstays, -⟩
          exact absurd ((stays_succ ..).1 hstays).1 hno
      · have hall : FindsAll env fat16Private c (stepLength fat16Private size) (int32 pos) size := hres0.1 (by omega)
        rw [if_neg hneg, int32_natCast_add] at h
        cases hi : itemsSources env fat16Private c size n (int32 (pos + size : Nat)) with
        | error e =>
          rw [hi] at h
          cases h
        | ok r =>
          obtain ⟨res1, rest⟩ := r
          rw [hi] at h
          cases h
          obtain ⟨hiff, hres⟩ := ih hi
          refine ⟨fun t source => ?_, ?_⟩
          · by_cases hin : t < size
            · simp only [if_neg (show ¬ size ≤ t by omega)]
              exact hitem t hin source
            · obtain ⟨u, rfl⟩ : ∃ u, t = size + u := ⟨t - size, by omega⟩
              simp only [if_pos (Nat.le_add_right size u)]
              rw [hpast, Option.or_none, Nat.add_sub_cancel_left, hiff, Nat.add_div_left u hsize, Nat.add_mod_left,
                Nat.succ_lt_succ_iff]
              simp only [stays_succ, hall, true_and, itemOffset_succ]
          · rw [hres, itemsFind_succ]
            exact ⟨fun h => ⟨hall, h⟩, fun h => h.2⟩

/-! ## Places on the disk -/

/-- Where on the disk byte `i` of a read of a stream from `start` on is read, if it is inside the sector buffer. -/
def streamPlace (start i : Nat) : Option Nat :=
  if (start + i / 512 * 512) % 2 ^ 32 % 512 + i % 512 < 512 then some ((start + i) % 2 ^ 32) else none

theorem streamByte_place {start i q : Nat} (h : streamPlace start i = some q) :
    streamByte env start i = .ok (env.byteAt q) := by
  unfold streamPlace at h
  split at h
  · rename_i hin
    cases h
    unfold streamByte bufferAt
    simp only
    rw [dif_pos hin]
    unfold diskReadSectors Env.byteAt
    have hsector : (start + i) % 2 ^ 32 / 512 = (start + i / 512 * 512) % 2 ^ 32 / 512 := by omega
    have hindex : (start + i) % 2 ^ 32 % 512 = (start + i / 512 * 512) % 2 ^ 32 % 512 + i % 512 := by omega
    have hmod : (start + i / 512 * 512) % 2 ^ 32 / 512 % 2 ^ 24 = (start + i / 512 * 512) % 2 ^ 32 / 512 := by omega
    simp only [hsector, hindex, hmod]
  · cases h

/-- Where on the disk a source is read. -/
def sourcePlace (env : Env) (fat16Private : Fat16Private) (c : Int) (source : Int × Nat) : Option Nat := do
  let start ← stepStart env fat16Private c source.1
  streamPlace start source.2

theorem sourceByte_place {c : Int} {source : Int × Nat} {q : Nat} (h : sourcePlace env fat16Private c source = some q) :
    sourceByte env fat16Private c source = some (env.byteAt q) := by
  unfold sourcePlace at h
  unfold sourceByte
  obtain ⟨start, hstart, hq⟩ := Option.bind_eq_some_iff.1 h
  rw [hstart]
  show (streamByte env start source.2).toOption = _
  rw [streamByte_place hq]
  rfl

end

end SimpleMicrokernel.Fat16
