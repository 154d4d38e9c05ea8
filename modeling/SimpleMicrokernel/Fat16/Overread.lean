/-
Each step of a cluster read asks for all that is left, from the place its cluster starts on the disk, and
the next step overwrites everything from the next cluster's bytes on. The read leaves what a read would
that asks for one cluster's bytes in each step.
-/
import SimpleMicrokernel.Fat16.Requests

namespace SimpleMicrokernel.Fat16

open Memory Disk Fs

/-- `fat16_read_internal_from_stream` with `total_to_read` in place of `total` in its read. -/
def readClusterByCluster (env : Env) (id : StreamId) (cluster offset total : Int) (out : Nat) : FsM Int := do
  let fsPrivate := (← get).fat16Private
  let sizeOfClusterBytes := sizeOfClusterInBytes fsPrivate
  if sizeOfClusterBytes = 0 then
    throw .divByZero
  else
    let clusterToUse ← fat16GetClusterForOffset env cluster offset
    if clusterToUse < 0 then
      return -1
    let offsetFromCluster := offset.tmod sizeOfClusterBytes
    let startingSector := fat16ClusterToSector fsPrivate clusterToUse
    let startingPos := int32 (uint32 (startingSector * sectorSize) + offsetFromCluster)
    let totalToRead := if total > sizeOfClusterBytes then (sizeOfClusterBytes : Int) else total
    let res ← streamerSeek id startingPos
    if res < 0 then
      return -1
    let (res, bytes) ← streamerRead env id (uint32 totalToRead)
    modify fun s => { s with mem := store s.mem out bytes }
    if res < 0 then
      return -1
    if total - totalToRead > 0 then
      readClusterByCluster env id cluster (int32 (offset + totalToRead)) (total - totalToRead)
        (out + totalToRead.toNat)
    else
      return 0
termination_by total.toNat
decreasing_by
  rename_i hmore
  have hread : totalToRead = min total sizeOfClusterBytes := by
    simp only [totalToRead]
    split <;> omega
  change (total - totalToRead).toNat < total.toNat
  omega

section
variable {env : Env} {s s' : Sys} {fat16Private : Fat16Private}

/-! ## Reads that always come back -/

/-- What lies past a sector buffer is always some byte. -/
def Overreads (env : Env) : Prop := ∀ pos index, ∃ b, env.overread pos index = .ok b

theorem bufferAt_total (hover : Overreads env) (pos : Nat) (buffer : Fin 512 → Byte) (index : Nat) :
    ∃ b, bufferAt env pos buffer index = .ok b := by
  unfold bufferAt
  split
  · exact ⟨_, rfl⟩
  · exact hover _ _

theorem readAt_total (hover : Overreads env) {pos : Nat} (total : Nat) (hpos : pos < 2 ^ 32) :
    ∃ bytes, readAt env pos total = .ok bytes :=
  (readAt_ok_iff env total hpos).2 fun i _ => by
    unfold streamByte
    exact bufferAt_total hover _ _ _

theorem fatEntry_total (hover : Overreads env) (fat16Private : Fat16Private) (c : Int) :
    ∃ entry, fatEntry env fat16Private c = .ok entry := by
  obtain ⟨bytes, hb⟩ := readAt_total hover 2 (show fatEntryPos fat16Private c <
    2 ^ 32 by rw [fatEntryPos]; apply uint32_lt)
  unfold fatEntry
  rw [hb]
  exact ⟨_, rfl⟩

theorem follow_total {entry : Int → Except Halt Nat} (h : ∀ c, ∃ e, entry c = .ok e) (n : Nat) (c : Int) :
    ∃ cl, follow entry n c = .ok cl := by
  induction n generalizing c with
  | zero => exact ⟨c, rfl⟩
  | succ n ih =>
    rw [follow]
    refine Exec.exists_bind_ok (h c) fun e => ?_
    split
    · exact ⟨-1, rfl⟩
    · exact ih _

theorem clusterForOffset_total (hover : Overreads env) (h0 : sizeOfClusterInBytes fat16Private ≠ 0) (c offset : Int) :
    ∃ cl, clusterForOffset env fat16Private c offset = .ok cl := by
  unfold clusterForOffset
  rw [if_neg h0]
  exact follow_total (fatEntry_total hover fat16Private) _ c

/-- A read gives a result whatever the disk holds. -/
theorem readFrom_total (hover : Overreads env) (h0 : sizeOfClusterInBytes fat16Private ≠ 0) (c : Int) (n : Nat) :
    ∀ {offset total : Int}, total.toNat = n → ∃ res w, readFrom env fat16Private c offset total = .ok (res, w) := by
  induction n using Nat.strong_induction_on with
  | _ n ih =>
    intro offset total hn
    obtain ⟨cl, hcl⟩ := clusterForOffset_total hover h0 c offset
    rw [readFrom, if_neg h0, hcl]
    simp only [bind, Except.bind]
    split
    · exact ⟨_, _, rfl⟩
    obtain ⟨bytes, hb⟩ := readAt_total hover (uint32 total)
      (show clusterPos fat16Private cl (offset.tmod (sizeOfClusterInBytes fat16Private)) < 2 ^ 32 from uint32_lt _)
    rw [hb]
    simp only
    split
    · obtain ⟨res, w, hr⟩ := ih (total - sizeOfClusterInBytes fat16Private).toNat (by omega) rfl
      rw [hr]
      exact ⟨_, _, rfl⟩
    · exact ⟨_, _, rfl⟩

/-! ## What is written -/

/-- Nothing is written past the bytes asked for. -/
theorem readFrom_inside {c : Int} (n : Nat) : ∀ {offset : Int} {res : Int} {w : Written}, n < 2 ^ 31 →
    readFrom env fat16Private c offset n = .ok (res, w) → ∀ t, n ≤ t → w t = none := by
  induction n using Nat.strong_induction_on with
  | _ n ih =>
    intro offset res w hlt h t ht
    have htotal : uint32 n = n := uint32_of_lt (by omega)
    rw [readFrom] at h
    split at h
    · cases h
    rename_i h0
    cases hcl : clusterForOffset env fat16Private c offset with
    | error e =>
      rw [hcl] at h
      cases h
    | ok cl =>
      rw [hcl] at h
      simp only [bind, Except.bind] at h
      split at h
      · cases h
        rfl
      rw [htotal] at h
      cases hb : readAt env (clusterPos fat16Private cl (offset.tmod (sizeOfClusterInBytes fat16Private))) n with
      | error e =>
        rw [hb] at h
        cases h
      | ok bytes =>
        have hlen := length_readAt (uint32_lt _) hb
        have hnone : ofBytes bytes t = none := List.getElem?_eq_none (by omega)
        rw [hb] at h
        simp only at h
        split at h
        · obtain ⟨m, rfl⟩ : ∃ m, n = sizeOfClusterInBytes fat16Private + m :=
            ⟨n - sizeOfClusterInBytes fat16Private, by omega⟩
          have hm : ((sizeOfClusterInBytes fat16Private + m : Nat) : Int) - sizeOfClusterInBytes fat16Private =
            (m : Int) := by omega
          rw [hm] at h
          cases hr : readFrom env fat16Private c (int32 (offset + sizeOfClusterInBytes fat16Private)) m with
          | error e =>
            rw [hr] at h
            cases h
          | ok r =>
            obtain ⟨res', rest⟩ := r
            rw [hr] at h
            cases h
            have hrest : rest (t - sizeOfClusterInBytes fat16Private) = none :=
              ih m (by omega) (by omega) hr _ (by omega)
            show (if _ then (rest _).or _ else _) = none
            rw [if_pos (by omega), hrest, hnone]
            rfl
        · cases h
          exact hnone

/-- A read that comes through leaves a byte at each place asked for. -/
theorem readFrom_some {c : Int} (n : Nat) : ∀ {offset : Int} {w : Written}, 0 < n → n < 2 ^ 31 →
    readFrom env fat16Private c offset n = .ok (0, w) → ∀ t < n, ∃ b, w t = some b := by
  induction n using Nat.strong_induction_on with
  | _ n ih =>
    intro offset w hn hlt h t ht
    have htotal : uint32 n = n := uint32_of_lt (by omega)
    obtain ⟨start, bytes, hstart, hb, hw⟩ := readFrom_ok_iff.1 h
    rw [htotal] at hb
    have hlen := length_readAt (stepStart_lt hstart) hb
    have hfirst : ofBytes bytes t = some bytes[t] := List.getElem?_eq_getElem (by omega)
    have hsize := sizeOfCluster_pos_of_stepStart hstart
    split at hw
    · obtain ⟨m, rfl⟩ : ∃ m, n = sizeOfClusterInBytes fat16Private + m :=
        ⟨n - sizeOfClusterInBytes fat16Private, by omega⟩
      have hm : ((sizeOfClusterInBytes fat16Private + m : Nat) : Int) - sizeOfClusterInBytes fat16Private =
        (m : Int) := by omega
      rw [hm] at hw
      obtain ⟨rest, hr, rfl⟩ := hw
      unfold Written.followed
      by_cases htC : sizeOfClusterInBytes fat16Private ≤ t
      · obtain ⟨b, hbt⟩ := ih m (by omega) (by omega) (by omega) hr (t - sizeOfClusterInBytes fat16Private) (by omega)
        rw [if_pos htC, hbt]
        exact ⟨b, rfl⟩
      · rw [if_neg htC]
        exact ⟨_, hfirst⟩
    · rw [hw]
      exact ⟨_, hfirst⟩

/-! ## One cluster at a time -/

/-- Up to the read of its first step, the read one cluster at a time is a walk and a seek. -/
theorem readClusterByCluster_eq (env : Env) (id : StreamId) {cluster offset cl : Int} (total : Int)
    (out : Nat) {s1 : Sys} (h0 : sizeOfClusterInBytes s.fat16Private ≠ 0)
    (hcl : fat16GetClusterForOffset env cluster offset s = .ok (cl, s1)) :
    readClusterByCluster env id cluster offset total out s =
      if cl < 0 then .ok (-1, s1) else (do
        let (res, bytes) ← streamerRead env id (uint32 (min total (sizeOfClusterInBytes s.fat16Private)))
        modify fun s => { s with mem := store s.mem out bytes }
        if res < 0 then
          return -1
        if total > sizeOfClusterInBytes s.fat16Private then
          readClusterByCluster env id cluster (int32 (offset + sizeOfClusterInBytes s.fat16Private))
            (total - sizeOfClusterInBytes s.fat16Private) (out + sizeOfClusterInBytes s.fat16Private)
        else
          return 0 : FsM Int)
        (s1.setStream id ⟨clusterPos s.fat16Private cl (offset.tmod (sizeOfClusterInBytes s.fat16Private))⟩) := by
  rw [readClusterByCluster, Exec.bind_of_ok (Exec.get_apply s)]
  simp only
  rw [if_neg h0, Exec.bind_of_ok hcl]
  by_cases hneg : cl < 0
  · rw [if_pos hneg, if_pos hneg]
    rfl
  · rw [if_neg hneg, if_neg hneg, Exec.bind_of_ok (streamerSeek_apply ..), if_neg (by decide), uint32_startingPos]
    by_cases hmore : total > sizeOfClusterInBytes s.fat16Private
    · simp only [if_pos hmore, if_pos (show total - (sizeOfClusterInBytes s.fat16Private : Int) > 0 by omega),
        Int.toNat_natCast, Int.min_eq_right (Int.le_of_lt hmore)]
    · simp only [if_neg hmore, sub_self, gt_iff_lt, lt_self_iff_false, if_false, Int.min_eq_left (Int.not_lt.1 hmore)]

/-- Where a read gives a result, the read one cluster at a time gives it too, and the same bytes. -/
theorem readClusterByCluster_of_readFrom (id : StreamId) {cluster : Int} (n : Nat) :
    ∀ {offset res : Int} {w : Written} (out : Nat) (s : Sys),
    0 < n → n < 2 ^ 31 → readFrom env s.fat16Private cluster offset n = .ok (res, w) →
    ∃ (w' : Written) (s' : Sys), SameButStreams { s with mem := w'.put s.mem out } s' ∧
    readClusterByCluster env id cluster offset n out s = .ok (res, s') ∧
      (res = 0 → ∀ t < n, w' t = w t) := by
  induction n using Nat.strong_induction_on with
  | _ n ih =>
    intro offset res w out s hn hlt h
    have htotal : uint32 n = n := uint32_of_lt (by omega)
    rw [readFrom] at h
    split at h
    · cases h
    rename_i h0
    have hcluster := fat16GetClusterForOffset_gives env cluster offset s
    cases hcl : clusterForOffset env s.fat16Private cluster offset with
    | error e =>
      rw [hcl] at h
      cases h
    | ok cl =>
      rw [hcl] at h hcluster
      obtain ⟨s1, hsame1, e1⟩ := hcluster
      have heq := readClusterByCluster_eq env id n out h0 e1
      simp only [bind, Except.bind] at h
      by_cases hneg : cl < 0
      · rw [if_pos hneg] at h heq
        cases h
        refine ⟨Written.nothing, s1, ?_, heq, fun _ _ _ => rfl⟩
        rw [put_nothing]
        exact hsame1
      rw [if_neg hneg] at h heq
      rw [htotal] at h
      generalize hpos : clusterPos s.fat16Private cl (offset.tmod (sizeOfClusterInBytes s.fat16Private)) = pos at h heq
      have hlt32 : pos < 2 ^ 32 := by
        rw [← hpos]
        exact uint32_lt _
      cases hb : readAt env pos n with
      | error e =>
        rw [hb] at h
        cases h
      | ok bytes =>
        rw [hb] at h
        -- the bytes of this cluster are a prefix of what the step of the code reads
        obtain ⟨bytes', hb'⟩ := readAt_mono hlt32 (Nat.min_le_left n (sizeOfClusterInBytes s.fat16Private)) hb
        have hask : uint32 (min (n : Int) (sizeOfClusterInBytes s.fat16Private)) =
          min n (sizeOfClusterInBytes s.fat16Private) := by
          rw [show min (n : Int) (sizeOfClusterInBytes s.fat16Private) =
            ((min n (sizeOfClusterInBytes s.fat16Private) : Nat) : Int) by omega]
          exact uint32_of_lt (by omega)
        rw [hask] at heq
        have hread := seek_read_gives env id pos (min n (sizeOfClusterInBytes s.fat16Private)) s1
        rw [uint32_of_lt hlt32, hb'] at hread
        obtain ⟨res', s2, hres', hsame2, e2⟩ := hread
        rw [Exec.bind_of_ok e2] at heq
        simp only at heq h
        rw [Exec.bind_of_ok (Exec.modify_apply ..), if_neg (by omega)] at heq
        have hsame : SameButStreams { s with mem := store s.mem out bytes' }
          { s2 with mem := store s2.mem out bytes' } := by
          unfold SameButStreams at *
          rw [hsame2, hsame1]
        have hbyte : ∀ t, t < n → t < sizeOfClusterInBytes s.fat16Private → ofBytes bytes' t = ofBytes bytes t := by
          intro t ht htC
          rw [ofBytes_readAt hlt32 hb ht, ofBytes_readAt hlt32 hb' (by omega)]
        by_cases hmore : (n : Int) > sizeOfClusterInBytes s.fat16Private
        · obtain ⟨m, rfl⟩ : ∃ m, n = sizeOfClusterInBytes s.fat16Private + m :=
            ⟨n - sizeOfClusterInBytes s.fat16Private, by omega⟩
          have hm : ((sizeOfClusterInBytes s.fat16Private + m : Nat) : Int) - sizeOfClusterInBytes s.fat16Private =
            (m : Int) := by omega
          rw [if_pos hmore, hm] at h heq
          cases hr : readFrom env s.fat16Private cluster (int32 (offset + sizeOfClusterInBytes s.fat16Private)) m with
          | error e =>
            rw [hr] at h
            cases h
          | ok r =>
            obtain ⟨res'', rest⟩ := r
            rw [hr] at h
            cases h
            have hr' := hr
            rw [← readFrom_stream hsame env cluster _ rfl] at hr'
            obtain ⟨rest', s3, hsame3, e3, heqrest⟩ := ih m (by omega) (out + sizeOfClusterInBytes s.fat16Private)
              { s2 with mem := store s2.mem out bytes' } (by omega) (by omega) hr'
            refine ⟨(ofBytes bytes').followed (sizeOfClusterInBytes s.fat16Private) rest', s3, ?_, heq.trans e3, ?_⟩
            · rw [← put_followed, put_ofBytes]
              unfold SameButStreams at *
              rw [hsame3, hsame2, hsame1]
            · intro hres t ht
              have hr0 : readFrom env s.fat16Private cluster (int32 (offset + sizeOfClusterInBytes s.fat16Private)) m =
                .ok (0, rest) := by
                rw [hr]
                exact congrArg (fun res => Except.ok (res, rest)) hres
              unfold Written.followed
              by_cases htC : sizeOfClusterInBytes s.fat16Private ≤ t
              · -- the next step leaves a byte here, so what this one left does not matter
                obtain ⟨b, hbt⟩ := readFrom_some m (by omega) (by omega) hr0
                  (t - sizeOfClusterInBytes s.fat16Private) (by omega)
                rw [if_pos htC, if_pos htC]
                show (rest' _).or _ = (rest _).or _
                rw [heqrest hres _ (by omega), hbt]
                rfl
              · rw [if_neg htC, if_neg htC]
                exact hbyte t ht (by omega)
        · rw [if_neg hmore] at h heq
          cases h
          refine ⟨ofBytes bytes', _, ?_, heq, fun _ t ht => hbyte t ht (by omega)⟩
          rw [put_ofBytes]
          exact hsame

theorem put_inside {w : Written} {n : Nat} (h : ∀ t, n ≤ t → w t = none) (mem : Mem) (out : Nat) {x : Nat}
    (hx : x < out ∨ out + n ≤ x) :
    w.put mem out x = mem x := by
  unfold Written.put
  split
  · rw [h (x - out) (by omega)]
    rfl
  · rfl

/-- Reading all that is left in each step does no harm: the result is that of reading one cluster in each,
what is written is inside the bytes asked for, and they are the same if the result is 0. -/
theorem fat16ReadInternalFromStream_overread (hover : Overreads env) (id : StreamId) (cluster offset : Int)
    {n : Nat} (out : Nat) (hsize : 0 < sizeOfClusterInBytes s.fat16Private) (hn : 1 ≤ n) (hlt : n < 2 ^ 31) :
    ∃ res s1 s2, fat16ReadInternalFromStream env id cluster offset n out s = .ok (res, s1) ∧
      readClusterByCluster env id cluster offset n out s = .ok (res, s2) ∧
      (∀ x, x < out ∨ out + n ≤ x → s1.mem x = s.mem x) ∧
      (res = 0 → ∀ t < n, s1.mem (out + t) = s2.mem (out + t)) := by
  have htotal : ∃ res w, readFrom env s.fat16Private cluster offset n = .ok (res, w) :=
    readFrom_total hover (by omega) cluster _ rfl
  obtain ⟨res, w, hr⟩ := htotal
  have hreads : Reads (fat16ReadInternalFromStream env id cluster offset n out) s out
    (readFrom env s.fat16Private cluster offset n) :=
    fat16ReadInternalFromStream_reads env id cluster _ out s rfl
  rw [hr] at hreads
  obtain ⟨s1, hsame1, e1⟩ := hreads
  obtain ⟨w', s2, hsame2, e2, hbytes⟩ := readClusterByCluster_of_readFrom id n out s hn hlt hr
  have hmem1 : s1.mem = w.put s.mem out := by rw [hsame1]
  have hmem2 : s2.mem = w'.put s.mem out := by rw [hsame2]
  refine ⟨res, s1, s2, e1, e2, fun x hx => ?_, fun hres t ht => ?_⟩
  · rw [hmem1]
    exact put_inside (readFrom_inside n hlt hr) s.mem out hx
  · rw [hmem1, hmem2]
    unfold Written.put
    rw [Nat.add_sub_cancel_left, hbytes hres t ht]

/-- Three clusters of one sector, read with 1100 bytes asked for from offset 100 on. -/
theorem fat16ReadInternalFromStream_overread_three :
    ∃ res s1 s2, fat16ReadInternalFromStream zeroDisk .clusterRead 2 100
    (1100 : Nat) 0 oneSectorClusters = .ok (res, s1) ∧
      readClusterByCluster zeroDisk .clusterRead 2 100 (1100 : Nat) 0 oneSectorClusters = .ok (res, s2) ∧
      (∀ x, x < 0 ∨ 0 + 1100 ≤ x → s1.mem x = oneSectorClusters.mem x) ∧
      (res = 0 → ∀ t < 1100, s1.mem (0 + t) = s2.mem (0 + t)) :=
  fat16ReadInternalFromStream_overread (fun _ _ => ⟨0, rfl⟩) .clusterRead 2 100 0 (by decide) (by decide) (by decide)

end

end SimpleMicrokernel.Fat16
