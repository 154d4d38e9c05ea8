/-
What a read of clusters gives depends on the disk and the header alone: every use of a stream seeks
first, so where the streams were left does not matter. The reads of `Fat16/Read.lean` are stated here
as functions of the disk, and the functions of the code give what these give in every state.
-/
import SimpleMicrokernel.Fat16.Descriptor

namespace SimpleMicrokernel.Fat16

open Memory Disk Fs

/-! ## The table -/

/-- The bytes of one read of a stream from a position on. -/
def readAt (env : Env) (pos total : Nat) : Except Halt (List Byte) := do
  let (_, bytes, _) ← diskStreamerRead env ⟨pos⟩ total
  return bytes

/-- Where the code looks for the entry of a cluster. -/
def fatEntryPos (fat16Private : Fat16Private) (cluster : Int) : Nat :=
  uint32 ((fat16GetFirstFatSector fat16Private * fat16Private.header.bytesPerSector.toNat % 2 ^ 32 : Nat) +
    cluster * fat16FatTableEntrySize)

/-- The entry of a cluster, as it is read. -/
def fatEntry (env : Env) (fat16Private : Fat16Private) (cluster : Int) : Except Halt Nat := do
  let bytes ← readAt env (fatEntryPos fat16Private cluster) 2
  return uint16OfBytes bytes

/-- The entries the walk stops at, as it compares them. -/
def Ends (entry : Int) : Prop :=
  (entry = 0xFF8 ∨ entry = 0xFFF) ∨ entry = fat16BadSector ∨ (entry = 0xFF0 ∨ entry = 0xFF6) ∨ entry = 0x00

instance (entry : Int) : Decidable (Ends entry) := inferInstanceAs (Decidable (_ ∨ _))

/-- The table followed for some entries, -1 at one the walk stops at. -/
def follow (entry : Int → Except Halt Nat) : Nat → Int → Except Halt Int
  | 0, cluster => return cluster
  | n + 1, cluster => do
    let next ← entry cluster
    if Ends (int32 next) then return -1 else follow entry n (int32 next)

/-- The cluster an offset is in, by the walk of the code. -/
def clusterForOffset (env : Env) (fat16Private : Fat16Private) (startingCluster offset : Int) : Except Halt Int :=
  if sizeOfClusterInBytes fat16Private = 0 then .error .divByZero
  else follow (fatEntry env fat16Private) (offset.tdiv (sizeOfClusterInBytes fat16Private)).toNat startingCluster

section
variable {env : Env} {s s' : Sys}

theorem seek_read_gives (env : Env) (id : StreamId) (pos : Int) (total : Nat) (s : Sys) :
    match readAt env (uint32 pos) total with
    | .error e => streamerRead env id total (s.setStream id ⟨uint32 pos⟩) = .error e
    | .ok bytes => ∃ res s', 0 < res ∧ SameButStreams s s' ∧
        streamerRead env id total (s.setStream id ⟨uint32 pos⟩) = .ok ((res, bytes), s') := by
  unfold readAt streamerRead
  simp only [Sys.setStream, Function.update_self]
  cases h : diskStreamerRead env ⟨uint32 pos⟩ total with
  | error e => rfl
  | ok r =>
    obtain ⟨res, bytes, stream⟩ := r
    exact ⟨res, (s.setStream id ⟨uint32 pos⟩).setStream id stream, (diskStreamerRead_length h).1, rfl, rfl⟩

theorem fat16GetFatEntry_gives (env : Env) (cluster : Int) (s : Sys) :
    Exec.Gives SameButStreams (fat16GetFatEntry env cluster) s (fatEntry env s.fat16Private cluster) := by
  have hread := seek_read_gives env .fatRead (fatEntryPos s.fat16Private cluster) 2 s
  have hat : readAt env (fatEntryPos s.fat16Private cluster) 2 =
    readAt env (uint32 (fatEntryPos s.fat16Private cluster)) 2 := by
    rw [show uint32 (fatEntryPos s.fat16Private cluster) = fatEntryPos s.fat16Private cluster from
      uint32_of_lt (uint32_lt _)]
  unfold fatEntry
  rw [hat]
  cases h : readAt env (uint32 (fatEntryPos s.fat16Private cluster)) 2 with
  | error e =>
    rw [h] at hread
    have hread : streamerRead env .fatRead 2 (s.setStream .fatRead ⟨uint32 (fatEntryPos s.fat16Private cluster)⟩) =
      .error e := hread
    show fat16GetFatEntry env cluster s = .error e
    unfold fat16GetFatEntry
    rw [Exec.bind_of_ok (Exec.get_apply s), Exec.bind_of_ok (streamerSeek_apply ..), if_neg (by decide)]
    exact Exec.bind_of_error hread
  | ok bytes =>
    rw [h] at hread
    obtain ⟨res, s', hres, hsame, e⟩ := hread
    refine ⟨s', hsame, ?_⟩
    unfold fat16GetFatEntry
    rw [Exec.bind_of_ok (Exec.get_apply s), Exec.bind_of_ok (streamerSeek_apply ..), if_neg (by decide)]
    refine (Exec.bind_of_ok e).trans ?_
    simp only
    rw [if_neg (by omega)]
    rfl

theorem fatEntry_stream (h : SameButStreams s s') (env : Env) :
    fatEntry env s'.fat16Private = fatEntry env s.fat16Private := by
  rw [h]
  rfl

theorem clusterLoop_gives (env : Env) (n : Nat) : ∀ (cluster : Int) (s : Sys),
    Exec.Gives SameButStreams (clusterLoop env n cluster) s (follow (fatEntry env s.fat16Private) n cluster) := by
  induction n with
  | zero => exact fun cluster s => Exec.gives_pure cluster s
  | succ n ih =>
    intro cluster s
    rw [clusterLoop, follow]
    refine (fat16GetFatEntry_gives env cluster s).bind fun next s' _ hsame => ?_
    have hrest := ih (int32 next) s'
    rw [fatEntry_stream hsame env] at hrest
    generalize int32 next = entry at hrest ⊢
    simp only
    by_cases h1 : entry = 0xFF8 ∨ entry = 0xFFF
    · rw [if_pos h1, if_pos (show Ends entry from .inl h1)]
      exact Exec.gives_pure _ _
    rw [if_neg h1]
    by_cases h2 : entry = fat16BadSector
    · rw [if_pos h2, if_pos (show Ends entry from .inr (.inl h2))]
      exact Exec.gives_pure _ _
    rw [if_neg h2]
    by_cases h3 : entry = 0xFF0 ∨ entry = 0xFF6
    · rw [if_pos h3, if_pos (show Ends entry from .inr (.inr (.inl h3)))]
      exact Exec.gives_pure _ _
    rw [if_neg h3]
    by_cases h4 : entry = 0x00
    · rw [if_pos h4, if_pos (show Ends entry from .inr (.inr (.inr h4)))]
      exact Exec.gives_pure _ _
    have hgo : ¬ Ends entry := fun h => h.elim h1 fun h => h.elim h2 fun h => h.elim h3 h4
    rw [if_neg h4, if_neg hgo]
    exact hrest

theorem fat16GetClusterForOffset_gives (env : Env) (startingCluster offset : Int) (s : Sys) :
    Exec.Gives SameButStreams (fat16GetClusterForOffset env startingCluster offset) s
      (clusterForOffset env s.fat16Private startingCluster offset) := by
  unfold fat16GetClusterForOffset clusterForOffset
  refine Exec.Gives.start (Exec.bind_of_ok (Exec.get_apply s)) (refl s) ?_
  simp only
  by_cases h0 : sizeOfClusterInBytes s.fat16Private = 0
  · rw [if_pos h0, if_pos h0]
    rfl
  · rw [if_neg h0, if_neg h0]
    exact clusterLoop_gives env _ startingCluster s

theorem clusterForOffset_stream (h : SameButStreams s s') (env : Env) :
    clusterForOffset env s'.fat16Private = clusterForOffset env s.fat16Private := by
  rw [h]
  rfl

end

/-! ## What a read leaves in memory -/

/-- The bytes that come to stand in memory, by how far from its start. -/
abbrev Written := Nat → Option Byte

def ofBytes (bytes : List Byte) : Written := fun d => bytes[d]?

/-- What is written first, and then `rest` from `len` bytes on. -/
def Written.followed (first : Written) (len : Nat) (rest : Written) : Written := fun d =>
  if len ≤ d then (rest (d - len)).or (first d) else first d

/-- The memory with these bytes from `out` on. -/
def Written.put (w : Written) (mem : Mem) (out : Nat) : Mem := fun x =>
  if out ≤ x then (w (x - out)).getD (mem x) else mem x

theorem put_ofBytes (bytes : List Byte) (mem : Mem) (out : Nat) :
    (ofBytes bytes).put mem out = store mem out bytes := by
  funext x
  rw [store_apply]
  rfl

theorem put_followed (first rest : Written) (len : Nat) (mem : Mem) (out : Nat) :
    rest.put (first.put mem out) (out + len) = (first.followed len rest).put mem out := by
  funext x
  unfold Written.put Written.followed
  by_cases h1 : out + len ≤ x
  · rw [if_pos h1, if_pos (by omega), if_pos (by omega), if_pos (by omega), Nat.sub_sub]
    cases rest (x - (out + len)) with
    | none => rfl
    | some b => rfl
  · rw [if_neg h1]
    by_cases h2 : out ≤ x
    · rw [if_pos h2, if_pos h2, if_neg (by omega)]
    · rw [if_neg h2, if_neg h2]

/-- Nothing. -/
def Written.nothing : Written := fun _ => none

theorem put_nothing (mem : Mem) (out : Nat) : Written.nothing.put mem out = mem := by
  funext x
  unfold Written.put
  split
  · rfl
  · rfl

/-- The result of a read from an offset on and what it writes: one step for each cluster size, and each
step writes all that is left. -/
def readFrom (env : Env) (fat16Private : Fat16Private) (cluster offset total : Int) : Except Halt (Int × Written) :=
  if sizeOfClusterInBytes fat16Private = 0 then .error .divByZero
  else do
    let clusterToUse ← clusterForOffset env fat16Private cluster offset
    if clusterToUse < 0 then return (-1, Written.nothing)
    else
      let bytes ← readAt env (clusterPos fat16Private clusterToUse (offset.tmod (sizeOfClusterInBytes fat16Private)))
        (uint32 total)
      if total > sizeOfClusterInBytes fat16Private then
        let (res, rest) ← readFrom env fat16Private cluster (int32 (offset + sizeOfClusterInBytes fat16Private))
          (total - sizeOfClusterInBytes fat16Private)
        return (res, (ofBytes bytes).followed (sizeOfClusterInBytes fat16Private) rest)
      else return (0, ofBytes bytes)
termination_by total.toNat
decreasing_by omega

/-- In the state `s` the computation stops, or gives a result and leaves bytes from `out` on, as `v` says. -/
def Reads (x : FsM Int) (s : Sys) (out : Nat) (v : Except Halt (Int × Written)) : Prop :=
  match v with
  | .error e => x s = .error e
  | .ok (res, w) => ∃ s', SameButStreams { s with mem := w.put s.mem out } s' ∧ x s = .ok (res, s')

section
variable {env : Env} {s s' : Sys}

theorem readFrom_stream (h : SameButStreams s s') (env : Env) (cluster : Int) (n : Nat) :
    ∀ {offset total : Int}, total.toNat = n →
    readFrom env s'.fat16Private cluster offset total = readFrom env s.fat16Private cluster offset total := by
  have hsize : sizeOfClusterInBytes s'.fat16Private = sizeOfClusterInBytes s.fat16Private := by rw [h]; rfl
  have hpos : clusterPos s'.fat16Private = clusterPos s.fat16Private := by rw [h]; rfl
  induction n using Nat.strong_induction_on with
  | _ n ih =>
    intro offset total hn
    rw [readFrom.eq_def env s'.fat16Private, readFrom.eq_def env s.fat16Private, clusterForOffset_stream h, hsize, hpos]
    split
    · rfl
    · rename_i h0
      congr 1
      funext cl
      split
      · rfl
      · congr 1
        funext bytes
        split
        · rw [ih (total - sizeOfClusterInBytes s.fat16Private).toNat (by omega) rfl]
        · rfl

/-- Up to the read of its first step, a read is a walk and a seek. -/
theorem fat16ReadInternalFromStream_eq (env : Env) (id : StreamId) {cluster offset cl : Int} (total : Int)
    (out : Nat) {s1 : Sys} (h0 : sizeOfClusterInBytes s.fat16Private ≠ 0)
    (hcl : fat16GetClusterForOffset env cluster offset s = .ok (cl, s1)) :
    fat16ReadInternalFromStream env id cluster offset total out s =
      if cl < 0 then .ok (-1, s1) else (do
        let (res, bytes) ← streamerRead env id (uint32 total)
        modify fun s => { s with mem := store s.mem out bytes }
        if res < 0 then
          return -1
        if total > sizeOfClusterInBytes s.fat16Private then
          fat16ReadInternalFromStream env id cluster (int32 (offset + sizeOfClusterInBytes s.fat16Private))
            (total - sizeOfClusterInBytes s.fat16Private) (out + sizeOfClusterInBytes s.fat16Private)
        else
          return 0 : FsM Int)
        (s1.setStream id ⟨clusterPos s.fat16Private cl (offset.tmod (sizeOfClusterInBytes s.fat16Private))⟩) := by
  rw [fat16ReadInternalFromStream, Exec.bind_of_ok (Exec.get_apply s)]
  simp only
  rw [if_neg h0, Exec.bind_of_ok hcl]
  by_cases hneg : cl < 0
  · rw [if_pos hneg, if_pos hneg]
    rfl
  · rw [if_neg hneg, if_neg hneg, Exec.bind_of_ok (streamerSeek_apply ..), if_neg (by decide), uint32_startingPos]
    by_cases hmore : total > sizeOfClusterInBytes s.fat16Private
    · simp only [if_pos hmore, if_pos (show total - (sizeOfClusterInBytes s.fat16Private : Int) > 0 by omega),
        Int.toNat_natCast]
    · simp only [if_neg hmore, sub_self, gt_iff_lt, lt_self_iff_false, if_false]

/-- The reads of the code are these reads. -/
theorem fat16ReadInternalFromStream_reads (env : Env) (id : StreamId) (cluster : Int) (n : Nat) :
    ∀ {offset total : Int} (out : Nat) (s : Sys),
    total.toNat = n → Reads (fat16ReadInternalFromStream env id cluster offset total out) s out
      (readFrom env s.fat16Private cluster offset total) := by
  induction n using Nat.strong_induction_on with
  | _ n ih =>
    intro offset total out s hn
    rw [readFrom]
    by_cases h0 : sizeOfClusterInBytes s.fat16Private = 0
    · rw [if_pos h0]
      show _ = _
      rw [fat16ReadInternalFromStream, Exec.bind_of_ok (Exec.get_apply s)]
      simp only
      rw [if_pos h0]
      rfl
    rw [if_neg h0]
    have hcluster := fat16GetClusterForOffset_gives env cluster offset s
    cases hv : clusterForOffset env s.fat16Private cluster offset with
    | error e =>
      rw [hv] at hcluster
      show _ = _
      rw [fat16ReadInternalFromStream, Exec.bind_of_ok (Exec.get_apply s)]
      simp only
      rw [if_neg h0]
      exact Exec.bind_of_error hcluster
    | ok cl =>
      rw [hv] at hcluster
      obtain ⟨s1, hsame1, hcl⟩ := hcluster
      have heq := fat16ReadInternalFromStream_eq env id total out h0 hcl
      simp only [bind, Except.bind]
      by_cases hneg : cl < 0
      · rw [if_pos hneg] at heq ⊢
        refine ⟨s1, ?_, heq⟩
        rw [put_nothing]
        exact hsame1
      rw [if_neg hneg] at heq ⊢
      have hpos : uint32 (clusterPos s.fat16Private cl (offset.tmod (sizeOfClusterInBytes s.fat16Private))) =
          clusterPos s.fat16Private cl (offset.tmod (sizeOfClusterInBytes s.fat16Private)) := uint32_of_lt (uint32_lt _)
      have hread := seek_read_gives env id
        (clusterPos s.fat16Private cl (offset.tmod (sizeOfClusterInBytes s.fat16Private))) (uint32 total) s1
      rw [hpos] at hread
      cases hb : readAt env (clusterPos s.fat16Private cl (offset.tmod (sizeOfClusterInBytes s.fat16Private)))
        (uint32 total) with
      | error e =>
        rw [hb] at hread
        exact heq.trans (Exec.bind_of_error hread)
      | ok bytes =>
        rw [hb] at hread
        obtain ⟨res, s2, hres, hsame2, e2⟩ := hread
        rw [Exec.bind_of_ok e2] at heq
        simp only at heq
        rw [Exec.bind_of_ok (Exec.modify_apply ..), if_neg (by omega)] at heq
        have hsame : SameButStreams { s with mem := store s.mem out bytes }
          { s2 with mem := store s2.mem out bytes } := by
          unfold SameButStreams at *
          rw [hsame2, hsame1]
        by_cases hmore : total > sizeOfClusterInBytes s.fat16Private
        · simp only [if_pos hmore] at heq ⊢
          have hrest : Reads (fat16ReadInternalFromStream env id cluster
            (int32 (offset + sizeOfClusterInBytes s.fat16Private))
              (total - sizeOfClusterInBytes s.fat16Private) (out + sizeOfClusterInBytes s.fat16Private))
              { s2 with mem := store s2.mem out bytes } (out + sizeOfClusterInBytes s.fat16Private) _ :=
            ih (total - sizeOfClusterInBytes s.fat16Private).toNat (by omega) _ _ rfl
          rw [readFrom_stream hsame env cluster _ rfl] at hrest
          cases hr : readFrom env s.fat16Private cluster (int32 (offset + sizeOfClusterInBytes s.fat16Private))
              (total - sizeOfClusterInBytes s.fat16Private) with
          | error e =>
            rw [hr] at hrest
            exact heq.trans hrest
          | ok r =>
            obtain ⟨res', rest⟩ := r
            rw [hr] at hrest
            obtain ⟨s3, hsame3, e3⟩ := hrest
            refine ⟨s3, ?_, heq.trans e3⟩
            rw [← put_followed, put_ofBytes]
            unfold SameButStreams at *
            rw [hsame3, hsame2, hsame1]
        · simp only [if_neg hmore] at heq ⊢
          refine ⟨_, ?_, heq⟩
          rw [put_ofBytes]
          exact hsame

/-! ## The bytes of a read from a cluster boundary on -/

theorem readAt_aligned (env : Env) {pos : Nat} (hpos : pos < 2 ^ 32) (halign : pos % 512 = 0) (total : Nat) :
    readAt env pos total = .ok (bytesAt env pos total) := by
  obtain ⟨res, -, e⟩ := diskStreamerRead_ok env hpos (.inl halign : InBuffer pos total)
  unfold readAt
  rw [e]
  rfl

theorem clusterPos_zero_mod (fat16Private : Fat16Private) (cluster : Int) :
    clusterPos fat16Private cluster 0 % 512 = 0 := by
  unfold clusterPos uint32 sectorSize
  omega

theorem clusterForOffset_congr (env : Env) (fat16Private : Fat16Private) (cluster : Int) {m m' : Nat}
    (h : m / sizeOfClusterInBytes fat16Private = m' / sizeOfClusterInBytes fat16Private) :
    clusterForOffset env fat16Private cluster m = clusterForOffset env fat16Private cluster m' := by
  unfold clusterForOffset
  rw [← Int.ofNat_tdiv, ← Int.ofNat_tdiv, h]

/-- A read that starts at a cluster boundary and does not fail leaves, byte for byte, the disk's bytes in
the clusters the walk gives. -/
theorem readFrom_bytes {fat16Private : Fat16Private} {cluster : Int} (n : Nat) : ∀ {k : Nat} {res : Int} {w : Written},
    readFrom env fat16Private cluster ((k * sizeOfClusterInBytes fat16Private : Nat) : Int) n = .ok (res, w) → 0 ≤ res →
    k * sizeOfClusterInBytes fat16Private + n < 2 ^ 31 → ∀ t < n, ∃ cl,
      clusterForOffset env fat16Private cluster ((k * sizeOfClusterInBytes fat16Private + t : Nat) : Int) = .ok cl ∧
      0 ≤ cl ∧
      w t = some (env.byteAt (clusterPos fat16Private cl (t % sizeOfClusterInBytes fat16Private : Nat))) := by
  induction n using Nat.strong_induction_on with
  | _ n ih =>
    intro k res w h hres hlt t ht
    rw [readFrom] at h
    by_cases h0 : sizeOfClusterInBytes fat16Private = 0
    · rw [if_pos h0] at h
      cases h
    rw [if_neg h0] at h
    have hsize : 0 < sizeOfClusterInBytes fat16Private := Nat.pos_of_ne_zero h0
    generalize hC : sizeOfClusterInBytes fat16Private = C at *
    cases hcl : clusterForOffset env fat16Private cluster ((k * C : Nat) : Int) with
    | error e =>
      rw [hcl] at h
      cases h
    | ok cl =>
      rw [hcl] at h
      simp only [bind, Except.bind] at h
      by_cases hneg : cl < 0
      · rw [if_pos hneg] at h
        cases h
        omega
      rw [if_neg hneg] at h
      have hzero : (((k * C : Nat) : Int)).tmod (C : Int) = 0 := by
        rw [← Int.ofNat_tmod, Nat.mul_mod_left]
        rfl
      have htotal : uint32 (n : Int) = n := uint32_of_lt (by omega)
      have hread : readAt env (clusterPos fat16Private cl 0) n = .ok (bytesAt env (clusterPos fat16Private cl 0) n) :=
        readAt_aligned env (uint32_lt _) (clusterPos_zero_mod ..) n
      rw [hzero, htotal, hread] at h
      simp only at h
      -- the bytes the first step reads
      have hbyte : ∀ t < n, (bytesAt env (clusterPos fat16Private cl 0) n)[t]? =
          some (env.byteAt (clusterPos fat16Private cl (t : Nat))) := by
        intro t ht
        rw [getElem?_bytesAt env ht]
        unfold clusterPos
        rw [uint32_add_natCast, Int.add_zero]
      have hfirst : t < C → clusterForOffset env fat16Private cluster ((k * C + t : Nat) : Int) = .ok cl := by
        intro htC
        rw [← hcl]
        refine clusterForOffset_congr env fat16Private cluster ?_
        rw [hC, Nat.mul_comm, Nat.mul_add_div hsize, Nat.div_eq_of_lt htC, Nat.mul_div_cancel_left _ hsize]
        rfl
      split at h
      · rename_i hmore
        obtain ⟨m, rfl⟩ : ∃ m, n = C + m := ⟨n - C, by omega⟩
        have hoffset : int32 (((k * C : Nat) : Int) + C) = (((k + 1) * C : Nat) : Int) := by
          rw [Nat.succ_mul, int32_of_lt (by omega) (by omega), Nat.cast_add]
        have hrest : ((C + m : Nat) : Int) - C = (m : Int) := by omega
        rw [hoffset, hrest] at h
        cases hr : readFrom env fat16Private cluster (((k + 1) * C : Nat) : Int) m with
        | error e =>
          rw [hr] at h
          cases h
        | ok r =>
          obtain ⟨res', rest⟩ := r
          rw [hr] at h
          cases h
          unfold Written.followed
          by_cases htC : t < C
          · refine ⟨cl, hfirst htC, by omega, ?_⟩
            rw [if_neg (by omega), Nat.mod_eq_of_lt htC]
            exact hbyte t ht
          · obtain ⟨u, rfl⟩ : ∃ u, t = C + u := ⟨t - C, by omega⟩
            obtain ⟨cl', hcl', hpos', hw⟩ := ih m (by omega) hr hres (by rw [Nat.succ_mul]; omega) u (by omega)
            refine ⟨cl', ?_, hpos', ?_⟩
            · have hsame : k * C + (C + u) = (k + 1) * C + u := by rw [Nat.succ_mul, Nat.add_assoc]
              rw [hsame]
              exact hcl'
            · rw [if_pos (by omega), Nat.add_sub_cancel_left, Nat.add_mod_left]
              show (rest u).or _ = _
              rw [hw]
              rfl
      · rename_i hmore
        cases h
        refine ⟨cl, hfirst (by omega), by omega, ?_⟩
        rw [Nat.mod_eq_of_lt (by omega)]
        exact hbyte t ht

end

end SimpleMicrokernel.Fat16
