/-
Reading a file's clusters. One call of `fat16_read_internal_from_stream` is a run of steps, one for
each cluster size; a step reads all that is left, contiguously on the disk from the step's
offset in its cluster on, and the next step overwrites what lies a cluster size or more further.
What stays of a step is what it read up to one cluster size from its start.
-/
import SimpleMicrokernel.Fat16.Cluster

namespace SimpleMicrokernel.Fat16

open Memory Disk Fs

def fat16GetFirstCluster (item : Fat16DirectoryItem) : Nat :=
  (item.high16BitsFirstCluster ||| item.low16BitsFirstCluster).toNat

/-- `int` arguments are the values C passes; `out` is an address. The walk divides by the cluster
size before anything is read. -/
def fat16ReadInternalFromStream (env : Env) (id : StreamId) (cluster offset total : Int) (out : Nat) : FsM Int := do
  let fsPrivate := (← get).fat16Private
  let sizeOfClusterBytes := sizeOfClusterInBytes fsPrivate
  if sizeOfClusterBytes = 0 then
    throw .divByZero
  else
    let clusterToUse ← fat16GetClusterForOffset env cluster offset
    if clusterToUse < 0 then
      return -1
    let offsetFromCluster := offset.tmod sizeOfClusterBytes
    let startingSector := fat16ClusterToSector fsPrivate clusterToUse
    let startingPos := int32 (uint32 (startingSector * sectorSize) + offsetFromCluster)
    let totalToRead := if total > sizeOfClusterBytes then (sizeOfClusterBytes : Int) else total
    let res ← streamerSeek id startingPos
    if res < 0 then
      return -1
    let (res, bytes) ← streamerRead env id (uint32 total)
    modify fun s => { s with mem := store s.mem out bytes }
    if res < 0 then
      return -1
    if total - totalToRead > 0 then
      fat16ReadInternalFromStream env id cluster (int32 (offset + totalToRead)) (total - totalToRead)
        (out + totalToRead.toNat)
    else
      return 0
termination_by total.toNat
decreasing_by
  rename_i hmore
  have hread : totalToRead = min total sizeOfClusterBytes := by
    simp only [totalToRead]
    split <;> omega
  change (total - totalToRead).toNat < total.toNat
  omega

def fat16ReadInternal (env : Env) (startingCluster : Nat) (offset total : Int) (out : Nat) : FsM Int :=
  fat16ReadInternalFromStream env .clusterRead startingCluster offset total out

/-! ## Where a step reads -/

/-- The disk position of byte `d` of a cluster. -/
def clusterPos (fat16Private : Fat16Private) (cluster d : Int) : Nat :=
  uint32 (fat16ClusterToSector fat16Private cluster * sectorSize + d)

/-- How much of a step's read stays, for a request of `size` bytes: a cluster, or everything when
the size is not positive as an `int`. -/
def stepLength (fat16Private : Fat16Private) (size : Nat) : Nat :=
  if size < 2 ^ 31 then sizeOfClusterInBytes fat16Private else size

/-- The `int` offset at which the step starts that leaves byte `t` of a request at `offset`. -/
def stepOffset (len : Nat) (offset : Int) (t : Nat) : Int := int32 (offset + len * (t / len : Nat))

/-- The cluster the walk gives for an `int` offset. -/
def clusterOf (env : Env) (fat16Private : Fat16Private) (c : Nat) (offset : Int) : Nat :=
  walk (fat env fat16Private) c (offset.tdiv (sizeOfClusterInBytes fat16Private)).toNat

/-- The disk byte that a request at `offset` leaves as its byte `t`: `t % len` bytes on from where
its step started, whether or not the cluster ends before. -/
def stepByte (env : Env) (fat16Private : Fat16Private) (c len : Nat) (offset : Int) (t : Nat) : Byte :=
  env.byteAt (clusterPos fat16Private (clusterOf env fat16Private c (stepOffset len offset t))
    ((stepOffset len offset t).tmod (sizeOfClusterInBytes fat16Private) + (t % len : Nat)))

/-- All the bytes a request leaves. -/
def requestBytes (env : Env) (fat16Private : Fat16Private) (c len : Nat) (offset : Int) (n : Nat) : List Byte :=
  (List.range n).map (stepByte env fat16Private c len offset)

/-- The walk comes to a cluster for the offset by entries inside their sectors. -/
def WalksTo (env : Env) (fat16Private : Fat16Private) (c : Nat) (offset : Int) : Prop :=
  walkResult (fat env fat16Private) (InSector fat16Private)
    (offset.tdiv (sizeOfClusterInBytes fat16Private)).toNat c = some (clusterOf env fat16Private c offset : Int)

theorem int32_int32_add (x y : Int) : int32 (int32 x + y) = int32 (x + y) := by
  unfold int32
  exact Int.bmod_add_bmod

theorem uint32_add_natCast (x : Int) (t : Nat) : (uint32 x + t) % 2 ^ 32 = uint32 (x + t) := by
  unfold uint32
  omega

theorem uint32_startingPos (fat16Private : Fat16Private) (cluster d : Int) :
    uint32 (int32 (uint32 (fat16ClusterToSector fat16Private cluster * sectorSize) + d)) =
      clusterPos fat16Private cluster d := by
  rw [uint32_int32]
  unfold clusterPos uint32
  omega

section
variable {env : Env} {s : Sys}

/-- One step: the bytes from the step's place on are copied, and the rest is read by the next. -/
theorem readStep {s1 : Sys} (id : StreamId) {cluster offset cl : Int} (total : Int) (out : Nat)
    (hsize : 0 < sizeOfClusterInBytes s.fat16Private)
    (hcl : fat16GetClusterForOffset env cluster offset s = .ok (cl, s1)) (hsame : SameButStreams s s1) (h0 : 0 ≤ cl)
    (hbuf : InBuffer (clusterPos s.fat16Private cl (offset.tmod (sizeOfClusterInBytes s.fat16Private)))
      (uint32 total)) :
    ∃ s', SameButStreams { s with mem := store s.mem out (bytesAt env
      (clusterPos s.fat16Private cl (offset.tmod (sizeOfClusterInBytes s.fat16Private))) (uint32 total)) } s' ∧
      fat16ReadInternalFromStream env id cluster offset total out s =
        if total > sizeOfClusterInBytes s.fat16Private then
          fat16ReadInternalFromStream env id cluster (int32 (offset + sizeOfClusterInBytes s.fat16Private))
            (total - sizeOfClusterInBytes s.fat16Private) (out + sizeOfClusterInBytes s.fat16Private) s'
        else .ok (0, s') := by
  rw [← uint32_startingPos] at hbuf ⊢
  obtain ⟨res, s2, hres, hsame2, e⟩ := seek_read_ok env id _ _ s1 hbuf
  refine ⟨{ s2 with mem := store s.mem out (bytesAt env (uint32 (int32 (uint32
    (fat16ClusterToSector s.fat16Private cl * sectorSize) + offset.tmod (sizeOfClusterInBytes s.fat16Private))))
      (uint32 total)) }, ?_, ?_⟩
  · unfold SameButStreams at *
    rw [hsame2, hsame]
  · have hmem : s2.mem = s.mem := by rw [hsame2, hsame]
    rw [fat16ReadInternalFromStream, Exec.bind_of_ok (Exec.get_apply s)]
    simp only
    rw [if_neg (Nat.ne_of_gt hsize), Exec.bind_of_ok hcl, if_neg (by omega), Exec.bind_of_ok (streamerSeek_apply ..),
      if_neg (by decide), Exec.bind_of_ok e]
    simp only
    rw [Exec.bind_of_ok (Exec.modify_apply ..), if_neg (by omega), hmem]
    by_cases hmore : total > sizeOfClusterInBytes s.fat16Private
    · rw [if_pos hmore, if_pos hmore, if_pos (by omega), Int.toNat_natCast]
    · rw [if_neg hmore, if_neg hmore, if_neg (by omega)]
      rfl

theorem readStep_halts {e : Halt} (hover : ∀ pos index, env.overread pos index = .error e) {s1 : Sys} (id : StreamId)
    {cluster offset total cl : Int} (out : Nat) (hsize : 0 < sizeOfClusterInBytes s.fat16Private)
    (hcl : fat16GetClusterForOffset env cluster offset s = .ok (cl, s1)) (h0 : 0 ≤ cl)
    (hbuf : ¬ InBuffer (clusterPos s.fat16Private cl (offset.tmod (sizeOfClusterInBytes s.fat16Private)))
      (uint32 total)) :
    fat16ReadInternalFromStream env id cluster offset total out s = .error e := by
  rw [← uint32_startingPos] at hbuf
  rw [fat16ReadInternalFromStream, Exec.bind_of_ok (Exec.get_apply s)]
  simp only
  rw [if_neg (Nat.ne_of_gt hsize), Exec.bind_of_ok hcl, if_neg (by omega), Exec.bind_of_ok (streamerSeek_apply ..),
    if_neg (by decide)]
  exact Exec.bind_of_error (streamerRead_halts hover id _ _ s1 hbuf)

theorem inBuffer_clusterPos (fat16Private : Fat16Private) (cluster offset : Int) (n : Nat) :
    InBuffer (clusterPos fat16Private cluster (offset.tmod (sizeOfClusterInBytes fat16Private))) n ↔
    InBuffer (uint32 offset) n := by
  have hmod : (offset.tmod (sizeOfClusterInBytes fat16Private : Int)) % 512 = offset % 512 := by
    have h1 := Int.tmod_add_mul_tdiv offset (sizeOfClusterInBytes fat16Private)
    have h2 : (sizeOfClusterInBytes fat16Private : Int) = fat16Private.header.sectorsPerCluster.toNat * 512 := rfl
    rw [h2] at h1 ⊢
    generalize offset.tdiv ((fat16Private.header.sectorsPerCluster.toNat : Int) * 512) = k at h1
    generalize offset.tmod ((fat16Private.header.sectorsPerCluster.toNat : Int) * 512) = r at h1 ⊢
    rw [← h1, Int.mul_assoc, Int.mul_comm, Int.mul_assoc, Int.add_mul_emod_self_left]
  have hpos : clusterPos fat16Private cluster (offset.tmod (sizeOfClusterInBytes fat16Private)) % 512 =
    uint32 offset % 512 := by
    unfold clusterPos uint32 sectorSize
    generalize fat16ClusterToSector fat16Private cluster = k
    generalize offset.tmod (sizeOfClusterInBytes fat16Private) = r at hmod
    omega
  unfold InBuffer
  rw [hpos]

theorem bytesAt_eq_map (env : Env) (fat16Private : Fat16Private) (c : Nat) {len n : Nat} {offset : Int}
    (ho : int32 offset = offset) (hn : n ≤ len) :
    bytesAt env (clusterPos fat16Private (clusterOf env fat16Private c offset)
      (offset.tmod (sizeOfClusterInBytes fat16Private))) n = requestBytes env fat16Private c len offset n := by
  unfold bytesAt requestBytes
  refine List.map_congr_left fun t ht => ?_
  have ht : t < n := List.mem_range.1 ht
  have hstep : stepOffset len offset t = offset := by
    unfold stepOffset
    rw [Nat.div_eq_of_lt (by omega)]
    simpa using ho
  unfold stepByte clusterPos
  rw [uint32_add_natCast, hstep, Nat.mod_eq_of_lt (by omega), Int.add_assoc]

theorem stepOffset_add {len : Nat} (hlen : 0 < len) (offset : Int) (t : Nat) :
    stepOffset len offset (len + t) = stepOffset len (int32 (offset + len)) t := by
  unfold stepOffset
  rw [int32_int32_add, Nat.add_div_left t hlen]
  congr 1
  push_cast
  ring

theorem requestBytes_add (env : Env) (fat16Private : Fat16Private) (c : Nat) {len : Nat} (hlen : 0 < len) (offset : Int)
    (n : Nat) : requestBytes env fat16Private c len offset (len + n) =
      requestBytes env fat16Private c len offset len ++
      requestBytes env fat16Private c len (int32 (offset + len)) n := by
  unfold requestBytes
  rw [List.range_add, List.map_append, List.map_map]
  congr 1
  refine List.map_congr_left fun t _ => ?_
  simp only [Function.comp, stepByte, stepOffset_add hlen, Nat.add_mod_left]

@[simp] theorem length_requestBytes (env : Env) (fat16Private : Fat16Private) (c len : Nat) (offset : Int) (n : Nat) :
    (requestBytes env fat16Private c len offset n).length = n := by
  simp [requestBytes]

/-- A request of less than `2^31` bytes, all of whose steps walk to a cluster and start where the
sector buffers allow, leaves its bytes. -/
theorem readInternal_lt {c : Nat} (id : StreamId) {n : Nat} (hn : 0 < n) (hlt : n < 2 ^ 31) :
    ∀ (offset : Int) (out : Nat) (s : Sys),
    0 < sizeOfClusterInBytes s.fat16Private → int32 offset = offset →
    (∀ t < n, WalksTo env s.fat16Private c (stepOffset (sizeOfClusterInBytes s.fat16Private) offset t)) →
    InBuffer (uint32 offset) n →
    ∃ s', SameButStreams { s with mem := store s.mem out (requestBytes env s.fat16Private c
        (sizeOfClusterInBytes s.fat16Private) offset n) } s' ∧
      fat16ReadInternalFromStream env id c offset n out s = .ok (0, s') := by
  induction n using Nat.strong_induction_on with
  | _ n ih =>
    intro offset out s hsize ho hwalk hbuf
    have htotal : uint32 n = n := uint32_of_lt (by omega)
    have hfirst : stepOffset (sizeOfClusterInBytes s.fat16Private) offset 0 = offset := by
      unfold stepOffset
      rw [Nat.zero_div]
      simpa using ho
    have hw := hwalk 0 hn
    rw [hfirst] at hw
    obtain ⟨s1, hsame1, hcl⟩ := fat16GetClusterForOffset_ok env hsize hw
    obtain ⟨s2, hsame2, e⟩ := readStep id n out hsize hcl hsame1 (by omega)
      ((inBuffer_clusterPos ..).2 (by rw [htotal]; exact hbuf))
    rw [e]
    rw [htotal] at hsame2
    by_cases hmore : (n : Int) > sizeOfClusterInBytes s.fat16Private
    · rw [if_pos hmore]
      obtain ⟨m, rfl⟩ : ∃ m, n = sizeOfClusterInBytes s.fat16Private + m :=
        ⟨n - sizeOfClusterInBytes s.fat16Private, by omega⟩
      have hpriv : fat env s2.fat16Private = fat env s.fat16Private ∧
          WalksTo env s2.fat16Private = WalksTo env s.fat16Private ∧
          sizeOfClusterInBytes s2.fat16Private = sizeOfClusterInBytes s.fat16Private ∧
          requestBytes env s2.fat16Private = requestBytes env s.fat16Private := by
        rw [hsame2]; exact ⟨rfl, rfl, rfl, rfl⟩
      -- the next step starts a cluster size further and stays in the buffers because this one did
      have hdvd : sizeOfClusterInBytes s.fat16Private % 512 = 0 := Nat.mul_mod_left _ _
      have hbuf' : InBuffer (uint32 (int32 (offset + sizeOfClusterInBytes s.fat16Private))) m := by
        rw [uint32_int32]
        unfold InBuffer uint32 at *
        omega
      obtain ⟨s3, hsame3, e3⟩ := ih m (by omega) (by omega) (by omega)
        (int32 (offset + sizeOfClusterInBytes s.fat16Private)) (out + sizeOfClusterInBytes s.fat16Private) s2 (by omega)
        (by simpa using int32_int32_add (offset + sizeOfClusterInBytes s.fat16Private) 0)
        (fun t ht => by
          rw [hpriv.2.1, hpriv.2.2.1, ← stepOffset_add hsize]
          exact hwalk _ (by omega)) hbuf'
      refine ⟨s3, ?_, ?_⟩
      · have hmem : store s2.mem (out + sizeOfClusterInBytes s.fat16Private)
            (requestBytes env s.fat16Private c (sizeOfClusterInBytes s.fat16Private)
              (int32 (offset + sizeOfClusterInBytes s.fat16Private)) m) =
            store s.mem out (requestBytes env s.fat16Private c (sizeOfClusterInBytes s.fat16Private) offset
              (sizeOfClusterInBytes s.fat16Private + m)) := by
          have htake : (bytesAt env (clusterPos s.fat16Private (clusterOf env s.fat16Private c offset)
              (offset.tmod (sizeOfClusterInBytes s.fat16Private))) (sizeOfClusterInBytes s.fat16Private + m)).take
                (sizeOfClusterInBytes s.fat16Private) =
              requestBytes env s.fat16Private c (sizeOfClusterInBytes s.fat16Private) offset
                (sizeOfClusterInBytes s.fat16Private) := by
            rw [bytesAt_append, List.take_left' (length_bytesAt ..),
              bytesAt_eq_map env s.fat16Private c ho (le_refl (sizeOfClusterInBytes s.fat16Private))]
          rw [hsame2, requestBytes_add env s.fat16Private c hsize, ← htake]
          exact store_store_of_le s.mem (by simp) (by simp)
        rw [hpriv.2.2.1, hpriv.2.2.2, hmem] at hsame3
        unfold SameButStreams at *
        rw [hsame3, hsame2]
      · rw [← e3]
        congr 1
        omega
    · rw [if_neg hmore]
      refine ⟨s2, ?_, rfl⟩
      rw [bytesAt_eq_map env s.fat16Private c ho (show n ≤ sizeOfClusterInBytes s.fat16Private by omega)] at hsame2
      exact hsame2

/-- A request of any size, as the callers make it: all of its bytes are left. -/
theorem readRequest_ok {c n : Nat} (hn : 0 < n) (hlt : n < 2 ^ 32) {offset : Int} (out : Nat)
    (hsize : 0 < sizeOfClusterInBytes s.fat16Private) (ho : int32 offset = offset)
    (hwalk : ∀ t < n, WalksTo env s.fat16Private c (stepOffset (stepLength s.fat16Private n) offset t))
    (hbuf : InBuffer (uint32 offset) n) :
    ∃ s', SameButStreams { s with mem := store s.mem out (requestBytes env s.fat16Private c
        (stepLength s.fat16Private n) offset n) } s' ∧
      fat16ReadInternal env c offset (int32 n) out s = .ok (0, s') := by
  unfold stepLength at hwalk ⊢
  by_cases hsmall : n < 2 ^ 31
  · rw [if_pos hsmall] at hwalk ⊢
    rw [int32_of_lt (by omega) (by omega)]
    exact readInternal_lt .clusterRead hn hsmall offset out s hsize ho hwalk hbuf
  · rw [if_neg hsmall] at hwalk ⊢
    -- the size is negative as an `int`: one step reads everything
    have hneg : int32 n < 0 := by
      unfold int32
      rw [Int.bmod_def]
      split <;> omega
    have htotal : uint32 (int32 n) = n := by rw [uint32_int32, uint32_of_lt hlt]
    have hfirst : stepOffset n offset 0 = offset := by
      unfold stepOffset
      rw [Nat.zero_div]
      simpa using ho
    have hw := hwalk 0 hn
    rw [hfirst] at hw
    obtain ⟨s1, hsame1, hcl⟩ := fat16GetClusterForOffset_ok env hsize hw
    obtain ⟨s2, hsame2, e⟩ := readStep .clusterRead (int32 n) out hsize hcl hsame1 (by omega)
      ((inBuffer_clusterPos ..).2 (by rw [htotal]; exact hbuf))
    rw [if_neg (by omega)] at e
    rw [htotal, bytesAt_eq_map env s.fat16Private c ho (le_refl n)] at hsame2
    exact ⟨s2, hsame2, e⟩

theorem readRequest_halts {e : Halt} (hover : ∀ pos index, env.overread pos index = .error e) {c n : Nat}
    (hlt : n < 2 ^ 32) {offset : Int} (out : Nat) (hsize : 0 < sizeOfClusterInBytes s.fat16Private)
    (hwalk : WalksTo env s.fat16Private c offset) (hbuf : ¬ InBuffer (uint32 offset) n) :
    fat16ReadInternal env c offset (int32 n) out s = .error e := by
  obtain ⟨s1, -, hcl⟩ := fat16GetClusterForOffset_ok env hsize hwalk
  refine readStep_halts hover .clusterRead out hsize hcl (by omega) fun h => hbuf ?_
  rw [uint32_int32, uint32_of_lt hlt] at h
  exact (inBuffer_clusterPos ..).1 h

end

end SimpleMicrokernel.Fat16
