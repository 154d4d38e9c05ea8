/-
The file allocation table. `fat16_get_fat_entry` reads one 16-bit entry; the walk of
`fat16_get_cluster_for_offset` follows entries from a first cluster, one for each whole cluster in
the offset. It compares entries with the end, bad and reserved values of a 12-bit table, so a
chain that ends with a 16-bit end value is walked past its end, and a cluster with one of the
12-bit values is taken for an end. The walk is right on a chain exactly when neither happens on
the entries it reads.
-/
import SimpleMicrokernel.Fs.State

namespace SimpleMicrokernel.Fat16

open Memory Disk Fs

/-- `FAT16_FAT_TABLE_ENTRY_SIZE`. -/
def fat16FatTableEntrySize : Nat := 2

/-- `FAT16_BAD_SECTOR`. -/
def fat16BadSector : Int := 0xFF7

def fat16SectorsToAbosulute (sector : Nat) : Nat := sectorSize * sector % 2 ^ 32

def fat16ClusterToSector (fat16Private : Fat16Private) (cluster : Int) : Int :=
  int32 (fat16Private.rootDirectory.endingSectorPos +
    (cluster - 2) * (fat16Private.header.sectorsPerCluster.toNat : Int))

def fat16GetFirstFatSector (fat16Private : Fat16Private) : Nat :=
  (fat16Private.header.reservedSectors.toNat + fat16Private.header.hiddenSetors.toNat) % 2 ^ 32

/-- The cluster size in bytes. -/
def sizeOfClusterInBytes (fat16Private : Fat16Private) : Nat :=
  fat16Private.header.sectorsPerCluster.toNat * sectorSize

/-- Two bytes as `uint16_t`, low byte first. -/
def uint16OfBytes : List Byte → Nat
  | b0 :: b1 :: _ => b0.toNat + 256 * b1.toNat
  | _ => 0

/-- The result is `uint32_t`; a failed seek or read gives `-1` converted. -/
def fat16GetFatEntry (env : Env) (cluster : Int) : FsM Nat := do
  let fat16Private := (← get).fat16Private
  let fat16TableStartInBytes : Nat :=
    fat16GetFirstFatSector fat16Private * fat16Private.header.bytesPerSector.toNat % 2 ^ 32
  let fat16TableEntryOffsetInBytes := uint32 (fat16TableStartInBytes + cluster * fat16FatTableEntrySize)
  let res ← streamerSeek .fatRead fat16TableEntryOffsetInBytes
  if res < 0 then
    return uint32 (-1)
  let (res, result) ← streamerRead env .fatRead 2
  if res < 0 then
    return uint32 (-1)
  return uint16OfBytes result

/-- The loop of `fat16_get_cluster_for_offset`, `-1` at an entry taken for an end. -/
def clusterLoop (env : Env) : Nat → Int → FsM Int
  | 0, clusterToUse => return clusterToUse
  | n + 1, clusterToUse => do
    let entry := int32 (← fat16GetFatEntry env clusterToUse)
    if entry = 0xFF8 ∨ entry = 0xFFF then
      return -1
    if entry = fat16BadSector then
      return -1
    if entry = 0xFF0 ∨ entry = 0xFF6 then
      return -1
    if entry = 0x00 then
      return -1
    clusterLoop env n entry

def fat16GetClusterForOffset (env : Env) (startingCluster offset : Int) : FsM Int := do
  let sizeOfClusterInBytes := sizeOfClusterInBytes (← get).fat16Private
  if sizeOfClusterInBytes = 0 then
    throw .divByZero
  let clustersAhead := offset.tdiv sizeOfClusterInBytes
  clusterLoop env clustersAhead.toNat startingCluster

/-! ## The table -/

/-- Where the entry of a cluster is on the disk. -/
def entryPos (fat16Private : Fat16Private) (cluster : Nat) : Nat :=
  uint32 ((fat16GetFirstFatSector fat16Private * fat16Private.header.bytesPerSector.toNat % 2 ^ 32 : Nat) +
    (cluster : Int) * fat16FatTableEntrySize)

/-- The table on the disk: the 16-bit entry of a cluster. -/
def fat (env : Env) (fat16Private : Fat16Private) (cluster : Nat) : Nat :=
  uint16OfBytes (bytesAt env (entryPos fat16Private cluster) 2)

/-- The entry of the cluster does not straddle two sectors. -/
def InSector (fat16Private : Fat16Private) (cluster : Nat) : Prop := InBuffer (entryPos fat16Private cluster) 2

instance (fat16Private : Fat16Private) (cluster : Nat) : Decidable (InSector fat16Private cluster) :=
  inferInstanceAs (Decidable (InBuffer _ _))

/-- The non-zero entries the walk stops at. -/
def Marks (entry : Nat) : Prop := entry = 0xFF0 ∨ entry = 0xFF6 ∨ entry = 0xFF7 ∨ entry = 0xFF8 ∨ entry = 0xFFF

instance (entry : Nat) : Decidable (Marks entry) := inferInstanceAs (Decidable (_ ∨ _))

/-- The entries the walk stops at. -/
def Stops (entry : Nat) : Prop := entry = 0 ∨ Marks entry

instance (entry : Nat) : Decidable (Stops entry) := inferInstanceAs (Decidable (_ ∨ _))

theorem fat_lt (env : Env) (fat16Private : Fat16Private) (cluster : Nat) : fat env fat16Private cluster < 2 ^ 16 := by
  unfold fat bytesAt
  simp only [List.range_succ_eq_map, List.range_zero, List.map_cons, List.map_nil, uint16OfBytes]
  have h1 := (env.byteAt ((entryPos fat16Private cluster + 0) % 2 ^ 32)).isLt
  have h2 := (env.byteAt ((entryPos fat16Private cluster + Nat.succ 0) % 2 ^ 32)).isLt
  omega

section
variable {env : Env} {s : Sys}

theorem uint32_entryPos (fat16Private : Fat16Private) (c : Nat) :
    uint32 (entryPos fat16Private c) = entryPos fat16Private c :=
  uint32_of_lt (uint32_lt _)

theorem fat16GetFatEntry_eq (env : Env) (s : Sys) (c : Nat) :
    fat16GetFatEntry env c s = (do
      let (res, result) ← streamerRead env .fatRead 2
      if res < 0 then
        return uint32 (-1)
      return uint16OfBytes result : FsM Nat) (s.setStream .fatRead ⟨uint32 (entryPos s.fat16Private c)⟩) := by
  unfold fat16GetFatEntry
  rw [Exec.bind_of_ok (Exec.get_apply s), Exec.bind_of_ok (streamerSeek_apply ..), if_neg (by decide)]
  rfl

theorem fat16GetFatEntry_ok (env : Env) (s : Sys) {c : Nat} (h : InSector s.fat16Private c) :
    ∃ s', SameButStreams s s' ∧ fat16GetFatEntry env c s = .ok (fat env s.fat16Private c, s') := by
  obtain ⟨res, s', hres, hsame, e⟩ := seek_read_ok env .fatRead (entryPos s.fat16Private c) 2 s
    (by rw [uint32_entryPos]; exact h)
  refine ⟨s', hsame, ?_⟩
  rw [fat16GetFatEntry_eq, Exec.bind_of_ok e]
  simp only
  rw [if_neg (by omega), uint32_entryPos]
  rfl

theorem fat16GetFatEntry_halts {e : Halt} (hover : ∀ pos index, env.overread pos index = .error e) {c : Nat}
    (h : ¬ InSector s.fat16Private c) : fat16GetFatEntry env c s = .error e := by
  have hread := streamerRead_halts hover .fatRead (entryPos s.fat16Private c) 2 s (by rw [uint32_entryPos]; exact h)
  rw [fat16GetFatEntry_eq]
  exact Exec.bind_of_error hread

end

/-! ## The walk -/

/-- The table followed from a cluster, `n` entries far. -/
def walk (fat : Nat → Nat) (c : Nat) : Nat → Nat
  | 0 => c
  | n + 1 => walk fat (fat c) n

theorem walk_succ (fat : Nat → Nat) (c n : Nat) : walk fat c (n + 1) = fat (walk fat c n) := by
  induction n generalizing c with
  | zero => rfl
  | succ n ih => rw [walk, ih, walk]

/-- The walk of the code over a table: `none` where it would leave the sector buffer. -/
def walkResult (fat : Nat → Nat) (ok : Nat → Prop) [DecidablePred ok] : Nat → Nat → Option Int
  | 0, c => some c
  | n + 1, c => if ok c then if Stops (fat c) then some (-1) else walkResult fat ok n (fat c) else none

section
variable {fat : Nat → Nat} {ok : Nat → Prop} [DecidablePred ok]

/-- The walk gets to the cluster exactly when no entry before it is taken for an end. -/
theorem walkResult_eq_walk (n c : Nat) : walkResult fat ok n c = some (walk fat c n : Int) ↔
    ∀ i < n, ok (walk fat c i) ∧ ¬ Stops (walk fat c (i + 1)) := by
  induction n generalizing c with
  | zero => exact ⟨fun _ i hi => by omega, fun _ => rfl⟩
  | succ n ih =>
    rw [walkResult]
    by_cases hok : ok c
    · rw [if_pos hok]
      by_cases hstop : Stops (fat c)
      · rw [if_pos hstop]
        constructor
        · intro h
          have := Option.some.inj h
          omega
        · intro h
          exact absurd hstop (h 0 (by omega)).2
      · rw [if_neg hstop, walk, ih]
        constructor
        · intro h i hi
          cases i with
          | zero => exact ⟨hok, hstop⟩
          | succ i => exact h i (by omega)
        · intro h i hi
          exact h (i + 1) (by omega)
    · rw [if_neg hok]
      constructor
      · intro h; cases h
      · intro h; exact absurd (h 0 (by omega)).1 hok

/-- The walk fails exactly when some entry on its way is taken for an end. -/
theorem walkResult_eq_fail (n c : Nat) : walkResult fat ok n c = some (-1) ↔
    ∃ j < n, Stops (walk fat c (j + 1)) ∧ ∀ i ≤ j, ok (walk fat c i) := by
  induction n generalizing c with
  | zero =>
    constructor
    · intro h
      have := Option.some.inj h
      omega
    · rintro ⟨j, hj, -⟩; omega
  | succ n ih =>
    rw [walkResult]
    by_cases hok : ok c
    · rw [if_pos hok]
      by_cases hstop : Stops (fat c)
      · rw [if_pos hstop]
        refine ⟨fun _ => ⟨0, by omega, hstop, fun i hi => ?_⟩, fun _ => rfl⟩
        rw [Nat.le_zero.1 hi]
        exact hok
      · rw [if_neg hstop, ih]
        constructor
        · rintro ⟨j, hj, h1, h2⟩
          refine ⟨j + 1, by omega, h1, fun i hi => ?_⟩
          cases i with
          | zero => exact hok
          | succ i => exact h2 i (by omega)
        · rintro ⟨j, hj, h1, h2⟩
          cases j with
          | zero => exact absurd h1 hstop
          | succ j => exact ⟨j, by omega, h1, fun i hi => h2 (i + 1) (by omega)⟩
    · rw [if_neg hok]
      constructor
      · intro h; cases h
      · rintro ⟨j, -, -, h2⟩
        exact absurd (h2 0 (by omega)) hok

theorem walkResult_of_nonneg : ∀ {n c : Nat} {r : Int}, walkResult fat ok n c = some r → 0 ≤ r →
    (walk fat c n : Int) = r
  | 0, c, r, h, _ => Option.some.inj h
  | n + 1, c, r, h, hr => by
    rw [walkResult] at h
    split at h
    · split at h
      · have := Option.some.inj h
        omega
      · exact walkResult_of_nonneg (n := n) (c := fat c) h hr
    · cases h

end

/-- The computation gives `r` in `s`, whatever the state after. -/
def Returns {α : Type} (x : FsM α) (s : Sys) (r : α) : Prop := ∃ s', x s = .ok (r, s')

section
variable {env : Env}

theorem stops_iff {entry : Nat} (h : entry < 2 ^ 16) : Stops entry ↔
    (int32 entry = 0xFF8 ∨ int32 entry = 0xFFF) ∨ int32 entry = fat16BadSector ∨
      (int32 entry = 0xFF0 ∨ int32 entry = 0xFF6) ∨ int32 entry = 0x00 := by
  rw [int32_of_lt (by omega) (by omega)]
  unfold Stops Marks fat16BadSector
  omega

/-- One turn of the loop with the entry read. -/
theorem clusterLoop_succ (env : Env) {s : Sys} {n c : Nat} (h : InSector s.fat16Private c) :
    ∃ s', SameButStreams s s' ∧ clusterLoop env (n + 1) c s =
      if Stops (fat env s.fat16Private c) then .ok (-1, s') else clusterLoop env n (fat env s.fat16Private c) s' := by
  obtain ⟨s', hsame, e⟩ := fat16GetFatEntry_ok env s h
  have hlt := fat_lt env s.fat16Private c
  have hstops := stops_iff hlt
  refine ⟨s', hsame, ?_⟩
  rw [clusterLoop, Exec.bind_of_ok e]
  by_cases h1 : int32 (fat env s.fat16Private c) = 0xFF8 ∨ int32 (fat env s.fat16Private c) = 0xFFF
  · rw [if_pos h1, if_pos (hstops.2 (.inl h1))]; rfl
  rw [if_neg h1]
  by_cases h2 : int32 (fat env s.fat16Private c) = fat16BadSector
  · rw [if_pos h2, if_pos (hstops.2 (.inr (.inl h2)))]; rfl
  rw [if_neg h2]
  by_cases h3 : int32 (fat env s.fat16Private c) = 0xFF0 ∨ int32 (fat env s.fat16Private c) = 0xFF6
  · rw [if_pos h3, if_pos (hstops.2 (.inr (.inr (.inl h3))))]; rfl
  rw [if_neg h3]
  by_cases h4 : int32 (fat env s.fat16Private c) = 0x00
  · rw [if_pos h4, if_pos (hstops.2 (.inr (.inr (.inr h4))))]; rfl
  have hgo : ¬ Stops (fat env s.fat16Private c) := fun h =>
    (hstops.1 h).elim h1 fun h => h.elim h2 fun h => h.elim h3 h4
  rw [if_neg h4, if_neg hgo, int32_of_lt (by omega) (by omega)]

/-- Where the walk stays in the sector buffers, the loop is the walk. -/
theorem clusterLoop_ok {n : Nat} {r : Int} : ∀ {c : Nat} {s : Sys},
    walkResult (fat env s.fat16Private) (InSector s.fat16Private) n c = some r →
      ∃ s', SameButStreams s s' ∧ clusterLoop env n c s = .ok (r, s') := by
  induction n with
  | zero =>
    intro c s h
    cases h
    exact ⟨s, rfl, rfl⟩
  | succ n ih =>
    intro c s h
    rw [walkResult] at h
    split at h
    · rename_i hin
      obtain ⟨s', hsame, e⟩ := clusterLoop_succ env (n := n) hin
      rw [e]
      split at h
      · rename_i hstop
        rw [if_pos hstop]
        cases h
        exact ⟨s', hsame, rfl⟩
      · rename_i hstop
        rw [if_neg hstop]
        have hpriv : fat env s'.fat16Private = fat env s.fat16Private ∧
            InSector s'.fat16Private = InSector s.fat16Private := by
          rw [hsame]; exact ⟨rfl, rfl⟩
        obtain ⟨s'', hsame', e'⟩ := ih (c := fat env s.fat16Private c) (s := s') (by
          simp only [hpriv.1, hpriv.2]; exact h)
        exact ⟨s'', IsTrans.trans _ _ _ hsame hsame', e'⟩
    · cases h

/-- Where the walk would leave a sector buffer that may not be read past, the kernel stops. -/
theorem clusterLoop_halts {e : Halt} (hover : ∀ pos index, env.overread pos index = .error e) {n : Nat} :
    ∀ {c : Nat} {s : Sys}, walkResult (fat env s.fat16Private) (InSector s.fat16Private) n c = none →
      clusterLoop env n c s = .error e := by
  induction n with
  | zero =>
    intro c s h
    cases h
  | succ n ih =>
    intro c s h
    rw [walkResult] at h
    split at h
    · rename_i hin
      obtain ⟨s', hsame, e'⟩ := clusterLoop_succ env (n := n) hin
      rw [e']
      split at h
      · cases h
      · rename_i hstop
        rw [if_neg hstop]
        have hpriv : fat env s'.fat16Private = fat env s.fat16Private ∧
            InSector s'.fat16Private = InSector s.fat16Private := by
          rw [hsame]; exact ⟨rfl, rfl⟩
        refine ih (c := fat env s.fat16Private c) (s := s') ?_
        simp only [hpriv.1, hpriv.2]
        exact h
    · rename_i hin
      rw [clusterLoop]
      exact Exec.bind_of_error (fat16GetFatEntry_halts hover hin)

/-- The cluster for an offset is the walk of one entry for each whole cluster in the offset; below
zero it is the first cluster. -/
theorem fat16GetClusterForOffset_ok (env : Env) {s : Sys} (hsize : 0 < sizeOfClusterInBytes s.fat16Private) {c : Nat}
    {offset r : Int} (h : walkResult (fat env s.fat16Private) (InSector s.fat16Private)
      (offset.tdiv (sizeOfClusterInBytes s.fat16Private)).toNat c = some r) :
    ∃ s', SameButStreams s s' ∧ fat16GetClusterForOffset env c offset s = .ok (r, s') := by
  obtain ⟨s', hsame, e⟩ := clusterLoop_ok h
  refine ⟨s', hsame, ?_⟩
  unfold fat16GetClusterForOffset
  rw [Exec.bind_of_ok (Exec.get_apply s)]
  simp only [if_neg (Nat.ne_of_gt hsize)]
  exact e

theorem fat16GetClusterForOffset_halts {env : Env} {e : Halt} (hover : ∀ pos index, env.overread pos index = .error e)
    {s : Sys} (hsize : 0 < sizeOfClusterInBytes s.fat16Private) {c : Nat} {offset : Int}
    (h : walkResult (fat env s.fat16Private) (InSector s.fat16Private)
      (offset.tdiv (sizeOfClusterInBytes s.fat16Private)).toNat c = none) :
    fat16GetClusterForOffset env c offset s = .error e := by
  unfold fat16GetClusterForOffset
  rw [Exec.bind_of_ok (Exec.get_apply s)]
  simp only [if_neg (Nat.ne_of_gt hsize)]
  exact clusterLoop_halts hover h

/-- The code gives `r` whatever a read past the sector buffer finds exactly when the walk does. -/
theorem returns_cluster_iff (env : Env) {s : Sys} (hsize : 0 < sizeOfClusterInBytes s.fat16Private) (c : Nat)
    (offset r : Int) :
    (∀ overread, Returns (fat16GetClusterForOffset { env with overread := overread } c offset) s r) ↔
      walkResult (fat env s.fat16Private) (InSector s.fat16Private)
        (offset.tdiv (sizeOfClusterInBytes s.fat16Private)).toNat c = some r := by
  constructor
  · intro h
    obtain ⟨s', e⟩ := h fun _ _ => .error .outOfBounds
    cases hw : walkResult (fat env s.fat16Private) (InSector s.fat16Private)
        (offset.tdiv (sizeOfClusterInBytes s.fat16Private)).toNat c with
    | none =>
      have hhalt : fat16GetClusterForOffset { env with overread := fun _ _ => .error .outOfBounds } c offset s =
          .error .outOfBounds := fat16GetClusterForOffset_halts (fun _ _ => rfl) hsize hw
      rw [hhalt] at e
      cases e
    | some r' =>
      obtain ⟨s'', -, e'⟩ := fat16GetClusterForOffset_ok
        { env with overread := fun _ _ => .error .outOfBounds } hsize hw
      rw [e] at e'
      cases e'
      rfl
  · intro h overread
    obtain ⟨s', -, e⟩ := fat16GetClusterForOffset_ok { env with overread := overread } hsize h
    exact ⟨s', e⟩

end

/-! ## Chains -/

/-- Clusters `c 0`, …, `c k`, each a cluster number, linked by the table. -/
structure Chain (fat : Nat → Nat) (c : Nat → Nat) (k : Nat) : Prop where
  ordinary : ∀ i ≤ k, 2 ≤ c i ∧ c i ≤ 0xFFEF
  link : ∀ i < k, fat (c i) = c (i + 1)

theorem Chain.walk_eq {fat c : Nat → Nat} {k : Nat} (h : Chain fat c k) : ∀ {i : Nat}, i ≤ k → walk fat (c 0) i = c i
  | 0, _ => rfl
  | i + 1, hi => by rw [walk_succ, h.walk_eq (i := i) (by omega), h.link i (by omega)]

/-- An entry a chain ends with: a free, a reserved, a bad-cluster or an end entry. -/
def Terminator (entry : Nat) : Prop :=
  entry = 0 ∨ 0xFFF0 ≤ entry ∧ entry ≤ 0xFFF6 ∨ entry = 0xFFF7 ∨ 0xFFF8 ≤ entry ∧ entry ≤ 0xFFFF

/-- The walk follows a chain and stops at its end, exactly when: for an offset inside the chain,
every entry on the way lies inside a sector and links to no cluster numbered like a 12-bit mark;
for an offset past the end, the table followed on past the end comes to a free entry or to a
12-bit mark before the wanted cluster, by entries inside their sectors. -/
theorem cluster_walk_iff (env : Env) (s : Sys) (hsize : 0 < sizeOfClusterInBytes s.fat16Private) {c : Nat → Nat}
    {k : Nat} (hchain : Chain (fat env s.fat16Private) c k) (_ : Terminator (fat env s.fat16Private (c k)))
    (offset : Nat) :
    let q := offset / sizeOfClusterInBytes s.fat16Private
    (q ≤ k →
      ((∀ overread, Returns (fat16GetClusterForOffset { env with overread := overread } (c 0) offset) s (c q)) ↔
        ∀ i < q, InSector s.fat16Private (c i) ∧ ¬ Marks (c (i + 1)))) ∧
    (k < q →
      ((∀ overread, Returns (fat16GetClusterForOffset { env with overread := overread } (c 0) offset) s (-1)) ↔
        ∃ j < q, Stops (walk (fat env s.fat16Private) (c 0) (j + 1)) ∧
          ∀ i ≤ j, InSector s.fat16Private (walk (fat env s.fat16Private) (c 0) i))) := by
  intro q
  have hq' : ((offset : Int).tdiv (sizeOfClusterInBytes s.fat16Private)).toNat = q := by
    rw [← Int.ofNat_tdiv, Int.toNat_natCast]
  refine ⟨fun hq => ?_, fun _ => ?_⟩
  · rw [returns_cluster_iff env hsize, hq', ← hchain.walk_eq hq, walkResult_eq_walk]
    refine forall₂_congr fun i hi => ?_
    have hi : i < q := hi
    have hne : c (i + 1) ≠ 0 := by
      have := (hchain.ordinary (i + 1) (by omega)).1
      omega
    rw [hchain.walk_eq (by omega), hchain.walk_eq (by omega)]
    unfold Stops
    simp only [hne, false_or]
  · rw [returns_cluster_iff env hsize, hq', walkResult_eq_fail]

/-- A disk whose table, one sector in, has the entries `t`. -/
def tableImage (t : Nat → Nat) : Nat → Fin 512 → Byte := fun sector i =>
  BitVec.ofNat 8 (t ((sector - 1) * 256 + i / 2) / 256 ^ (i.val % 2))

/-- A file system with one reserved sector, sectors of 512 bytes and one sector a cluster. -/
def oneSectorClusters : Sys where
  heap := .zero
  mem := fun _ => 0
  live := []
  filesystem := true
  fat16Private := ⟨⟨512, 1, 1, 1, 16, 1, 0⟩, ⟨0, 0, 3, 4⟩, fun _ => ⟨0⟩⟩
  fileDescriptors := fun _ => none

def noFault (t : Nat → Nat) : Env := ⟨tableImage t, fun _ _ => .ok 0, fun _ m => .ok m, fun _ _ _ => .error .nullDeref⟩

theorem cluster_walk_two :
    let env := noFault fun c => if c = 2 then 3 else 0xFFFF
    let s := oneSectorClusters
    (1 ≤ 1 →
      ((∀ overread, Returns (fat16GetClusterForOffset { env with overread := overread } 2 700) s 3) ↔
        ∀ i < 1, InSector s.fat16Private (2 + i) ∧ ¬ Marks (2 + (i + 1)))) ∧
    (1 < 1 →
      ((∀ overread, Returns (fat16GetClusterForOffset { env with overread := overread } 2 700) s (-1)) ↔
        ∃ j < 1, Stops (walk (fat env s.fat16Private) 2 (j + 1)) ∧
          ∀ i ≤ j, InSector s.fat16Private (walk (fat env s.fat16Private) 2 i))) :=
  cluster_walk_iff (noFault fun c => if c = 2 then 3 else 0xFFFF) oneSectorClusters (by decide)
    (c := fun i => 2 + i) (k := 1) ⟨by decide, by decide⟩ (by unfold Terminator; decide) 700

/-- A file of one cluster, ended with 0xFFF8, asked for an offset in a second cluster: the end entry
itself is given as the cluster. -/
theorem cluster_walk_runs_on :
    let env := noFault fun c => if c = 2 then 0xFFF8 else 0
    let s := oneSectorClusters
    Chain (fat env s.fat16Private) (fun _ => 2) 0 ∧ 0xFFF8 ≤ fat env s.fat16Private 2 ∧
      0 < 512 / sizeOfClusterInBytes s.fat16Private ∧
      (∀ overread, Returns (fat16GetClusterForOffset { env with overread := overread } 2 512) s 0xFFF8) ∧
      ¬ ∀ overread, Returns (fat16GetClusterForOffset { env with overread := overread } 2 512) s (-1) := by
  have hiff := returns_cluster_iff (noFault fun c => if c = 2 then 0xFFF8 else 0) (s := oneSectorClusters)
    (by decide) 2 512
  refine ⟨⟨by decide, by decide⟩, by decide, by decide, (hiff _).2 (by decide), fun h => ?_⟩
  exact absurd ((hiff (-1)).1 h) (by decide)

end SimpleMicrokernel.Fat16
