/-
Whether counting a directory stays inside it. The count has no bound but the first end marker, so it
ends inside the directory's own area exactly when the marker is there.
-/
import SimpleMicrokernel.Fat16.Mount

namespace SimpleMicrokernel.Fat16

open Memory Disk Fs

/-! ## Areas -/

/-- The bytes of the root directory: `root_dir_entries` entries. -/
def RootArea (header : Fat16HeaderPrimary) (q : Nat) : Prop :=
  ∃ t < header.rootDirEntries.toNat * sizeofFat16DirectoryItem, q = (rootPos header + t) % 2 ^ 32

/-- The bytes of a subdirectory: those of the clusters in the chain that starts with its first one. -/
def ChainArea (env : Env) (fat16Private : Fat16Private) (first q : Nat) : Prop :=
  ∃ c k, Chain (fat env fat16Private) c k ∧ c 0 = first ∧
    ∃ d < sizeOfClusterInBytes fat16Private, q = clusterPos fat16Private (c k) d

/-- The count of the directory at a sector ends, is the same for every disk that has the same bytes in the
area, and its entries fit the array allocated for them. -/
def CountsInside (env : Env) (s : Sys) (sector : Nat) (Area : Nat → Prop) (size : Int → Nat) : Prop :=
  ∃ total : Int, (∀ env', (∀ q, Area q → env'.byteAt q = env.byteAt q) →
    ∃ s', fat16GetTotalItemsForDirectory env' sector s = .ok (total, s')) ∧
      total * sizeofFat16DirectoryItem ≤ size total

/-- The first end marker and the entries before it are in the area. -/
def MarkedInside (env : Env) (p m : Nat) (Area : Nat → Prop) : Prop :=
  Marker env p m ∧ ∀ j ≤ m, Area ((p + sizeofFat16DirectoryItem * j) % 2 ^ 32)

/-- A disk with these bytes. -/
def withBytes (env : Env) (f : Nat → Byte) : Env := { env with image := fun sector i => f (sector * 512 + i) }

section
variable {env env' : Env} {s : Sys} {p m n : Nat} {Area : Nat → Prop}

theorem byteAt_withBytes (env : Env) (f : Nat → Byte) (q : Nat) : (withBytes env f).byteAt q = f q := by
  show f (q / 512 * 512 + q % 512) = f q
  rw [Nat.div_add_mod']

/-! ## The count -/

theorem Marker.lt (h : Marker env p m) : m < 2 ^ 27 := by
  by_contra hge
  refine h.first (m - 2 ^ 27) (by omega) ?_
  have hends := h.ends
  unfold firstByte sizeofFat16DirectoryItem at *
  rw [show (p + 32 * (m - 2 ^ 27)) % 2 ^ 32 = (p + 32 * m) % 2 ^ 32 by omega]
  exact hends

theorem Marker.congr (h : Marker env p m) (hsame : ∀ j ≤ m, firstByte env' p j = firstByte env p j) : Marker env' p m :=
  ⟨by rw [hsame m (le_refl m), h.ends], fun j hj => by rw [hsame j (by omega)]; exact h.first j hj⟩

theorem liveCount_congr (hsame : ∀ j < m, firstByte env' p j = firstByte env p j) :
    liveCount env' p m = liveCount env p m :=
  List.countP_congr fun j hj => by rw [hsame j (List.mem_range.1 hj)]

theorem liveCount_concat (env : Env) (p m : Nat) :
    liveCount env p (m + 1) = liveCount env p m + if firstByte env p m = 0xE5 then 0 else 1 := by
  unfold liveCount
  rw [List.range_succ, List.countP_append, List.countP_singleton]
  by_cases h : firstByte env p m = 0xE5
  · rw [if_pos h, if_neg (by simpa using h)]
  · rw [if_neg h, if_pos (by simpa using h)]

theorem liveCount_mono (env : Env) (p : Nat) (h : m ≤ n) : liveCount env p m ≤ liveCount env p n := by
  induction n with
  | zero =>
    obtain rfl : m = 0 := by omega
    exact le_refl _
  | succ n ih =>
    rcases Nat.eq_or_lt_of_le h with rfl | h
    · exact le_refl _
    · rw [liveCount_concat]
      exact Nat.le_add_right_of_le (ih (by omega))

/-- Counting looks at nothing outside the area exactly when the marker and all before it is inside. -/
theorem countsInside_iff (env : Env) (s : Sys) (sector : Nat) (Area : Nat → Prop) (size : Int → Nat) :
    CountsInside env s sector Area size ↔ ∃ m, MarkedInside env (fat16SectorsToAbosulute sector) m Area ∧
      (liveCount env (fat16SectorsToAbosulute sector) m : Int) * sizeofFat16DirectoryItem ≤
        size (liveCount env (fat16SectorsToAbosulute sector) m) := by
  generalize hp : fat16SectorsToAbosulute sector = p
  constructor
  · rintro ⟨total, hall, hsize⟩
    -- outside the area one disk has live entries only, the other one markers only
    classical
    obtain ⟨s1, e1⟩ := hall (withBytes env fun q => if Area q then env.byteAt q else 0x41) fun q hq => by
      rw [byteAt_withBytes, if_pos hq]
    obtain ⟨s0, e0⟩ := hall (withBytes env fun q => if Area q then env.byteAt q else 0x00) fun q hq => by
      rw [byteAt_withBytes, if_pos hq]
    obtain ⟨-, m, -, hmark, htotal⟩ := of_fat16GetTotalItemsForDirectory e1
    obtain ⟨-, m0, -, hmark0, htotal0⟩ := of_fat16GetTotalItemsForDirectory e0
    rw [hp] at hmark hmark0 htotal htotal0
    have hbyte : ∀ b j, firstByte (withBytes env fun q => if Area q then env.byteAt q else b) p j =
        if Area ((p + sizeofFat16DirectoryItem * j) % 2 ^ 32) then firstByte env p j else b :=
          fun b j => byteAt_withBytes ..
    have hall : ∀ j ≤ m, Area ((p + sizeofFat16DirectoryItem * j) % 2 ^ 32) := by
      by_contra hnot
      push Not at hnot
      obtain ⟨j, hj, hout⟩ := hnot
      have hjm : j ≠ m := by
        rintro rfl
        have hends := hmark.ends
        rw [hbyte, if_neg hout] at hends
        exact absurd hends (by decide)
      have hm0 : m0 ≤ j := by
        by_contra hlt
        exact hmark0.first j (by omega) (by rw [hbyte, if_neg hout])
      -- up to the second disk's marker both disks are the given one, and the first counts on from there
      have hsame : liveCount (withBytes env fun q => if Area q then env.byteAt q else 0x00) p m0 =
          liveCount (withBytes env fun q => if Area q then env.byteAt q else 0x41) p m0 := by
        refine liveCount_congr fun i hi => ?_
        have hne := hmark0.first i hi
        rw [hbyte] at hne ⊢
        rw [hbyte]
        split at hne
        · rename_i hin
          rw [if_pos hin, if_pos hin]
        · exact absurd rfl hne
      have hlive := liveCount_concat (withBytes env fun q => if Area q then env.byteAt q else 0x41) p j
      rw [hbyte, if_neg hout, if_neg (by decide)] at hlive
      have h1 := liveCount_mono (withBytes env fun q => if Area q then env.byteAt q else 0x41) p hm0
      have h2 := liveCount_mono (withBytes env fun q => if Area q then env.byteAt q else 0x41) p
        (show j + 1 ≤ m by omega)
      omega
    have hsame : ∀ j ≤ m, firstByte env p j =
      firstByte (withBytes env fun q => if Area q then env.byteAt q else 0x41) p j := by
      intro j hj
      rw [hbyte, if_pos (hall j hj)]
    have hcount := liveCount_congr fun j (hj : j < m) => hsame j (by omega)
    rw [htotal, ← hcount] at hsize
    exact ⟨m, ⟨hmark.congr hsame, hall⟩, hsize⟩
  · rintro ⟨m, ⟨hmark, harea⟩, hsize⟩
    refine ⟨liveCount env p m, fun env' hsame => ?_, hsize⟩
    have hfirst : ∀ j ≤ m, firstByte env' p j = firstByte env p j := fun j hj => hsame _ (harea j hj)
    have hmark' := hmark.congr hfirst
    obtain ⟨s', e, -⟩ := fat16GetTotalItemsForDirectory_ok hmark'.lt (hp ▸ hmark') s
    rw [hp, liveCount_congr fun j hj => hfirst j (by omega)] at e
    exact ⟨s', e⟩

/-! ## The directories -/

theorem rootArea_iff (header : Fat16HeaderPrimary) {j : Nat} (hj : j < 2 ^ 27) :
    RootArea header ((rootPos header + sizeofFat16DirectoryItem * j) % 2 ^ 32) ↔ j < header.rootDirEntries.toNat := by
  have hentries := header.rootDirEntries.isLt
  unfold RootArea sizeofFat16DirectoryItem
  constructor
  · rintro ⟨t, ht, heq⟩
    omega
  · intro h
    exact ⟨32 * j, by omega, rfl⟩

theorem rootDirEntries_le (header : Fat16HeaderPrimary) (h : header.bytesPerSector.toNat ≠ 0) :
    header.rootDirEntries.toNat * sizeofFat16DirectoryItem ≤ rootSectors header * header.bytesPerSector.toNat := by
  have hdiv := Nat.div_add_mod' (header.rootDirEntries.toNat * sizeofFat16DirectoryItem) header.bytesPerSector.toNat
  have hmod := Nat.mod_lt (header.rootDirEntries.toNat * sizeofFat16DirectoryItem) (Nat.pos_of_ne_zero h)
  unfold rootSectors
  simp only
  split
  · omega
  · rw [Nat.succ_mul]
    omega

/-- The bytes allocated for the entries of a directory that were counted. -/
def subdirectoryBytes (total : Int) : Nat := uint32 (int32 (uint32 (total * sizeofFat16DirectoryItem)))

/-- Counting a directory, for mounting or for loading it, ends and stays inside its own area exactly when its
first end marker is among the entries of the root directory, or among those that follow one another on the
disk before they leave the subdirectory's clusters. -/
theorem countsInside_directories (env : Env) (s : Sys) :
    (s.fat16Private.header.bytesPerSector.toNat ≠ 0 →
      (CountsInside env s (uint32 (rootStart s.fat16Private.header)) (RootArea s.fat16Private.header) (fun _ =>
          rootSectors s.fat16Private.header * s.fat16Private.header.bytesPerSector.toNat) ↔
        ∃ m < s.fat16Private.header.rootDirEntries.toNat, Marker env (rootPos s.fat16Private.header) m)) ∧
    ∀ item : Fat16DirectoryItem,
      CountsInside env s (uint32 (fat16ClusterToSector s.fat16Private (fat16GetFirstCluster item)))
          (ChainArea env s.fat16Private (fat16GetFirstCluster item)) subdirectoryBytes ↔
        ∃ m, MarkedInside env (fat16SectorsToAbosulute
          (uint32 (fat16ClusterToSector s.fat16Private (fat16GetFirstCluster item)))) m
          (ChainArea env s.fat16Private (fat16GetFirstCluster item)) := by
  refine ⟨fun h0 => ?_, fun item => ?_⟩
  · rw [countsInside_iff]
    have hfit := rootDirEntries_le s.fat16Private.header h0
    constructor
    · rintro ⟨m, ⟨hmark, harea⟩, -⟩
      exact ⟨m, (rootArea_iff _ hmark.lt).1 (harea m (le_refl m)), hmark⟩
    · rintro ⟨m, hm, hmark⟩
      refine ⟨m, ⟨hmark, fun j hj => (rootArea_iff _ (by have := hmark.lt; omega)).2 (by omega)⟩, ?_⟩
      have hle := liveCount_le env (rootPos s.fat16Private.header) m
      have hmul := Nat.mul_le_mul_right sizeofFat16DirectoryItem (Nat.le_of_lt (Nat.lt_of_le_of_lt hle hm))
      have hbytes := Nat.le_trans hmul hfit
      exact_mod_cast hbytes
  · rw [countsInside_iff]
    constructor
    · rintro ⟨m, hin, -⟩
      exact ⟨m, hin⟩
    · rintro ⟨m, hin⟩
      refine ⟨m, hin, ?_⟩
      have hle := liveCount_le env (fat16SectorsToAbosulute
        (uint32 (fat16ClusterToSector s.fat16Private (fat16GetFirstCluster item)))) m
      have hlt := hin.1.lt
      unfold subdirectoryBytes sizeofFat16DirectoryItem
      rw [uint32_int32]
      generalize liveCount env _ m = n at hle ⊢
      have hsmall : uint32 ((n : Int) * (32 : Nat)) = n * 32 := by
        have h := uint32_of_lt (show n * 32 < 2 ^ 32 by omega)
        rwa [Nat.cast_mul] at h
      rw [hsmall, uint32_of_lt (by omega), Nat.cast_mul]

end

/-! ## A directory with no marker -/

/-- A disk that is full of live entries. -/
def fullDisk : Env := withBytes zeroDisk fun _ => 0x41

/-- The root directory of a disk full of files is counted for ever. -/
theorem countsInside_full : (oneSectorClusters.fat16Private.header.bytesPerSector.toNat ≠ 0) ∧
    ¬ CountsInside fullDisk oneSectorClusters (uint32 (rootStart oneSectorClusters.fat16Private.header))
      (RootArea oneSectorClusters.fat16Private.header) (fun _ =>
        rootSectors oneSectorClusters.fat16Private.header *
        oneSectorClusters.fat16Private.header.bytesPerSector.toNat) := by
  refine ⟨by decide, fun h => ?_⟩
  obtain ⟨m, ⟨hmark, -⟩, -⟩ := (countsInside_iff ..).1 h
  have hends := hmark.ends
  unfold firstByte fullDisk at hends
  rw [byteAt_withBytes] at hends
  exact absurd hends (by decide)

end SimpleMicrokernel.Fat16
