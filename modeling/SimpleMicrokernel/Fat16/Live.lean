/-
Which entries of a directory a lookup can come to. The count leaves deleted entries out while the array
keeps them, so the lookup ends as many entries early as were deleted before, and the deleted ones that
stand in front are still looked at.
-/
import SimpleMicrokernel.Fat16.Find
import SimpleMicrokernel.Fat16.Area

namespace SimpleMicrokernel.Fat16

open Memory Disk Fs

/-! ## What a directory is for -/

/-- The entries before `m` that are not deleted are among those a lookup examines, byte for byte as the
disk has them. -/
def Reaches (d : Fat16Directory) (mem : Mem) (byte : Nat → Byte) (m : Nat) : Prop :=
  ∀ i < m, byte (i * sizeofFat16DirectoryItem) ≠ 0xE5 → i < d.totalEntries.toNat ∧
    ∀ t < sizeofFat16DirectoryItem, mem (entryAt d i + t) = byte (i * sizeofFat16DirectoryItem + t)

/-- A lookup gives what was built for this entry, which it took for a match. -/
def Matched (env : Env) (d : Fat16Directory) (name : List Byte) (s : Sys) (i : Nat) (item : Ptr FatItem) : Prop :=
  Taken env d name s i ∧ BuiltFor env d name s i (some item)

/-- No lookup matches a deleted entry, as long as the entries start as they do here. -/
def NeverDeleted (env : Env) (d : Fat16Directory) (s : Sys) : Prop :=
  ∀ t, (∀ i < d.totalEntries.toNat, t.mem (entryAt d i) = s.mem (entryAt d i)) → ∀ name item t',
    fat16FindItemInDirectory env (some d) name t = .ok (some item, t') →
    ∀ i < d.totalEntries.toNat, Matched env d name t i item → t.mem (entryAt d i) ≠ 0xE5

/-- The directory in memory is right for the entries before the marker. -/
def LiveReachable (env : Env) (d : Fat16Directory) (s : Sys) (byte : Nat → Byte) (m : Nat) : Prop :=
  Reaches d s.mem byte m ∧ NeverDeleted env d s

section
variable {env : Env} {d : Fat16Directory} {s s' : Sys} {p m n k : Nat}

theorem neverDeleted_of_live (h : ∀ i < d.totalEntries.toNat, s.mem (entryAt d i) ≠ 0xE5) : NeverDeleted env d s := by
  intro t hsame name item t' _ i hi _
  rw [hsame i hi]
  exact h i hi

/-! ## Counting live entries -/

theorem liveCount_of_deleted (hkm : k ≤ m) (h : ∀ i, k ≤ i → i < m → firstByte env p i = 0xE5) :
    liveCount env p m = liveCount env p k := by
  induction m with
  | zero =>
    obtain rfl : k = 0 := by omega
    rfl
  | succ m ih =>
    rcases Nat.eq_or_lt_of_le hkm with rfl | hlt
    · rfl
    · have hlast := h m (by omega) (by omega)
      rw [liveCount_concat, if_pos hlast, Nat.add_zero]
      exact ih (by omega) fun i h1 h2 => h i h1 (by omega)

theorem liveCount_eq_self_iff : liveCount env p n = n ↔ ∀ i < n, firstByte env p i ≠ 0xE5 := by
  have h := List.countP_eq_length (p := fun i => decide (firstByte env p i ≠ 0xE5)) (l := List.range n)
  rw [List.length_range] at h
  unfold liveCount
  rw [h]
  simp only [List.mem_range, decide_eq_true_eq]

/-- The live entries are all among the first, as many as there are of them, exactly when no deleted entry
comes before a live one. -/
theorem live_lt_liveCount_iff : (∀ i < m, firstByte env p i ≠ 0xE5 → i < liveCount env p m) ↔
    ∀ i < m, firstByte env p i ≠ 0xE5 → ∀ j < i, firstByte env p j ≠ 0xE5 := by
  have hle := liveCount_le env p m
  constructor
  · intro h i hi hlive j hj
    have hcount : liveCount env p (liveCount env p m) = liveCount env p m := by
      refine (liveCount_of_deleted hle fun i h1 h2 => ?_).symm
      by_contra hne
      exact absurd (h i h2 hne) (by omega)
    exact liveCount_eq_self_iff.1 hcount j (Nat.lt_trans hj (h i hi hlive))
  · intro h i hi hlive
    have hcount : liveCount env p (i + 1) = i + 1 := by
      refine liveCount_eq_self_iff.2 fun j hj => ?_
      rcases Nat.eq_or_lt_of_le (Nat.le_of_lt_succ hj) with rfl | hj
      · exact hlive
      · exact h i hi hlive j hj
    have hmono := liveCount_mono env p (show i + 1 ≤ m by omega)
    omega

theorem live_of_lt_liveCount (h : ∀ i < m, firstByte env p i ≠ 0xE5 → ∀ j < i, firstByte env p j ≠ 0xE5) :
    ∀ i < liveCount env p m, firstByte env p i ≠ 0xE5 := by
  intro i hi hdel
  have hle := liveCount_le env p m
  have hcount : liveCount env p m = liveCount env p i := by
    refine liveCount_of_deleted (by omega) fun j h1 h2 => ?_
    by_contra hne
    rcases Nat.eq_or_lt_of_le h1 with rfl | h1
    · exact hne hdel
    · exact h j h2 hne i h1 hdel
  have hbound := liveCount_le env p i
  omega

/-! ## The root directory -/

/-- Byte `t` of the root directory on the disk. -/
def rootByte (env : Env) (header : Fat16HeaderPrimary) (t : Nat) : Byte := env.byteAt ((rootPos header + t) % 2 ^ 32)

theorem rootByte_entry (env : Env) (header : Fat16HeaderPrimary) (i : Nat) :
    rootByte env header (i * sizeofFat16DirectoryItem) = firstByte env (rootPos header) i := by
  unfold rootByte firstByte
  rw [Nat.mul_comm]

/-- In the root directory of a mounted disk every live entry is reached, and no deleted one is matched, exactly
when no deleted entry comes before a live one and the live ones are in the sectors that were read. -/
theorem root_liveReachable_iff (hroot : RootLoaded env s m) (hpadded : RootPadded s)
    (hm : m < s.fat16Private.header.rootDirEntries.toNat) :
    LiveReachable env s.fat16Private.rootDirectory s (rootByte env s.fat16Private.header) m ↔
      ∀ i < m, firstByte env (rootPos s.fat16Private.header) i ≠ 0xE5 →
        (∀ j < i, firstByte env (rootPos s.fat16Private.header) j ≠ 0xE5) ∧
          (i + 1) * sizeofFat16DirectoryItem ≤ rootSectors s.fat16Private.header * 512 := by
  have htotal : s.fat16Private.rootDirectory.totalEntries.toNat = liveCount env (rootPos s.fat16Private.header) m := by
    rw [hroot.total, Int.toNat_natCast]
  have hmem : ∀ i t, i * sizeofFat16DirectoryItem + t < rootSectors s.fat16Private.header * 512 →
      s.mem (entryAt s.fat16Private.rootDirectory i + t) =
        rootByte env s.fat16Private.header (i * sizeofFat16DirectoryItem + t) := by
    intro i t ht
    unfold entryAt
    rw [Nat.add_assoc]
    exact hroot.entries _ ht
  constructor
  · rintro ⟨hreach, -⟩ i hi hlive
    have hnone := live_lt_liveCount_iff.1 fun j hj hlive => htotal ▸ (hreach j hj (rootByte_entry .. ▸ hlive)).1
    refine ⟨hnone i hi hlive, ?_⟩
    by_contra hout
    -- an entry past the sectors that were read is zero in memory, and no entry before the marker is
    have hfit := rootDirEntries_le s.fat16Private.header hroot.bytesPerSector
    have hbytes := Nat.mul_le_mul_right sizeofFat16DirectoryItem
      (show i + 1 ≤ s.fat16Private.header.rootDirEntries.toNat by omega)
    have hzero : s.mem (s.fat16Private.rootDirectory.item + i * sizeofFat16DirectoryItem) = 0 := by
      refine hpadded _ ?_ ?_
      · unfold sizeofFat16DirectoryItem at hout ⊢
        omega
      · show _ < rootSectors s.fat16Private.header * s.fat16Private.header.bytesPerSector.toNat
        unfold sizeofFat16DirectoryItem at *
        omega
    have hbyte : s.mem (entryAt s.fat16Private.rootDirectory i) = _ :=
      (hreach i hi (rootByte_entry .. ▸ hlive)).2 0 (by decide)
    rw [Nat.add_zero, rootByte_entry] at hbyte
    exact hroot.marker.first i hi (hbyte.symm.trans hzero)
  · intro h
    have hnone : ∀ i < m, firstByte env (rootPos s.fat16Private.header) i ≠ 0xE5 →
        ∀ j < i, firstByte env (rootPos s.fat16Private.header) j ≠ 0xE5 := fun i hi hlive => (h i hi hlive).1
    refine ⟨fun i hi hlive => ?_, neverDeleted_of_live fun i hi => ?_⟩
    · rw [rootByte_entry] at hlive
      refine ⟨htotal ▸ live_lt_liveCount_iff.2 hnone i hi hlive, fun t ht => hmem i t ?_⟩
      have hin := (h i hi hlive).2
      rw [Nat.succ_mul] at hin
      omega
    · rw [htotal] at hi
      have hlive := live_of_lt_liveCount hnone i hi
      have him := Nat.lt_of_lt_of_le hi (liveCount_le env (rootPos s.fat16Private.header) m)
      have hin := (h i him hlive).2
      have hbyte := hmem i 0 (by
        rw [Nat.succ_mul] at hin
        unfold sizeofFat16DirectoryItem at *
        omega)
      rw [Nat.add_zero, Nat.add_zero, rootByte_entry] at hbyte
      rwa [hbyte]

/-! ## Subdirectories -/

/-- Byte `t` of a directory whose clusters are `c`. -/
def chainByte (env : Env) (fat16Private : Fat16Private) (c : Nat → Nat) (t : Nat) : Byte :=
  env.byteAt (clusterPos fat16Private (c (t / sizeOfClusterInBytes fat16Private))
    (t % sizeOfClusterInBytes fat16Private : Nat))

/-- The directory that starts at a cluster has its first end marker in its own clusters. -/
structure ChainMarked (env : Env) (fat16Private : Fat16Private) (first : Nat) (c : Nat → Nat) (m : Nat) : Prop where
  chain : Chain (fat env fat16Private) c (m * sizeofFat16DirectoryItem / sizeOfClusterInBytes fat16Private)
  starts : c 0 = first
  ends : chainByte env fat16Private c (m * sizeofFat16DirectoryItem) = 0x00
  before : ∀ i < m, chainByte env fat16Private c (i * sizeofFat16DirectoryItem) ≠ 0x00

/-- Where on the disk byte `t` of `n` bytes of entries is read from: the cluster that the walk gives for it, or
straight on from the first cluster when `n` is no positive `int`. -/
def ReadFromPos (env : Env) (fat16Private : Fat16Private) (first n t pos : Nat) : Prop :=
  if n < 2 ^ 31 then
    ∃ cl, clusterForOffset env fat16Private first (t : Nat) = .ok cl ∧
      pos = clusterPos fat16Private cl (t % sizeOfClusterInBytes fat16Private : Nat)
  else pos = clusterPos fat16Private first (t : Nat)

theorem ReadFromPos.unique {fat16Private : Fat16Private} {first t pos pos' : Nat}
    (h : ReadFromPos env fat16Private first n t pos) (h' : ReadFromPos env fat16Private first n t pos') :
    pos = pos' := by
  unfold ReadFromPos at h h'
  split at h
  · rename_i hn
    rw [if_pos hn] at h'
    obtain ⟨cl, hcl, rfl⟩ := h
    obtain ⟨cl', hcl', rfl⟩ := h'
    rw [hcl] at hcl'
    cases hcl'
    rfl
  · rename_i hn
    rw [if_neg hn] at h'
    rw [h, h']

theorem readFrom_nonpos {fat16Private : Fat16Private} {first : Nat} {total : Int}
    (h0 : sizeOfClusterInBytes fat16Private ≠ 0) (htotal : total ≤ 0) : readFrom env fat16Private first 0 total =
      .ok (0, ofBytes (bytesAt env (clusterPos fat16Private first 0) (uint32 total))) := by
  have hfirst : clusterForOffset env fat16Private first 0 = .ok (first : Int) := by
    unfold clusterForOffset
    rw [if_neg h0, Int.zero_tdiv, Int.toNat_zero, follow]
    rfl
  have hread : readAt env (clusterPos fat16Private first 0) (uint32 total) =
      .ok (bytesAt env (clusterPos fat16Private first 0) (uint32 total)) :=
    readAt_aligned env (uint32_lt _) (clusterPos_zero_mod ..) _
  rw [readFrom, if_neg h0, hfirst]
  simp only [bind, Except.bind]
  rw [if_neg (by omega), Int.zero_tmod, hread]
  simp only
  rw [if_neg (by omega)]
  rfl

/-- A read of the entries of a directory that does not fail leaves the bytes at these positions. -/
theorem readFrom_entries {fat16Private : Fat16Private} {first : Nat} {res : Int} {w : Written} (hn : n < 2 ^ 32)
    (h : readFrom env fat16Private first 0 (int32 n) = .ok (res, w)) (hres : 0 ≤ res) :
    ∀ t < n, ∃ pos, ReadFromPos env fat16Private first n t pos ∧ w t = some (env.byteAt pos) := by
  intro t ht
  by_cases hlt : n < 2 ^ 31
  · rw [int32_of_lt (by omega) (by omega)] at h
    have hzero : ((0 * sizeOfClusterInBytes fat16Private : Nat) : Int) = 0 := by simp
    obtain ⟨cl, hcl, -, hw⟩ := readFrom_bytes n (hzero ▸ h) hres (by omega) t ht
    rw [Nat.zero_mul, Nat.zero_add] at hcl
    refine ⟨_, ?_, hw⟩
    unfold ReadFromPos
    rw [if_pos hlt]
    exact ⟨cl, hcl, rfl⟩
  · refine ⟨clusterPos fat16Private first (t : Nat), ?_, ?_⟩
    · unfold ReadFromPos
      rw [if_neg hlt]
    have hneg : int32 (n : Int) ≤ 0 := by
      unfold int32
      rw [Int.bmod_def]
      split <;> omega
    have h0 : sizeOfClusterInBytes fat16Private ≠ 0 := by
      intro h0
      rw [readFrom, if_pos h0] at h
      cases h
    rw [readFrom_nonpos h0 hneg, uint32_int32, uint32_of_lt hn] at h
    cases h
    show (bytesAt env _ n)[t]? = _
    rw [getElem?_bytesAt env ht]
    unfold clusterPos
    rw [uint32_add_natCast, Int.add_zero]

/-- A directory that was loaded has been counted straight on from its first cluster, and the bytes of its
entries have been read. -/
theorem of_fat16LoadDirectory {a q : Nat} {d : Ptr Fat16Directory} {s1 : Sys}
    (hq : kzalloc env sizeofFat16Directory s = .ok (q, s1)) (h : fat16LoadDirectory env a s = .ok (some d, s')) :
    ∃ m, Marker env (subdirectoryPos s1.fat16Private (itemAt s1.mem a)) m ∧
      d.val.totalEntries = liveCount env (subdirectoryPos s1.fat16Private (itemAt s1.mem a)) m ∧
      ∀ t < liveCount env (subdirectoryPos s1.fat16Private (itemAt s1.mem a)) m * sizeofFat16DirectoryItem, ∃ pos,
        ReadFromPos env s1.fat16Private (fat16GetFirstCluster (itemAt s1.mem a))
          (liveCount env (subdirectoryPos s1.fat16Private (itemAt s1.mem a)) m * sizeofFat16DirectoryItem) t pos ∧
        s'.mem (d.val.item + t) = env.byteAt pos := by
  unfold fat16LoadDirectory at h
  rw [Exec.bind_of_ok (Exec.get_apply s)] at h
  split at h
  · obtain ⟨hd, -⟩ := Exec.of_pure_ok h
    cases hd
  rw [Exec.bind_of_ok hq] at h
  split at h
  · obtain ⟨hd, -⟩ := Exec.of_pure_ok h
    cases hd
  rw [Exec.bind_of_ok (Exec.get_apply s1)] at h
  obtain ⟨total, s2, hcount, h⟩ := Exec.of_bind_ok h
  obtain ⟨hsame, m, hm, hmark, htotal⟩ := of_fat16GetTotalItemsForDirectory hcount
  have hle := liveCount_le env (subdirectoryPos s1.fat16Private (itemAt s1.mem a)) m
  obtain ⟨item, s3, halloc, h⟩ := Exec.of_bind_ok h
  split at h
  · obtain ⟨hd, -⟩ := Exec.of_pure_ok h
    cases hd
  obtain ⟨res, s4, hread, h⟩ := Exec.of_bind_ok h
  split at h
  · obtain ⟨u, s5, -, h⟩ := Exec.of_bind_ok h
    obtain ⟨hd, -⟩ := Exec.of_pure_ok h
    cases hd
  rename_i hres
  obtain ⟨hd, rfl⟩ := Exec.of_pure_ok h
  cases hd
  refine ⟨m, hmark, htotal, ?_⟩
  change total = (liveCount env (subdirectoryPos s1.fat16Private (itemAt s1.mem a)) m : Int) at htotal
  generalize liveCount env (subdirectoryPos s1.fat16Private (itemAt s1.mem a)) m = count at hle htotal ⊢
  generalize fat16GetFirstCluster (itemAt s1.mem a) = first at hread ⊢
  -- the size of the entries, as the code computes it
  have hsize : int32 (uint32 (total * sizeofFat16DirectoryItem)) =
    int32 ((count * sizeofFat16DirectoryItem : Nat) : Int) := by
    rw [htotal, ← Nat.cast_mul, uint32_of_lt (by unfold sizeofFat16DirectoryItem; omega)]
  rw [hsize] at hread
  have hreads : Reads (fat16ReadInternal env first 0x00
    (int32 ((count * sizeofFat16DirectoryItem : Nat) : Int)) item) s3 item
      (readFrom env s3.fat16Private first 0 (int32 ((count * sizeofFat16DirectoryItem : Nat) : Int))) :=
    fat16ReadInternalFromStream_reads env .clusterRead _ _ item s3 rfl
  have hpriv : s3.fat16Private = s2.fat16Private := (sameFiles_kzalloc _ _ _ _ _ halloc).fat16Private
  rw [hpriv, readFrom_stream hsame env _ _ rfl] at hreads
  cases hv : readFrom env s1.fat16Private first 0 (int32 ((count * sizeofFat16DirectoryItem : Nat) : Int)) with
  | error e =>
    rw [hv] at hreads
    have hreads : _ = Except.error e := hreads
    rw [hreads] at hread
    cases hread
  | ok v =>
    obtain ⟨res', w⟩ := v
    rw [hv] at hreads
    obtain ⟨s5, hsame5, e5⟩ := hreads
    rw [e5] at hread
    cases hread
    intro t ht
    obtain ⟨pos, hpos, hw⟩ := readFrom_entries (by unfold sizeofFat16DirectoryItem; omega) hv (by omega) t ht
    refine ⟨pos, hpos, ?_⟩
    rw [hsame5]
    show w.put s3.mem item (item + t) = _
    unfold Written.put
    rw [if_pos (Nat.le_add_right ..), Nat.add_sub_cancel_left, hw]
    rfl

/-- The live entries of the directory with these clusters are among the first `count`, and each of their bytes is
read from a place where the disk has this byte. -/
def LiveRead (env : Env) (fat16Private : Fat16Private) (c : Nat → Nat) (m count : Nat) : Prop :=
  ∀ i < m, chainByte env fat16Private c (i * sizeofFat16DirectoryItem) ≠ 0xE5 → i < count ∧
    ∀ t < sizeofFat16DirectoryItem, ∀ pos, ReadFromPos env fat16Private (c 0) (count * sizeofFat16DirectoryItem)
      (i * sizeofFat16DirectoryItem + t) pos →
        env.byteAt pos = chainByte env fat16Private c (i * sizeofFat16DirectoryItem + t)

/-- None of the first `count` entries that are read is deleted. -/
def NoneDeleted (env : Env) (fat16Private : Fat16Private) (first count : Nat) : Prop :=
  ∀ i < count, ∀ pos, ReadFromPos env fat16Private first (count * sizeofFat16DirectoryItem)
    (i * sizeofFat16DirectoryItem) pos →
    env.byteAt pos ≠ 0xE5

/-- In a directory that was loaded, the entries of its clusters are reached exactly when they are among as many as
were counted straight on, and read as they are; and then no deleted one is matched if none was read. -/
theorem loaded_liveReachable {a q : Nat} {d : Ptr Fat16Directory} {s1 : Sys}
    (hq : kzalloc env sizeofFat16Directory s = .ok (q, s1)) (h : fat16LoadDirectory env a s = .ok (some d, s')) :
    ∃ mc, Marker env (subdirectoryPos s1.fat16Private (itemAt s1.mem a)) mc ∧
      ∀ c m, ChainMarked env s1.fat16Private (fat16GetFirstCluster (itemAt s1.mem a)) c m →
        (Reaches d.val s'.mem (chainByte env s1.fat16Private c) m ↔
          LiveRead env s1.fat16Private c m (liveCount env (subdirectoryPos s1.fat16Private (itemAt s1.mem a)) mc)) ∧
        (NoneDeleted env s1.fat16Private (c 0) (liveCount env (subdirectoryPos s1.fat16Private (itemAt s1.mem a)) mc) →
          NeverDeleted env d.val s') := by
  obtain ⟨mc, hmark, htotal, hbytes⟩ := of_fat16LoadDirectory hq h
  refine ⟨mc, hmark, fun c m hchain => ?_⟩
  rw [← hchain.starts] at hbytes
  generalize liveCount env (subdirectoryPos s1.fat16Private (itemAt s1.mem a)) mc = count at htotal hbytes ⊢
  have hcount : d.val.totalEntries.toNat = count := by rw [htotal, Int.toNat_natCast]
  -- a byte of an entry in memory, by where it was read from
  have hmem : ∀ i t pos, i < count → t < sizeofFat16DirectoryItem →
      ReadFromPos env s1.fat16Private (c 0) (count * sizeofFat16DirectoryItem) (i * sizeofFat16DirectoryItem + t) pos →
      s'.mem (entryAt d.val i + t) = env.byteAt pos := by
    intro i t pos hi ht hpos
    have hlt : i * sizeofFat16DirectoryItem + t < count * sizeofFat16DirectoryItem := by
      unfold sizeofFat16DirectoryItem at ht ⊢
      omega
    obtain ⟨pos', hpos', hbyte⟩ := hbytes _ hlt
    obtain rfl := hpos.unique hpos'
    unfold entryAt
    rw [Nat.add_assoc, hbyte]
  have hread : ∀ i t, i < count → t < sizeofFat16DirectoryItem →
      ∃ pos, ReadFromPos env s1.fat16Private (c 0) (count * sizeofFat16DirectoryItem)
        (i * sizeofFat16DirectoryItem + t) pos := by
    intro i t hi ht
    obtain ⟨pos, hpos, -⟩ := hbytes (i * sizeofFat16DirectoryItem + t) (by
      unfold sizeofFat16DirectoryItem at ht ⊢
      omega)
    exact ⟨pos, hpos⟩
  refine ⟨⟨fun hreach i hi hlive => ?_, fun hread' i hi hlive => ?_⟩, fun hnone => neverDeleted_of_live fun i hi => ?_⟩
  · obtain ⟨hlt, hsame⟩ := hreach i hi hlive
    rw [hcount] at hlt
    exact ⟨hlt, fun t ht pos hpos => (hmem i t pos hlt ht hpos).symm.trans (hsame t ht)⟩
  · obtain ⟨hlt, hsame⟩ := hread' i hi hlive
    refine ⟨by rw [hcount]; exact hlt, fun t ht => ?_⟩
    obtain ⟨pos, hpos⟩ := hread i t hlt ht
    exact (hmem i t pos hlt ht hpos).trans (hsame t ht pos hpos)
  · rw [hcount] at hi
    obtain ⟨pos, hpos⟩ := hread i 0 hi (by decide)
    have hbyte := hmem i 0 pos hi (by decide) hpos
    rw [Nat.add_zero] at hbyte hpos
    rw [hbyte]
    exact hnone i hi pos hpos

/-- In a directory with an end marker in its own area every live entry is reached and no deleted one matched: in the
root directory exactly when no deleted entry comes before a live one and the live ones are in the sectors that were
read; in another one exactly its live entries are reached that are among as many as were counted and are read as
they are, and no deleted one is matched when none was read. -/
theorem liveReachable_directories (env : Env) (s s' : Sys) :
    (fat16Resolve env s = .ok (0, s') → ∀ m < s'.fat16Private.header.rootDirEntries.toNat,
      Marker env (rootPos s'.fat16Private.header) m →
      (LiveReachable env s'.fat16Private.rootDirectory s' (rootByte env s'.fat16Private.header) m ↔
        ∀ i < m, firstByte env (rootPos s'.fat16Private.header) i ≠ 0xE5 →
          (∀ j < i, firstByte env (rootPos s'.fat16Private.header) j ≠ 0xE5) ∧
            (i + 1) * sizeofFat16DirectoryItem ≤ rootSectors s'.fat16Private.header * 512)) ∧
    ∀ a q s1 d, kzalloc env sizeofFat16Directory s = .ok (q, s1) → fat16LoadDirectory env a s = .ok (some d, s') →
      ∃ mc, Marker env (subdirectoryPos s1.fat16Private (itemAt s1.mem a)) mc ∧
        ∀ c m, ChainMarked env s1.fat16Private (fat16GetFirstCluster (itemAt s1.mem a)) c m →
          (Reaches d.val s'.mem (chainByte env s1.fat16Private c) m ↔
            LiveRead env s1.fat16Private c m (liveCount env (subdirectoryPos s1.fat16Private (itemAt s1.mem a)) mc)) ∧
          (LiveRead env s1.fat16Private c m (liveCount env (subdirectoryPos s1.fat16Private (itemAt s1.mem a)) mc) →
            NoneDeleted env s1.fat16Private (c 0)
            (liveCount env (subdirectoryPos s1.fat16Private (itemAt s1.mem a)) mc) →
            LiveReachable env d.val s' (chainByte env s1.fat16Private c) m) := by
  refine ⟨fun h m hm hmark => ?_, fun a q s1 d hq h => ?_⟩
  · obtain ⟨⟨m', hroot⟩, -, -, -, hpadded, -⟩ := of_fat16Resolve h
    obtain rfl := hroot.marker.unique hmark
    exact root_liveReachable_iff hroot hpadded hm
  · obtain ⟨mc, hmark, hall⟩ := loaded_liveReachable hq h
    refine ⟨mc, hmark, fun c m hchain => ?_⟩
    obtain ⟨hreach, hnone⟩ := hall c m hchain
    exact ⟨hreach, fun hread hdeleted => ⟨hreach.2 hread, hnone hdeleted⟩⟩

end

/-! ## Two entries -/

/-- A disk whose root directory has an entry that starts with `b` and the file A after it. -/
def twoEntries (b : Byte) : Env := withBytes zeroDisk fun
  | 12 => 2
  | 13 => 1
  | 14 => 1
  | 16 => 1
  | 17 => 16
  | 22 => 1
  | 38 => 0x29
  | 1024 => b
  | 1056 => 0x41
  | _ => 0

theorem resolve_twoEntries {b : Byte} (hb : b = 0xE5 ∨ b = 0x41) :
    ∃ s', fat16Resolve (twoEntries b) (bare 4096 1) = .ok (0, s') ∧
    s'.fat16Private.header = ⟨512, 1, 1, 1, 16, 1, 0⟩ ∧ Marker (twoEntries b) (rootPos s'.fat16Private.header) 2 ∧
    firstByte (twoEntries b) (rootPos s'.fat16Private.header) 0 = b := by
  have hheader : diskHeader (twoEntries b) = ⟨512, 1, 1, 1, 16, 1, 0⟩ := by
    rcases hb with rfl | rfl <;> decide +kernel
  have hsig : diskSignature (twoEntries b) = 0x29 := by
    rcases hb with rfl | rfl <;> decide +kernel
  have hfirst : firstByte (twoEntries b) (rootPos ⟨512, 1, 1, 1, 16, 1, 0⟩) 0 = b := by
    rcases hb with rfl | rfl <;> decide +kernel
  have hmark : Marker (twoEntries b) (rootPos ⟨512, 1, 1, 1, 16, 1, 0⟩) 2 := by
    refine ⟨by rcases hb with rfl | rfl <;> decide +kernel, fun j hj => ?_⟩
    rcases (by omega : j = 0 ∨ j = 1) with rfl | rfl
    · rw [hfirst]
      rcases hb with rfl | rfl <;> decide
    · rcases hb with rfl | rfl <;> decide +kernel
  have hok : (bare 4096 1).Ok 1 4096 := @AllocState.ok_init 1 4096 (by decide) (bare 4096 1).mem
  have hroom : (bare 4096 1).Room 4094 := room_bare (by decide) (by decide) (by decide)
  obtain ⟨s', e, -⟩ := fat16Resolve_room (n := 0) (twoEntries b) hok hsig (m := 2) (by decide) (hheader ▸ hmark)
    (by rw [hheader]; decide) (hroom.mono (by rw [hheader]; decide))
  have hheader' := (of_fat16Resolve e).2.2.1.trans hheader
  exact ⟨s', e, hheader', hheader' ▸ hmark, hheader' ▸ hfirst⟩

/-- With no entry deleted the two files are reached. -/
theorem liveReachable_two : ∃ s', fat16Resolve (twoEntries 0x41) (bare 4096 1) = .ok (0, s') ∧
    LiveReachable (twoEntries 0x41) s'.fat16Private.rootDirectory s'
    (rootByte (twoEntries 0x41) s'.fat16Private.header) 2 := by
  obtain ⟨s', e, hheader, hmark, hfirst⟩ := resolve_twoEntries (.inr rfl)
  refine ⟨s', e, ((liveReachable_directories (twoEntries 0x41) (bare 4096 1) s').1 e 2
    (by rw [hheader]; decide) hmark).2 ?_⟩
  intro i hi _
  refine ⟨fun j hj => ?_, ?_⟩
  · obtain rfl : j = 0 := by omega
    rw [hfirst]
    decide
  · rw [hheader]
    exact Nat.le_trans (Nat.mul_le_mul_right _ (show i + 1 ≤ 2 by omega)) (by decide)

/-- With the first entry deleted the file A after it is not reached. -/
theorem deleted_hides_live : ∃ s', fat16Resolve (twoEntries 0xE5) (bare 4096 1) = .ok (0, s') ∧
    2 < s'.fat16Private.header.rootDirEntries.toNat ∧ Marker (twoEntries 0xE5) (rootPos s'.fat16Private.header) 2 ∧
    ¬ LiveReachable (twoEntries 0xE5) s'.fat16Private.rootDirectory s'
    (rootByte (twoEntries 0xE5) s'.fat16Private.header) 2 := by
  obtain ⟨s', e, hheader, hmark, hfirst⟩ := resolve_twoEntries (.inl rfl)
  have hm : 2 < s'.fat16Private.header.rootDirEntries.toNat := by
    rw [hheader]
    decide
  refine ⟨s', e, hm, hmark, fun h => ?_⟩
  obtain ⟨⟨m', hroot⟩, -, -, -, hpadded, -⟩ := of_fat16Resolve e
  obtain rfl := hroot.marker.unique hmark
  have hlive : firstByte (twoEntries 0xE5) (rootPos s'.fat16Private.header) 1 ≠ 0xE5 := by
    rw [hheader]
    decide +kernel
  exact ((root_liveReachable_iff hroot hpadded hm).1 h 1 (by decide) hlive).1 0 (by decide) hfirst

end SimpleMicrokernel.Fat16
