/-
How far a read of an open file reaches. `fread` never looks at the size of the file: what it returns and
what it leaves in the buffer stays inside the file exactly when the caller asks for no more than there
is, and the steps of the read run on to nothing else.
-/
import SimpleMicrokernel.Fat16.Sources
import SimpleMicrokernel.Fs.Reads

namespace SimpleMicrokernel.Fs

open Memory Disk Fat16

/-- Where byte `k` of a chain of clusters is on the disk. -/
def bytePlace (env : Env) (fat16Private : Fat16Private) (c k : Nat) : Nat :=
  clusterPos fat16Private (walk (fat env fat16Private) c (k / sizeOfClusterInBytes fat16Private))
    (k % sizeOfClusterInBytes fat16Private : Nat)

/-- The places on the disk of the bytes of a file. -/
def FilePlace (env : Env) (fat16Private : Fat16Private) (item : Fat16DirectoryItem) (q : Nat) : Prop :=
  ∃ k < item.filesize.toNat, q = bytePlace env fat16Private (fat16GetFirstCluster item) k

/-- Byte `t` that a read of items from `pos` on leaves is the one at the place `q` of the disk. -/
def ComesFrom (env : Env) (fat16Private : Fat16Private) (item : Fat16DirectoryItem) (pos size nmemb t q : Nat) : Prop :=
  ∃ res sources source, itemsSources env fat16Private (fat16GetFirstCluster item) size nmemb (int32 pos) =
    .ok (res, sources) ∧
    sources t = some source ∧ sourcePlace env fat16Private (fat16GetFirstCluster item) source = some q

/-- The place that byte `u` of item `i` is read at by step `j` of the item. -/
def placeOf (env : Env) (fat16Private : Fat16Private) (item : Fat16DirectoryItem) (pos size i j u : Nat) : Option Nat :=
  sourcePlace env fat16Private (fat16GetFirstCluster item)
    (stepAt (stepLength fat16Private size) (itemOffset pos size i) j, u - stepLength fat16Private size * j)

/-- Byte `d` of a step at `offset` is in the cluster the step starts in, which is walked to by entries
inside their sectors, and is a byte of the file. -/
def InsideStep (env : Env) (fat16Private : Fat16Private) (item : Fat16DirectoryItem) (offset : Int) (d : Nat) : Prop :=
  ∃ o : Nat, offset = o ∧ o % sizeOfClusterInBytes fat16Private + d < sizeOfClusterInBytes fat16Private ∧
    o + d < item.filesize.toNat ∧
    ∀ k < o / sizeOfClusterInBytes fat16Private,
      InSector fat16Private (walk (fat env fat16Private) (fat16GetFirstCluster item) k)

/-- Byte `d` of a step at `offset` is in the cluster the step has run on to, so many behind the one it starts
in: at that place of the disk is the chain's `n`-th cluster, and its byte `r` is a byte of the file. -/
def RunsInto (env : Env) (fat16Private : Fat16Private) (item : Fat16DirectoryItem) (offset : Int) (d : Nat) : Prop :=
  ∃ cluster n r, clusterForOffset env fat16Private (fat16GetFirstCluster item) offset = .ok cluster ∧
    r < sizeOfClusterInBytes fat16Private ∧ sizeOfClusterInBytes fat16Private * n + r < item.filesize.toNat ∧
    clusterPos fat16Private (walk (fat env fat16Private) (fat16GetFirstCluster item) n) r =
      clusterPos fat16Private
        (cluster + (offset.tmod (sizeOfClusterInBytes fat16Private) + d) / (sizeOfClusterInBytes fat16Private : Int))
        ((offset.tmod (sizeOfClusterInBytes fat16Private) + d) % (sizeOfClusterInBytes fat16Private : Int))

/-- A read that finds all its clusters asks for no more than the file has left; and what stays of a
step is inside the cluster the step starts in, or where it has run on to one of the file's. -/
structure AsksWithin (env : Env) (fat16Private : Fat16Private) (item : Fat16DirectoryItem)
    (pos size nmemb : Nat) : Prop where
  fits : ItemsFind env fat16Private (fat16GetFirstCluster item) pos size nmemb → nmemb < 2 ^ 31 →
    pos + size * nmemb ≤ item.filesize.toNat
  inside : ∀ i < nmemb, ∀ j u, Stays env fat16Private (fat16GetFirstCluster item) pos size i j u →
    InsideStep env fat16Private item (stepAt (stepLength fat16Private size) (itemOffset pos size i) j)
      (u - stepLength fat16Private size * j) ∨
    ((placeOf env fat16Private item pos size i j u).isSome →
      RunsInto env fat16Private item (stepAt (stepLength fat16Private size) (itemOffset pos size i) j)
        (u - stepLength fat16Private size * j))

section
variable {env : Env} {s s' : Sys} {item : Fat16DirectoryItem}

theorem walkResult_inSector {fat : Nat → Nat} {ok : Nat → Prop} [DecidablePred ok] (n : Nat) : ∀ {c : Nat},
    (∀ k < n, ok (walk fat c k)) → ∃ r, walkResult fat ok n c = some r := by
  induction n with
  | zero => exact fun _ => ⟨_, rfl⟩
  | succ n ih =>
    intro c h
    rw [walkResult, if_pos (show ok c from h 0 (by omega))]
    split
    · exact ⟨_, rfl⟩
    · exact ih fun k hk => h (k + 1) (by omega)

theorem of_stepStart {c offset : Int} {start : Nat} (h : stepStart env s.fat16Private c offset = some start) :
    ∃ cluster, clusterForOffset env s.fat16Private c offset = .ok cluster ∧ ¬ cluster < 0 ∧
      start = clusterPos s.fat16Private cluster (offset.tmod (sizeOfClusterInBytes s.fat16Private)) := by
  unfold stepStart at h
  cases hcl : clusterForOffset env s.fat16Private c offset with
  | error e =>
    rw [hcl] at h
    cases h
  | ok cluster =>
    rw [hcl] at h
    simp only at h
    split at h
    · cases h
    · rename_i hneg
      exact ⟨cluster, rfl, hneg, (Option.some.inj h).symm⟩

theorem stepStart_inSector {c o start : Nat}
    (hin : ∀ k < o / sizeOfClusterInBytes s.fat16Private, InSector s.fat16Private (walk (fat env s.fat16Private) c k))
    (h : stepStart env s.fat16Private c o = some start) :
    start = bytePlace env s.fat16Private c o := by
  have hsize := sizeOfCluster_pos_of_stepStart h
  have hdiv : ((o : Int).tdiv (sizeOfClusterInBytes s.fat16Private)).toNat =
    o / sizeOfClusterInBytes s.fat16Private := by
    rw [← Int.ofNat_tdiv, Int.toNat_natCast]
  obtain ⟨r, hr⟩ : ∃ r, walkResult (fat env s.fat16Private) (InSector s.fat16Private)
    (o / sizeOfClusterInBytes s.fat16Private) c = some r :=
    walkResult_inSector _ hin
  rw [← hdiv] at hr
  obtain ⟨s1, -, e⟩ := fat16GetClusterForOffset_ok env hsize hr
  have hgives := fat16GetClusterForOffset_gives env c o s
  obtain ⟨cluster, hcl, hneg, rfl⟩ := of_stepStart h
  rw [hcl] at hgives
  obtain ⟨s2, -, e2⟩ := hgives
  rw [e] at e2
  cases e2
  unfold bytePlace
  rw [← hdiv, walkResult_of_nonneg hr (by omega), Int.ofNat_tmod]

/-- What stays inside the cluster of its step is the file's. -/
theorem InsideStep.filePlace {offset : Int} {d q : Nat} (h : InsideStep env s.fat16Private item offset d)
    (hq : sourcePlace env s.fat16Private (fat16GetFirstCluster item) (offset, d) = some q) :
    FilePlace env s.fat16Private item q := by
  obtain ⟨o, rfl, hcluster, hfile, hin⟩ := h
  obtain ⟨start, hstart, hplace⟩ := Option.bind_eq_some_iff.1 hq
  obtain rfl := stepStart_inSector hin hstart
  have hsize := sizeOfCluster_pos_of_stepStart hstart
  unfold streamPlace at hplace
  split at hplace
  · cases hplace
    refine ⟨o + d, hfile, ?_⟩
    have hmod : (o + d) % sizeOfClusterInBytes s.fat16Private = o % sizeOfClusterInBytes s.fat16Private + d := by
      rw [Nat.add_mod, Nat.mod_eq_of_lt (show d < _ by omega), Nat.mod_eq_of_lt hcluster]
    have hdiv : (o + d) / sizeOfClusterInBytes s.fat16Private = o / sizeOfClusterInBytes s.fat16Private := by
      have h1 := Nat.div_add_mod o (sizeOfClusterInBytes s.fat16Private)
      have h2 := Nat.div_add_mod (o + d) (sizeOfClusterInBytes s.fat16Private)
      rw [hmod] at h2
      exact Nat.eq_of_mul_eq_mul_left hsize (by omega)
    unfold bytePlace clusterPos
    rw [hdiv, hmod, uint32_add_natCast]
    push_cast
    rw [Int.add_assoc]
  · cases hplace

theorem uint32_int32_mul_add (x d : Int) : uint32 (int32 x * sectorSize + d) = uint32 (x * sectorSize + d) := by
  unfold uint32 int32 sectorSize
  rw [Int.bmod_def]
  split <;> omega

theorem clusterPos_after (fat16Private : Fat16Private) (cluster x : Int) :
    clusterPos fat16Private (cluster + x / (sizeOfClusterInBytes fat16Private : Int))
    (x % (sizeOfClusterInBytes fat16Private : Int)) =
      clusterPos fat16Private cluster x := by
  have hx := Int.mul_ediv_add_emod x (sizeOfClusterInBytes fat16Private : Int)
  unfold clusterPos fat16ClusterToSector
  rw [uint32_int32_mul_add, uint32_int32_mul_add]
  congr 1
  unfold sizeOfClusterInBytes at hx ⊢
  push_cast at hx ⊢
  calc _ = (fat16Private.rootDirectory.endingSectorPos + (cluster - 2) * fat16Private.header.sectorsPerCluster.toNat) *
    sectorSize +
        (fat16Private.header.sectorsPerCluster.toNat * sectorSize *
          (x / (fat16Private.header.sectorsPerCluster.toNat * sectorSize)) +
          x % (fat16Private.header.sectorsPerCluster.toNat * sectorSize)) := by ring
    _ = _ := by rw [hx]

/-- What a step has run on to is the file's exactly when the cluster there is one of the chain. -/
theorem runsInto_iff {offset : Int} {d q : Nat}
    (hq : sourcePlace env s.fat16Private (fat16GetFirstCluster item) (offset, d) = some q) :
    RunsInto env s.fat16Private item offset d ↔ FilePlace env s.fat16Private item q := by
  obtain ⟨start, hstart, hplace⟩ := Option.bind_eq_some_iff.1 hq
  have hsize := sizeOfCluster_pos_of_stepStart hstart
  obtain ⟨cluster, hcluster, -, rfl⟩ := of_stepStart hstart
  unfold streamPlace at hplace
  split at hplace
  case isFalse => cases hplace
  have e : clusterPos s.fat16Private cluster (offset.tmod (sizeOfClusterInBytes s.fat16Private) + d) = q := by
    rw [← Option.some.inj hplace, clusterPos, clusterPos, uint32_add_natCast, Int.add_assoc]
  constructor
  · rintro ⟨cluster', n, r, h, hr, hfile, hpos⟩
    obtain rfl := Except.ok.inj (hcluster.symm.trans h)
    rw [clusterPos_after, e] at hpos
    refine ⟨_, hfile, ?_⟩
    unfold bytePlace
    rw [Nat.mul_add_div hsize, Nat.div_eq_of_lt hr, Nat.add_zero, Nat.mul_add_mod, Nat.mod_eq_of_lt hr, hpos]
  · rintro ⟨k, hk, hpos⟩
    refine ⟨cluster, k / sizeOfClusterInBytes s.fat16Private, _, hcluster, Nat.mod_lt k hsize, ?_, ?_⟩
    · rw [Nat.div_add_mod]
      exact hk
    · rw [clusterPos_after, e]
      exact hpos.symm

variable {fd : Fin maxFileDescriptors} {p : BitVec 32} {ptr size nmemb : Nat} {res : Int}

/-- A call that returns has gone through its items; what it leaves is the bytes of their sources. -/
theorem of_fread_sources (hfile : HoldsFile s fd item p) (hfd : 1 ≤ fd.val) (hsize : 1 ≤ size) (hn : 1 ≤ nmemb)
    (h : fread env ptr size nmemb fd.val s = .ok (res, s')) :
    ∃ res0 sources, itemsSources env s.fat16Private (fat16GetFirstCluster item) size nmemb (int32 p.toNat) =
    .ok (res0, sources) ∧
      (res = if res0 < 0 then -1 else int32 nmemb) ∧
      ∀ t, s'.mem (ptr + t) = ((sources t).bind (sourceByte env s.fat16Private (fat16GetFirstCluster item))).getD
      (s.mem (ptr + t)) := by
  have hreads := fread_reads env hfile hfd ptr size nmemb
  have htied := @itemsFrom_tied env s.fat16Private (fat16GetFirstCluster item) size nmemb (int32 p.toNat)
  unfold freadFrom at hreads
  rw [if_neg (by omega)] at hreads
  generalize itemsSources env s.fat16Private (fat16GetFirstCluster item) size nmemb (int32 p.toNat) = y at htied ⊢
  cases hi : itemsFrom env s.fat16Private (fat16GetFirstCluster item) size nmemb (int32 p.toNat) with
  | error e =>
    rw [hi] at hreads
    have hreads : fread env ptr size nmemb fd.val s = .error e := hreads
    rw [h] at hreads
    cases hreads
  | ok r =>
    obtain ⟨res0, w⟩ := r
    rw [hi] at hreads htied
    obtain ⟨s1, hsame, e⟩ := hreads
    rw [h] at e
    cases e
    cases htied with
    | ok hbyte hsome =>
      refine ⟨res0, _, rfl, rfl, fun t => ?_⟩
      have hmem : s'.mem = w.put s.mem ptr := by rw [hsame]
      rw [hmem, ← hbyte]
      unfold Written.put
      rw [if_pos (Nat.le_add_right ..), Nat.add_sub_cancel_left]

theorem ComesFrom.stands (hfile : HoldsFile s fd item p) (hfd : 1 ≤ fd.val) (hsize : 1 ≤ size) (hn : 1 ≤ nmemb)
    (h : fread env ptr size nmemb fd.val s = .ok (res, s')) {t q : Nat}
    (hq : ComesFrom env s.fat16Private item p.toNat size nmemb t q) : s'.mem (ptr + t) = env.byteAt q := by
  obtain ⟨res0, sources, source, hi, hsource, hplace⟩ := hq
  obtain ⟨res1, sources1, hi1, -, hmem⟩ := of_fread_sources hfile hfd hsize hn h
  rw [hi] at hi1
  cases hi1
  rw [hmem, hsource]
  show (sourceByte env s.fat16Private (fat16GetFirstCluster item) source).getD _ = _
  rw [sourceByte_place hplace]
  rfl

theorem comesFrom_iff (hsize : 0 < size) (hlt : size < 2 ^ 32) {pos : Nat} {sources : Sources}
    (h : itemsSources env s.fat16Private (fat16GetFirstCluster item) size nmemb (int32 pos) = .ok (res, sources))
    (t q : Nat) :
    ComesFrom env s.fat16Private item pos size nmemb t q ↔ t / size < nmemb ∧
      ∃ j, Stays env s.fat16Private (fat16GetFirstCluster item) pos size (t / size) j (t % size) ∧
        placeOf env s.fat16Private item pos size (t / size) j (t % size) = some q := by
  obtain ⟨hiff, -⟩ := of_itemsSources hsize hlt h
  constructor
  · rintro ⟨res', sources', source, h', hsource, hplace⟩
    rw [h] at h'
    cases h'
    obtain ⟨ht, j, hstays, rfl⟩ := (hiff _ _).1 hsource
    exact ⟨ht, j, hstays, hplace⟩
  · rintro ⟨ht, j, hstays, hplace⟩
    exact ⟨res, sources, _, h, (hiff _ _).2 ⟨ht, j, hstays, rfl⟩, hplace⟩

/-- A call that returns leaves what the bytes of the buffer come from. It gives at most the items the file has
left, and the bytes come from the file, exactly when the caller asks within the file. -/
theorem fread_withinFile_iff (hfile : HoldsFile s fd item p) (hfd : 1 ≤ fd.val) (hsize : 1 ≤ size) (hlt : size < 2 ^ 32)
    (hn : 1 ≤ nmemb) (hnlt : nmemb < 2 ^ 32) (h : fread env ptr size nmemb fd.val s = .ok (res, s')) :
    (∀ t q, ComesFrom env s.fat16Private item p.toNat size nmemb t q → s'.mem (ptr + t) = env.byteAt q) ∧
    ((res ≤ ((item.filesize.toNat - p.toNat) / size : Nat) ∧
      ∀ t q, ComesFrom env s.fat16Private item p.toNat size nmemb t q → FilePlace env s.fat16Private item q) ↔
    AsksWithin env s.fat16Private item p.toNat size nmemb) := by
  refine ⟨fun t q hq => hq.stands hfile hfd hsize hn h, ?_⟩
  obtain ⟨res0, sources, hi, hres, -⟩ := of_fread_sources hfile hfd hsize hn h
  obtain ⟨-, hfound⟩ := of_itemsSources hsize hlt hi
  have hplaces := comesFrom_iff hsize hlt hi
  have hmul : size ≤ size * nmemb := Nat.le_mul_of_pos_right size hn
  have hitems : nmemb ≤ (item.filesize.toNat - p.toNat) / size ↔ p.toNat + size * nmemb ≤ item.filesize.toNat := by
    rw [Nat.le_div_iff_mul_le hsize, Nat.mul_comm]
    omega
  constructor
  · rintro ⟨hreturned, hfrom⟩
    refine ⟨fun hall hsmall => ?_, fun i hi j u hstays => .inr fun hsome => ?_⟩
    · have h0 : 0 ≤ res0 := hfound.2 hall
      rw [hres, if_neg (by omega), int32_of_lt (by omega) (by omega)] at hreturned
      exact hitems.1 (by exact_mod_cast hreturned)
    · have hdiv : (size * i + u) / size = i := by
        rw [Nat.mul_add_div hsize, Nat.div_eq_of_lt hstays.2.1, Nat.add_zero]
      have hmod : (size * i + u) % size = u := by
        rw [Nat.mul_add_mod, Nat.mod_eq_of_lt hstays.2.1]
      obtain ⟨q, hq⟩ := Option.isSome_iff_exists.1 hsome
      refine (runsInto_iff hq).2 (hfrom (size * i + u) q ((hplaces _ _).2 ?_))
      rw [hdiv, hmod]
      exact ⟨hi, j, hstays, hq⟩
  · rintro ⟨hfits, hinside⟩
    refine ⟨?_, fun t q hq => ?_⟩
    · have hcount : (0 : Int) ≤ ((item.filesize.toNat - p.toNat) / size : Nat) := Int.natCast_nonneg _
      rw [hres]
      split
      · omega
      · rename_i hneg
        by_cases hsmall : nmemb < 2 ^ 31
        · rw [int32_of_lt (by omega) (by omega)]
          exact_mod_cast hitems.2 (hfits (hfound.1 (by omega)) hsmall)
        · -- the count is negative as an `int`
          have hneg : int32 nmemb < 0 := by
            unfold int32
            rw [Int.bmod_def]
            split <;> omega
          omega
    · obtain ⟨ht, j, hstays, hplace⟩ := (hplaces t q).1 hq
      rcases hinside _ ht j _ hstays with hin | hall
      · exact hin.filePlace hplace
      · exact (runsInto_iff hplace).1 (hall (Option.isSome_iff_exists.2 ⟨q, hplace⟩))

end

theorem fread_withinFile_two : ∃ res s', fread countingDisk 0x100000 2 1 1 twoClustersOpen = .ok (res, s') ∧
    (∀ t q, ComesFrom countingDisk twoClustersOpen.fat16Private twoClusters 0 2 1 t q →
      s'.mem (0x100000 + t) = countingDisk.byteAt q) ∧
    ((res ≤ ((twoClusters.filesize.toNat - 0) / 2 : Nat) ∧
      ∀ t q, ComesFrom countingDisk twoClustersOpen.fat16Private twoClusters 0 2 1 t q →
        FilePlace countingDisk twoClustersOpen.fat16Private twoClusters q) ↔
    AsksWithin countingDisk twoClustersOpen.fat16Private twoClusters 0 2 1) := by
  obtain ⟨res, s', e, -⟩ := fread_countingDisk (refl twoClustersOpen) 0x100000 (n := 2) (by decide) (by decide)
  have e' : fread countingDisk 0x100000 2 1 (1 : Fin maxFileDescriptors).val twoClustersOpen = .ok (res, s') := e
  have hread := fread_withinFile_iff holdsFile_twoClusters (by decide) (by decide) (by decide) (by decide)
    (by decide) e'
  exact ⟨res, s', e, hread.1, hread.2⟩

/-- A file of ten bytes in cluster 2, opened in slot 1. -/
def tenBytes : Fat16DirectoryItem := ⟨0, 0, 2, 10⟩

def tenBytesOpen : Sys :=
  { oneSectorClusters with
    fileDescriptors := Function.update (fun _ => none) ⟨1, by decide⟩
      (some ⟨0, 1, 0, ⟨0, .file (some ⟨0, tenBytes⟩)⟩, 0⟩) }

/-- Eleven bytes of the ten are read, and the call returns one item. -/
theorem fread_past_end : HoldsFile tenBytesOpen 1 tenBytes 0 ∧
    ∃ s', fread countingDisk 0x100000 11 1 1 tenBytesOpen = .ok (1, s') ∧
    ¬ (1 : Int) ≤ ((tenBytes.filesize.toNat - 0) / 11 : Nat) := by
  have hfile : HoldsFile tenBytesOpen 1 tenBytes 0 := ⟨_, _, rfl, rfl, rfl⟩
  have hcome : ItemsComeThrough countingDisk tenBytesOpen.fat16Private (fat16GetFirstCluster tenBytes) 0 11 1 :=
    comesThrough_countingDisk (by decide)
  obtain ⟨res, w, hv, hres⟩ := (freadFrom_ok_iff (by decide)).2 ⟨⟨by decide, by decide⟩, by decide, hcome⟩
  have hreads := fread_reads countingDisk hfile (by decide) 0x100000 11 1
  rw [show ((0 : BitVec 32).toNat) = 0 from rfl, hv] at hreads
  obtain ⟨s', -, e⟩ := hreads
  obtain ⟨res0, -, -, hone, -⟩ := of_fread_sources hfile (by decide) (by decide) (by decide) e
  refine ⟨hfile, s', ?_, by decide⟩
  split at hone
  · omega
  · rw [hone] at e
    exact e

end SimpleMicrokernel.Fs
