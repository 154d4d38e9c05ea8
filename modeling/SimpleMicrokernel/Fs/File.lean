/-
`fs/file.c` over open files: `fread`, `fseek` and `fstat`. A read is the file's bytes exactly
when every item starts on a sector boundary or ends in the sector it starts in, and every byte a
step reads past the end of the cluster it started in is the file's byte all the same.
-/
import SimpleMicrokernel.Fat16.Descriptor

namespace SimpleMicrokernel.Fs

open Memory Disk Fat16

def fileGetDescriptor (fd : Int) : FsM (Option (Ptr FileDescriptor)) := do
  let s ← get
  if h : 1 ≤ fd ∧ fd < maxFileDescriptors then
    return s.fileDescriptors ⟨fd.toNat, by omega⟩
  else
    return none

/-- The state with the position of the descriptor in a slot moved. -/
def Sys.setPos (s : Sys) (fd : Fin maxFileDescriptors) (pos : BitVec 32) : Sys :=
  { s with fileDescriptors := Function.update s.fileDescriptors fd ((s.fileDescriptors fd).map fun desc =>
    { desc with val := { desc.val with privateData :=
      { desc.val.privateData with val := { desc.val.privateData.val with pos := pos } } } }) }

def fread (env : Env) (ptr size nmemb : Nat) (fd : Int) : FsM Int := do
  if size = 0 ∨ nmemb = 0 ∨ fd < 1 then
    return -1
  match ← fileGetDescriptor fd with
  | none => return -1
  | some desc => fat16Read env desc.val.privateData.val size nmemb ptr

def fseek (fd offset : Int) (whence : FileSeekMode) : FsM Int := do
  match ← fileGetDescriptor fd with
  | none => return -1
  | some desc =>
    let (res, pos) ← fat16Seek desc.val.privateData.val (uint32 offset) whence
    modify fun s => if h : 1 ≤ fd ∧ fd < maxFileDescriptors then s.setPos ⟨fd.toNat, by omega⟩ pos else s
    return res

def fstat (fd : Int) : FsM (Int × Option FileStat) := do
  match ← fileGetDescriptor fd with
  | none => return (-1, none)
  | some desc => fat16Stat desc.val.privateData.val

/-! ## An open file -/

/-- Slot `fd` holds an open regular file with this item and this position. -/
def HoldsFile (s : Sys) (fd : Fin maxFileDescriptors) (item : Fat16DirectoryItem) (pos : BitVec 32) : Prop :=
  ∃ addr desc, s.fileDescriptors fd = some desc ∧
    desc.val.privateData.val.item.val = .file (some ⟨addr, item⟩) ∧ desc.val.privateData.val.pos = pos

section
variable {s : Sys} {fd : Fin maxFileDescriptors} {item : Fat16DirectoryItem} {p : BitVec 32}

theorem HoldsFile.unique {item' : Fat16DirectoryItem} {p' : BitVec 32} (h : HoldsFile s fd item p)
    (h' : HoldsFile s fd item' p') :
    item = item' ∧ p = p' := by
  obtain ⟨addr, desc, hdesc, hitem, rfl⟩ := h
  obtain ⟨addr', desc', hdesc', hitem', rfl⟩ := h'
  rw [hdesc] at hdesc'
  cases hdesc'
  rw [hitem] at hitem'
  cases hitem'
  exact ⟨rfl, rfl⟩

theorem fileGetDescriptor_apply (hfd : 1 ≤ fd.val) :
    fileGetDescriptor (fd.val : Int) s = .ok (s.fileDescriptors fd, s) := by
  unfold fileGetDescriptor
  rw [Exec.bind_of_ok (Exec.get_apply s), dif_pos ⟨by omega, by have := fd.isLt; omega⟩]
  rfl

theorem fileItem_apply {desc : FatFileDescriptor} {addr : Nat}
    (h : desc.item.val = .file (some ⟨addr, item⟩)) (s : Sys) :
    fileItem desc s = .ok (item, s) := by
  unfold fileItem
  rw [h]
  rfl

theorem HoldsFile.setPos (h : HoldsFile s fd item p) (pos : BitVec 32) : HoldsFile (s.setPos fd pos) fd item pos := by
  obtain ⟨addr, desc, hdesc, hitem, -⟩ := h
  refine ⟨addr, { desc with val := { desc.val with privateData :=
    { desc.val.privateData with val := { desc.val.privateData.val with pos := pos } } } }, ?_, hitem, rfl⟩
  simp only [Sys.setPos, Function.update_self, hdesc, Option.map_some]

/-- What a seek on a file gives, and where it leaves the position. -/
def seekFrom (filesize pos : BitVec 32) (offset : Nat) (seekMode : FileSeekMode) : Int × BitVec 32 :=
  if offset ≥ filesize.toNat then (-1, pos)
  else
    match seekMode with
    | .seekSet => (0, BitVec.ofNat 32 offset)
    | .seekCur => (0, pos + BitVec.ofNat 32 offset)
    | .seekEnd => (-1, pos)
    | .other => (-1, pos)

/-- A seek moves the position of its descriptor only. -/
theorem fseek_apply (h : HoldsFile s fd item p) (hfd : 1 ≤ fd.val) (offset : Int) (whence : FileSeekMode) :
    fseek (fd.val : Int) offset whence s = .ok ((seekFrom item.filesize p (uint32 offset) whence).1,
      s.setPos fd (seekFrom item.filesize p (uint32 offset) whence).2) := by
  obtain ⟨addr, desc, hdesc, hitem, hpos⟩ := h
  have hseek : fat16Seek desc.val.privateData.val (uint32 offset) whence s =
      .ok (seekFrom item.filesize p (uint32 offset) whence, s) := by
    unfold fat16Seek seekFrom
    rw [hitem]
    simp only
    rw [Exec.bind_of_ok (fileItem_apply hitem s), hpos]
    split
    · rfl
    · cases whence with
      | seekSet => rfl
      | seekCur => rfl
      | seekEnd => rfl
      | other => rfl
  unfold fseek
  rw [Exec.bind_of_ok (fileGetDescriptor_apply hfd), hdesc]
  simp only
  rw [Exec.bind_of_ok hseek, Exec.bind_of_ok (Exec.modify_apply ..), dif_pos ⟨by omega, by have := fd.isLt; omega⟩]
  rfl

theorem fseek_set (h : HoldsFile s fd item p) (hfd : 1 ≤ fd.val) {pos : Nat} (hpos : pos < item.filesize.toNat) :
    fseek (fd.val : Int) pos .seekSet s = .ok (0, s.setPos fd (BitVec.ofNat 32 pos)) := by
  have hlt : pos < 2 ^ 32 := Nat.lt_trans hpos item.filesize.isLt
  rw [fseek_apply h hfd, uint32_of_lt hlt, seekFrom, if_neg (by omega)]

theorem fread_eq (env : Env) (h : HoldsFile s fd item p) (hfd : 1 ≤ fd.val) {size nmemb : Nat} (hsize : 1 ≤ size)
    (hn : 1 ≤ nmemb) (ptr : Nat) :
    fread env ptr size nmemb fd.val s = (do
      let res ← readItems env (fat16GetFirstCluster item) size nmemb (int32 p.toNat) ptr
      if res < 0 then
        return -1
      return int32 nmemb : FsM Int) s := by
  obtain ⟨addr, desc, hdesc, hitem, hpos⟩ := h
  unfold fread
  rw [if_neg (by omega), Exec.bind_of_ok (fileGetDescriptor_apply hfd), hdesc]
  simp only
  unfold fat16Read
  rw [Exec.bind_of_ok (fileItem_apply hitem s), hpos]

end

/-! ## The file -/

/-- Byte `f` of the file whose first cluster is `c`: its clusters one after another, in the order of
the table. -/
def fileByte (env : Env) (fat16Private : Fat16Private) (c f : Nat) : Byte :=
  env.byteAt (clusterPos fat16Private (walk (fat env fat16Private) c (f / sizeOfClusterInBytes fat16Private))
    (f % sizeOfClusterInBytes fat16Private : Nat))

/-- `n` bytes of the file from `pos` on. -/
def fileBytes (env : Env) (fat16Private : Fat16Private) (c pos n : Nat) : List Byte :=
  (List.range n).map fun t => fileByte env fat16Private c (pos + t)

/-- The step that leaves byte `t` of a request at offset `o` has run past the end of its cluster
there, or started at an offset that is negative as an `int`. -/
def RunsOn (fat16Private : Fat16Private) (size o t : Nat) : Prop :=
  stepOffset (stepLength fat16Private size) (int32 o) t < 0 ∨
    (sizeOfClusterInBytes fat16Private : Int) ≤
      stepOffset (stepLength fat16Private size) (int32 o) t % sizeOfClusterInBytes fat16Private +
        (t % stepLength fat16Private size : Nat)

/-- A byte that its step read inside the cluster it started in is the file's byte. -/
theorem stepByte_eq_fileByte (env : Env) (fat16Private : Fat16Private) (c : Nat) {size o t : Nat}
    (hcluster : 0 < sizeOfClusterInBytes fat16Private) (hlt : o + t < 2 ^ 32) (h : ¬ RunsOn fat16Private size o t) :
    stepByte env fat16Private c (stepLength fat16Private size) (int32 o) t = fileByte env fat16Private c (o + t) := by
  unfold RunsOn at h
  rw [not_or] at h
  obtain ⟨hpos, hin⟩ := h
  have hdiv : stepLength fat16Private size * (t / stepLength fat16Private size) +
    t % stepLength fat16Private size = t :=
    Nat.div_add_mod ..
  -- the offset of the step did not wrap, since it is not negative
  have hstep : stepOffset (stepLength fat16Private size) (int32 o) t =
      ((o + stepLength fat16Private size * (t / stepLength fat16Private size) : Nat) : Int) := by
    unfold stepOffset at hpos ⊢
    rw [int32_int32_add] at hpos ⊢
    push_cast at hpos ⊢
    have hcast : (stepLength fat16Private size : Int) * ((t : Int) / (stepLength fat16Private size : Int)) =
        ((stepLength fat16Private size * (t / stepLength fat16Private size) : Nat) : Int) := by push_cast; rfl
    rw [hcast] at hpos ⊢
    generalize stepLength fat16Private size * (t / stepLength fat16Private size) = x at hdiv hpos ⊢
    unfold int32 at hpos ⊢
    rw [Int.bmod_def] at hpos ⊢
    split at hpos <;> split <;> omega
  unfold stepByte fileByte clusterOf
  rw [hstep] at hin ⊢
  generalize hx : o + stepLength fat16Private size * (t / stepLength fat16Private size) = x at hin ⊢
  have hot : o + t = x + t % stepLength fat16Private size := by omega
  generalize t % stepLength fat16Private size = r at hin hot ⊢
  rw [← Int.ofNat_tdiv, ← Int.ofNat_tmod, Int.toNat_natCast, hot]
  have hin : x % sizeOfClusterInBytes fat16Private + r < sizeOfClusterInBytes fat16Private := by omega
  have hq : (x + r) / sizeOfClusterInBytes fat16Private = x / sizeOfClusterInBytes fat16Private := by
    conv_lhs => rw [← Nat.div_add_mod x (sizeOfClusterInBytes fat16Private), Nat.add_assoc]
    rw [Nat.mul_add_div hcluster, Nat.div_eq_of_lt hin, Nat.add_zero]
  have hm : (x + r) % sizeOfClusterInBytes fat16Private = x % sizeOfClusterInBytes fat16Private + r := by
    conv_lhs => rw [← Nat.div_add_mod x (sizeOfClusterInBytes fat16Private), Nat.add_assoc]
    rw [Nat.mul_add_mod, Nat.mod_eq_of_lt hin]
  rw [hq, hm]
  congr 2

/-- The items leave the file's bytes exactly when each byte of each item is the file's. -/
theorem itemsBytes_eq_iff (env : Env) (fat16Private : Fat16Private) (c pos size n : Nat) :
    itemsBytes env fat16Private c pos size n = fileBytes env fat16Private c pos (size * n) ↔
      ∀ i < n, ∀ t < size, stepByte env fat16Private c (stepLength fat16Private size) (int32 (pos + i * size : Nat)) t =
        fileByte env fat16Private c (pos + i * size + t) := by
  induction n generalizing pos with
  | zero => simp [itemsBytes, fileBytes]
  | succ n ih =>
    have hsplit : fileBytes env fat16Private c pos (size * (n + 1)) =
        fileBytes env fat16Private c pos size ++ fileBytes env fat16Private c (pos + size) (size * n) := by
      unfold fileBytes
      rw [Nat.mul_succ, Nat.add_comm, List.range_add, List.map_append, List.map_map]
      congr 2
      funext t
      simp only [Function.comp, Nat.add_assoc]
    have hfirst : requestBytes env fat16Private c (stepLength fat16Private size) (int32 pos) size =
        fileBytes env fat16Private c pos size ↔
        ∀ t < size, stepByte env fat16Private c (stepLength fat16Private size) (int32 pos) t =
          fileByte env fat16Private c (pos + t) := by
      unfold requestBytes fileBytes
      rw [List.map_inj_left]
      simp only [List.mem_range]
    have happ : itemsBytes env fat16Private c pos size (n + 1) = fileBytes env fat16Private c pos (size * (n + 1)) ↔
        requestBytes env fat16Private c (stepLength fat16Private size) (int32 pos) size =
          fileBytes env fat16Private c pos size ∧
        itemsBytes env fat16Private c (pos + size) size n = fileBytes env fat16Private c (pos + size) (size * n) := by
      rw [itemsBytes, hsplit]
      exact ⟨fun h => List.append_inj h (by simp [fileBytes]), fun h => by rw [h.1, h.2]⟩
    rw [happ, hfirst, ih]
    have hnext : ∀ i, pos + size + i * size = pos + (i + 1) * size := by intro i; ring
    constructor
    · rintro ⟨h0, hrest⟩ i hi t ht
      cases i with
      | zero => simpa using h0 t ht
      | succ i =>
        have := hrest i (by omega) t ht
        rwa [hnext] at this
    · intro h
      refine ⟨fun t ht => by simpa using h 0 (by omega) t ht, fun i hi t ht => ?_⟩
      rw [hnext]
      exact h (i + 1) (by omega) t ht

theorem length_fileBytes (env : Env) (fat16Private : Fat16Private) (c pos n : Nat) :
    (fileBytes env fat16Private c pos n).length = n := by
  simp [fileBytes]

/-! ## Reading is right -/

/-- The cluster function gives a cluster for every offset in the file, whatever lies past a sector
buffer. -/
def Walked (env : Env) (s : Sys) (item : Fat16DirectoryItem) : Prop :=
  ∀ o < item.filesize.toNat, ∃ r, 0 ≤ r ∧ ∀ overread, Returns
    (fat16GetClusterForOffset { env with overread := overread } (fat16GetFirstCluster item) (int32 o)) s r

/-- A seek to `pos` and a read of `nmemb` items of `size` bytes: the read returns `nmemb` and memory
changes by exactly the file's bytes at `ptr`. -/
def ReadsFile (env : Env) (s : Sys) (fd : Fin maxFileDescriptors) (item : Fat16DirectoryItem)
    (pos ptr size nmemb : Nat) : Prop :=
  ∃ s', (do let _ ← fseek (fd.val : Int) pos .seekSet; fread env ptr size nmemb fd.val : FsM Int) s = .ok (nmemb, s') ∧
    s'.mem = store s.mem ptr (fileBytes env s.fat16Private (fat16GetFirstCluster item) pos (size * nmemb))

theorem Walked.walksTo {env : Env} {s : Sys} {item : Fat16DirectoryItem} (h : Walked env s item)
    (hcluster : 0 < sizeOfClusterInBytes s.fat16Private) {o : Nat} (ho : o < item.filesize.toNat) :
    WalksTo env s.fat16Private (fat16GetFirstCluster item) (int32 o) := by
  obtain ⟨r, hr, hall⟩ := h o ho
  rw [returns_cluster_iff env hcluster] at hall
  unfold WalksTo clusterOf
  rw [hall, walkResult_of_nonneg hall hr]

section
variable {env : Env} {s : Sys} {fd : Fin maxFileDescriptors} {item : Fat16DirectoryItem} {p : BitVec 32}

/-- Every step of every item of a read inside the file starts at an offset that walks to a cluster. -/
theorem Walked.steps (hwalk : Walked env s item) (hcluster : 0 < sizeOfClusterInBytes s.fat16Private)
    {pos size nmemb : Nat} (hend : pos + size * nmemb ≤ item.filesize.toNat) :
    ∀ i < nmemb, ∀ t < size, WalksTo env s.fat16Private (fat16GetFirstCluster item)
      (stepOffset (stepLength s.fat16Private size) (itemOffset pos size i) t) := by
  intro i hi t ht
  have hmul : (i + 1) * size ≤ nmemb * size := Nat.mul_le_mul_right size (by omega)
  have hdiv := Nat.div_mul_le_self t (stepLength s.fat16Private size)
  have hstep : stepOffset (stepLength s.fat16Private size) (itemOffset pos size i) t =
      int32 ((pos + i * size + t / stepLength s.fat16Private size * stepLength s.fat16Private size : Nat) : Int) := by
    unfold stepOffset itemOffset
    rw [int32_int32_add]
    push_cast
    congr 1
    ring
  rw [hstep]
  refine hwalk.walksTo hcluster ?_
  rw [Nat.succ_mul] at hmul
  rw [Nat.mul_comm size nmemb] at hend
  omega

/-- The two calls come to the loop over the items, once the position is set. -/
theorem seek_fread_eq (env : Env) (hfile : HoldsFile s fd item p) (hfd : 1 ≤ fd.val) {pos size nmemb : Nat}
    (hsize : 1 ≤ size) (hn : 1 ≤ nmemb) (hpos : pos < item.filesize.toNat) (ptr : Nat) :
    (do let _ ← fseek (fd.val : Int) pos .seekSet; fread env ptr size nmemb fd.val : FsM Int) s =
      (do let res ← readItems env (fat16GetFirstCluster item) size nmemb (int32 pos) ptr
          if res < 0 then
            return -1
          return int32 nmemb : FsM Int) (s.setPos fd (BitVec.ofNat 32 pos)) := by
  have hfilesize := item.filesize.isLt
  rw [Exec.bind_of_ok (fseek_set hfile hfd hpos), fread_eq _ (hfile.setPos _) hfd hsize hn, BitVec.toNat_ofNat,
    Nat.mod_eq_of_lt (by omega)]

theorem item_end {size nmemb pos filesize : Nat} (hend : pos + size * nmemb ≤ filesize) :
    ∀ i < nmemb, pos + i * size + size ≤ filesize := by
  intro i hi
  have h1 : (i + 1) * size ≤ nmemb * size := Nat.mul_le_mul_right size (by omega)
  rw [Nat.succ_mul] at h1
  rw [Nat.mul_comm size nmemb] at hend
  omega

theorem inBuffer_itemOffset {size nmemb pos : Nat} (hend : pos + size * nmemb ≤ item.filesize.toNat) :
    ∀ i < nmemb, (InBuffer (uint32 (itemOffset pos size i)) size ↔ InBuffer (pos + i * size) size) := by
  intro i hi
  have := item_end hend i hi
  have hfilesize := item.filesize.isLt
  unfold itemOffset
  rw [uint32_int32, uint32_of_lt (by omega)]

/-- A read that gives the file's bytes although a sector buffer may not be read past has its items
inside the sector buffers. -/
theorem ReadsFile.inBuffer {e : Halt} (hcluster : 0 < sizeOfClusterInBytes s.fat16Private)
    (hfile : HoldsFile s fd item p) (hfd : 1 ≤ fd.val) (hwalk : Walked env s item) {pos ptr size nmemb : Nat}
    (hsize : 1 ≤ size) (hn : 1 ≤ nmemb)
    (hend : pos + size * nmemb ≤ item.filesize.toNat)
    (h : ReadsFile { env with overread := fun _ _ => .error e } s fd item pos ptr size nmemb) :
    ∀ i < nmemb, InBuffer (pos + i * size) size := by
  have hfilesize := item.filesize.isLt
  have hmul : size ≤ size * nmemb := Nat.le_mul_of_pos_right size hn
  by_contra hno
  push Not at hno
  obtain ⟨i, hi, hout⟩ := hno
  obtain ⟨s', hrun, -⟩ := h
  have hhalt : readItems { env with overread := fun _ _ => .error e } _ _ _ _ _ _ = _ :=
    readItems_halts (fun _ _ => rfl) hsize (by omega) pos ptr (s.setPos fd (BitVec.ofNat 32 pos)) hcluster
    (hwalk.steps hcluster hend) ⟨i, hi, fun hb => hout ((inBuffer_itemOffset hend i hi).1 hb)⟩
  rw [seek_fread_eq _ hfile hfd hsize hn (by omega), Exec.bind_of_error hhalt] at hrun
  cases hrun

/-- `fread` after `fseek` gives the file's bytes exactly when the number of items fits an `int`,
every item starts on a sector boundary or ends in the sector it starts in, and wherever a step has
run past the end of its cluster the disk holds the file's byte there too. -/
theorem fread_iff (hcluster : 0 < sizeOfClusterInBytes s.fat16Private) (hfile : HoldsFile s fd item p)
    (hfd : 1 ≤ fd.val) (hwalk : Walked env s item) {pos size nmemb : Nat} (hsize : 1 ≤ size) (hn : 1 ≤ nmemb)
    (hend : pos + size * nmemb ≤ item.filesize.toNat) (ptr : Nat) :
    (∀ overread, ReadsFile { env with overread := overread } s fd item pos ptr size nmemb) ↔
      nmemb < 2 ^ 31 ∧ (∀ i < nmemb, InBuffer (pos + i * size) size) ∧
      ∀ i < nmemb, ∀ t < size, RunsOn s.fat16Private size (pos + i * size) t →
        stepByte env s.fat16Private (fat16GetFirstCluster item) (stepLength s.fat16Private size)
          (int32 (pos + i * size : Nat)) t =
        fileByte env s.fat16Private (fat16GetFirstCluster item) (pos + i * size + t) := by
  have hfilesize := item.filesize.isLt
  have hmul : size * nmemb ≥ size ∧ size * nmemb ≥ nmemb :=
    ⟨Nat.le_mul_of_pos_right size hn, Nat.le_mul_of_pos_left nmemb hsize⟩
  have hbound := item_end hend
  have hok : ∀ overread, (∀ i < nmemb, InBuffer (pos + i * size) size) → ∃ s',
      s'.mem = store s.mem ptr (itemsBytes env s.fat16Private (fat16GetFirstCluster item) pos size nmemb) ∧
      (do let _ ← fseek (fd.val : Int) pos .seekSet
          fread { env with overread := overread } ptr size nmemb fd.val : FsM Int) s = .ok (int32 nmemb, s') := by
    intro overread hbuf
    obtain ⟨s', hsame, e⟩ := readItems_ok { env with overread := overread } hsize (by omega) pos ptr
      (s.setPos fd (BitVec.ofNat 32 pos)) hcluster (hwalk.steps hcluster hend)
      fun i hi => (inBuffer_itemOffset hend i hi).2 (hbuf i hi)
    refine ⟨s', ?_, ?_⟩
    · rw [hsame, itemsBytes_overread]
      rfl
    · rw [seek_fread_eq _ hfile hfd hsize hn (by omega), Exec.bind_of_ok e, if_neg (by decide)]
      rfl
  have hbytes : store s.mem ptr (itemsBytes env s.fat16Private (fat16GetFirstCluster item) pos size nmemb) =
      store s.mem ptr (fileBytes env s.fat16Private (fat16GetFirstCluster item) pos (size * nmemb)) ↔
      ∀ i < nmemb, ∀ t < size, stepByte env s.fat16Private (fat16GetFirstCluster item) (stepLength s.fat16Private size)
        (int32 (pos + i * size : Nat)) t =
        fileByte env s.fat16Private (fat16GetFirstCluster item) (pos + i * size + t) := by
    rw [store_inj (by rw [length_itemsBytes, length_fileBytes, Nat.mul_comm]), itemsBytes_eq_iff]
  constructor
  · intro h
    have hbuf := (h fun _ _ => .error .outOfBounds).inBuffer hcluster hfile hfd hwalk hsize hn hend
    obtain ⟨s', e, hmem⟩ := h env.overread
    obtain ⟨s'', hmem', e'⟩ := hok env.overread hbuf
    rw [e] at e'
    simp only [Except.ok.injEq, Prod.mk.injEq] at e'
    obtain ⟨hres, rfl⟩ := e'
    have hlt : (nmemb : Int) < 2 ^ 31 := hres ▸ (int32_bounds nmemb).2
    exact ⟨by exact_mod_cast hlt, hbuf, fun i hi t ht _ => hbytes.1 (hmem'.symm.trans hmem) i hi t ht⟩
  · rintro ⟨hlt, hbuf, hruns⟩ overread
    obtain ⟨s', hmem, e⟩ := hok overread hbuf
    rw [int32_of_lt (by omega) (by omega)] at e
    refine ⟨s', e, hmem.trans (hbytes.2 fun i hi t ht => ?_)⟩
    by_cases hrun : RunsOn s.fat16Private size (pos + i * size) t
    · exact hruns i hi t ht hrun
    · have := hbound i hi
      exact stepByte_eq_fileByte env s.fat16Private _ hcluster (by omega) hrun

end

/-- A file of 1000 bytes in clusters 2 and 3, opened in slot 1. -/
def twoClusters : Fat16DirectoryItem := ⟨0, 0, 2, 1000⟩

def twoClustersDescriptor : Ptr FileDescriptor := ⟨0, 1, 0, ⟨0, .file (some ⟨0, twoClusters⟩)⟩, 0⟩

def twoClustersOpen : Sys :=
  { oneSectorClusters with fileDescriptors := fun i => if i = 1 then some twoClustersDescriptor else none }

def twoClustersDisk : Env := noFault fun c => if c = 2 then 3 else 0xFFFF

theorem holdsFile_twoClusters : HoldsFile twoClustersOpen 1 twoClusters 0 := ⟨_, _, rfl, rfl, rfl⟩

theorem walked_twoClusters : Walked twoClustersDisk twoClustersOpen twoClusters := by
  intro o ho
  have ho : o < 1000 := ho
  have hq : (int32 o).tdiv (sizeOfClusterInBytes twoClustersOpen.fat16Private) = ((o / 512 : Nat) : Int) := by
    rw [int32_of_lt (by omega) (by omega), ← Int.ofNat_tdiv]
    rfl
  rcases (by omega : o / 512 = 0 ∨ o / 512 = 1) with h0 | h1
  · refine ⟨2, by decide, ?_⟩
    rw [returns_cluster_iff twoClustersDisk (by decide), hq, h0]
    decide
  · refine ⟨3, by decide, ?_⟩
    rw [returns_cluster_iff twoClustersDisk (by decide), hq, h1]
    decide

theorem fread_two_items :
    (∀ overread, ReadsFile { twoClustersDisk with overread := overread } twoClustersOpen 1 twoClusters 512
      0x100000 100 2) ↔
      2 < 2 ^ 31 ∧ (∀ i < 2, InBuffer (512 + i * 100) 100) ∧
      ∀ i < 2, ∀ t < 100, RunsOn twoClustersOpen.fat16Private 100 (512 + i * 100) t →
        stepByte twoClustersDisk twoClustersOpen.fat16Private (fat16GetFirstCluster twoClusters)
          (stepLength twoClustersOpen.fat16Private 100) (int32 (512 + i * 100 : Nat)) t =
        fileByte twoClustersDisk twoClustersOpen.fat16Private (fat16GetFirstCluster twoClusters) (512 + i * 100 + t) :=
  fread_iff (by decide) holdsFile_twoClusters (by decide) walked_twoClusters (by decide) (by decide)
    (by decide) 0x100000

/-- Four bytes from position 510: the last two are read past the sector buffer. -/
theorem fread_crosses_sector :
    0 < sizeOfClusterInBytes twoClustersOpen.fat16Private ∧ HoldsFile twoClustersOpen 1 twoClusters 0 ∧
      Walked twoClustersDisk twoClustersOpen twoClusters ∧ 510 + 4 * 1 ≤ twoClusters.filesize.toNat ∧
      ¬ ∀ overread, ReadsFile { twoClustersDisk with overread := overread } twoClustersOpen 1 twoClusters 510
      0x100000 4 1 := by
  refine ⟨by decide, holdsFile_twoClusters, walked_twoClusters, by decide, fun h => ?_⟩
  have hbuf := (h fun _ _ => .error .outOfBounds).inBuffer (by decide) holdsFile_twoClusters (by decide)
    walked_twoClusters (by decide) (by decide) (by decide) 0 (by decide)
  exact absurd hbuf (by decide)

end SimpleMicrokernel.Fs
