/-
Reads of one open file, one after another. `fread` starts at the position the descriptor keeps and
leaves that position as it is, so every read of a run without seeks starts at the same place: the
run gives the bytes of one long read exactly when the disk repeats itself there.
-/
import SimpleMicrokernel.Fat16.Requests
import SimpleMicrokernel.Fs.File

namespace SimpleMicrokernel.Fs

open Memory Disk Fat16

/-! ## One read -/

/-- The result of `fread` on a file and what it writes. -/
def freadFrom (env : Env) (fat16Private : Fat16Private) (item : Fat16DirectoryItem) (pos size nmemb : Nat) :
    Except Halt (Int × Written) :=
  if size = 0 ∨ nmemb = 0 then return (-1, Written.nothing)
  else do
    let (res, w) ← itemsFrom env fat16Private (fat16GetFirstCluster item) size nmemb (int32 pos)
    return (if res < 0 then -1 else int32 nmemb, w)

section
variable {env : Env} {s s' : Sys} {fd : Fin maxFileDescriptors} {item : Fat16DirectoryItem} {p : BitVec 32}
    {ptr size nmemb : Nat}

/-- A read through a descriptor is the read of its file from its position on. -/
theorem fread_reads (env : Env) (hfile : HoldsFile s fd item p) (hfd : 1 ≤ fd.val) (ptr size nmemb : Nat) :
    Reads (fread env ptr size nmemb fd.val) s ptr (freadFrom env s.fat16Private item p.toNat size nmemb) := by
  unfold freadFrom
  by_cases h0 : size = 0 ∨ nmemb = 0
  · rw [if_pos h0]
    refine ⟨s, ?_, ?_⟩
    · rw [put_nothing]
      rfl
    · unfold fread
      rw [if_pos (h0.elim .inl fun h => .inr (.inl h))]
      rfl
  rw [if_neg h0]
  have heq := fread_eq env hfile hfd (show 1 ≤ size by omega) (show 1 ≤ nmemb by omega) ptr
  have hitems := readItems_reads env (fat16GetFirstCluster item) size nmemb (int32 p.toNat) ptr s
  cases hi : itemsFrom env s.fat16Private (fat16GetFirstCluster item) size nmemb (int32 p.toNat) with
  | error e =>
    rw [hi] at hitems
    exact heq.trans (Exec.bind_of_error hitems)
  | ok r =>
    obtain ⟨res, w⟩ := r
    rw [hi] at hitems
    obtain ⟨s1, hsame1, e1⟩ := hitems
    refine ⟨s1, hsame1, heq.trans ((Exec.bind_of_ok e1).trans ?_)⟩
    split
    · rfl
    · rfl

theorem itemsFrom_result (env : Env) (fat16Private : Fat16Private) (c size n : Nat) :
    ∀ {offset res : Int} {w : Written},
    itemsFrom env fat16Private c size n offset = .ok (res, w) → res < 0 ∨ res = 0 := by
  induction n with
  | zero =>
    intro offset res w h
    cases h
    exact .inr rfl
  | succ n ih =>
    intro offset res w h
    rw [itemsFrom] at h
    cases hr : readFrom env fat16Private c offset (int32 size) with
    | error e =>
      rw [hr] at h
      cases h
    | ok r =>
      rw [hr] at h
      simp only [bind, Except.bind] at h
      split at h
      · cases h
        exact .inl (by decide)
      · cases hi : itemsFrom env fat16Private c size n (int32 (offset + size)) with
        | error e =>
          rw [hi] at h
          cases h
        | ok r' =>
          rw [hi] at h
          cases h
          exact ih hi

/-- A read succeeds when there is something to read, as many items as an `int` counts, and each of them
comes through. -/
theorem freadFrom_ok_iff {fat16Private : Fat16Private} {pos : Nat} (hlt : size < 2 ^ 32) :
    (∃ res w, freadFrom env fat16Private item pos size nmemb = .ok (res, w) ∧ 0 < res) ↔
      (0 < size ∧ 0 < nmemb) ∧ 0 < int32 nmemb ∧
      ItemsComeThrough env fat16Private (fat16GetFirstCluster item) pos size nmemb := by
  unfold freadFrom
  by_cases h0 : size = 0 ∨ nmemb = 0
  · rw [if_pos h0]
    constructor
    · rintro ⟨res, w, h, hres⟩
      cases h
      exact absurd hres (by decide)
    · rintro ⟨h, -⟩
      omega
  rw [if_neg h0]
  obtain ⟨hiff, -⟩ := @itemsFrom_ok_iff env fat16Private (fat16GetFirstCluster item) size nmemb (by omega) hlt pos
  rw [← hiff]
  constructor
  · rintro ⟨res, w, h, hres⟩
    cases hi : itemsFrom env fat16Private (fat16GetFirstCluster item) size nmemb (int32 pos) with
    | error e =>
      rw [hi] at h
      cases h
    | ok r =>
      obtain ⟨res', w'⟩ := r
      rw [hi] at h
      cases h
      rcases itemsFrom_result env fat16Private _ _ _ hi with hneg | rfl
      · rw [if_pos hneg] at hres
        exact absurd hres (by decide)
      · rw [if_neg (by decide)] at hres
        exact ⟨⟨by omega, by omega⟩, hres, w, rfl⟩
  · rintro ⟨-, hres, w, h⟩
    refine ⟨int32 nmemb, w, ?_, hres⟩
    rw [h]
    simp only [bind, Except.bind]
    rw [if_neg (by decide)]
    rfl

/-- What a read that succeeds has left. -/
theorem freadFrom_bytes {fat16Private : Fat16Private} {pos : Nat} {res : Int} {w : Written} (hlt : size < 2 ^ 32)
    (h : freadFrom env fat16Private item pos size nmemb = .ok (res, w)) (hres : 0 < res) {t : Nat}
    (ht : t < size * nmemb) :
    w t = readByte env fat16Private (fat16GetFirstCluster item) pos size t ∧ ∃ b, w t = some b := by
  have hrun := (freadFrom_ok_iff hlt).1 ⟨res, w, h, hres⟩
  obtain ⟨⟨hsize, hn⟩, -, hcome⟩ := hrun
  unfold freadFrom at h
  rw [if_neg (by omega)] at h
  cases hi : itemsFrom env fat16Private (fat16GetFirstCluster item) size nmemb (int32 pos) with
  | error e =>
    rw [hi] at h
    cases h
  | ok r =>
    obtain ⟨res', w'⟩ := r
    rw [hi] at h
    cases h
    rcases itemsFrom_result env fat16Private _ _ _ hi with hneg | rfl
    · rw [if_pos hneg] at hres
      exact absurd hres (by decide)
    · have hbyte := (itemsFrom_ok_iff hsize hlt pos).2 _ hi t ht
      obtain ⟨b, hb⟩ := (hcome (t / size) (Nat.div_lt_of_lt_mul ht)).leftByte (Nat.mod_lt t hsize)
      exact ⟨hbyte, b, hbyte.trans hb⟩

end

/-! ## Reads one after another -/

/-- The arguments of one `fread`. -/
structure ReadCall where
  ptr : Nat
  size : Nat
  nmemb : Nat
deriving DecidableEq, Repr

/-- How many bytes a call asks for. -/
def ReadCall.bytes (r : ReadCall) : Nat := r.size * r.nmemb

/-- How many bytes the calls ask for together. -/
def requested : List ReadCall → Nat
  | [] => 0
  | r :: rs => r.bytes + requested rs

/-- The `n` bytes that stand in memory from an address on. -/
def taken (mem : Mem) (ptr n : Nat) : List Byte := (List.range n).map fun t => mem (ptr + t)

/-- The calls are made one after another and each succeeds; the bytes are those that each has
delivered, taken when it returns. -/
inductive Freads (env : Env) (fd : Int) : List ReadCall → Sys → List Byte → Sys → Prop
  | nil (s : Sys) : Freads env fd [] s [] s
  | cons {r : ReadCall} {rs : List ReadCall} {s s' s'' : Sys} {res : Int} {bytes : List Byte} :
      fread env r.ptr r.size r.nmemb fd s = .ok (res, s') → 0 < res → Freads env fd rs s' bytes s'' →
      Freads env fd (r :: rs) s (taken s'.mem r.ptr r.bytes ++ bytes) s''

/-- One call returns these bytes: none when it fails. -/
def ReturnsBytes (env : Env) (fd : Int) (r : ReadCall) (s : Sys) (bytes : List Byte) : Prop :=
  ∃ res s', fread env r.ptr r.size r.nmemb fd s = .ok (res, s') ∧
    bytes = if 0 < res then taken s'.mem r.ptr r.bytes else []

/-- The calls start `k` bytes into `f`, and what each leaves when it starts at `pos` is what `f` has
where the call is due. -/
def Repeats (env : Env) (fat16Private : Fat16Private) (c pos : Nat) (f : Nat → Option Byte) : Nat → List ReadCall → Prop
  | _, [] => True
  | k, r :: rs => (∀ t < r.bytes, readByte env fat16Private c pos r.size t = f (k + t)) ∧
    Repeats env fat16Private c pos f (k + r.bytes) rs

section
variable {env : Env} {s s' : Sys} {fd : Fin maxFileDescriptors} {item : Fat16DirectoryItem} {p : BitVec 32}

@[simp] theorem length_taken (mem : Mem) (ptr n : Nat) : (taken mem ptr n).length = n := by
  simp [taken]

theorem getElem?_taken (mem : Mem) (ptr : Nat) {n t : Nat} (h : t < n) :
    (taken mem ptr n)[t]? = some (mem (ptr + t)) := by
  simp [taken, h]

/-- A read that succeeds moves the streams, writes memory, and has delivered its bytes. -/
theorem of_fread (hfile : HoldsFile s fd item p) (hfd : 1 ≤ fd.val) {r : ReadCall} (hlt : r.size < 2 ^ 32) {res : Int}
    (h : fread env r.ptr r.size r.nmemb fd.val s = .ok (res, s')) (hres : 0 < res) :
    (∃ mem, SameButStreams { s with mem := mem } s') ∧ 0 < r.bytes ∧ ∀ t < r.bytes,
      some (s'.mem (r.ptr + t)) = readByte env s.fat16Private (fat16GetFirstCluster item) p.toNat r.size t := by
  have hreads := fread_reads env hfile hfd r.ptr r.size r.nmemb
  cases hv : freadFrom env s.fat16Private item p.toNat r.size r.nmemb with
  | error e =>
    rw [hv, show Reads _ s r.ptr (.error e) ↔ fread env r.ptr r.size r.nmemb fd.val s = .error e from Iff.rfl,
      h] at hreads
    cases hreads
  | ok v =>
    obtain ⟨res', w⟩ := v
    rw [hv] at hreads
    obtain ⟨s1, hsame, e⟩ := hreads
    rw [h] at e
    cases e
    obtain ⟨⟨hsize, hn⟩, -⟩ := (freadFrom_ok_iff hlt).1 ⟨res, w, hv, hres⟩
    refine ⟨⟨_, hsame⟩, Nat.mul_pos hsize hn, fun t ht => ?_⟩
    obtain ⟨hbyte, b, hb⟩ := freadFrom_bytes hlt hv hres ht
    rw [← hbyte, hb]
    have hmem : s'.mem = w.put s.mem r.ptr := by rw [hsame]
    rw [hmem]
    unfold Written.put
    rw [if_pos (Nat.le_add_right ..), Nat.add_sub_cancel_left, hb]
    rfl

theorem HoldsFile.of_same {mem : Mem} (hfile : HoldsFile s fd item p) (h : SameButStreams { s with mem := mem } s') :
    HoldsFile s' fd item p := by
  have hslots : s'.fileDescriptors = s.fileDescriptors := h.fileDescriptors
  obtain ⟨addr, desc, hdesc, hitem, hpos⟩ := hfile
  exact ⟨addr, desc, by rw [hslots, hdesc], hitem, hpos⟩

theorem readByte_of_same {mem : Mem} (h : SameButStreams { s with mem := mem } s') (env : Env) :
    readByte env s'.fat16Private = readByte env s.fat16Private := by
  rw [h]
  rfl

/-- The bytes of a run are `f` from `k` on when the disk repeats itself. -/
theorem Freads.bytes_iff {rs : List ReadCall} {bytes : List Byte} (hrun : Freads env fd.val rs s bytes s')
    (hfile : HoldsFile s fd item p) (hfd : 1 ≤ fd.val) (hlt : requested rs < 2 ^ 32) :
    bytes.length = requested rs ∧ ∀ (f : Nat → Option Byte) (k : Nat),
      (∀ t < requested rs, bytes[t]? = f (k + t)) ↔
      Repeats env s.fat16Private (fat16GetFirstCluster item) p.toNat f k rs := by
  generalize hfd' : (fd.val : Int) = n at hrun
  induction hrun with
  | nil s =>
    refine ⟨rfl, fun f k => ⟨fun _ => trivial, fun _ t ht => ?_⟩⟩
    unfold requested at ht
    exact absurd ht (Nat.not_lt_zero t)
  | @cons r rs s s1 s2 res bytes hcall hres hrest ih =>
    subst hfd'
    rw [requested] at hlt ⊢
    have hsize : r.size < 2 ^ 32 := by
      by_contra hbig
      have h0 : 0 < r.nmemb := by
        by_contra h0
        unfold fread at hcall
        rw [if_pos (.inr (.inl (by omega)))] at hcall
        cases hcall
        exact absurd hres (by decide)
      have := Nat.le_mul_of_pos_right r.size h0
      unfold ReadCall.bytes at hlt
      omega
    obtain ⟨⟨mem, hsame⟩, -, hbytes⟩ := of_fread hfile hfd hsize hcall hres
    obtain ⟨hlen, hiff⟩ := ih (hfile.of_same hsame) (by omega)
    refine ⟨by rw [List.length_append, length_taken, hlen], fun f k => ?_⟩
    have hpriv : Repeats env s1.fat16Private (fat16GetFirstCluster item) p.toNat =
        Repeats env s.fat16Private (fat16GetFirstCluster item) p.toNat := by
      funext f k rs
      induction rs generalizing k with
      | nil => rfl
      | cons r rs ih => rw [Repeats, Repeats, ih, readByte_of_same hsame]
    rw [hpriv] at hiff
    rw [Repeats, ← hiff f (k + r.bytes)]
    constructor
    · intro h
      refine ⟨fun t ht => ?_, fun t ht => ?_⟩
      · have := h t (by omega)
        rw [List.getElem?_append_left (by rw [length_taken]; exact ht), getElem?_taken _ _ ht, hbytes t ht] at this
        exact this
      · have := h (r.bytes + t) (by omega)
        rw [List.getElem?_append_right (by rw [length_taken]; omega), length_taken, Nat.add_sub_cancel_left,
          ← Nat.add_assoc] at this
        exact this
    · rintro ⟨h1, h2⟩ t ht
      by_cases hin : t < r.bytes
      · rw [List.getElem?_append_left (by rw [length_taken]; exact hin), getElem?_taken _ _ hin, hbytes t hin]
        exact h1 t hin
      · obtain ⟨u, rfl⟩ : ∃ u, t = r.bytes + u := ⟨t - r.bytes, by omega⟩
        rw [List.getElem?_append_right (by rw [length_taken]; omega), length_taken, Nat.add_sub_cancel_left,
          ← Nat.add_assoc]
        exact h2 u (by omega)

/-- The bytes of successful reads, one after another, are those of one read of as many bytes from the
same position exactly when the one read comes through and, at every call, the disk gives from the
starting position on the bytes that are due there. -/
theorem freads_continue_iff (hfile : HoldsFile s fd item p) (hfd : 1 ≤ fd.val) {rs : List ReadCall} {bytes : List Byte}
    (hrun : Freads env fd.val rs s bytes s') (hend : p.toNat + requested rs ≤ item.filesize.toNat) {whole : ReadCall}
    (hwhole : whole.bytes = requested rs) :
    ReturnsBytes env fd.val whole s bytes ↔
      (0 < requested rs → whole.nmemb < 2 ^ 31) ∧
      ItemsComeThrough env s.fat16Private (fat16GetFirstCluster item) p.toNat whole.size whole.nmemb ∧
      Repeats env s.fat16Private (fat16GetFirstCluster item) p.toNat
        (readByte env s.fat16Private (fat16GetFirstCluster item) p.toNat whole.size) 0 rs := by
  have hfilesize := item.filesize.isLt
  obtain ⟨hlen, hiff⟩ := hrun.bytes_iff hfile hfd (by omega)
  have hiff := hiff (readByte env s.fat16Private (fat16GetFirstCluster item) p.toNat whole.size) 0
  simp only [Nat.zero_add] at hiff
  rw [← hiff]
  have hreads := fread_reads env hfile hfd whole.ptr whole.size whole.nmemb
  by_cases h0 : requested rs = 0
  · -- nothing is asked for: the one read is refused
    have hnone : whole.size = 0 ∨ whole.nmemb = 0 := Nat.mul_eq_zero.1 (hwhole.trans h0)
    have hrefused : freadFrom env s.fat16Private item p.toNat whole.size whole.nmemb = .ok (-1, Written.nothing) := by
      unfold freadFrom
      rw [if_pos hnone]
      rfl
    rw [hrefused] at hreads
    obtain ⟨s1, -, e⟩ := hreads
    constructor
    · intro _
      refine ⟨fun h => absurd h (by omega), fun i hi t ht => ?_, fun t ht => absurd ht (by omega)⟩
      rcases hnone with h | h
      · omega
      · omega
    · intro _
      refine ⟨-1, s1, e, ?_⟩
      rw [if_neg (by decide)]
      exact List.eq_nil_of_length_eq_zero (hlen.trans h0)
  have hparts : 0 < whole.size ∧ 0 < whole.nmemb := by
    have hpos : 0 < whole.size * whole.nmemb := by
      have : whole.size * whole.nmemb = requested rs := hwhole
      omega
    exact ⟨Nat.pos_of_mul_pos_right hpos, Nat.pos_of_mul_pos_left hpos⟩
  have hsize : whole.size < 2 ^ 32 := by
    have h1 := Nat.le_mul_of_pos_right whole.size hparts.2
    have h2 : whole.size * whole.nmemb = requested rs := hwhole
    omega
  have hnmemb : whole.nmemb < 2 ^ 32 := by
    have h1 := Nat.le_mul_of_pos_left whole.nmemb hparts.1
    have h2 : whole.size * whole.nmemb = requested rs := hwhole
    omega
  have hcount : 0 < int32 whole.nmemb ↔ whole.nmemb < 2 ^ 31 := by
    unfold int32
    rw [Int.bmod_def]
    split <;> omega
  -- once the one read succeeds, its bytes are the run's when they agree one by one
  have hsame : ∀ {res : Int} {s1 : Sys}, fread env whole.ptr whole.size whole.nmemb fd.val s = .ok (res, s1) → 0 < res →
      (bytes = taken s1.mem whole.ptr whole.bytes ↔ ∀ t < requested rs,
        bytes[t]? = readByte env s.fat16Private (fat16GetFirstCluster item) p.toNat whole.size t) := by
    intro res s1 e hres
    obtain ⟨-, -, hbytes⟩ := of_fread hfile hfd hsize e hres
    rw [hwhole] at hbytes ⊢
    constructor
    · rintro rfl t ht
      rw [getElem?_taken _ _ ht, hbytes t ht]
    · intro h
      refine List.ext_getElem? fun t => ?_
      by_cases ht : t < requested rs
      · rw [getElem?_taken _ _ ht, hbytes t ht, h t ht]
      · rw [List.getElem?_eq_none (by omega), List.getElem?_eq_none (by rw [length_taken]; omega)]
  constructor
  · rintro ⟨res, s1, e, hbytes⟩
    have hres : 0 < res := by
      by_contra hres
      rw [if_neg hres] at hbytes
      rw [hbytes] at hlen
      exact h0 hlen.symm
    rw [if_pos hres] at hbytes
    cases hv : freadFrom env s.fat16Private item p.toNat whole.size whole.nmemb with
    | error err =>
      rw [hv] at hreads
      have hreads : fread env whole.ptr whole.size whole.nmemb fd.val s = .error err := hreads
      rw [e] at hreads
      cases hreads
    | ok v =>
      obtain ⟨res', w⟩ := v
      rw [hv] at hreads
      obtain ⟨s2, -, e2⟩ := hreads
      rw [e] at e2
      cases e2
      obtain ⟨-, hfits, hcome⟩ := (freadFrom_ok_iff hsize).1 ⟨res, w, hv, hres⟩
      exact ⟨fun _ => hcount.1 hfits, hcome, (hsame e hres).1 hbytes⟩
  · rintro ⟨hfits, hcome, hbytes⟩
    obtain ⟨res, w, hv, hres⟩ := (freadFrom_ok_iff hsize).2 ⟨hparts, hcount.2 (hfits (by omega)), hcome⟩
    rw [hv] at hreads
    obtain ⟨s1, -, e⟩ := hreads
    exact ⟨res, s1, e, by rw [if_pos hres]; exact (hsame e hres).2 hbytes⟩

end

/-- A disk whose bytes count up in every sector, with no fault past a sector buffer. -/
def countingDisk : Env := ⟨fun _ i => BitVec.ofNat 8 i.val, fun _ _ => .error .outOfBounds, fun _ m => .ok m,
  fun _ _ _ => .error .nullDeref⟩

/-- A read of one item inside the first sector of the file comes through. -/
theorem comesThrough_countingDisk {n : Nat} (hn : n ≤ 512) :
    ItemsComeThrough countingDisk twoClustersOpen.fat16Private (fat16GetFirstCluster twoClusters) 0 n 1 := by
  intro i hi t ht
  obtain rfl : i = 0 := by omega
  have hlen : stepLength twoClustersOpen.fat16Private n = 512 := by
    unfold stepLength
    rw [if_pos (by omega)]
    rfl
  rw [hlen, itemOffset_zero, stepOffset_first (by decide) (by omega), Nat.div_eq_of_lt (by omega), Nat.zero_mul,
    Nat.sub_zero]
  refine ⟨2048, by decide, fun k hk => ⟨BitVec.ofNat 8 k, ?_⟩⟩
  unfold streamByte
  have hdiv : k / 512 * 512 = 0 := by omega
  have hmod : k % 512 = k := by omega
  rw [hdiv, hmod, bufferAt, dif_pos (by omega)]
  simp only [countingDisk, diskReadSectors]
  congr 2
  omega

/-- So does the call, and it moves no descriptor. -/
theorem fread_countingDisk {s : Sys} {mem : Mem} (h : SameButStreams { twoClustersOpen with mem := mem } s)
    (ptr : Nat) {n : Nat}
    (hn : 0 < n) (hle : n ≤ 512) :
    ∃ res s', fread countingDisk ptr n 1 1 s = .ok (res, s') ∧ 0 < res ∧
      ∃ mem', SameButStreams { twoClustersOpen with mem := mem' } s' := by
  have hfile : HoldsFile s 1 twoClusters 0 := holdsFile_twoClusters.of_same h
  have hcome := comesThrough_countingDisk hle
  obtain ⟨res, w, hv, hres⟩ := (freadFrom_ok_iff (show n < 2 ^ 32 by omega)).2 ⟨⟨hn, by decide⟩, by decide, hcome⟩
  have hreads := fread_reads countingDisk hfile (by decide) ptr n 1
  have hpriv : freadFrom countingDisk s.fat16Private twoClusters =
    freadFrom countingDisk twoClustersOpen.fat16Private twoClusters := by
    funext pos size nmemb
    unfold freadFrom
    rw [itemsFrom_stream h]
  rw [hpriv, show ((0 : BitVec 32).toNat) = 0 from rfl, hv] at hreads
  obtain ⟨s', hsame, e⟩ := hreads
  refine ⟨res, s', e, hres, w.put s.mem ptr, ?_⟩
  unfold SameButStreams at *
  rw [hsame, h]

theorem freads_countingDisk :
    ∃ s', Freads countingDisk 1 [⟨0x100000, 1, 1⟩, ⟨0x100001, 1, 1⟩] twoClustersOpen [0, 0] s' := by
  have hone : ∀ {s s' : Sys} {mem : Mem} {ptr : Nat} {res : Int}, SameButStreams { twoClustersOpen with mem := mem } s →
      fread countingDisk ptr 1 1 1 s = .ok (res, s') → 0 < res → taken s'.mem ptr 1 = [0] := by
    intro s s' mem ptr res h e hres
    obtain ⟨-, -, hbytes⟩ := of_fread (r := ⟨ptr, 1, 1⟩) (holdsFile_twoClusters.of_same h) (by decide)
      (show 1 < 2 ^ 32 by decide) e hres
    have hbyte : some (s'.mem (ptr + 0)) =
      readByte countingDisk s.fat16Private (fat16GetFirstCluster twoClusters) 0 1 0 :=
      hbytes 0 (show 0 < 1 * 1 by decide)
    have hfirst : readByte countingDisk twoClustersOpen.fat16Private (fat16GetFirstCluster twoClusters) 0 1 0 =
      some 0 := by decide
    rw [readByte_of_same h, hfirst] at hbyte
    unfold taken
    rw [List.range_one, List.map_singleton, Option.some.inj hbyte]
  obtain ⟨res1, s1, e1, hres1, mem1, hsame1⟩ :=
    fread_countingDisk (refl twoClustersOpen) 0x100000 (n := 1) (by decide) (by decide)
  obtain ⟨res2, s2, e2, hres2, -⟩ := fread_countingDisk hsame1 0x100001 (n := 1) (by decide) (by decide)
  have hrun := Freads.cons (r := ⟨0x100000, 1, 1⟩) e1 hres1
    (Freads.cons (r := ⟨0x100001, 1, 1⟩) e2 hres2 (Freads.nil s2))
  rw [show ReadCall.bytes ⟨0x100000, 1, 1⟩ = 1 from rfl, show ReadCall.bytes ⟨0x100001, 1, 1⟩ = 1 from rfl,
    hone (refl twoClustersOpen) e1 hres1, hone hsame1 e2 hres2] at hrun
  exact ⟨s2, hrun⟩

theorem freads_continue_two : ∃ s',
    Freads countingDisk 1 [⟨0x100000, 1, 1⟩, ⟨0x100001, 1, 1⟩] twoClustersOpen [0, 0] s' ∧
    (ReturnsBytes countingDisk 1 ⟨0x100000, 2, 1⟩ twoClustersOpen [0, 0] ↔
      (0 < requested [⟨0x100000, 1, 1⟩, ⟨0x100001, 1, 1⟩] → 1 < 2 ^ 31) ∧
      ItemsComeThrough countingDisk twoClustersOpen.fat16Private (fat16GetFirstCluster twoClusters) 0 2 1 ∧
      Repeats countingDisk twoClustersOpen.fat16Private (fat16GetFirstCluster twoClusters) 0
        (readByte countingDisk twoClustersOpen.fat16Private (fat16GetFirstCluster twoClusters) 0 2) 0
        [⟨0x100000, 1, 1⟩, ⟨0x100001, 1, 1⟩]) := by
  obtain ⟨s', hrun⟩ := freads_countingDisk
  exact ⟨s', hrun, freads_continue_iff holdsFile_twoClusters (by decide) hrun (by decide) (by decide)⟩

/-- The two bytes of the file are 0 and 1; two reads of one byte give 0 and 0. -/
theorem freads_start_over : HoldsFile twoClustersOpen 1 twoClusters 0 ∧
    (∃ s', Freads countingDisk 1 [⟨0x100000, 1, 1⟩, ⟨0x100001, 1, 1⟩] twoClustersOpen [0, 0] s') ∧
    0 + requested [⟨0x100000, 1, 1⟩, ⟨0x100001, 1, 1⟩] ≤ twoClusters.filesize.toNat ∧
    ReadCall.bytes ⟨0x100000, 2, 1⟩ = requested [⟨0x100000, 1, 1⟩, ⟨0x100001, 1, 1⟩] ∧
    ¬ ReturnsBytes countingDisk 1 ⟨0x100000, 2, 1⟩ twoClustersOpen [0, 0] := by
  refine ⟨holdsFile_twoClusters, freads_countingDisk, by decide, by decide, ?_⟩
  rintro ⟨res, s', e, hbytes⟩
  obtain ⟨res', s1, e1, hres, -⟩ := fread_countingDisk (refl twoClustersOpen) 0x100000 (n := 2) (by decide) (by decide)
  have e1 : fread countingDisk 0x100000 2 1 1 twoClustersOpen = .ok (res', s1) := e1
  rw [e] at e1
  cases e1
  rw [if_pos hres] at hbytes
  have hsecond : (taken s'.mem 0x100000 2)[1]? = some 0 := by
    rw [← show ([0, 0] : List Byte)[1]? = some 0 from rfl, hbytes]
    rfl
  obtain ⟨-, -, hleft⟩ := of_fread (r := ⟨0x100000, 2, 1⟩) holdsFile_twoClusters (by decide) (by decide) e hres
  rw [getElem?_taken _ _ (by decide), hleft 1 (by decide)] at hsecond
  exact absurd hsecond (by decide)

end SimpleMicrokernel.Fs
