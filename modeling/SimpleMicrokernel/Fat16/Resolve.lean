/-
What a path leads to, as a function of the disk and the root directory's array. Directories are read here
from lists of bytes, and a read past the end of one stops. Where nothing is read past an array and memory
is not used up, the code finds in every state what is found here.
-/
import SimpleMicrokernel.Fat16.Contents
import SimpleMicrokernel.Fat16.Lookup
import SimpleMicrokernel.Fat16.Mount
import SimpleMicrokernel.Fs.Keeps

namespace SimpleMicrokernel.Fat16

open Memory Disk Fs

/-! ## Directories on the disk -/

/-- A directory: the bytes of its array, and how many entries of it are looked at. -/
structure DirImage where
  bytes : List Byte
  entries : Nat

/-- What a name stands for: a file, or a directory if it could be loaded. -/
inductive Found where
  | file (item : Fat16DirectoryItem)
  | directory (contents : Option DirImage)

/-- A string from `a` on comes to its end in the array. -/
def EndsInside (bytes : List Byte) (a : Nat) : Prop := ∃ b ∈ bytes.drop a, b = 0x00 ∨ b = 0x20

instance (bytes : List Byte) (a : Nat) : Decidable (EndsInside bytes a) :=
    inferInstanceAs (Decidable (∃ b ∈ bytes.drop a, _))

/-- The name of the entry at `a`. -/
def nameIn (bytes : List Byte) (a : Nat) : Except Halt (List Byte) :=
  if EndsInside bytes (a + filenameOffset) ∧ EndsInside bytes (a + extOffset) then
    fat16GetRelativePathName (readMem bytes) a maxPathName
  else .error .outOfBounds

/-- The entry at `a`. -/
def itemIn (bytes : List Byte) (a : Nat) : Except Halt Fat16DirectoryItem :=
  if a + sizeofFat16DirectoryItem ≤ bytes.length then .ok (itemAt (readMem bytes) a) else .error .outOfBounds

/-- The entries up to the marker that are not deleted, `n` left to look at from position `p` on. -/
def countFrom (env : Env) : Nat → Nat → Int → Except Halt Int
  | 0, _, _ => .error .hang
  | n + 1, p, i =>
    if firstByte env p 0 = 0x00 then return i
    else if firstByte env p 0 = 0xE5 then countFrom env n (p + sizeofFat16DirectoryItem) i
    else countFrom env n (p + sizeofFat16DirectoryItem) (i + 1)

/-- The directory an entry stands for, nothing when its clusters could not be read. -/
def loadFrom (env : Env) (fat16Private : Fat16Private) (item : Fat16DirectoryItem) : Except Halt (Option DirImage) := do
  let cluster := fat16GetFirstCluster item
  let total ← countFrom env (2 ^ 27) (fat16SectorsToAbosulute (uint32 (fat16ClusterToSector fat16Private cluster))) 0
  let directorySize := int32 (uint32 (total * sizeofFat16DirectoryItem))
  let (res, w) ← readFrom env fat16Private cluster 0 directorySize
  if res < 0 then return none
  else return some ⟨(List.range (uint32 directorySize)).map fun t => (w t).getD 0, total.toNat⟩

/-- What an entry stands for. -/
def foundAt (env : Env) (fat16Private : Fat16Private) (item : Fat16DirectoryItem) : Except Halt Found :=
  if item.itemAttribute &&& fatFileSubdirectory ≠ 0 then do
    let contents ← loadFrom env fat16Private item
    return .directory contents
  else return .file item

/-- The last entry with the name, `n` entries left to look at from entry `i` on. -/
def findFrom (env : Env) (fat16Private : Fat16Private) (bytes name : List Byte) :
    Nat → Nat → Option Found → Except Halt (Option Found)
  | 0, _, found => return found
  | n + 1, i, found => do
    let tmpFilename ← nameIn bytes (i * sizeofFat16DirectoryItem)
    let cmp ← istrncmp tmpFilename name name.length
    if cmp = 0 then do
      let item ← itemIn bytes (i * sizeofFat16DirectoryItem)
      let found ← foundAt env fat16Private item
      findFrom env fat16Private bytes name n (i + 1) (some found)
    else findFrom env fat16Private bytes name n (i + 1) found

def findIn (env : Env) (fat16Private : Fat16Private) (image : DirImage) (name : List Byte) :
    Except Halt (Option Found) :=
  findFrom env fat16Private image.bytes name image.entries 0 none

/-- The parts of a path after the first. -/
def resolveFrom (env : Env) (fat16Private : Fat16Private) : List (List Byte) → Option Found → Except Halt (Option Found)
  | [], found => return found
  | _ :: _, none => .error .nullDeref
  | _ :: _, some (.file _) => return none
  | _ :: _, some (.directory none) => .error .nullDeref
  | part :: next, some (.directory (some image)) => do
    let found ← findIn env fat16Private image part
    resolveFrom env fat16Private next found

def resolve (env : Env) (fat16Private : Fat16Private) (root : DirImage) (part : List Byte) (next : List (List Byte)) :
    Except Halt (Option Found) := do
  let found ← findIn env fat16Private root part
  if found.isNone then return none
  else resolveFrom env fat16Private next found

/-! ## Arrays in memory -/

section
variable {mem : Mem} {a : Nat} {bytes : List Byte}

/-- The array at `a` holds the bytes. -/
def Shows (mem : Mem) (a : Nat) (bytes : List Byte) : Prop := ∀ t b, bytes[t]? = some b → mem (a + t) = b

theorem readMem_apply (bytes : List Byte) (t : Nat) : readMem bytes t = (bytes[t]?).getD 0 := by
  unfold readMem
  rw [store_apply, if_pos (Nat.zero_le _), Nat.sub_zero]

theorem Shows.apply (h : Shows mem a bytes) {t : Nat} (ht : t < bytes.length) : mem (a + t) = readMem bytes t := by
  rw [readMem_apply, List.getElem?_eq_getElem ht]
  exact h t _ (List.getElem?_eq_getElem ht)

theorem EndsInside.at {i : Nat} (h : EndsInside bytes i) :
    ∃ e, i ≤ e ∧ e < bytes.length ∧ (readMem bytes e = 0x00 ∨ readMem bytes e = 0x20) := by
  obtain ⟨b, hb, hstop⟩ := h
  obtain ⟨j, hj, rfl⟩ := List.getElem_of_mem hb
  rw [List.length_drop] at hj
  refine ⟨i + j, Nat.le_add_right .., by omega, ?_⟩
  rw [List.getElem_drop] at hstop
  rw [readMem_apply, List.getElem?_eq_getElem (by omega)]
  exact hstop

/-- The copy of a string that ends in the array is the same wherever the array is. -/
theorem Shows.fat16ToProperString (h : Shows mem a bytes) {e : Nat} (he : e < bytes.length)
    (hstop : readMem bytes e = 0x00 ∨ readMem bytes e = 0x20) : ∀ {i : Nat}, i ≤ e → ∀ out : NameBuffer,
    fat16ToProperString mem out (a + i) = fat16ToProperString (readMem bytes) out i := by
  intro i hi
  induction hn : e - i generalizing i with
  | zero =>
    intro out
    obtain rfl : i = e := by omega
    rw [Fs.fat16ToProperString.eq_def mem, Fs.fat16ToProperString.eq_def (readMem bytes), h.apply he]
    have hend : ¬ (readMem bytes i ≠ 0x00 ∧ readMem bytes i ≠ 0x20) := fun hgo => hstop.elim hgo.1 hgo.2
    rw [if_neg hend, if_neg hend]
  | succ n ih =>
    intro out
    rw [Fs.fat16ToProperString.eq_def mem, Fs.fat16ToProperString.eq_def (readMem bytes),
      h.apply (show i < bytes.length by omega)]
    have hrest := @ih (i + 1) (by omega) (by omega)
    simp only [Nat.add_assoc, hrest]

theorem Shows.itemAt (h : Shows mem a bytes) {i : Nat} (hi : i + sizeofFat16DirectoryItem ≤ bytes.length) :
    itemAt mem (a + i) = itemAt (readMem bytes) i := by
  have hbyte : ∀ t < 32, mem (a + i + t) = readMem bytes (i + t) := by
    intro t ht
    unfold sizeofFat16DirectoryItem at hi
    rw [Nat.add_assoc]
    exact h.apply (by omega)
  simp only [Fat16.itemAt, uint16At, uint32At, Nat.add_assoc (a + i), Nat.add_assoc i]
  simp only [hbyte, Nat.reduceAdd, Nat.reduceLT]

theorem nameIn_eq (h : Shows mem a bytes) {i : Nat} (hin : nameIn bytes i ≠ .error .outOfBounds) :
    nameIn bytes i = fat16GetRelativePathName mem (a + i) maxPathName := by
  unfold nameIn at hin ⊢
  split
  · rename_i hends
    obtain ⟨e, hie, hlt, hstop⟩ := hends.1.at
    obtain ⟨e', hie', hlt', hstop'⟩ := hends.2.at
    have hname := h.fat16ToProperString hlt hstop hie
    have hext := h.fat16ToProperString hlt' hstop' hie'
    have hbyte : mem (a + (i + extOffset)) = readMem bytes (i + extOffset) := h.apply (by omega)
    unfold fat16GetRelativePathName
    simp only [Nat.add_assoc, hname, hext, hbyte]
  · rename_i hends
    rw [if_neg hends] at hin
    exact absurd rfl hin

end

/-! ## The states a path is resolved in -/

/-- A machine where what goes through null stops: memory is used up when a call stops so. -/
structure StopsOnNull (env : Env) (spent : Halt) : Prop where
  fill : ∀ n mem, env.nullFill n mem = .error spent
  store : ∀ a bytes mem, env.nullStore a bytes mem = .error spent

/-- What is mounted is as in `fat16Private`; the streams may be anywhere. -/
def OnVolume (fat16Private : Fat16Private) (s : Sys) : Prop :=
    s.fat16Private = { fat16Private with stream := s.fat16Private.stream }

/-- An allocation at `a` holds the bytes. -/
structure Holds (s : Sys) (a : Nat) (bytes : List Byte) : Prop where
  live : ∃ l ∈ s.live, l.addr = a ∧ bytes.length ≤ l.size
  shows : Shows s.mem a bytes

section
variable {reserved size : Nat} {env : Env} {spent : Halt} {fat16Private : Fat16Private} {s s' : Sys} {a : Nat}
    {bytes : List Byte}

theorem StopsOnNull.below (h : StopsOnNull env spent) (reserved : Nat) : FillsBelow env reserved where
  fill n mem mem' he := by
    rw [h.fill] at he
    cases he
  store a bytes mem mem' he := by
    rw [h.store] at he
    cases he

theorem StopsOnNull.kzalloc_error (h : StopsOnNull env spent) {n : Nat} {e : Halt} (he : kzalloc env n s = .error e) :
    e = spent := by
  unfold kzalloc at he
  rw [Exec.bind_of_ok (kmallac_apply n s), Exec.bind_of_ok (Exec.get_apply _)] at he
  split at he
  · rw [h.fill] at he
    cases he
    rfl
  · cases he

theorem StopsOnNull.kzalloc_ok (h : StopsOnNull env spent) {n p : Nat}
    (he : kzalloc env n s = .ok (p, s')) : p ≠ 0 := by
  obtain ⟨mem, -, -, hnull, -⟩ := of_kzalloc_ok he
  intro h0
  have hfill := hnull h0
  rw [h.fill] at hfill
  cases hfill

theorem OnVolume.same (hv : OnVolume fat16Private s) (h : SameVolume s s') : OnVolume fat16Private s' := by
  unfold OnVolume at *
  have hheader := h.header
  have hroot := h.rootDirectory
  rw [hv] at hheader hroot
  rw [← hheader, ← hroot]

theorem OnVolume.readFrom (h : OnVolume fat16Private s) (env : Env) (cluster offset total : Int) :
    readFrom env s.fat16Private cluster offset total = Fat16.readFrom env fat16Private cluster offset total := by
  have hsame : SameButStreams { s with fat16Private := fat16Private } s := by
    unfold SameButStreams
    rw [← h]
  exact readFrom_stream hsame env cluster _ rfl

theorem OnVolume.fat16ClusterToSector (h : OnVolume fat16Private s) (cluster : Int) :
    fat16ClusterToSector s.fat16Private cluster = Fat16.fat16ClusterToSector fat16Private cluster := by
  rw [h]
  rfl

theorem Holds.framesAt (h : Holds s a bytes) (hok : s.Ok reserved size)
    (f : ∀ l ∈ s.live, l.addr = a → FramesSys reserved size True [l] s s') : Holds s' a bytes := by
  obtain ⟨l, hl, rfl, hsize⟩ := h.live
  obtain ⟨-, hlive, hmem⟩ := f l hl rfl hok (List.cons_subset.2 ⟨hl, List.nil_subset _⟩)
  refine ⟨⟨l, hlive (List.mem_singleton_self _), rfl, hsize⟩, fun t b hb => ?_⟩
  obtain ⟨ht, -⟩ := List.getElem?_eq_some_iff.1 hb
  have hcovers : l.Covers (l.addr + t) := covers_of_fill (hok.bounds hl).1 (Nat.le_add_right ..)
    (Nat.add_lt_add_left (by omega) _)
  rw [hmem trivial l (List.mem_singleton_self _) _ hcovers]
  exact h.shows t b hb

theorem Holds.frames (h : Holds s a bytes) (hok : s.Ok reserved size)
    (f : ∀ held, FramesSys reserved size True held s s') :
    Holds s' a bytes := h.framesAt hok fun l _ _ => f [l]

/-! ## Loading -/

/-- The count of the code is the count on the disk. -/
theorem totalItemsLoop_gives (env : Env) (n : Nat) : ∀ {p : Nat} {i : Int} {s : Sys}, p % 32 = 0 →
    s.fat16Private.stream .directory = ⟨p % 2 ^ 32⟩ →
    Exec.Gives SameButStreams (totalItemsLoop env n i) s (countFrom env n p i) := by
  induction n with
  | zero => exact fun _ _ => Exec.gives_error rfl
  | succ n ih =>
    intro p i s hp hs
    obtain ⟨res, bytes, s1, e, hres, hhead, hsame, hs1⟩ := streamerRead_entry env hp hs
    have hnext : (p + sizeofFat16DirectoryItem) % 32 = 0 := by
      unfold sizeofFat16DirectoryItem
      omega
    rw [totalItemsLoop, countFrom]
    refine Exec.Gives.start (Exec.bind_of_ok e) hsame ?_
    simp only
    rw [if_neg (by omega), hhead]
    by_cases h0 : firstByte env p 0 = 0x00
    · rw [if_pos (by rw [h0]), if_pos h0]
      exact Exec.gives_pure _ _
    rw [if_neg (by simpa using h0), if_neg h0]
    by_cases hdel : firstByte env p 0 = 0xE5
    · rw [if_pos (by rw [hdel]), if_pos hdel]
      exact ih hnext hs1
    · rw [if_neg (by simpa using hdel), if_neg hdel]
      exact ih hnext hs1

theorem fat16GetTotalItemsForDirectory_gives (env : Env) (sector : Nat) (s : Sys) :
    Exec.Gives SameButStreams (fat16GetTotalItemsForDirectory env sector) s
    (countFrom env (2 ^ 27) (fat16SectorsToAbosulute sector) 0) := by
  obtain ⟨s1, e1, hsame, hs1⟩ := seek_directory sector s
  unfold fat16GetTotalItemsForDirectory
  exact Exec.Gives.start (Exec.bind_of_ok e1) hsame
    (totalItemsLoop_gives env _ (fat16SectorsToAbosulute_mod sector) hs1)

theorem Reads.follows {out : Nat} {x : FsM Int} {v : Except Halt (Int × Written)} {o : Halt} (h : Reads x s out v) :
    Exec.Follows o spent (fun s' res r => res = r.1 ∧ SameButStreams { s with mem := r.2.put s.mem out } s') x s v := by
  cases v with
  | error e => exact Exec.follows_error h
  | ok r =>
    obtain ⟨s', hsame, e⟩ := h
    exact Exec.follows_ok e ⟨rfl, hsame⟩

/-- The directory in memory is the one on the disk. -/
def ShowsDirectory (s : Sys) : Option (Ptr Fat16Directory) → Option DirImage → Prop
  | none, none => True
  | some d, some image => Holds s d.val.item image.bytes ∧ d.val.totalEntries.toNat = image.entries
  | _, _ => False

theorem fat16FreeDirectory_ok (d : Ptr Fat16Directory) (s : Sys) :
    ∃ s', fat16FreeDirectory (some d) s = .ok ((), s') := by
  unfold fat16FreeDirectory
  simp only
  split <;> exact ⟨_, rfl⟩

theorem holds_read {n p : Nat} {w : Written} {s1 s2 : Sys} (halloc : kzalloc env n s = .ok (p, s1))
    (hok : s.Ok reserved size) (hp : p ≠ 0) (hsame : SameButStreams { s1 with mem := w.put s1.mem p } s2) :
    Holds s2 p ((List.range n).map fun t => (w t).getD 0) := by
  have z : FramesSys reserved size False [] s s1 ∧ _ := kzalloc_spec False.elim halloc
  have hlive : s2.live = s1.live := hsame.live
  refine ⟨⟨⟨p, n, .kheap⟩, ?_, rfl, by simp⟩, fun t b hb => ?_⟩
  · rw [hlive, z.2 hok hp]
    exact List.mem_cons_self ..
  · obtain ⟨ht, -⟩ := List.getElem?_eq_some_iff.1 hb
    rw [List.length_map, List.length_range] at ht
    rw [List.getElem?_map, List.getElem?_range ht] at hb
    cases hb
    obtain ⟨mem, rfl, -, -, hfill⟩ := of_kzalloc_ok halloc
    rw [hsame]
    show w.put mem p (p + t) = _
    unfold Written.put
    rw [if_pos (Nat.le_add_right ..), Nat.add_sub_cancel_left, hfill hp, memset_apply, if_pos (by omega)]

/-- A directory is loaded as the disk has it. -/
theorem fat16LoadDirectory_follows (hnull : StopsOnNull env spent) (hok : s.Ok reserved size)
    (hv : OnVolume fat16Private s) (h : Holds s a bytes) {i : Nat} (hi : i + sizeofFat16DirectoryItem ≤ bytes.length)
    (hdir : (itemAt (readMem bytes) i).itemAttribute &&& fatFileSubdirectory ≠ 0) :
    Exec.Follows .outOfBounds spent ShowsDirectory (fat16LoadDirectory env (a + i)) s
    (loadFrom env fat16Private (itemAt (readMem bytes) i)) := by
  unfold fat16LoadDirectory loadFrom
  refine Exec.Follows.start (Exec.bind_of_ok (Exec.get_apply s)) ?_
  rw [h.shows.itemAt hi, if_neg hdir]
  refine Exec.follows_bind (fun e => hnull.kzalloc_error) fun directory s1 h1 => ?_
  have f1 : ∀ held, FramesSys reserved size True held s s1 :=
    fun held => framed_kzalloc (fun _ => hnull.below reserved) _ _ _ _ h1
  obtain ⟨hok1, -, -⟩ := f1 [] hok (List.nil_subset _)
  have hv1 := hv.same (sameVolume_kzalloc _ _ _ _ _ h1)
  rw [if_neg (hnull.kzalloc_ok h1)]
  refine Exec.Follows.start (Exec.bind_of_ok (Exec.get_apply s1)) ?_
  rw [(h.frames hok f1).shows.itemAt hi, hv1.fat16ClusterToSector]
  refine (fat16GetTotalItemsForDirectory_gives ..).follows.bind ?_
  rintro total s2 _ h2 - ⟨hsame, rfl⟩
  obtain ⟨hok2, -, -⟩ := (hsame.frames : FramesSys reserved size False [] s1 s2) hok1 (List.nil_subset _)
  have hv2 := hv1.same hsame.volume
  refine Exec.follows_bind (fun e => hnull.kzalloc_error) fun item s3 h3 => ?_
  have hitem := hnull.kzalloc_ok h3
  have hv3 := hv2.same (sameVolume_kzalloc _ _ _ _ _ h3)
  rw [if_neg hitem]
  have hread : Reads (fat16ReadInternal env (fat16GetFirstCluster (itemAt (readMem bytes) i)) 0x00
      (int32 (uint32 (total * sizeofFat16DirectoryItem))) item) s3 item _ :=
    fat16ReadInternalFromStream_reads env .clusterRead _ _ item s3 rfl
  rw [hv3.readFrom] at hread
  refine hread.follows.bind ?_
  rintro res s4 ⟨res', w⟩ h4 - ⟨rfl, hsame4⟩
  simp only
  split
  · obtain ⟨s5, h5⟩ := fat16FreeDirectory_ok ⟨directory, ⟨item, total, 0, 0⟩⟩ s4
    exact Exec.Follows.start (Exec.bind_of_ok h5) (Exec.follows_pure trivial)
  · have hshows := holds_read h3 hok2 hitem hsame4
    generalize (List.range _).map _ = read at hshows ⊢
    have hq : ShowsDirectory s4 (some ⟨directory, ⟨item, total, 0, 0⟩⟩) (some ⟨read, total.toNat⟩) := ⟨hshows, rfl⟩
    exact Exec.follows_pure hq

/-! ## Finding -/

/-- The item made for a name is what the name stands for. -/
def ShowsItem (s : Sys) : FatItem → Found → Prop
  | .file (some i), .file item => i.val = item
  | .directory directory, .directory contents => ShowsDirectory s directory contents
  | _, _ => False

def ShowsFound (s : Sys) : Option (Ptr FatItem) → Option Found → Prop
  | none, none => True
  | some fItem, some found => ShowsItem s fItem.val found
  | _, _ => False

theorem fat16CloneDirectoryItem_ok (hnull : StopsOnNull env spent) (hok : s.Ok reserved size)
    (h : Holds s a bytes) {i : Nat} (hi : i + sizeofFat16DirectoryItem ≤ bytes.length)
    {r : Option (Ptr Fat16DirectoryItem)}
    (hclone : fat16CloneDirectoryItem env (a + i) sizeofFat16DirectoryItem s = .ok (r, s')) :
    ∃ copy, r = some ⟨copy, itemAt (readMem bytes) i⟩ := by
  unfold fat16CloneDirectoryItem at hclone
  rw [if_neg (by decide)] at hclone
  obtain ⟨copy, s1, h1, hclone⟩ := Exec.of_bind_ok hclone
  rw [if_neg (hnull.kzalloc_ok h1), Exec.bind_of_ok (Exec.get_apply s1)] at hclone
  obtain ⟨rfl, -⟩ := Exec.of_pure_ok hclone
  have h' := h.frames hok fun held => framed_kzalloc (fun _ => hnull.below reserved) _ _ _ _ h1
  rw [h'.shows.itemAt hi]
  exact ⟨copy, rfl⟩

theorem fat16CloneDirectoryItem_error (hnull : StopsOnNull env spent) {item : Nat} {e : Halt}
    (hclone : fat16CloneDirectoryItem env item sizeofFat16DirectoryItem s = .error e) : e = spent := by
  unfold fat16CloneDirectoryItem at hclone
  rw [if_neg (by decide)] at hclone
  cases h1 : kzalloc env sizeofFat16DirectoryItem s with
  | error e' =>
    rw [Exec.bind_of_error h1] at hclone
    cases hclone
    exact hnull.kzalloc_error h1
  | ok r =>
    obtain ⟨copy, s1⟩ := r
    rw [Exec.bind_of_ok h1, if_neg (hnull.kzalloc_ok h1), Exec.bind_of_ok (Exec.get_apply s1)] at hclone
    cases hclone

/-- The item made for an entry is what the entry stands for. -/
theorem fat16NewFatItemDirectoryItem_follows (hnull : StopsOnNull env spent) (hok : s.Ok reserved size)
    (hv : OnVolume fat16Private s) (h : Holds s a bytes) {i : Nat} (hi : i + sizeofFat16DirectoryItem ≤ bytes.length) :
    Exec.Follows .outOfBounds spent (fun s' r found => ShowsFound s' r (some found))
    (fat16NewFatItemDirectoryItem env (a + i)) s
      (foundAt env fat16Private (itemAt (readMem bytes) i)) := by
  unfold fat16NewFatItemDirectoryItem foundAt
  refine Exec.follows_bind (fun e => hnull.kzalloc_error) fun fItem s1 h1 => ?_
  have f1 : ∀ held, FramesSys reserved size True held s s1 :=
    fun held => framed_kzalloc (fun _ => hnull.below reserved) _ _ _ _ h1
  obtain ⟨hok1, -, -⟩ := f1 [] hok (List.nil_subset _)
  have hv1 := hv.same (sameVolume_kzalloc _ _ _ _ _ h1)
  have hholds1 := h.frames hok f1
  rw [if_neg (hnull.kzalloc_ok h1)]
  refine Exec.Follows.start (Exec.bind_of_ok (Exec.get_apply s1)) ?_
  rw [hholds1.shows.itemAt hi]
  by_cases hdir : (itemAt (readMem bytes) i).itemAttribute &&& fatFileSubdirectory ≠ 0
  · rw [if_pos hdir, if_pos hdir]
    refine (fat16LoadDirectory_follows hnull hok1 hv1 hholds1 hi hdir).bind ?_
    rintro directory s2 contents - - hshows
    exact Exec.follows_pure hshows
  · rw [if_neg hdir, if_neg hdir]
    refine Exec.follows_bind (fun e => fat16CloneDirectoryItem_error hnull) fun r s2 h2 => ?_
    obtain ⟨copy, rfl⟩ := fat16CloneDirectoryItem_ok hnull hok1 hholds1 hi h2
    exact Exec.follows_pure rfl

/-- The search in an array in memory is the search in the directory it holds. -/
theorem findLoop_follows (hnull : StopsOnNull env spent) (d : Fat16Directory) (name : List Byte) (n : Nat) :
    ∀ {i : Nat} {fItem : Option (Ptr FatItem)} {found : Option Found} {s : Sys}, s.Ok reserved size →
    OnVolume fat16Private s →
      Holds s d.item bytes → ShowsFound s fItem found →
      Exec.Follows .outOfBounds spent ShowsFound (findLoop env d name n i fItem) s
      (findFrom env fat16Private bytes name n i found) := by
  induction n with
  | zero => exact fun _ _ _ hshows => Exec.follows_pure hshows
  | succ n ih =>
    intro i fItem found s hok hv h hshows
    rw [findLoop, findFrom]
    refine Exec.Follows.start (Exec.bind_of_ok (Exec.get_apply s)) ?_
    by_cases hname : nameIn bytes (i * sizeofFat16DirectoryItem) = .error .outOfBounds
    · rw [hname]
      exact Exec.follows_out
    rw [nameIn_eq h.shows hname]
    refine Exec.follows_lift_bind fun tmpFilename _ => Exec.follows_lift_bind fun cmp _ => ?_
    by_cases hcmp : cmp = 0
    · rw [if_pos hcmp, if_pos hcmp]
      by_cases hin : i * sizeofFat16DirectoryItem + sizeofFat16DirectoryItem ≤ bytes.length
      · have hitem : itemIn bytes (i * sizeofFat16DirectoryItem) =
          .ok (itemAt (readMem bytes) (i * sizeofFat16DirectoryItem)) := if_pos hin
        rw [hitem]
        refine (fat16NewFatItemDirectoryItem_follows hnull hok hv h hin).bind ?_
        rintro fItem' s1 found' h1 - hshows'
        have f1 : ∀ held, FramesSys reserved size True held s s1 := fun held =>
          framed_of_makes (makes_fat16NewFatItemDirectoryItem (fun _ => hnull.below reserved) _) _ _ _ h1
        exact ih (f1 [] hok (List.nil_subset _)).1 (hv.same (sameVolume_fat16NewFatItemDirectoryItem _ _ _ _ _ h1))
          (h.frames hok f1) hshows'
      · have hitem : itemIn bytes (i * sizeofFat16DirectoryItem) = .error .outOfBounds := if_neg hin
        rw [hitem]
        exact Exec.follows_out
    · rw [if_neg hcmp, if_neg hcmp]
      exact ih hok hv h hshows

/-! ## Resolving -/

theorem mem_itemAddrs_directory (addr : Nat) (d : Ptr Fat16Directory) :
    d.val.item ∈ itemAddrs ⟨addr, .directory (some d)⟩ := List.mem_cons_self ..

/-- What was found stays when the allocations of the item are framed. -/
theorem ShowsFound.frames {r : Option (Ptr FatItem)} {found : Option Found} (h : ShowsFound s r found)
    (hok : s.Ok reserved size)
    (f : ∀ l ∈ s.live, ∀ p ∈ r, l.addr ∈ itemAddrs p → FramesSys reserved size True [l] s s') :
    ShowsFound s' r found := by
  cases r with
  | none => cases found with
    | none => trivial
    | some found => exact h.elim
  | some p =>
    obtain ⟨addr, val⟩ := p
    cases found with
    | none => exact h.elim
    | some found =>
      cases val with
      | file i => cases i with
        | none => exact h.elim
        | some i => cases found with
          | file item => exact h
          | directory contents => exact h.elim
      | directory d =>
        cases found with
        | file item => exact h.elim
        | directory contents =>
          cases d with
          | none => cases contents with
            | none => trivial
            | some image => exact h.elim
          | some d =>
            cases contents with
            | none => exact h.elim
            | some image =>
              obtain ⟨hholds, hentries⟩ : Holds s d.val.item image.bytes ∧ d.val.totalEntries.toNat = image.entries := h
              refine ⟨hholds.framesAt hok fun l hl he => f l hl _ rfl ?_, hentries⟩
              rw [he]
              exact mem_itemAddrs_directory addr d

/-- The loop over the parts of a path comes to what the parts lead to. -/
theorem directoryEntryLoop_follows (hnull : StopsOnNull env spent) (next : List (List Byte)) :
    ∀ {item : Option (Ptr FatItem)} {found : Option Found} {s : Sys}, s.Ok reserved size → OnVolume fat16Private s →
      ShowsFound s item found → (∀ p ∈ item, ∃ own, Owns [] own s (itemAddrs p)) →
      Exec.Follows .outOfBounds spent ShowsFound (directoryEntryLoop env next item) s
      (resolveFrom env fat16Private next found) := by
  induction next with
  | nil => exact fun _ _ hshows _ => Exec.follows_pure hshows
  | cons part next ih =>
    intro item found s hok hv hshows hown
    cases item with
    | none => cases found with
      | none => exact Exec.follows_error rfl
      | some found => exact hshows.elim
    | some item =>
      obtain ⟨own, ho⟩ := hown item rfl
      obtain ⟨addr, val⟩ := item
      cases found with
      | none => exact hshows.elim
      | some found =>
        cases val with
        | file i => cases i with
          | none => exact hshows.elim
          | some i => cases found with
            | file item => exact Exec.follows_pure trivial
            | directory contents => exact hshows.elim
        | directory d =>
          cases found with
          | file item => exact hshows.elim
          | directory contents =>
            cases d with
            | none => cases contents with
              | none => exact Exec.follows_error rfl
              | some image => exact hshows.elim
            | some d =>
              cases contents with
              | none => exact hshows.elim
              | some image =>
                obtain ⟨hholds, hentries⟩ : Holds s d.val.item image.bytes ∧
                  d.val.totalEntries.toNat = image.entries := hshows
                have hfind : Exec.Follows .outOfBounds spent ShowsFound
                  (fat16FindItemInDirectory env (some d.val) part) s
                    (findIn env fat16Private image part) := by
                  unfold fat16FindItemInDirectory findIn
                  rw [← hentries]
                  exact findLoop_follows hnull _ _ _ hok hv hholds trivial
                refine hfind.bind ?_
                rintro tmpItem s1 found' h1 - hshows1
                have f1 : FramesSys reserved size True (own ++ []) s s1 ∧ _ :=
                  makes_fat16FindItemInDirectory (fun _ => hnull.below reserved) _ _ (own ++ []) _ _ _ h1
                rw [List.append_nil] at f1
                obtain ⟨hok1, hlive1, -⟩ := f1.1 hok ho.live
                have hv1 := hv.same (sameVolume_fat16FindItemInDirectory _ _ _ _ _ _ h1)
                obtain ⟨s2, h2⟩ := fat16FatItemFree_ok ⟨addr, .directory (some d)⟩ s1
                refine Exec.Follows.start (Exec.bind_of_ok h2) ?_
                -- the directory searched is given back, and what was found in it is made of other allocations
                have hkeep : ∀ l ∈ s1.live, ∀ p ∈ tmpItem, l.addr ∈ itemAddrs p →
                  FramesSys reserved size True [l] s1 s2 := by
                  intro l _ p hp hl
                  obtain ⟨own', o1⟩ := f1.2 hok ho.live p hp
                  rw [← o1.made] at hl
                  obtain ⟨b, hb, he⟩ := List.mem_map.1 hl
                  refine fat16FatItemFree_owned ⟨ho.made, hlive1, ho.nodup, fun x hx y hy => ?_⟩ h2
                  rw [List.mem_singleton.1 hy, ← he]
                  exact (o1.out b hb x hx).symm
                have hgone : FramesSys reserved size True [] s1 s2 :=
                  fat16FatItemFree_owned ⟨ho.made, hlive1, ho.nodup, by simp⟩ h2
                refine ih (hgone hok1 (List.nil_subset _)).1 (hv1.same (sameVolume_fat16FatItemFree _ _ _ _ h2))
                  (hshows1.frames hok1 hkeep) fun p hp => ?_
                obtain ⟨own', o1⟩ := f1.2 hok ho.live p hp
                refine ⟨own', o1.made, fun b hb => ?_, o1.nodup, by simp⟩
                have hb1 := o1.live hb
                have hframe := hkeep b hb1 p hp (o1.made ▸ List.mem_map_of_mem hb)
                exact (hframe hok1 (List.cons_subset.2 ⟨hb1, List.nil_subset _⟩)).2.1 (List.mem_singleton_self _)

/-- Resolving a path in memory finds what the path leads to on the disk. -/
theorem fat16GetDirectoryEntry_follows (hnull : StopsOnNull env spent) (hok : s.Ok reserved size)
    (hv : OnVolume fat16Private s) {root : DirImage} (h : Holds s fat16Private.rootDirectory.item root.bytes)
    (hentries : fat16Private.rootDirectory.totalEntries.toNat = root.entries) (part : List Byte)
    (next : List (List Byte)) :
    Exec.Follows .outOfBounds spent ShowsFound (fat16GetDirectoryEntry env part next) s
    (resolve env fat16Private root part next) := by
  unfold fat16GetDirectoryEntry resolve
  refine Exec.Follows.start (Exec.bind_of_ok (Exec.get_apply s)) ?_
  have hfind : Exec.Follows .outOfBounds spent ShowsFound
    (fat16FindItemInDirectory env (some s.fat16Private.rootDirectory) part) s
      (findIn env fat16Private root part) := by
    have hroot : s.fat16Private.rootDirectory = fat16Private.rootDirectory := by rw [hv]
    unfold fat16FindItemInDirectory findIn
    rw [hroot, ← hentries]
    exact findLoop_follows hnull _ _ _ hok hv h trivial
  refine hfind.bind ?_
  rintro rootItem s1 found h1 - hshows1
  have f1 : FramesSys reserved size True [] s s1 ∧ _ :=
    makes_fat16FindItemInDirectory (fun _ => hnull.below reserved) _ _ [] _ _ _ h1
  have hv1 := hv.same (sameVolume_fat16FindItemInDirectory _ _ _ _ _ _ h1)
  obtain ⟨hok1, -, -⟩ := f1.1 hok (List.nil_subset _)
  cases rootItem with
  | none => cases found with
    | none => exact Exec.follows_pure trivial
    | some found => exact hshows1.elim
  | some item => cases found with
    | none => exact hshows1.elim
    | some found => exact directoryEntryLoop_follows hnull next hok1 hv1 hshows1 (f1.2 hok (List.nil_subset _))

end

end SimpleMicrokernel.Fat16
