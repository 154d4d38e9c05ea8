/-
Which entry a lookup finds. The loop compares over the length of the requested name only and goes on
after a match, so it gives the item of the last entry that the name is a beginning of, and that is an
entry of this name only where no such entry comes after it.
-/
import SimpleMicrokernel.Fat16.Contents
import SimpleMicrokernel.Fat16.Count
import SimpleMicrokernel.Fat16.Frame
import SimpleMicrokernel.Fs.Decode

namespace SimpleMicrokernel.Fat16

open Memory Disk Fs

/-! ## The run of the loop -/

/-- The address of an entry of a directory. -/
def entryAt (d : Fat16Directory) (i : Nat) : Nat := d.item + i * sizeofFat16DirectoryItem

/-- The buffer that the name of an entry is decoded to. -/
def tmpFilename (d : Fat16Directory) (i : Nat) (mem : Mem) : Except Halt (List Byte) :=
  fat16GetRelativePathName mem (entryAt d i) maxPathName

/-- The lookup that starts in the state `s` comes to entry `i` in another one. -/
inductive Examines (env : Env) (d : Fat16Directory) (name : List Byte) (s : Sys) : Nat → Sys → Prop where
  | start : Examines env d name s 0 s
  | pass {i : Nat} {t : Sys} {tmp : List Byte} {cmp : Int} : Examines env d name s i t →
    tmpFilename d i t.mem = .ok tmp →
      istrncmp tmp name name.length = .ok cmp → cmp ≠ 0 → Examines env d name s (i + 1) t
  | build {i : Nat} {t t' : Sys} {tmp : List Byte} {fItem : Option (Ptr FatItem)} : Examines env d name s i t →
      tmpFilename d i t.mem = .ok tmp → istrncmp tmp name name.length = .ok 0 →
      fat16NewFatItemDirectoryItem env (entryAt d i) t = .ok (fItem, t') → Examines env d name s (i + 1) t'

/-- The buffer of entry `i` is like this when the lookup comes to it. -/
def NameAt (env : Env) (d : Fat16Directory) (name : List Byte) (s : Sys) (P : List Byte → Prop) (i : Nat) : Prop :=
  ∃ t tmp, Examines env d name s i t ∧ tmpFilename d i t.mem = .ok tmp ∧ P tmp

/-- The code takes the entry for a match. -/
def Taken (env : Env) (d : Fat16Directory) (name : List Byte) (s : Sys) : Nat → Prop :=
  NameAt env d name s fun tmp => istrncmp tmp name name.length = .ok 0

/-- A letter in lower case, every other character as it is. -/
def lowerCase (c : Byte) : Byte := if 0x41 ≤ c.toNat ∧ c.toNat ≤ 0x5A then c + 0x20 else c

/-- The buffer holds the name, up to the case of letters. -/
def HoldsName (name tmp : List Byte) : Prop := (tmp.takeWhile (· ≠ 0)).map lowerCase = name.map lowerCase

/-- The entry has this name. -/
def Named (env : Env) (d : Fat16Directory) (name : List Byte) (s : Sys) : Nat → Prop :=
    NameAt env d name s (HoldsName name)

/-- The step of the loop at entry `i` comes through. -/
def Through (env : Env) (d : Fat16Directory) (name : List Byte) (s : Sys) (i : Nat) : Prop :=
  ∀ t, Examines env d name s i t → ∃ tmp cmp, tmpFilename d i t.mem = .ok tmp ∧
    istrncmp tmp name name.length = .ok cmp ∧
    (cmp = 0 → ∃ r, fat16NewFatItemDirectoryItem env (entryAt d i) t = .ok r)

/-- The item is what was built for entry `i`. -/
def BuiltFor (env : Env) (d : Fat16Directory) (name : List Byte) (s : Sys) (i : Nat)
    (fItem : Option (Ptr FatItem)) : Prop :=
  ∃ t t', Examines env d name s i t ∧ fat16NewFatItemDirectoryItem env (entryAt d i) t = .ok (fItem, t')

section
variable {env : Env} {d : Fat16Directory} {name : List Byte} {s t t' : Sys} {i n : Nat}

theorem Examines.unique (h : Examines env d name s i t) (h' : Examines env d name s i t') : t = t' := by
  induction h generalizing t' with
  | start =>
    cases h'
    rfl
  | pass h htmp hcmp hne ih =>
    cases h' with
    | pass h' _ _ _ => exact ih h'
    | build h' htmp' hcmp' _ =>
      obtain rfl := ih h'
      rw [htmp] at htmp'
      cases htmp'
      rw [hcmp] at hcmp'
      cases hcmp'
      exact absurd rfl hne
  | build h htmp hcmp hbuild ih =>
    cases h' with
    | pass h' htmp' hcmp' hne =>
      obtain rfl := ih h'
      rw [htmp] at htmp'
      cases htmp'
      rw [hcmp] at hcmp'
      cases hcmp'
      exact absurd rfl hne
    | build h' _ _ hbuild' =>
      obtain rfl := ih h'
      rw [hbuild] at hbuild'
      cases hbuild'
      rfl

/-- A step of the loop, where the name decodes and can be compared. -/
theorem findLoop_step {tmp : List Byte} {cmp : Int} (fItem : Option (Ptr FatItem))
    (htmp : tmpFilename d i t.mem = .ok tmp) (hcmp : istrncmp tmp name name.length = .ok cmp) :
    findLoop env d name (n + 1) i fItem t =
      if cmp = 0 then (fat16NewFatItemDirectoryItem env (entryAt d i) >>= findLoop env d name n (i + 1)) t
      else findLoop env d name n (i + 1) fItem t := by
  have htmp' : (liftM (fat16GetRelativePathName t.mem (d.item + i * sizeofFat16DirectoryItem) maxPathName) :
    FsM (List Byte)) t =
      .ok (tmp, t) := by
    unfold tmpFilename entryAt at htmp
    rw [htmp]
    rfl
  have hcmp' : (liftM (istrncmp tmp name name.length) : FsM Int) t = .ok (cmp, t) := by
    rw [hcmp]
    rfl
  rw [findLoop, Exec.bind_of_ok (Exec.get_apply t), Exec.bind_of_ok htmp', Exec.bind_of_ok hcmp']
  split
  · rfl
  · rfl

/-- The steps of a lookup that returns come through, and it gives the item built for the last entry it took
for a match, or what it started with. -/
theorem of_findLoop_ok {fItem r : Option (Ptr FatItem)} (h : findLoop env d name n i fItem t = .ok (r, t'))
    (hat : Examines env d name s i t) : (∀ j, i ≤ j → j < i + n → Through env d name s j) ∧
      ((r = fItem ∧ ∀ j, i ≤ j → j < i + n → ¬ Taken env d name s j) ∨
        ∃ j, i ≤ j ∧ j < i + n ∧ Taken env d name s j ∧ (∀ k, j < k → k < i + n → ¬ Taken env d name s k) ∧
          BuiltFor env d name s j r) := by
  induction n generalizing i fItem t with
  | zero =>
    obtain ⟨rfl, rfl⟩ := Exec.of_pure_ok h
    exact ⟨fun j h1 h2 => by omega, .inl ⟨rfl, fun j h1 h2 => by omega⟩⟩
  | succ n ih =>
    have hstep : ∃ tmp cmp, tmpFilename d i t.mem = .ok tmp ∧ istrncmp tmp name name.length = .ok cmp := by
      rw [findLoop, Exec.bind_of_ok (Exec.get_apply t)] at h
      obtain ⟨tmp, s1, h1, h⟩ := Exec.of_bind_ok h
      obtain ⟨htmp, rfl⟩ := Exec.of_lift_ok h1
      obtain ⟨cmp, s2, h2, -⟩ := Exec.of_bind_ok h
      exact ⟨tmp, cmp, htmp, (Exec.of_lift_ok h2).1⟩
    obtain ⟨tmp, cmp, htmp, hcmp⟩ := hstep
    rw [findLoop_step fItem htmp hcmp] at h
    by_cases h0 : cmp = 0
    · rw [if_pos h0] at h
      subst h0
      obtain ⟨item, t1, hbuild, h⟩ := Exec.of_bind_ok h
      obtain ⟨hthrough, hlast⟩ := ih h (.build hat htmp hcmp hbuild)
      refine ⟨fun j h1 h2 => ?_, .inr ?_⟩
      · rcases Nat.eq_or_lt_of_le h1 with rfl | h1
        · intro t2 hat2
          obtain rfl := hat.unique hat2
          exact ⟨tmp, 0, htmp, hcmp, fun _ => ⟨_, hbuild⟩⟩
        · exact hthrough j h1 (by omega)
      · rcases hlast with ⟨rfl, hno⟩ | ⟨j, h1, h2, htaken, hno, hbuilt⟩
        · exact ⟨i, le_refl i, by omega, ⟨t, tmp, hat, htmp, hcmp⟩, fun k h1 h2 => hno k h1 (by omega), t, t1,
            hat, hbuild⟩
        · exact ⟨j, by omega, by omega, htaken, fun k h1 h2 => hno k h1 (by omega), hbuilt⟩
    · rw [if_neg h0] at h
      obtain ⟨hthrough, hlast⟩ := ih h (.pass hat htmp hcmp h0)
      have hnot : ¬ Taken env d name s i := by
        rintro ⟨t2, tmp', hat2, htmp', hcmp'⟩
        obtain rfl := hat.unique hat2
        rw [htmp] at htmp'
        cases htmp'
        rw [hcmp] at hcmp'
        cases hcmp'
        exact h0 rfl
      refine ⟨fun j h1 h2 => ?_, ?_⟩
      · rcases Nat.eq_or_lt_of_le h1 with rfl | h1
        · intro t2 hat2
          obtain rfl := hat.unique hat2
          exact ⟨tmp, cmp, htmp, hcmp, fun h => absurd h h0⟩
        · exact hthrough j h1 (by omega)
      · rcases hlast with ⟨rfl, hno⟩ | ⟨j, h1, h2, htaken, hno, hbuilt⟩
        · refine .inl ⟨rfl, fun j h1 h2 => ?_⟩
          rcases Nat.eq_or_lt_of_le h1 with rfl | h1
          · exact hnot
          · exact hno j h1 (by omega)
        · exact .inr ⟨j, by omega, by omega, htaken, fun k h1 h2 => hno k h1 (by omega), hbuilt⟩

theorem findLoop_ok (fItem : Option (Ptr FatItem)) (hat : Examines env d name s i t)
    (hthrough : ∀ j, i ≤ j → j < i + n → Through env d name s j) :
    ∃ r t', findLoop env d name n i fItem t = .ok (r, t') := by
  induction n generalizing i fItem t with
  | zero => exact ⟨fItem, t, rfl⟩
  | succ n ih =>
    obtain ⟨tmp, cmp, htmp, hcmp, hbuild⟩ := hthrough i (le_refl i) (by omega) t hat
    have hrest : ∀ j, i + 1 ≤ j → j < i + 1 + n → Through env d name s j :=
      fun j h1 h2 => hthrough j (by omega) (by omega)
    rw [findLoop_step fItem htmp hcmp]
    by_cases h0 : cmp = 0
    · subst h0
      obtain ⟨⟨item, t1⟩, hbuild⟩ := hbuild rfl
      rw [if_pos rfl, Exec.bind_of_ok hbuild]
      exact ih item (.build hat htmp hcmp hbuild) hrest
    · rw [if_neg h0]
      exact ih fItem (.pass hat htmp hcmp h0) hrest

/-! ## Names -/

theorem toUpper_lowerCase : ∀ c : Byte, toUpper (lowerCase c) = toUpper c := by decide +kernel

theorem istrncmp_of_holdsName {tmp : List Byte} (h : HoldsName name tmp) : istrncmp tmp name name.length = .ok 0 := by
  have hpre : ∀ (as rest bs : List Byte), as.map lowerCase = bs.map lowerCase →
    istrncmp (as ++ rest) bs bs.length = .ok 0 := by
    intro as
    induction as with
    | nil =>
      intro rest bs h
      cases bs with
      | nil => cases rest <;> rfl
      | cons b bs => cases h
    | cons a as ih =>
      intro rest bs h
      cases bs with
      | nil => cases h
      | cons b bs =>
        obtain ⟨hab, h⟩ := List.cons_eq_cons.1 h
        have hup : toUpper a = toUpper b := by rw [← toUpper_lowerCase a, hab, toUpper_lowerCase]
        show (if _ then _ else istrncmp (as ++ rest) bs bs.length) = _
        rw [if_neg fun h => h.2 hup]
        exact ih rest bs h
  rw [← List.takeWhile_append_dropWhile (p := (· ≠ 0)) (l := tmp)]
  exact hpre _ _ _ h

/-! ## Building an item -/

/-- Where the entries of the directory at an entry start on the disk, and how many bytes they take. -/
def subdirectoryPos (fat16Private : Fat16Private) (item : Fat16DirectoryItem) : Nat :=
  fat16SectorsToAbosulute (uint32 (fat16ClusterToSector fat16Private (fat16GetFirstCluster item)))

def subdirectorySize (env : Env) (fat16Private : Fat16Private) (item : Fat16DirectoryItem) (m : Nat) : Int :=
  int32 (uint32 ((liveCount env (subdirectoryPos fat16Private item) m : Int) * sizeofFat16DirectoryItem))

/-- The directory of an item has an end marker, and its entries can be read. -/
def Loads (env : Env) (fat16Private : Fat16Private) (item : Fat16DirectoryItem) : Prop :=
  ∃ m < 2 ^ 27, Marker env (subdirectoryPos fat16Private item) m ∧
    ∃ v, readFrom env fat16Private (fat16GetFirstCluster item) 0 (subdirectorySize env fat16Private item m) = .ok v

/-- The allocations made to build the item of the entry at an address succeed. -/
structure Granted (env : Env) (a : Nat) (t : Sys) : Prop where
  item : ∃ p t1, kzalloc env sizeofFatItem t = .ok (p, t1) ∧ p ≠ 0
  file : ∀ p t1, kzalloc env sizeofFatItem t = .ok (p, t1) →
    (itemAt t1.mem a).itemAttribute &&& fatFileSubdirectory = 0 →
    ∃ q t2, kzalloc env sizeofFat16DirectoryItem t1 = .ok (q, t2) ∧ q ≠ 0
  directory : ∀ p t1, kzalloc env sizeofFatItem t = .ok (p, t1) →
    (itemAt t1.mem a).itemAttribute &&& fatFileSubdirectory ≠ 0 →
    ∃ q t2, kzalloc env sizeofFat16Directory t1 = .ok (q, t2) ∧ q ≠ 0
  entries : ∀ p t1 q t2 m t3, kzalloc env sizeofFatItem t = .ok (p, t1) →
    (itemAt t1.mem a).itemAttribute &&& fatFileSubdirectory ≠ 0 →
    kzalloc env sizeofFat16Directory t1 = .ok (q, t2) →
      Marker env (subdirectoryPos t2.fat16Private (itemAt t2.mem a)) m → SameButStreams t2 t3 →
    ∃ r t4, kzalloc env (uint32 (subdirectorySize env t2.fat16Private (itemAt t2.mem a) m)) t3 = .ok (r, t4) ∧ r ≠ 0

/-- If the entry at an address is a directory, once its structures are allocated, it can be loaded. -/
def EntryLoads (env : Env) (a : Nat) (t : Sys) : Prop :=
  ∀ p t1 q t2, kzalloc env sizeofFatItem t = .ok (p, t1) → (itemAt t1.mem a).itemAttribute &&& fatFileSubdirectory ≠ 0 →
    kzalloc env sizeofFat16Directory t1 = .ok (q, t2) → Loads env t2.fat16Private (itemAt t2.mem a)

theorem fat16LoadDirectory_ok_iff {a q : Nat} {t1 t2 : Sys}
    (hdir : (itemAt t1.mem a).itemAttribute &&& fatFileSubdirectory ≠ 0)
    (hq : kzalloc env sizeofFat16Directory t1 = .ok (q, t2)) (hne : q ≠ 0)
    (hentries : ∀ m t3, Marker env (subdirectoryPos t2.fat16Private (itemAt t2.mem a)) m → SameButStreams t2 t3 →
      ∃ r t4, kzalloc env (uint32 (subdirectorySize env t2.fat16Private (itemAt t2.mem a) m)) t3 = .ok (r, t4) ∧
      r ≠ 0) :
    (∃ r, fat16LoadDirectory env a t1 = .ok r) ↔ Loads env t2.fat16Private (itemAt t2.mem a) := by
  have hrun : fat16LoadDirectory env a t1 = (do
      let totalItems ← fat16GetTotalItemsForDirectory env
        (uint32 (fat16ClusterToSector t2.fat16Private (fat16GetFirstCluster (itemAt t2.mem a))))
      let directorySize := int32 (uint32 (totalItems * sizeofFat16DirectoryItem))
      let item ← kzalloc env (uint32 directorySize)
      if item = 0 then
        return none
      let res ← fat16ReadInternal env (fat16GetFirstCluster (itemAt t2.mem a)) 0x00 directorySize item
      let d : Ptr Fat16Directory := ⟨q, ⟨item, totalItems, 0, 0⟩⟩
      if res < 0 then
        fat16FreeDirectory (some d)
        return none
      return some d : FsM (Option (Ptr Fat16Directory))) t2 := by
    unfold fat16LoadDirectory
    rw [Exec.bind_of_ok (Exec.get_apply t1), if_neg hdir, Exec.bind_of_ok hq, if_neg hne,
      Exec.bind_of_ok (Exec.get_apply t2)]
  -- with a marker the count and the allocation of the entries come through, and the read decides
  have hmarked : ∀ m < 2 ^ 27, Marker env (subdirectoryPos t2.fat16Private (itemAt t2.mem a)) m →
      ((∃ r, fat16LoadDirectory env a t1 = .ok r) ↔
        ∃ v, readFrom env t2.fat16Private (fat16GetFirstCluster (itemAt t2.mem a)) 0
        (subdirectorySize env t2.fat16Private (itemAt t2.mem a) m) = .ok v) := by
    intro m hm hmark
    obtain ⟨t3, hcount, hsame⟩ := fat16GetTotalItemsForDirectory_ok hm hmark t2
    obtain ⟨array, t4, halloc, harray⟩ := hentries m t3 hmark hsame
    have hpriv : readFrom env t4.fat16Private = readFrom env t3.fat16Private := by
      rw [(sameFiles_kzalloc _ _ _ _ _ halloc).fat16Private]
    have hread : Reads (fat16ReadInternal env (fat16GetFirstCluster (itemAt t2.mem a)) 0x00
        (subdirectorySize env t2.fat16Private (itemAt t2.mem a) m) array) t4 array
          (readFrom env t4.fat16Private _ 0 _) :=
      fat16ReadInternalFromStream_reads env .clusterRead _ _ array t4 rfl
    rw [hpriv, readFrom_stream hsame env _ _ rfl] at hread
    have hcont : fat16LoadDirectory env a t1 = (do
        let res ← fat16ReadInternal env (fat16GetFirstCluster (itemAt t2.mem a)) 0x00
          (subdirectorySize env t2.fat16Private (itemAt t2.mem a) m) array
        let d : Ptr Fat16Directory := ⟨q, ⟨array,
          liveCount env (subdirectoryPos t2.fat16Private (itemAt t2.mem a)) m, 0, 0⟩⟩
        if res < 0 then
          fat16FreeDirectory (some d)
          return none
        return some d : FsM (Option (Ptr Fat16Directory))) t4 := by
      refine ((hrun.trans (Exec.bind_of_ok hcount)).trans (Exec.bind_of_ok halloc)).trans ?_
      rw [if_neg harray]
      rfl
    rw [hcont]
    cases hv : readFrom env t2.fat16Private (fat16GetFirstCluster (itemAt t2.mem a)) 0
        (subdirectorySize env t2.fat16Private (itemAt t2.mem a) m) with
    | error e =>
      rw [hv] at hread
      constructor
      · rintro ⟨r, h⟩
        rw [Exec.bind_of_error hread] at h
        cases h
      · rintro ⟨v, h⟩
        cases h
    | ok v =>
      obtain ⟨res, w⟩ := v
      rw [hv] at hread
      obtain ⟨t5, -, hread⟩ := hread
      refine ⟨fun _ => ⟨_, rfl⟩, fun _ => ?_⟩
      rw [Exec.bind_of_ok hread]
      split
      · simp only [fat16FreeDirectory]
        split
        · exact ⟨_, rfl⟩
        · exact ⟨_, rfl⟩
      · exact ⟨_, rfl⟩
  constructor
  · rintro ⟨r, h⟩
    have hcount := h
    rw [hrun] at hcount
    obtain ⟨total, t3, hcount, -⟩ := Exec.of_bind_ok hcount
    obtain ⟨-, m, hm, hmark, -⟩ := of_fat16GetTotalItemsForDirectory hcount
    exact ⟨m, hm, hmark, (hmarked m hm hmark).1 ⟨r, h⟩⟩
  · rintro ⟨m, hm, hmark, hread⟩
    exact (hmarked m hm hmark).2 hread

theorem fat16NewFatItemDirectoryItem_ok_iff {a : Nat} (h : Granted env a t) :
    ((∃ r, fat16NewFatItemDirectoryItem env a t = .ok r) ↔ EntryLoads env a t) ∧
      ∀ fItem t', fat16NewFatItemDirectoryItem env a t = .ok (fItem, t') → fItem ≠ none := by
  obtain ⟨p, t1, hp, hne⟩ := h.item
  have hrun : fat16NewFatItemDirectoryItem env a t =
    (if (itemAt t1.mem a).itemAttribute &&& fatFileSubdirectory ≠ 0 then
      fat16LoadDirectory env a >>= fun directory => return some ⟨p, .directory directory⟩
    else fat16CloneDirectoryItem env a sizeofFat16DirectoryItem >>= fun i => return some ⟨p, .file i⟩ :
      FsM (Option (Ptr FatItem))) t1 := by
    unfold fat16NewFatItemDirectoryItem
    rw [Exec.bind_of_ok hp, if_neg hne, Exec.bind_of_ok (Exec.get_apply t1)]
  rw [hrun]
  by_cases hdir : (itemAt t1.mem a).itemAttribute &&& fatFileSubdirectory ≠ 0
  · rw [if_pos hdir]
    obtain ⟨q, t2, hq, hqne⟩ := h.directory p t1 hp hdir
    have hload := fat16LoadDirectory_ok_iff hdir hq hqne fun m t3 => h.entries p t1 q t2 m t3 hp hdir hq
    have hentry : EntryLoads env a t ↔ Loads env t2.fat16Private (itemAt t2.mem a) := by
      constructor
      · exact fun h => h p t1 q t2 hp hdir hq
      · intro h p' t1' q' t2' hp' _ hq'
        rw [hp] at hp'
        cases hp'
        rw [hq] at hq'
        cases hq'
        exact h
    rw [hentry, ← hload]
    refine ⟨⟨?_, ?_⟩, fun fItem t' h => ?_⟩
    · rintro ⟨⟨r, t'⟩, h⟩
      obtain ⟨directory, t3, h, -⟩ := Exec.of_bind_ok h
      exact ⟨_, h⟩
    · rintro ⟨⟨directory, t3⟩, h⟩
      exact ⟨_, Exec.bind_of_ok h⟩
    · obtain ⟨directory, t3, -, h⟩ := Exec.of_bind_ok h
      obtain ⟨rfl, -⟩ := Exec.of_pure_ok h
      exact Option.some_ne_none _
  · rw [if_neg hdir]
    obtain ⟨q, t2, hq, hqne⟩ := h.file p t1 hp (not_not.1 hdir)
    have hclone : fat16CloneDirectoryItem env a sizeofFat16DirectoryItem t1 = .ok (some ⟨q, itemAt t2.mem a⟩, t2) := by
      unfold fat16CloneDirectoryItem
      rw [if_neg (by decide), Exec.bind_of_ok hq, if_neg hqne, Exec.bind_of_ok (Exec.get_apply t2)]
      rfl
    rw [Exec.bind_of_ok hclone]
    refine ⟨⟨fun _ p' t1' q' t2' hp' hdir' _ => ?_, fun _ => ⟨_, rfl⟩⟩, fun fItem t' h => ?_⟩
    · rw [hp] at hp'
      cases hp'
      exact absurd hdir' hdir
    · obtain ⟨rfl, -⟩ := Exec.of_pure_ok h
      exact Option.some_ne_none _

/-! ## The entry found -/

/-- From one entry to a later one what is held stays held. -/
theorem Examines.frames {j : Nat} (h' : Examines env d name s j t') (reserved size : Nat) (held : List Live) :
    ∀ {i : Nat} {t : Sys}, i ≤ j → Examines env d name s i t → FramesSys reserved size False held t t' := by
  induction h' with
  | start =>
    intro i t hij h
    obtain rfl : i = 0 := by omega
    obtain rfl := h.unique .start
    exact refl _
  | pass h' htmp hcmp hne ih =>
    intro i t hij h
    rcases Nat.eq_or_lt_of_le hij with rfl | hij
    · obtain rfl := h.unique (.pass h' htmp hcmp hne)
      exact refl _
    · exact ih (by omega) h
  | build h' htmp hcmp hbuild ih =>
    intro i t hij h
    rcases Nat.eq_or_lt_of_le hij with rfl | hij
    · obtain rfl := h.unique (.build h' htmp hcmp hbuild)
      exact refl _
    · exact IsTrans.trans _ _ _ (ih (by omega) h) (makes_fat16NewFatItemDirectoryItem False.elim _ held _ _ _ hbuild).1

theorem addr_mem_itemAddrs (item : Ptr FatItem) : item.addr ∈ itemAddrs item := by
  unfold itemAddrs
  split <;> simp

/-- Two entries do not give the same item: the one made first is live when the other is made. -/
theorem BuiltFor.unique {reserved size : Nat} (hok : s.Ok reserved size) {j : Nat} {item : Ptr FatItem}
    (htaken : Taken env d name s i) (hi : BuiltFor env d name s i (some item))
    (hj : BuiltFor env d name s j (some item)) (hij : i < j) : False := by
  obtain ⟨t1, t2, hat1, hbuild1⟩ := hi
  obtain ⟨t3, t4, hat3, hbuild3⟩ := hj
  obtain ⟨t, tmp, hat, htmp, hcmp⟩ := htaken
  obtain rfl := hat.unique hat1
  have hok1 := (hat.frames reserved size [] (Nat.zero_le i) .start hok (List.nil_subset _)).1
  have hmakes : ∀ k, Makes reserved size False itemAddrs (fat16NewFatItemDirectoryItem env (entryAt d k)) := fun k =>
    makes_fat16NewFatItemDirectoryItem False.elim _
  obtain ⟨own, o1⟩ := (hmakes i [] _ _ _ hbuild1).2 hok1 (List.nil_subset _) item rfl
  have hok2 := ((hmakes i [] _ _ _ hbuild1).1 hok1 (List.nil_subset _)).1
  obtain ⟨hok3, hlive3, -⟩ := hat3.frames reserved size own hij (.build hat htmp hcmp hbuild1) hok2 o1.live
  obtain ⟨own', o3⟩ := (hmakes j own _ _ _ hbuild3).2 hok3 hlive3 item rfl
  have hmem := addr_mem_itemAddrs item
  obtain ⟨a, ha, haddr⟩ := List.mem_map.1 (o1.made ▸ hmem)
  obtain ⟨b, hb, hbddr⟩ := List.mem_map.1 (o3.made ▸ hmem)
  exact o3.out b hb a ha (haddr.trans hbddr.symm)

/-- The lookup gives an item exactly when an entry has the name, and then one built for such an entry. -/
def FindsNamed (env : Env) (d : Fat16Directory) (name : List Byte) (s : Sys) : Prop :=
  ∃ r s', fat16FindItemInDirectory env (some d) name s = .ok (r, s') ∧
    (r ≠ none ↔ ∃ i < d.totalEntries.toNat, Named env d name s i) ∧
    (r ≠ none → ∃ i < d.totalEntries.toNat, Named env d name s i ∧ BuiltFor env d name s i r)

theorem Named.taken (h : Named env d name s i) : Taken env d name s i := by
  obtain ⟨t, tmp, hat, htmp, hname⟩ := h
  exact ⟨t, tmp, hat, htmp, istrncmp_of_holdsName hname⟩

/-- Allocations succeeding, the lookup finds the name exactly when the names of the entries decode and can be
compared, the directories among those taken for a match load, and the last one taken has the name. -/
theorem fat16FindItemInDirectory_iff {reserved size : Nat} (hok : s.Ok reserved size)
    (hgranted : ∀ i < d.totalEntries.toNat, Taken env d name s i → ∀ t, Examines env d name s i t →
      Granted env (entryAt d i) t) :
    FindsNamed env d name s ↔
      (∀ i < d.totalEntries.toNat, ∀ t, Examines env d name s i t → ∃ tmp cmp, tmpFilename d i t.mem = .ok tmp ∧
        istrncmp tmp name name.length = .ok cmp ∧ (cmp = 0 → EntryLoads env (entryAt d i) t)) ∧
      ∀ i < d.totalEntries.toNat, Taken env d name s i → (∀ j < d.totalEntries.toNat, i < j → ¬ Taken env d name s j) →
        Named env d name s i := by
  -- the steps that come through
  have hthrough : ∀ i < d.totalEntries.toNat, Through env d name s i ↔ ∀ t, Examines env d name s i t → ∃ tmp cmp,
      tmpFilename d i t.mem = .ok tmp ∧ istrncmp tmp name name.length = .ok cmp ∧
        (cmp = 0 → EntryLoads env (entryAt d i) t) := by
    intro i hi
    constructor
    · intro h t hat
      obtain ⟨tmp, cmp, htmp, hcmp, hbuild⟩ := h t hat
      refine ⟨tmp, cmp, htmp, hcmp, fun h0 => ?_⟩
      subst h0
      exact (fat16NewFatItemDirectoryItem_ok_iff (hgranted i hi ⟨t, tmp, hat, htmp, hcmp⟩ t hat)).1.1 (hbuild rfl)
    · intro h t hat
      obtain ⟨tmp, cmp, htmp, hcmp, hloads⟩ := h t hat
      refine ⟨tmp, cmp, htmp, hcmp, fun h0 => ?_⟩
      subst h0
      exact (fat16NewFatItemDirectoryItem_ok_iff (hgranted i hi ⟨t, tmp, hat, htmp, hcmp⟩ t hat)).1.2 (hloads rfl)
  -- what is built for a taken entry is not null
  have hbuilt : ∀ i < d.totalEntries.toNat, ∀ r, Taken env d name s i → BuiltFor env d name s i r → r ≠ none := by
    rintro i hi r htaken ⟨t, t', hat, hbuild⟩
    exact (fat16NewFatItemDirectoryItem_ok_iff (hgranted i hi htaken t hat)).2 r t' hbuild
  constructor
  · rintro ⟨r, s', hrun, hiff, hfor⟩
    obtain ⟨hall, hlast⟩ := of_findLoop_ok hrun .start
    refine ⟨fun i hi => (hthrough i hi).1 (hall i (Nat.zero_le i) (by omega)), fun i hi htaken hno => ?_⟩
    rcases hlast with ⟨-, hnone⟩ | ⟨j, -, hj, htakenj, hnoj, hbuiltj⟩
    · exact absurd htaken (hnone i (Nat.zero_le i) (by omega))
    · obtain rfl : i = j := by
        rcases Nat.lt_trichotomy i j with hlt | heq | hgt
        · exact absurd htakenj (hno j (by omega) hlt)
        · exact heq
        · exact absurd htaken (hnoj i hgt (by omega))
      have hne := hbuilt i hi r htaken hbuiltj
      obtain ⟨k, hk, hnamed, hbuiltk⟩ := hfor hne
      obtain ⟨item, rfl⟩ := Option.ne_none_iff_exists'.1 hne
      rcases Nat.lt_trichotomy k i with hlt | rfl | hgt
      · exact (BuiltFor.unique hok hnamed.taken hbuiltk hbuiltj hlt).elim
      · exact hnamed
      · exact absurd hnamed.taken (hno k hk hgt)
  · rintro ⟨hsteps, hlastNamed⟩
    obtain ⟨r, s', hrun⟩ := findLoop_ok (n := d.totalEntries.toNat) none (.start : Examines env d name s 0 s)
      fun j _ hj => (hthrough j (by omega)).2 (hsteps j (by omega))
    refine ⟨r, s', hrun, ?_⟩
    obtain ⟨-, ⟨rfl, hnone⟩ | ⟨j, -, hj, htaken, hno, hbuiltj⟩⟩ := of_findLoop_ok hrun .start
    · refine ⟨⟨fun h => absurd rfl h, ?_⟩, fun h => absurd rfl h⟩
      rintro ⟨i, hi, hnamed⟩
      exact absurd hnamed.taken (hnone i (Nat.zero_le i) (by omega))
    · have hnamed := hlastNamed j (by omega) htaken fun k hk hlt => hno k hlt (by omega)
      exact ⟨⟨fun _ => ⟨j, by omega, hnamed⟩, fun _ => hbuilt j (by omega) r htaken hbuiltj⟩,
        fun _ => ⟨j, by omega, hnamed, hbuiltj⟩⟩

end

/-- A directory of one file, whose name is the letter A and a second character. -/
def oneEntry (c : Byte) : Sys :=
  { bare 4096 1 with mem := fun a => if a = 0x8000 then 0x41 else if a = 0x8001 then c else if 0x8002 ≤ a ∧
    a < 0x800B then 0x20 else 0 }

def oneEntryDirectory : Fat16Directory := ⟨0x8000, 1, 0, 0⟩

theorem granted_oneEntry (c : Byte) : Granted zeroDisk (entryAt oneEntryDirectory 0) (oneEntry c) := by
  have hroom : (oneEntry c).Room 4094 := room_bare (by decide) (by decide) (by decide)
  obtain ⟨p, t1, e, hp, hroom1⟩ := kzalloc_room zeroDisk hroom (show blockCount sizeofFatItem ≤ 4094 by decide)
  have hfile : (itemAt t1.mem (entryAt oneEntryDirectory 0)).itemAttribute &&& fatFileSubdirectory = 0 := by
    obtain ⟨mem, rfl, -, -, hfill⟩ := of_kzalloc_ok e
    have hmem : mem 0x800B = 0 := by
      rw [hfill hp, memset_apply]
      split
      · rfl
      · rfl
    show mem 0x800B &&& fatFileSubdirectory = 0
    rw [hmem]
    decide
  have hsame : ∀ p' t1', kzalloc zeroDisk sizeofFatItem (oneEntry c) = .ok (p', t1') → t1' = t1 := by
    intro p' t1' e'
    rw [e] at e'
    cases e'
    rfl
  refine ⟨⟨p, t1, e, hp⟩, fun p' t1' e' _ => ?_, fun p' t1' e' hdir => ?_, fun p' t1' q t2 m t3 e' hdir => ?_⟩
  · obtain rfl := hsame p' t1' e'
    obtain ⟨q, t2, e2, hq, -⟩ := kzalloc_room zeroDisk hroom1 (show blockCount sizeofFat16DirectoryItem ≤
      4094 - blockCount sizeofFatItem by decide)
    exact ⟨q, t2, e2, hq⟩
  · obtain rfl := hsame p' t1' e'
    exact absurd hfile hdir
  · obtain rfl := hsame p' t1' e'
    exact absurd hfile hdir

/-- The file A, looked up under its name. -/
theorem fat16FindItemInDirectory_one :
    FindsNamed zeroDisk oneEntryDirectory [0x41] (oneEntry 0x20) ↔
      (∀ i < oneEntryDirectory.totalEntries.toNat, ∀ t, Examines zeroDisk oneEntryDirectory [0x41] (oneEntry 0x20) i t →
        ∃ tmp cmp, tmpFilename oneEntryDirectory i t.mem = .ok tmp ∧ istrncmp tmp [0x41] 1 = .ok cmp ∧
          (cmp = 0 → EntryLoads zeroDisk (entryAt oneEntryDirectory i) t)) ∧
      ∀ i < oneEntryDirectory.totalEntries.toNat, Taken zeroDisk oneEntryDirectory [0x41] (oneEntry 0x20) i →
        (∀ j < oneEntryDirectory.totalEntries.toNat, i < j →
          ¬ Taken zeroDisk oneEntryDirectory [0x41] (oneEntry 0x20) j) →
        Named zeroDisk oneEntryDirectory [0x41] (oneEntry 0x20) i := by
  have hok : (oneEntry 0x20).Ok 1 4096 := @AllocState.ok_init 1 4096 (by decide) (oneEntry 0x20).mem
  refine fat16FindItemInDirectory_iff hok fun i hi _ t hat => ?_
  obtain rfl : i = 0 := Nat.lt_one_iff.1 hi
  obtain rfl := hat.unique .start
  exact granted_oneEntry 0x20

theorem tmpFilename_oneEntry :
    tmpFilename oneEntryDirectory 0 (oneEntry 0x42).mem = .ok (cString 108 [0x41, 0x42]) := by
  have hname : ∃ i < 9, IsStop ((oneEntry 0x42).mem (0x8000 + i)) := ⟨2, by decide, by decide⟩
  have hext : ∃ i < 3, IsStop ((oneEntry 0x42).mem (0x8000 + 8 + i)) := ⟨0, by decide, by decide⟩
  exact fat16GetRelativePathName_holding hname hext (show 9 + 3 ≤ 108 by decide)

/-- The file AB is found under the name A. -/
theorem fat16FindItemInDirectory_prefix : Granted zeroDisk (entryAt oneEntryDirectory 0) (oneEntry 0x42) ∧
    ¬ FindsNamed zeroDisk oneEntryDirectory [0x41] (oneEntry 0x42) := by
  refine ⟨granted_oneEntry 0x42, ?_⟩
  rintro ⟨r, s', hrun, hiff, -⟩
  have htaken : Taken zeroDisk oneEntryDirectory [0x41] (oneEntry 0x42) 0 := ⟨_, _, .start, tmpFilename_oneEntry, rfl⟩
  obtain ⟨-, ⟨-, hnone⟩ | ⟨j, -, hj, -, -, t, t', hat, hbuild⟩⟩ := of_findLoop_ok hrun .start
  · exact hnone 0 (le_refl 0) (by decide) htaken
  · obtain rfl : j = 0 := by
      have hj : j < 0 + 1 := hj
      omega
    obtain rfl := hat.unique .start
    obtain ⟨i, hi, t, tmp, hat, htmp, hname⟩ :=
      hiff.1 ((fat16NewFatItemDirectoryItem_ok_iff (granted_oneEntry 0x42)).2 r t' hbuild)
    obtain rfl : i = 0 := Nat.lt_one_iff.1 hi
    obtain rfl := hat.unique .start
    rw [tmpFilename_oneEntry] at htmp
    cases htmp
    exact absurd hname (by unfold HoldsName; decide)

end SimpleMicrokernel.Fat16
