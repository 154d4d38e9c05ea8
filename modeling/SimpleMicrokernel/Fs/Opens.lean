/-
What an open finds, as a function of the path, the disk and the array of the root directory. Where it stops
for no want of memory, `fopen` stops as this function does, or gives the first free slot what was found.
-/
import SimpleMicrokernel.Fat16.Resolve
import SimpleMicrokernel.Fs.Components

namespace SimpleMicrokernel.Fs

open Memory Disk Fat16

/-! ## What is found -/

/-- The next part of a path, none where the path ends, and what is left of the path. -/
def partFrom (path : List Byte) : Except Halt (Option (List Byte) × List Byte) := do
  let (part, path) ← copyPart 1 path 0
  return (if part.length = 0 then none else some part, if charAt path 0 = 0x2F then path.tail else path)

def partsFrom : Nat → List Byte → Except Halt (List (List Byte))
  | 0, _ => .error .hang
  | n + 1, path => do
    let (part, path) ← partFrom path
    match part with
    | none => return []
    | some part => do
      let next ← partsFrom n path
      return part :: next

/-- The drive and the parts. -/
def parseFrom (path : List Byte) : Except Halt (Int × List (List Byte)) := do
  let parts ← partsFrom ((pathparserGetDriveByPath path).2.length + 1) (pathparserGetDriveByPath path).2
  return ((pathparserGetDriveByPath path).1, parts)

/-- What an open finds, nothing when it fails. -/
def openFrom (env : Env) (fat16Private : Fat16Private) (root : DirImage) (filename mode : List Byte) :
    Except Halt (Option Found) := do
  let (drivePath, parts) ← parseFrom filename
  match parts with
  | [] => return none
  | part :: next =>
    if !diskGet drivePath then return none
    else do
      let fMode ← fileModeGetByString mode
      if fMode = .fileModeRead then resolve env fat16Private root part next
      else return none

/-! ## Paths -/

section
variable {reserved size : Nat} {env : Env} {spent : Halt} {fat16Private : Fat16Private} {s s' : Sys}

theorem copyPart_one {cTemp : Nat} (hc : cTemp ≠ 0) :
    ∀ (path : List Byte) (i : Nat), copyPart cTemp path i = copyPart 1 path i
  | [], i => by
    have hbound : (cTemp ≠ 0 ∧ maxPath ≤ i) ↔ (1 ≠ 0 ∧ maxPath ≤ i) := and_congr_left' (iff_of_true hc Nat.one_ne_zero)
    rw [copyPart, copyPart]
    simp only [hbound]
  | c :: cs, i => by
    have hbound : (cTemp ≠ 0 ∧ maxPath ≤ i) ↔ (1 ≠ 0 ∧ maxPath ≤ i) := and_congr_left' (iff_of_true hc Nat.one_ne_zero)
    rw [copyPart, copyPart]
    simp only [hbound, copyPart_one hc cs (i + 1)]

theorem pathparserGetPathPart_follows (hnull : StopsOnNull env spent) (path : List Byte) :
    Exec.Follows .outOfBounds spent (fun _ r v => (r.1.map fun part => part.val.part.val) = v.1 ∧ r.2 = v.2)
      (pathparserGetPathPart env path) s (partFrom path) := by
  unfold pathparserGetPathPart partFrom
  refine Exec.follows_bind (fun e => hnull.kzalloc_error) fun temp s1 h1 => ?_
  refine Exec.follows_bind (fun e => hnull.kzalloc_error) fun cTemp s2 h2 => ?_
  rw [copyPart_one (hnull.kzalloc_ok h2)]
  refine Exec.follows_lift_bind fun p _ => ?_
  obtain ⟨part, rest⟩ := p
  refine Exec.Follows.start (Exec.bind_of_ok (storePart_buffer (hnull.kzalloc_ok h2) part s2)) ?_
  simp only
  split
  · obtain ⟨s3, h3⟩ : ∃ s3, kfree temp s2 = .ok ((), s3) := ⟨_, rfl⟩
    exact Exec.Follows.start (Exec.bind_of_ok h3) (Exec.follows_pure ⟨rfl, rfl⟩)
  · rw [if_neg (hnull.kzalloc_ok h1), if_neg (hnull.kzalloc_ok h2)]
    exact Exec.follows_pure ⟨rfl, rfl⟩

theorem createPathPartLoop_follows (hnull : StopsOnNull env spent) (n : Nat) : ∀ {path : List Byte} {s : Sys},
    Exec.Follows .outOfBounds spent (fun _ r parts => partNames r.1 = parts) (createPathPartLoop env n path) s
    (partsFrom n path) := by
  induction n with
  | zero => exact Exec.follows_error rfl
  | succ n ih =>
    intro path s
    rw [createPathPartLoop, partsFrom]
    refine (pathparserGetPathPart_follows hnull path).bind ?_
    rintro ⟨o, left⟩ s1 ⟨part, rest⟩ - - ⟨hpart, hrest⟩
    obtain rfl : left = rest := hrest
    cases o with
    | none =>
      obtain rfl : none = part := hpart
      exact Exec.follows_pure rfl
    | some p =>
      obtain rfl : some p.val.part.val = part := hpart
      refine ih.bind ?_
      rintro ⟨parts, last⟩ s2 next - - hnext
      obtain rfl : partNames parts = next := hnext
      exact Exec.follows_pure rfl

/-- The parse gives a root with the drive and the parts. -/
def ShowsRoot : Option (Ptr PathRoot) → Int × List (List Byte) → Prop
  | none, _ => False
  | some root, v => root.val.drivePath = v.1 ∧ partNames root.val.first = v.2

theorem pathparserParse_follows (hnull : StopsOnNull env spent) (path : List Byte) :
    Exec.Follows .outOfBounds spent (fun _ => ShowsRoot) (pathparserParse env path) s (parseFrom path) := by
  unfold pathparserParse pathparserCreatePathRoot parseFrom
  rw [bind_assoc]
  refine Exec.follows_bind (fun e => hnull.kzalloc_error) fun temp s1 h1 => ?_
  obtain ⟨drive, rest⟩ := pathparserGetDriveByPath path
  simp only
  rw [if_neg (hnull.kzalloc_ok h1), pure_bind]
  refine (createPathPartLoop_follows hnull _).bind ?_
  rintro ⟨parts, left⟩ s2 names - - hnames
  have hshows : ShowsRoot (some ⟨temp, ⟨drive, parts⟩⟩) (drive, names) := ⟨rfl, hnames⟩
  exact Exec.Follows.start (linkFirst_root (hnull.kzalloc_ok h1) drive parts s2) (Exec.follows_pure hshows)

/-! ## The item -/

/-- What the calls on a descriptor look at: the item of a file, if it could be copied, and nothing of a
directory. -/
def contents : FatItem → Option (Option Fat16DirectoryItem)
  | .directory _ => none
  | .file i => some (i.map Ptr.val)

def foundContents : Found → Option (Option Fat16DirectoryItem)
  | .directory _ => none
  | .file item => some (some item)

theorem contents_of_shows {item : FatItem} {found : Found} (h : ShowsItem s item found) :
    contents item = foundContents found := by
  cases item with
  | directory d => cases found with
    | directory image => rfl
    | file item => exact h.elim
  | file i => cases i with
    | none => exact h.elim
    | some i => cases found with
      | directory image => exact h.elim
      | file item =>
        obtain rfl : i.val = item := h
        rfl

/-- The new descriptor is at the beginning of what is found. -/
def ShowsOpen : Option (Ptr FatFileDescriptor) → Option Found → Prop
  | none, none => True
  | some des, some found => des.val.pos = 0 ∧ contents des.val.item.val = foundContents found
  | _, _ => False

/-- The states an open starts in: the root directory's array is in memory. -/
structure HoldsRoot (reserved size : Nat) (fat16Private : Fat16Private) (root : DirImage) (s : Sys) : Prop where
  ok : s.Ok reserved size
  volume : OnVolume fat16Private s
  holds : Holds s fat16Private.rootDirectory.item root.bytes
  entries : fat16Private.rootDirectory.totalEntries.toNat = root.entries

variable {root : DirImage}

theorem HoldsRoot.step (h : HoldsRoot reserved size fat16Private root s)
    (f : ∀ held, FramesSys reserved size True held s s') (hv : SameVolume s s') :
    HoldsRoot reserved size fat16Private root s' :=
  ⟨(f [] h.ok (List.nil_subset _)).1, h.volume.same hv, h.holds.frames h.ok f, h.entries⟩

/-- The path is looked up twice, and found the same way twice. -/
theorem fat16Open_follows (hnull : StopsOnNull env spent) (h : HoldsRoot reserved size fat16Private root s)
    (part : List Byte) (next : List (List Byte)) :
    Exec.Follows .outOfBounds spent (fun _ => ShowsOpen) (fat16Open env part next .fileModeRead) s
    (resolve env fat16Private root part next) := by
  unfold fat16Open
  rw [if_neg (by decide)]
  refine Exec.follows_bind (fun e => hnull.kzalloc_error) fun descriptor s1 h1 => ?_
  have hr1 := h.step (fun held => framed_kzalloc (fun _ => hnull.below reserved) _ _ _ _ h1)
    (sameVolume_kzalloc _ _ _ _ _ h1)
  rw [if_neg (hnull.kzalloc_ok h1)]
  have hlookup {s : Sys} (h : HoldsRoot reserved size fat16Private root s) :
      Exec.Follows .outOfBounds spent ShowsFound (fat16GetDirectoryEntry env part next) s
        (resolve env fat16Private root part next) :=
    fat16GetDirectoryEntry_follows hnull h.ok h.volume h.holds h.entries part next
  have htwice : resolve env fat16Private root part next =
      (resolve env fat16Private root part next >>= fun _ => resolve env fat16Private root part next >>= fun found =>
        return found) := by
    cases resolve env fat16Private root part next with
    | error e => rfl
    | ok found => rfl
  rw [htwice]
  refine (hlookup hr1).bind ?_
  rintro _ s2 _ h2 - -
  have hr2 := hr1.step (fun held => framed_of_makes
    (makes_fat16GetDirectoryEntry (fun _ => hnull.below reserved) _ _) _ _ _ h2)
    (sameVolume_fat16GetDirectoryEntry _ _ _ _ _ _ h2)
  refine (hlookup hr2).bind ?_
  rintro item s3 found - - hshows
  cases item with
  | none => cases found with
    | none => exact Exec.follows_pure trivial
    | some found => exact hshows.elim
  | some item => cases found with
    | none => exact hshows.elim
    | some found =>
      have hq : ShowsOpen (some ⟨descriptor, ⟨item, 0⟩⟩) (some found) := ⟨rfl, contents_of_shows hshows⟩
      exact Exec.follows_pure hq

/-! ## The slot -/

/-- The first slot that is free. -/
@[irreducible] def firstFree (s : Sys) : Option (Fin maxFileDescriptors) :=
    Fin.find? fun i => 1 ≤ i.val ∧ (s.fileDescriptors i).isNone

/-- What an open leaves of what it found: nothing when no slot is free, and else the first free slot has it,
at its beginning. -/
def Takes (s s' : Sys) (fd : Int) (found : Found) : Option (Fin maxFileDescriptors) → Prop
  | none => fd = -1 ∧ s'.fileDescriptors = s.fileDescriptors
  | some i => fd = i.val ∧ ∃ desc : Ptr FileDescriptor,
    s'.fileDescriptors = Function.update s.fileDescriptors i (some desc) ∧
      desc.val.privateData.val.pos = 0 ∧ contents desc.val.privateData.val.item.val = foundContents found

/-- What an open leaves. -/
def Opened (s s' : Sys) (fd : Int) : Option Found → Prop
  | none => fd = -1 ∧ s'.fileDescriptors = s.fileDescriptors
  | some found => Takes s s' fd found (firstFree s)

/-- The slots with a new descriptor in one of them. -/
def NewIn (s s' : Sys) (privateData : Ptr FatFileDescriptor) : Option (Fin maxFileDescriptors) → Prop
  | none => s'.fileDescriptors = s.fileDescriptors
  | some i => ∃ addr, s'.fileDescriptors = Function.update s.fileDescriptors i (some ⟨addr, ⟨i, privateData⟩⟩)

/-- The slot of a new descriptor is the first free one, and there is none only when no slot is free. -/
theorem fileNewDescriptor_follows (hnull : StopsOnNull env spent) (privateData : Ptr FatFileDescriptor) :
    Exec.Follows .outOfBounds spent (fun s' r i => r = i ∧ NewIn s s' privateData i)
    (fileNewDescriptor env privateData) s
      (.ok (firstFree s)) := by
  unfold fileNewDescriptor
  refine Exec.Follows.start (Exec.bind_of_ok (Exec.get_apply s)) ?_
  unfold firstFree
  cases Fin.find? fun i : Fin maxFileDescriptors => 1 ≤ i.val ∧ (s.fileDescriptors i).isNone with
  | none => exact Exec.follows_pure ⟨rfl, rfl⟩
  | some i =>
    refine Exec.follows_bind (fun e => hnull.kzalloc_error) fun desc s1 h1 => ?_
    rw [if_neg (hnull.kzalloc_ok h1)]
    refine Exec.Follows.start (Exec.bind_of_ok (Exec.modify_apply ..)) (Exec.follows_pure ⟨rfl, desc, ?_⟩)
    rw [← (sameFiles_kzalloc env _ _ _ _ h1).fileDescriptors]

theorem new_follows (hnull : StopsOnNull env spent) {t : Sys} (hslots : t.fileDescriptors = s.fileDescriptors)
    {des : Ptr FatFileDescriptor} {found : Found} (hshows : ShowsOpen (some des) (some found)) :
    Exec.Follows .outOfBounds spent (Opened s) (do
      match ← fileNewDescriptor env des with
      | none => return -1
      | some index => return index) t (.ok (some found)) := by
  have hfree : firstFree t = firstFree s := by
    unfold firstFree
    rw [hslots]
  have hopened {s' : Sys} {fd : Int} (h : Takes s s' fd found (firstFree s)) : Opened s s' fd (some found) := h
  have hnew : Exec.Follows .outOfBounds spent _ (fileNewDescriptor env des) t _ := fileNewDescriptor_follows hnull des
  rw [hfree] at hnew
  generalize firstFree s = slot at hopened hnew
  have hbind : (.ok (some found) : Except Halt (Option Found)) = (.ok slot >>= fun _ => .ok (some found)) := rfl
  rw [hbind]
  refine hnew.bind ?_
  rintro index s' i - hi ⟨rfl, hin⟩
  obtain rfl : slot = index := Except.ok.inj hi
  cases slot with
  | none => exact Exec.follows_pure (hopened ⟨rfl, Eq.trans hin hslots⟩)
  | some i =>
    obtain ⟨addr, hin⟩ := hin
    exact Exec.follows_pure (hopened ⟨rfl, ⟨addr, ⟨i, des⟩⟩, by rw [hin, hslots], hshows⟩)

/-- An open gives the first free slot what the path leads to. -/
theorem fopen_follows (hnull : StopsOnNull env spent) (h : HoldsRoot reserved size fat16Private root s)
    (hfs : s.filesystem = true) (filename mode : List Byte) :
    Exec.Follows .outOfBounds spent (Opened s) (fopen env filename mode) s
    (openFrom env fat16Private root filename mode) := by
  unfold fopen openFrom
  refine (pathparserParse_follows hnull filename).bind ?_
  rintro root' s1 ⟨drive, parts⟩ h1 - hshows
  have hv1 : SameVolume s s1 := sameVolume_pathparserParse _ _ _ _ _ h1
  have hr1 := h.step (fun held => framed_pathparserParse (fun _ => hnull.below reserved) _ _ _ _ h1) hv1
  have hfail {s' : Sys} (hv : SameVolume s1 s') : Opened s s' (-1) none :=
    ⟨rfl, hv.fileDescriptors.trans hv1.fileDescriptors⟩
  cases root' with
  | none => exact hshows.elim
  | some path =>
  obtain ⟨hdrive, hparts⟩ := hshows
  obtain rfl : path.val.drivePath = drive := hdrive
  obtain rfl : (path.val.first.map fun part => part.val.part.val) = parts := hparts
  simp only
  cases path.val.first.map fun part => part.val.part.val with
  | nil => exact Exec.follows_pure (hfail (refl s1))
  | cons part next =>
    simp only
    by_cases hdisk : (!diskGet path.val.drivePath) = true
    · rw [if_pos hdisk, if_pos hdisk]
      exact Exec.follows_pure (hfail (refl s1))
    rw [if_neg hdisk, if_neg hdisk]
    refine Exec.Follows.start (Exec.bind_of_ok (Exec.get_apply s1)) ?_
    rw [hv1.filesystem, hfs, if_neg (by decide)]
    refine Exec.follows_lift_bind fun fMode _ => ?_
    by_cases hmode : fMode = .fileModeRead
    · subst hmode
      rw [if_neg (by decide), if_pos rfl]
      have hbind : resolve env fat16Private root part next =
        (resolve env fat16Private root part next >>= fun found => return found) := by
        cases resolve env fat16Private root part next with
        | error e => rfl
        | ok found => rfl
      rw [hbind]
      refine (fat16Open_follows hnull hr1 part next).bind ?_
      rintro des s2 found h2 - hshows
      have hv2 : SameVolume s1 s2 := sameVolume_fat16Open _ _ _ _ _ _ _ h2
      cases des with
      | none => cases found with
        | none => exact Exec.follows_pure (hfail hv2)
        | some found => exact hshows.elim
      | some des => cases found with
        | none => exact hshows.elim
        | some found => exact new_follows hnull (hv2.fileDescriptors.trans hv1.fileDescriptors) hshows
    · rw [if_neg hmode]
      by_cases hinvalid : fMode = .fileModeInvalid
      · rw [if_pos hinvalid]
        exact Exec.follows_pure (hfail (refl s1))
      · have hrefused : fat16Open env part next fMode s1 = .ok (none, s1) := by
          unfold fat16Open
          rw [if_pos hmode]
          rfl
        rw [if_neg hinvalid]
        exact Exec.Follows.start (Exec.bind_of_ok hrefused) (Exec.follows_pure (hfail (refl s1)))

end

end SimpleMicrokernel.Fs
