/-
Programs with open files. A session is any run of calls, and a call that stops may leave the machine anywhere
with the disk mounted and the same files open. When the calls on some descriptors are left out and the others
are made again, on the numbers they are given now, every call that is made again gives what it gave.
-/
import SimpleMicrokernel.Fs.Sessions

namespace SimpleMicrokernel.Fs

open Memory Disk Fat16

/-! ## Sessions -/

/-- The root directory as its array has it. -/
def rootImage (s : Sys) : DirImage :=
  ⟨taken s.mem (rootArray s).addr (rootArray s).size, s.fat16Private.rootDirectory.totalEntries.toNat⟩

/-- The disk is mounted as it is in `s0`, and the array of the root directory is allocated and has what it has
there. -/
structure Mounted (reserved size : Nat) (s0 s : Sys) : Prop where
  ok : s.Ok reserved size
  filesystem : s.filesystem = true
  volume : OnVolume s0.fat16Private s
  array : rootArray s0 ∈ s.live
  shows : Shows s.mem (rootArray s0).addr (rootImage s0).bytes

/-- A call of a program. -/
inductive FileRequest where
  | fopen (filename mode : List Byte)
  | on (fd : Int) (call : DescriptorCall)
deriving DecidableEq, Repr

/-- An open that looks past the end of the array of a directory stops. -/
def openInside (env : Env) (s0 : Sys) (filename mode : List Byte) : FsM Int :=
  if openFrom env s0.fat16Private (rootImage s0) filename mode matches .error .outOfBounds then throw .outOfBounds
  else fopen env filename mode

def FileRequest.call (env : Env) (s0 : Sys) : FileRequest → FsM (Int × Option FileStat)
  | .fopen filename mode => do
    let res ← openInside env s0 filename mode
    return (res, none)
  | .on fd c => c.fileCall.call env fd

def FileRequest.delivered (mem : Mem) (res : Int) : FileRequest → List Byte
  | .fopen _ _ => []
  | .on _ c => c.delivered mem res

/-- What a call in a state gives, and the state it leaves. One that stops leaves what is mounted and what is
open, and may leave the streams, the allocator and the rest of memory anywhere. -/
inductive Calls (env : Env) (reserved size : Nat) (s0 s : Sys) (r : FileRequest) : Outcome → Sys → Prop
  | returns {res : Int} {stat : Option FileStat} {s' : Sys} :
      r.call env s0 s = .ok ((res, stat), s') →
        Calls env reserved size s0 s r (.ok ⟨res, stat, r.delivered s'.mem res⟩) s'
  | stops {e : Halt} {s' : Sys} :
      r.call env s0 s = .error e → Mounted reserved size s0 s' → s'.fileDescriptors = s.fileDescriptors →
      Calls env reserved size s0 s r (.error e) s'

/-- A call that was made. -/
structure Event where
  request : FileRequest
  outcome : Outcome
  left : Sys

/-- The calls were made one after another. -/
def Session (env : Env) (reserved size : Nat) (s0 : Sys) : Sys → List Event → Prop
  | _, [] => True
  | s, e :: es => Calls env reserved size s0 s e.request e.outcome e.left ∧ Session env reserved size s0 e.left es

/-- The state after the calls. -/
def final : Sys → List Event → Sys
  | s, [] => s
  | _, e :: es => final e.left es

/-! ## Descriptors -/

/-- The number that an open gave. -/
def Event.opened (e : Event) : Option Int :=
  match e.request, e.outcome with
  | .fopen _ _, .ok a => if a.res = -1 then none else some a.res
  | _, _ => none

/-- The descriptor a call was on; an open was on the one it gave, and on none when it failed. -/
def Event.descriptor (e : Event) : Option Int :=
  match e.request with
  | .fopen _ _ => e.opened
  | .on fd _ => some fd

/-- The calls on some descriptors, with the opens that failed or without them. -/
def kept (keep : Option Int → Bool) (events : List Event) : List Event := events.filter fun e => keep e.descriptor

/-- What a call gave, without the number of a descriptor. -/
def Event.seen (e : Event) : Outcome := if e.opened.isSome then .ok ⟨0, none, []⟩ else e.outcome

/-- A slot that an open may take. -/
def Free (s : Sys) (fd : Int) : Prop := 1 ≤ fd ∧ fd < maxFileDescriptors ∧ shown s fd = none

/-- Every open that gives a number gives that of a slot with nothing in it, and has it taken. -/
def OpensFree : Sys → List Event → Prop
  | _, [] => True
  | s, e :: es => (∀ fd, e.opened = some fd → slot s fd = none ∧ slot e.left fd ≠ none) ∧ OpensFree e.left es

/-- The request with another number for its descriptor. -/
def FileRequest.rename (ren : Int → Int) : FileRequest → FileRequest
  | .fopen filename mode => .fopen filename mode
  | .on fd c => .on (ren fd) c

/-- The numbers after an open was made again. -/
def rebind (ren : Int → Int) (e e' : Event) : Int → Int :=
  match e.opened, e'.outcome with
  | some fd, .ok a => Function.update ren fd a.res
  | _, _ => ren

/-- Calls that were made are made again from another state, each on the number its descriptor has now. -/
def Replay (env : Env) (reserved size : Nat) (s0 : Sys) : (Int → Int) → Sys → List Event → List Event → Prop
  | _, _, [], [] => True
  | ren, t, e :: es, e' :: es' => e'.request = e.request.rename ren ∧
      Calls env reserved size s0 t e'.request e'.outcome e'.left ∧
        Replay env reserved size s0 (rebind ren e e') e'.left es es'
  | _, _, _, _ => False

/-- The buffer of a read does not meet the array. -/
def FileRequest.Apart (array : Live) : FileRequest → Prop
  | .on _ (.fread ptr size nmemb) => ∀ x, array.addr ≤ x → x < array.addr + array.size → x < ptr ∨
  ptr + size.toNat * nmemb.toNat ≤ x
  | _ => True

section
variable {reserved size : Nat} {env : Env} {spent : Halt} {s0 s s' t t' : Sys} {fd : Int} {ren : Int → Int}
    {o o' : Outcome}
  {c : DescriptorCall} {r : FileRequest}

/-! ## What is mounted -/

theorem Mounted.holdsRoot (h : Mounted reserved size s0 s) : HoldsRoot reserved size s0.fat16Private (rootImage s0) s :=
  ⟨h.ok, h.volume, ⟨⟨rootArray s0, h.array, rfl, (length_taken ..).le⟩, h.shows⟩, rfl⟩

theorem mounted_start (hok : s.Ok reserved size) (hfs : s.filesystem = true) (harray : rootArray s ∈ s.live) :
    Mounted reserved size s s := by
  refine ⟨hok, hfs, rfl, harray, fun i b hb => ?_⟩
  obtain ⟨hi, -⟩ := List.getElem?_eq_some_iff.1 hb
  rw [rootImage, length_taken] at hi
  rw [rootImage, getElem?_taken _ _ hi] at hb
  exact Option.some.inj hb

theorem Mounted.step (h : Mounted reserved size s0 s) (f : FramesSys reserved size True [rootArray s0] s s')
    (hv : SameVolume s { s' with fileDescriptors := s.fileDescriptors }) : Mounted reserved size s0 s' := by
  obtain ⟨hok, hlive, hmem⟩ := f h.ok (List.cons_subset.2 ⟨h.array, List.nil_subset _⟩)
  have hvolume : OnVolume s0.fat16Private { s' with fileDescriptors := s.fileDescriptors } := h.volume.same hv
  refine ⟨hok, hv.filesystem.trans h.filesystem, hvolume, hlive (List.mem_singleton_self _), fun i b hb => ?_⟩
  obtain ⟨hi, -⟩ := List.getElem?_eq_some_iff.1 hb
  rw [rootImage, length_taken] at hi
  have hcovers : (rootArray s0).Covers ((rootArray s0).addr + i) :=
    covers_of_fill (h.ok.bounds h.array).1 (Nat.le_add_right ..) (Nat.add_lt_add_left hi _)
  rw [hmem trivial _ (List.mem_singleton_self _) _ hcovers]
  exact h.shows i b hb

theorem fopen_volume {filename mode : List Byte} (h : fopen env filename mode s = .ok (fd, s')) :
    SameVolume s { s' with fileDescriptors := s.fileDescriptors } := by
  obtain ⟨root, s1, h1, hrest⟩ := @of_fopen 0 0 env s s' filename mode fd h
  have v1 : SameVolume s s1 := sameVolume_pathparserParse _ _ _ _ _ h1
  rcases hrest with ⟨-, -, v2, -⟩ | ⟨part, next, fMode, des, s2, i, -, h2, h3, -⟩
  · have v : SameVolume s s' := IsTrans.trans _ _ _ v1 v2
    exact ⟨v.filesystem, v.header, v.rootDirectory, rfl⟩
  · have v2 : SameVolume s s2 := IsTrans.trans _ _ _ v1 (sameVolume_fat16Open _ _ _ _ _ _ _ h2)
    obtain ⟨-, -, addr, s3, h4, ⟨-, rfl⟩ | ⟨rfl, s4, h5, h6⟩⟩ := of_fileNewDescriptor h3
    · have v : SameVolume s s3 := IsTrans.trans _ _ _ v2 (sameVolume_kzalloc _ _ _ _ _ h4)
      exact ⟨v.filesystem, v.header, v.rootDirectory, rfl⟩
    · have v : SameVolume s s' := IsTrans.trans _ _ _ v2 (sameFiles_fileNewDescriptor_null h4 h5 h6).volume
      exact ⟨v.filesystem, v.header, v.rootDirectory, rfl⟩

theorem of_fseek {offset res : Int} {whence : FileSeekMode} (h : fseek fd offset whence s = .ok (res, s')) :
    s = { s' with fileDescriptors := s.fileDescriptors } := by
  unfold fseek at h
  rw [Exec.bind_of_ok (fileGetDescriptor_eq fd s)] at h
  cases hslot : slot s fd with
  | none =>
    rw [hslot] at h
    obtain ⟨-, rfl⟩ := Exec.of_pure_ok h
    rfl
  | some desc =>
    rw [hslot] at h
    obtain ⟨⟨res', pos⟩, s1, h1, h⟩ := Exec.of_bind_ok h
    rw [fat16Seek_view] at h1
    have hs1 : s = s1 := by
      cases hr : seekView (contents desc.val.privateData.val.item.val, desc.val.privateData.val.pos) offset whence with
      | error e =>
        rw [hr] at h1
        cases h1
      | ok r =>
        rw [hr] at h1
        cases h1
        rfl
    subst hs1
    simp only at h
    rw [Exec.bind_of_ok (Exec.modify_apply ..)] at h
    obtain ⟨-, rfl⟩ := Exec.of_pure_ok h
    split
    · rfl
    · rfl

theorem framesSys_slots {held : List Live} (h : s = { s' with fileDescriptors := s.fileDescriptors }) :
    FramesSys reserved size True held s s' :=
  framesSys_of_eq (by rw [h])

theorem Mounted.fread (h : Mounted reserved size s0 s) {ptr : Nat} {n nmemb : BitVec 32} {res : Int}
    (hapart : (FileRequest.on fd (.fread ptr n nmemb)).Apart (rootArray s0))
    (hread : Fs.fread env ptr n.toNat nmemb.toNat fd s = .ok (res, s')) : Mounted reserved size s0 s' := by
  obtain ⟨hsame, hmem⟩ := fread_writesIn n.isLt hread
  have hlive : s'.live = s.live := hsame.live
  have hframes : FramesSys reserved size False [] { s with mem := s'.mem } s' := hsame.frames
  obtain ⟨hok, -, -⟩ := hframes h.ok (List.nil_subset _)
  have hvolume : OnVolume s0.fat16Private { s with mem := s'.mem } := h.volume
  refine ⟨hok, ?_, hvolume.same hsame.volume, hlive ▸ h.array, fun i b hb => ?_⟩
  · rw [hsame]
    exact h.filesystem
  · obtain ⟨hi, -⟩ := List.getElem?_eq_some_iff.1 hb
    rw [rootImage, length_taken] at hi
    rw [hmem _ (hapart _ (Nat.le_add_right ..) (Nat.add_lt_add_left hi _))]
    exact h.shows i b hb

theorem of_openInside {filename mode : List Byte} {res : Int} (h : openInside env s0 filename mode s = .ok (res, s')) :
    fopen env filename mode s = .ok (res, s') := by
  unfold openInside at h
  split at h
  · cases h
  · exact h

/-- A call that returns leaves what is mounted. -/
theorem Mounted.call (h : Mounted reserved size s0 s) (hnull : StopsOnNull env spent) (hapart : r.Apart (rootArray s0))
    {v : Int × Option FileStat} (hcall : r.call env s0 s = .ok (v, s')) : Mounted reserved size s0 s' := by
  cases r with
  | fopen filename mode =>
    obtain ⟨res, s1, h1, hcall⟩ := Exec.of_bind_ok hcall
    obtain ⟨-, rfl⟩ := Exec.of_pure_ok hcall
    have hopen := of_openInside h1
    exact h.step (framed_fopen (fun _ => hnull.below reserved) _ _ _ _ _ hopen) (fopen_volume hopen)
  | on fd c => cases c with
    | fread ptr n nmemb =>
      obtain ⟨res, s1, h1, hcall⟩ := Exec.of_bind_ok hcall
      obtain ⟨-, rfl⟩ := Exec.of_pure_ok hcall
      exact h.fread hapart h1
    | fseek offset whence =>
      obtain ⟨res, s1, h1, hcall⟩ := Exec.of_bind_ok hcall
      obtain ⟨-, rfl⟩ := Exec.of_pure_ok hcall
      have hslots := of_fseek h1
      exact h.step (framesSys_slots hslots) (hslots ▸ refl s)
    | fstat =>
      have hsame : s = s' := by
        have hcall : fstat fd s = .ok (v, s') := hcall
        cases hslot : slot s fd with
        | none =>
          unfold fstat at hcall
          rw [Exec.bind_of_ok (fileGetDescriptor_eq fd s), hslot] at hcall
          exact (Exec.of_pure_ok hcall).2
        | some desc =>
          rw [fstat_view hslot] at hcall
          cases hr : statView (view desc) with
          | error e =>
            rw [hr] at hcall
            cases hcall
          | ok r =>
            rw [hr] at hcall
            cases hcall
            rfl
      exact hsame ▸ h

theorem Calls.mounted (hc : Calls env reserved size s0 s r o s') (hnull : StopsOnNull env spent)
    (h : Mounted reserved size s0 s) (hapart : r.Apart (rootArray s0)) : Mounted reserved size s0 s' := by
  cases hc with
  | returns hcall => exact h.call hnull hapart hcall
  | stops _ hmounted _ => exact hmounted

/-! ## What a call gives -/

theorem Calls.of_error {e : Halt} (hc : Calls env reserved size s0 s r o s') (h : r.call env s0 s = .error e) :
    o = .error e ∧ s'.fileDescriptors = s.fileDescriptors := by
  cases hc with
  | returns hcall =>
    rw [h] at hcall
    cases hcall
  | stops hcall _ hslots =>
    rw [h] at hcall
    cases hcall
    exact ⟨rfl, hslots⟩

theorem Calls.of_ok {v : Int × Option FileStat} (hc : Calls env reserved size s0 s r o s')
    (h : r.call env s0 s = .ok (v, t)) :
    o = .ok ⟨v.1, v.2, r.delivered t.mem v.1⟩ ∧ s' = t := by
  cases hc with
  | returns hcall =>
    rw [h] at hcall
    cases hcall
    exact ⟨rfl, rfl⟩
  | stops hcall _ _ =>
    rw [h] at hcall
    cases hcall

/-- What a slot shows after a call on it. -/
def viewAfter (o : Option View) (x : Except Halt (Answer × Option View)) : Option View :=
  match x with
  | .error _ => o
  | .ok r => r.2

/-- A call on a descriptor gives what its slot's view says, and changes what its own slot shows only. -/
theorem Calls.on (hc : Calls env reserved size s0 s (.on fd c) o s') (h : Mounted reserved size s0 s) :
    o = (answer env s0.fat16Private (shown s fd) c).map Prod.fst ∧
      ShowsAt s s' fd (viewAfter (shown s fd) (answer env s0.fat16Private (shown s fd) c)) := by
  rcases call_answer env h.volume fd c with ⟨e, ha, hcall⟩ | ⟨a, v, t, ha, hcall, hbytes, hat⟩
  · obtain ⟨rfl, hslots⟩ := hc.of_error hcall
    rw [ha]
    exact ⟨rfl, showsAt_of_eq hslots fd⟩
  · obtain ⟨rfl, rfl⟩ := hc.of_ok hcall
    rw [ha]
    refine ⟨?_, hat⟩
    show Except.ok (⟨a.res, a.stat, c.delivered s'.mem a.res⟩ : Answer) = .ok a
    rw [hbytes]

theorem viewAfter_eq_none (fat16Private : Fat16Private) (v : Option View) (c : DescriptorCall) :
    viewAfter v (answer env fat16Private v c) = none ↔ v = none := by
  cases v with
  | none => exact Iff.rfl
  | some v =>
    refine iff_of_false (fun h => ?_) (Option.some_ne_none v)
    cases hr : answerView env fat16Private v c with
    | error e =>
      simp only [answer, hr] at h
      cases h
    | ok r =>
      simp only [answer, hr] at h
      cases h

/-- What is found is found whatever else is open: an open stops as the search does, fails when nothing is found
or no slot is free, and else gives the first free slot what was found, at its beginning. -/
theorem Calls.fopen {filename mode : List Byte} (hc : Calls env reserved size s0 s (.fopen filename mode) o s')
    (hnull : StopsOnNull env spent) (h : Mounted reserved size s0 s) (hmem : o ≠ .error spent) :
    (∃ e, openFrom env s0.fat16Private (rootImage s0) filename mode = .error e ∧ o = .error e ∧
      s'.fileDescriptors = s.fileDescriptors) ∨
    ∃ found fd, openFrom env s0.fat16Private (rootImage s0) filename mode = .ok found ∧ o = .ok ⟨fd, none, []⟩ ∧
      Opened s s' fd found := by
  have hfollows := fopen_follows hnull h.holdsRoot h.filesystem filename mode
  have hcode (hin : openFrom env s0.fat16Private (rootImage s0) filename mode ≠ .error .outOfBounds) :
      openInside env s0 filename mode = Fs.fopen env filename mode := by
    unfold openInside
    split
    · rename_i heq
      exact absurd heq hin
    · rfl
  by_cases hin : openFrom env s0.fat16Private (rootImage s0) filename mode = .error .outOfBounds
  · have hcall : (FileRequest.fopen filename mode).call env s0 s = .error .outOfBounds := by
      refine Exec.bind_of_error ?_
      unfold openInside
      rw [hin]
      rfl
    obtain ⟨rfl, hslots⟩ := hc.of_error hcall
    exact .inl ⟨_, hin, rfl, hslots⟩
  · have hstops {e : Halt} (he : Fs.fopen env filename mode s = .error e) :
      o = .error e ∧ s'.fileDescriptors = s.fileDescriptors :=
      hc.of_error (Exec.bind_of_error ((congrFun (hcode hin) s).trans he))
    rcases hfollows with hout | hspent | hrest
    · exact absurd hout hin
    · exact absurd (hstops hspent).1 hmem
    · cases hopen : openFrom env s0.fat16Private (rootImage s0) filename mode with
      | error e =>
        rw [hopen] at hrest
        obtain ⟨ho, hslots⟩ := hstops hrest
        exact .inl ⟨e, rfl, ho, hslots⟩
      | ok found =>
        rw [hopen] at hrest
        obtain ⟨fd, t, hcall, hopened⟩ := hrest
        obtain ⟨rfl, rfl⟩ := hc.of_ok (Exec.bind_of_ok ((congrFun (hcode hin) s).trans hcall))
        exact .inr ⟨found, fd, rfl, rfl, hopened⟩

/-! ## Free slots -/

theorem free_val {i : Fin maxFileDescriptors} : Free s i.val ↔ 1 ≤ i.val ∧ (s.fileDescriptors i).isNone = true := by
  unfold Free
  rw [shown_eq_none, Option.isNone_iff_eq_none]
  constructor
  · rintro ⟨hi, -, hslot⟩
    rw [slot_val s (by omega)] at hslot
    exact ⟨by omega, hslot⟩
  · rintro ⟨hi, hslot⟩
    rw [slot_val s hi]
    exact ⟨by omega, by have := i.isLt; omega, hslot⟩

theorem Free.exists_val (h : Free s fd) : ∃ i : Fin maxFileDescriptors, fd = i.val := by
  obtain ⟨h1, h2, -⟩ := h
  refine ⟨⟨fd.toNat, by omega⟩, ?_⟩
  show fd = (fd.toNat : Int)
  omega

theorem firstFree_none (h : firstFree s = none) : ¬ Free s fd := by
  intro hfree
  obtain ⟨i, rfl⟩ := hfree.exists_val
  unfold firstFree at h
  have hno := Fin.find?_eq_none_iff.1 h i
  rw [decide_eq_false_iff_not] at hno
  exact hno (free_val.1 hfree)

theorem firstFree_some {i : Fin maxFileDescriptors} (h : firstFree s = some i) : Free s i.val ∧ ∀ x, Free s x →
    (i.val : Int) ≤ x := by
  unfold firstFree at h
  obtain ⟨hi, hbefore⟩ := Fin.find?_eq_some_iff.1 h
  refine ⟨free_val.2 (of_decide_eq_true hi), fun x hx => ?_⟩
  obtain ⟨j, rfl⟩ := hx.exists_val
  by_contra hlt
  have hno := hbefore j (Fin.lt_def.2 (by omega))
  rw [decide_eq_false_iff_not] at hno
  exact hno (free_val.1 hx)

/-- What was found goes into the first free slot, if there is one. -/
theorem Opened.cases {found : Found} (h : Opened s s' fd (some found)) :
    ((∀ x, ¬ Free s x) ∧ fd = -1 ∧ s'.fileDescriptors = s.fileDescriptors) ∨
      Free s fd ∧ (∀ x, Free s x → fd ≤ x) ∧ ShowsAt s s' fd (some (foundContents found, 0)) := by
  rw [Opened] at h
  cases hslot : firstFree s with
  | none =>
    rw [hslot] at h
    exact .inl ⟨fun _ => firstFree_none hslot, h.1, h.2⟩
  | some i =>
    rw [hslot] at h
    obtain ⟨rfl, desc, hslots, hpos, hcontents⟩ := h
    obtain ⟨hfree, hfirst⟩ := firstFree_some hslot
    have hat := showsAt_update (free_val.1 hfree).1 hslots
    have hview : view desc = (foundContents found, 0) := by
      unfold view
      rw [hpos, hcontents]
    rw [Option.map_some, hview] at hat
    exact .inr ⟨hfree, hfirst, hat⟩

/-! ## Calls left out -/

variable {keep : Option Int → Bool} {v : Option View}

/-- A kept descriptor shows in the other session, on its number there, what it shows in this one. A slot that is
free here is free there. -/
structure Alike (keep : Option Int → Bool) (ren : Int → Int) (s t : Sys) : Prop where
  view : ∀ fd, keep (some fd) = true → shown t (ren fd) = shown s fd
  inj : ∀ fd fd', keep (some fd) = true → keep (some fd') = true → shown s fd ≠ none → shown s fd' ≠ none →
    ren fd = ren fd' → fd = fd'
  free : ∀ fd, shown s fd = none → shown t fd = none ∧ ren fd = fd

theorem alike_start (keep : Option Int → Bool) (s : Sys) : Alike keep id s s :=
  ⟨fun _ _ => rfl, fun _ _ _ _ _ _ h => h, fun _ h => ⟨h, rfl⟩⟩

theorem Alike.congr (h : Alike keep ren s t) (hs : s'.fileDescriptors = s.fileDescriptors)
    (ht : t'.fileDescriptors = t.fileDescriptors) :
    Alike keep ren s' t' := by
  obtain ⟨hview, hinj, hfree⟩ := h
  rw [← shown_congr hs, ← shown_congr ht] at hview
  rw [← shown_congr hs] at hinj
  rw [← shown_congr hs, ← shown_congr ht] at hfree
  exact ⟨hview, hinj, hfree⟩

theorem ShowsAt.none_of (hs : ShowsAt s s' fd v) (hv : v = none → shown s fd = none) {x : Int}
    (hx : shown s' x = none) :
    shown s x = none := by
  by_cases hfd : x = fd
  · subst hfd
    exact hv (hs.here.symm.trans hx)
  · rw [← hs.others x hfd]
    exact hx

theorem Alike.skip (h : Alike keep ren s t) (hs : ShowsAt s s' fd v) (hv : v = none → shown s fd = none)
    (hkeep : keep (some fd) = false) : Alike keep ren s' t := by
  have hother : ∀ x, keep (some x) = true → shown s' x = shown s x := by
    intro x hx
    refine hs.others x ?_
    rintro rfl
    rw [hkeep] at hx
    cases hx
  refine ⟨fun x hx => ?_, fun x y hx hy hsx hsy => ?_, fun x hx => h.free x (hs.none_of hv hx)⟩
  · rw [hother x hx]
    exact h.view x hx
  · rw [hother x hx] at hsx
    rw [hother y hy] at hsy
    exact h.inj x y hx hy hsx hsy

/-- The same call is made on a kept descriptor in both sessions. -/
theorem Alike.on (h : Alike keep ren s t) (hs : ShowsAt s s' fd v) (ht : ShowsAt t t' (ren fd) v)
    (hv : v = none ↔ shown s fd = none) (hkeep : keep (some fd) = true) : Alike keep ren s' t' := by
  have hnone : ∀ x, shown s' x = none ↔ shown s x = none := by
    intro x
    refine ⟨hs.none_of hv.1, fun hx => ?_⟩
    by_cases hfd : x = fd
    · subst hfd
      exact hs.here.trans (hv.2 hx)
    · rw [hs.others x hfd]
      exact hx
  refine ⟨fun x hx => ?_, fun x y hx hy hsx hsy => ?_, fun x hx => ?_⟩
  · by_cases hfd : x = fd
    · subst hfd
      exact ht.here.trans hs.here.symm
    rw [hs.others x hfd, ← h.view x hx]
    by_cases hren : ren x = ren fd
    · -- two descriptors on one number are not both open
      have hfree : shown s fd = none := by
        by_contra hopen
        refine hfd (h.inj x fd hx hkeep ?_ hopen hren)
        rw [← h.view x hx, hren, h.view fd hkeep]
        exact hopen
      rw [hren, ht.here, hv.2 hfree, h.view fd hkeep, hfree]
    · exact ht.others _ hren
  · exact h.inj x y hx hy (mt (hnone x).2 hsx) (mt (hnone y).2 hsy)
  · obtain ⟨htx, hren⟩ := h.free x ((hnone x).1 hx)
    refine ⟨?_, hren⟩
    by_cases hfd : x = ren fd
    · rw [hfd, ht.here, hv]
      rw [← h.view fd hkeep, ← hfd]
      exact htx
    · rw [ht.others x hfd]
      exact htx

/-- The same open takes the first free slot in both sessions. -/
theorem Alike.fopen {i j : Int} (h : Alike keep ren s t) (hi : Free s i) (hfirsti : ∀ x, Free s x → i ≤ x)
    (hs : ShowsAt s s' i v) (hj : Free t j) (hfirstj : ∀ x, Free t x → j ≤ x) (ht : ShowsAt t t' j v) (hv : v ≠ none) :
    Alike keep (Function.update ren i j) s' t' := by
  have hji : j ≤ i := hfirstj i ⟨hi.1, hi.2.1, (h.free i hi.2.2).1⟩
  -- the number taken there is taken here, or is the one taken here
  have htaken : ∀ x, x ≠ i → shown s x = none → x ≠ j := by
    rintro x hxi hx rfl
    have := hfirsti x ⟨hj.1, hj.2.1, hx⟩
    omega
  have hnone : ∀ x, shown s' x = none → x ≠ i ∧ shown s x = none := by
    intro x hx
    have hxi : x ≠ i := by
      rintro rfl
      exact hv (hs.here.symm.trans hx)
    exact ⟨hxi, by rw [← hs.others x hxi]; exact hx⟩
  have hren : ∀ x, keep (some x) = true → x ≠ i → shown s x ≠ none → ren x ≠ j := by
    intro x hx _ hopen he
    refine hopen ?_
    rw [← h.view x hx, he]
    exact hj.2.2
  refine ⟨fun x hx => ?_, fun x y hx hy hsx hsy => ?_, fun x hx => ?_⟩
  · by_cases hxi : x = i
    · subst hxi
      rw [Function.update_self]
      exact ht.here.trans hs.here.symm
    rw [Function.update_of_ne hxi, hs.others x hxi, ← h.view x hx]
    refine ht.others _ fun hxj => ?_
    by_cases hopen : shown s x = none
    · exact htaken x hxi hopen ((h.free x hopen).2 ▸ hxj)
    · exact hren x hx hxi hopen hxj
  · intro he
    by_cases hxi : x = i
    · by_cases hyi : y = i
      · rw [hxi, hyi]
      rw [hxi, Function.update_self, Function.update_of_ne hyi] at he
      rw [hs.others y hyi] at hsy
      exact absurd he.symm (hren y hy hyi hsy)
    · rw [Function.update_of_ne hxi] at he
      rw [hs.others x hxi] at hsx
      by_cases hyi : y = i
      · rw [hyi, Function.update_self] at he
        exact absurd he (hren x hx hxi hsx)
      · rw [Function.update_of_ne hyi] at he
        rw [hs.others y hyi] at hsy
        exact h.inj x y hx hy hsx hsy he
  · obtain ⟨hxi, hopen⟩ := hnone x hx
    obtain ⟨htx, hren⟩ := h.free x hopen
    rw [ht.others x (htaken x hxi hopen), Function.update_of_ne hxi]
    exact ⟨htx, hren⟩

/-! ## Runs -/

variable {e e' : Event}

theorem Alike.leftOut (h : Alike keep ren s t) (hnull : StopsOnNull env spent) (hs : Mounted reserved size s0 s)
    (hc : Calls env reserved size s0 s e.request e.outcome e.left) (hmem : e.outcome ≠ .error spent)
    (hkeep : keep e.descriptor = false) : Alike keep ren e.left t := by
  obtain ⟨request, outcome, left⟩ := e
  cases request with
  | on fd c =>
    obtain ⟨-, hat⟩ := Calls.on hc hs
    exact h.skip hat (viewAfter_eq_none ..).1 hkeep
  | fopen filename mode =>
    rcases Calls.fopen hc hnull hs hmem with ⟨-, -, -, hslots⟩ | ⟨found, fd, -, rfl, hopened⟩
    · exact h.congr hslots rfl
    cases found with
    | none => exact h.congr hopened.2 rfl
    | some found =>
      rcases hopened.cases with ⟨-, -, hslots⟩ | ⟨hfree, -, hat⟩
      · exact h.congr hslots rfl
      · have hfd : fd ≠ -1 := by
          have := hfree.1
          omega
        have hnumber : Event.descriptor ⟨.fopen filename mode, .ok ⟨fd, none, []⟩, left⟩ = some fd := if_neg hfd
        rw [hnumber] at hkeep
        exact h.skip hat (fun hv => absurd hv (Option.some_ne_none _)) hkeep

/-- A call that is made again gives what it gave. -/
theorem Alike.again (h : Alike keep ren s t) (hnull : StopsOnNull env spent) (hs : Mounted reserved size s0 s)
    (ht : Mounted reserved size s0 t) (hc : Calls env reserved size s0 s e.request e.outcome e.left)
    (hc' : Calls env reserved size s0 t (e.request.rename ren) e'.outcome e'.left)
    (hrequest : e'.request = e.request.rename ren) (hmem : e.outcome ≠ .error spent) (hmem' : e'.outcome ≠ .error spent)
    (hkeep : keep e.descriptor = true)
    (hfull : keep none = true → ∃ fd, Free s fd) : e'.seen = e.seen ∧ Alike keep (rebind ren e e') e.left e'.left := by
  obtain ⟨request, outcome, left⟩ := e
  obtain ⟨request', outcome', left'⟩ := e'
  obtain rfl : request' = request.rename ren := hrequest
  cases request with
  | on fd c =>
    obtain ⟨rfl, hat⟩ := Calls.on hc hs
    obtain ⟨rfl, hat'⟩ := Calls.on hc' ht
    rw [h.view fd hkeep] at hat' ⊢
    exact ⟨rfl, h.on hat hat' (viewAfter_eq_none ..) hkeep⟩
  | fopen filename mode =>
    rcases Calls.fopen hc hnull hs hmem with ⟨err, hopen, rfl, hslots⟩ | ⟨found, fd, hopen, rfl, hopened⟩
    · rcases Calls.fopen hc' hnull ht hmem' with ⟨err', hopen', rfl, hslots'⟩ | ⟨found', fd', hopen', rfl, hopened'⟩
      · rw [hopen] at hopen'
        cases hopen'
        exact ⟨rfl, h.congr hslots hslots'⟩
      · rw [hopen] at hopen'
        cases hopen'
    · rcases Calls.fopen hc' hnull ht hmem' with ⟨err', hopen', rfl, hslots'⟩ | ⟨found', fd', hopen', rfl, hopened'⟩
      · rw [hopen] at hopen'
        cases hopen'
      · rw [hopen] at hopen'
        cases hopen'
        cases found with
        | none =>
          obtain ⟨rfl, hslots⟩ := hopened
          obtain ⟨rfl, hslots'⟩ := hopened'
          exact ⟨rfl, h.congr hslots hslots'⟩
        | some found =>
          rcases hopened.cases with ⟨hno, rfl, -⟩ | ⟨hfree, hfirst, hat⟩
          · obtain ⟨x, hx⟩ := hfull hkeep
            exact absurd hx (hno x)
          rcases hopened'.cases with ⟨hno, -, -⟩ | ⟨hfree', hfirst', hat'⟩
          · exact absurd ⟨hfree.1, hfree.2.1, (h.free fd hfree.2.2).1⟩ (hno fd)
          have hnumber {x : Int} {t : Sys} (left : Sys) (hx : Free t x) :
              Event.opened ⟨.fopen filename mode, .ok ⟨x, none, []⟩, left⟩ = some x := by
            have hne : x ≠ -1 := by
              have := hx.1
              omega
            exact if_neg hne
          have hsome := hnumber left hfree
          have hsome' := hnumber left' hfree'
          refine ⟨?_, ?_⟩
          · unfold Event.seen
            rw [hsome, FileRequest.rename, hsome']
            rfl
          · unfold rebind
            rw [hsome]
            exact h.fopen hfree hfirst hat hfree' hfirst' hat' (Option.some_ne_none _)

theorem Free.of_calls (hnull : StopsOnNull env spent) (hs : Mounted reserved size s0 s)
    (hc : Calls env reserved size s0 s r o s') (hmem : o ≠ .error spent) (h : Free s' fd) : Free s fd := by
  refine ⟨h.1, h.2.1, ?_⟩
  have hslots (he : s'.fileDescriptors = s.fileDescriptors) : shown s fd = none := by
    rw [← shown_congr he]
    exact h.2.2
  cases r with
  | on x c =>
    obtain ⟨-, hat⟩ := Calls.on hc hs
    exact hat.none_of (viewAfter_eq_none ..).1 h.2.2
  | fopen filename mode =>
    rcases Calls.fopen hc hnull hs hmem with ⟨-, -, -, he⟩ | ⟨found, x, -, -, hopened⟩
    · exact hslots he
    cases found with
    | none => exact hslots hopened.2
    | some found =>
      rcases hopened.cases with ⟨-, -, he⟩ | ⟨-, -, hat⟩
      · exact hslots he
      · exact hat.none_of (fun hv => absurd hv (Option.some_ne_none _)) h.2.2

theorem apart_rename {array : Live} (h : r.Apart array) (ren : Int → Int) : (r.rename ren).Apart array := by
  cases r with
  | fopen filename mode => exact h
  | on fd c => cases c with
    | fread ptr size nmemb => exact h
    | fseek offset whence => exact h
    | fstat => exact h

theorem Free.of_session (hnull : StopsOnNull env spent) :
    ∀ {events : List Event} {s : Sys}, Mounted reserved size s0 s →
    Session env reserved size s0 s events → (∀ e ∈ events, e.request.Apart (rootArray s0)) →
    (∀ e ∈ events, e.outcome ≠ .error spent) →
    Free (final s events) fd → Free s fd
  | [], _, _, _, _, _, h => h
  | e :: es, s, hs, ⟨hc, hrun⟩, hapart, hmem, h => by
    have hs' := hc.mounted hnull hs (hapart e (List.mem_cons_self ..))
    have hrest : Free e.left fd := Free.of_session hnull hs' hrun (fun e' he => hapart e' (List.mem_cons_of_mem _ he))
      (fun e' he => hmem e' (List.mem_cons_of_mem _ he)) h
    exact hrest.of_calls hnull hs hc (hmem e (List.mem_cons_self ..))

/-- The calls that are made again give what they gave, whatever calls on other descriptors are left out. -/
theorem Alike.run (hnull : StopsOnNull env spent) : ∀ {events replay : List Event} {ren : Int → Int} {s t : Sys},
    Alike keep ren s t → Mounted reserved size s0 s → Mounted reserved size s0 t →
    Session env reserved size s0 s events →
    Replay env reserved size s0 ren t (kept keep events) replay →
    (∀ e ∈ events, e.request.Apart (rootArray s0)) → (∀ e ∈ events, e.outcome ≠ .error spent) →
    (∀ e ∈ replay, e.outcome ≠ .error spent) →
    (keep none = true → ∃ fd, Free (final s events) fd) →
    replay.map Event.seen = (kept keep events).map Event.seen
  | [], [], _, _, _, _, _, _, _, _, _, _, _, _ => rfl
  | [], _ :: _, _, _, _, _, _, _, _, hreplay, _, _, _, _ => hreplay.elim
  | e :: es, replay, ren, s, t, h, hs, ht, ⟨hc, hrun⟩, hreplay, hapart, hmem, hmem', hfull => by
    have hs' := hc.mounted hnull hs (hapart e (List.mem_cons_self ..))
    have hapart' : ∀ e' ∈ es, e'.request.Apart (rootArray s0) := fun e' he => hapart e' (List.mem_cons_of_mem _ he)
    have hmemes : ∀ e' ∈ es, e'.outcome ≠ .error spent := fun e' he => hmem e' (List.mem_cons_of_mem _ he)
    by_cases hkeep : keep e.descriptor = true
    · have hkept : kept keep (e :: es) = e :: kept keep es := List.filter_cons_of_pos hkeep
      rw [hkept] at hreplay ⊢
      cases replay with
      | nil => exact hreplay.elim
      | cons e' replay =>
        obtain ⟨hrequest, hc', hreplay⟩ := hreplay
        have ht' := hc'.mounted hnull ht (hrequest ▸ apart_rename (hapart e (List.mem_cons_self ..)) ren)
        have hfree : keep none = true → ∃ fd, Free s fd := by
          intro hnone
          obtain ⟨fd, hfd⟩ := hfull hnone
          exact ⟨fd, (Free.of_session hnull hs' hrun hapart' hmemes hfd).of_calls hnull hs hc
            (hmem e (List.mem_cons_self ..))⟩
        obtain ⟨hseen, h'⟩ := h.again hnull hs ht hc (hrequest ▸ hc') hrequest (hmem e (List.mem_cons_self ..))
          (hmem' e' (List.mem_cons_self ..)) hkeep hfree
        rw [List.map_cons, List.map_cons, hseen]
        rw [h'.run hnull hs' ht' hrun hreplay hapart' hmemes
          (fun e'' he => hmem' e'' (List.mem_cons_of_mem _ he)) hfull]
    · have hkept : kept keep (e :: es) = kept keep es := List.filter_cons_of_neg hkeep
      rw [hkept] at hreplay ⊢
      have h' := h.leftOut hnull hs hc (hmem e (List.mem_cons_self ..)) (Bool.eq_false_iff.2 hkeep)
      exact h'.run hnull hs' ht hrun hreplay hapart' hmemes hmem' hfull

/-- An open gives the number of a slot with nothing in it. -/
theorem Calls.opened_free (hc : Calls env reserved size s0 s e.request e.outcome e.left) (hnull : StopsOnNull env spent)
    (hs : Mounted reserved size s0 s) (hmem : e.outcome ≠ .error spent) (hfd : e.opened = some fd) :
    slot s fd = none ∧ slot e.left fd ≠ none := by
  obtain ⟨request, outcome, left⟩ := e
  cases request with
  | on x c => cases hfd
  | fopen filename mode =>
    rcases Calls.fopen hc hnull hs hmem with ⟨err, -, rfl, -⟩ | ⟨found, x, -, rfl, hopened⟩
    · cases hfd
    have hfd : (if x = -1 then none else some x) = some fd := hfd
    have hno : x ≠ -1 := by
      rintro rfl
      cases hfd
    rw [if_neg hno] at hfd
    cases hfd
    cases found with
    | none => exact absurd hopened.1 hno
    | some found =>
      rcases hopened.cases with ⟨-, he, -⟩ | ⟨hfree, -, hat⟩
      · exact absurd he hno
      · refine ⟨shown_eq_none.1 hfree.2.2, fun hslot => ?_⟩
        rw [← shown_eq_none, hat.here] at hslot
        cases hslot

theorem opensFree_of_session (hnull : StopsOnNull env spent) :
    ∀ {events : List Event} {s : Sys}, Mounted reserved size s0 s →
    Session env reserved size s0 s events → (∀ e ∈ events, e.request.Apart (rootArray s0)) →
    (∀ e ∈ events, e.outcome ≠ .error spent) →
    OpensFree s events
  | [], _, _, _, _, _ => trivial
  | e :: es, s, hs, ⟨hc, hrun⟩, hapart, hmem => by
    refine ⟨fun fd hfd => hc.opened_free hnull hs (hmem e (List.mem_cons_self ..)) hfd,
      opensFree_of_session hnull (hc.mounted hnull hs (hapart e (List.mem_cons_self ..))) hrun
      (fun e' he => hapart e' (List.mem_cons_of_mem _ he)) (fun e' he => hmem e' (List.mem_cons_of_mem _ he))⟩

end

end SimpleMicrokernel.Fs
