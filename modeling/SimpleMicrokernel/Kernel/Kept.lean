/-
What opening a file and loading a process leave behind. Every open that returns keeps the root of the
path it parsed, and every load that comes to open its file keeps the slot: nothing closes it.
-/
import SimpleMicrokernel.Fs.Keeps
import SimpleMicrokernel.Kernel.Isolation
import SimpleMicrokernel.Memory.Null

namespace SimpleMicrokernel.Tasking

open Memory Fs Fat16 Paging

/-! ## Opening -/

/-- There is nothing an open could keep, and nothing it could give back: no block can be handed out, and the null
address that is given back for an empty name finds an empty entry of `big_blocks`. -/
def NothingKept (filename : List Byte) (s : Sys) : Prop :=
  s.heap.pmm.Spent ∧ (NamesNothing filename → s.heap.HasEmptySlot)

/-- An open that returns leaves only what its descriptor is made of exactly when there was no block for the root of its
path and no block 0 to clear. -/
theorem fopen_keeps_iff {reserved size : Nat} {env : Env} {s s' : Sys} {filename mode : List Byte} {fd : Int}
    (hok : s.Ok reserved size) (h : fopen env filename mode s = .ok (fd, s')) :
    KeepsNeeded s s' fd ↔ NothingKept filename s := by
  by_cases h0 : s.heap.pmm.Spent
  · obtain ⟨rfl, hv, hheap⟩ := of_fopen_null hok h0 h
    have hnull : s.heap.kfree 0 = s.heap ↔ s.heap.HasEmptySlot := by
      obtain ⟨L, -, hheap⟩ := hok
      exact hheap.kfree_null_eq_iff
    have hkeeps : KeepsNeeded s s' (-1) ↔ s'.heap = s.heap :=
      ⟨fun h => (h.failed rfl).2, fun h => ⟨fun _ => ⟨hv.fileDescriptors, h⟩, fun i hi => by omega⟩⟩
    rw [hkeeps, hheap, NothingKept, and_iff_right h0]
    split
    · rename_i hnames
      exact hnull.trans (imp_iff_right hnames).symm
    · rename_i hnames
      exact iff_of_true rfl fun h => absurd h hnames
  · obtain ⟨hfd, hmore⟩ := fopen_root hok h0 h
    exact iff_of_false (hmore.not_needed hfd) fun hkept => h0 hkept.1

theorem program_opens : ∃ k p s s', ∃ fd : Fin maxFileDescriptors, Reachable programDisk k ∧
    kzalloc programDisk sizeofProcess k.toSys = .ok (p, s) ∧ s.Ok kernelBlocks systemBlocks ∧
    fopen programDisk (onePart [0x41]) [0x72] s = .ok ((fd.val : Int), s') := by
  obtain ⟨k, p, k', s1, s2, fd, hstart, h, -, halloc, hopen, -⟩ := program_loads
  have f1 : FramesSys kernelBlocks systemBlocks False [] k.toSys s1 := (kzalloc_spec (fun hf => hf.elim) halloc).1
  exact ⟨k, p, s1, s2, fd, .start hstart, halloc, (f1 h.ok (List.nil_subset _)).1, hopen⟩

theorem fopen_keeps_program : ∃ s s', ∃ fd : Fin maxFileDescriptors, s.Ok kernelBlocks systemBlocks ∧
    fopen programDisk (onePart [0x41]) [0x72] s = .ok ((fd.val : Int), s') ∧
    (KeepsNeeded s s' fd.val ↔ NothingKept (onePart [0x41]) s) := by
  obtain ⟨k, p, s, s', fd, -, -, hok, h⟩ := program_opens
  exact ⟨s, s', fd, hok, h, fopen_keeps_iff hok h⟩

/-- The program is opened, and the root of its path stays. -/
theorem fopen_leaves_root : ∃ k p s s', ∃ fd : Fin maxFileDescriptors, Reachable programDisk k ∧
    kzalloc programDisk sizeofProcess k.toSys = .ok (p, s) ∧
    fopen programDisk (onePart [0x41]) [0x72] s = .ok ((fd.val : Int), s') ∧ ¬ KeepsNeeded s s' fd.val := by
  obtain ⟨k, p, s, s', fd, hreach, halloc, hok, h⟩ := program_opens
  have h0 : ¬ s.heap.pmm.Spent := by
    intro hspent
    obtain ⟨hfd, -, -⟩ := of_fopen_null hok hspent h
    omega
  obtain ⟨hfd, hmore⟩ := fopen_root hok h0 h
  exact ⟨k, p, s, s', fd, hreach, halloc, h, hmore.not_needed hfd⟩

/-! ## Loading -/

/-- A load comes to open its file, and the open takes a slot: there is a slot for the process, memory
for it, and the file is opened, with memory for its descriptor. -/
def Opens (env : Env) (filename : List Byte) (k : Kernel) : Prop :=
  (∃ slot, processGetFreeSlot k.processes = some slot) ∧
    ∃ process s s', kzalloc env sizeofProcess k.toSys = .ok (process, s) ∧
    process ≠ 0 ∧ ∃ fd : Fin maxFileDescriptors, fopen env filename [0x72] s = .ok ((fd.val : Int), s') ∧
      (s'.fileDescriptors fd).isSome

/-- Files are loaded one after another. -/
inductive Loads (env : Env) : List (List Byte) → Kernel → Kernel → Prop
  | nil (k : Kernel) : Loads env [] k k
  | cons {filename : List Byte} {files : List (List Byte)} {k k1 k' : Kernel} {r : Int × Option Nat} :
      processLoad env filename k = .ok (r, k1) → Loads env files k1 k' → Loads env (filename :: files) k k'

/-- No load of the files comes to take a slot. -/
def NoneOpens (env : Env) : List (List Byte) → Kernel → Prop
  | [], _ => True
  | filename :: files, k => ¬ Opens env filename k ∧
    ∀ r k', processLoad env filename k = .ok (r, k') → NoneOpens env files k'

/-- The volume of the two kernels is the same. -/
def KeepsVolume (k k' : Kernel) : Prop := SameVolume k.toSys k'.toSys

instance : Std.Refl KeepsVolume := ⟨fun k => refl k.toSys⟩

instance : IsTrans Kernel KeepsVolume := ⟨fun _ _ _ h1 h2 => IsTrans.trans (r := SameVolume) _ _ _ h1 h2⟩

section
variable {env : Env} {filename : List Byte} {s s' : Sys} {k k' : Kernel}

theorem keepsVolume_onSys {α : Type} {x : FsM α} (hx : Exec.Keeps SameVolume x) : Exec.Keeps KeepsVolume (onSys x) := by
  intro k a k' h
  obtain ⟨s, hs, rfl⟩ := of_onSys_ok h
  exact hx _ _ _ hs

theorem sameVolume_taskInit (process : Nat) : Exec.Keeps SameVolume (taskInit process) := by
  unfold taskInit
  refine Exec.keeps_bind (fun _ _ _ h => (sameFiles_pagingNew4gb _ _ _ _ h).volume) fun pageDirectory => ?_
  exact Exec.keeps_ite (Exec.keeps_pure _) (Exec.keeps_pure _)

theorem keepsVolume_taskNew (env : Env) (process : Nat) : Exec.Keeps KeepsVolume (taskNew env process) := by
  unfold taskNew
  refine Exec.keeps_bind (keepsVolume_onSys (sameVolume_kzalloc _ _)) fun task => Exec.keeps_ite (Exec.keeps_pure _) ?_
  refine Exec.keeps_bind (keepsVolume_onSys (sameVolume_taskInit _)) fun t => ?_
  cases t with
  | none => exact Exec.keeps_pure _
  | some t =>
    intro k a k' h
    simp only at h
    rw [Exec.bind_of_ok (Exec.get_apply k)] at h
    split at h
    · rw [Exec.bind_of_ok (Exec.set_apply ..)] at h
      obtain ⟨-, rfl⟩ := Exec.of_pure_ok h
      exact refl k.toSys
    · cases htail : k.tasks k.taskTail with
      | none =>
        rw [htail] at h
        cases h
      | some tail =>
        rw [htail] at h
        simp only at h
        rw [Exec.bind_of_ok (Exec.set_apply ..)] at h
        obtain ⟨-, rfl⟩ := Exec.of_pure_ok h
        exact refl k.toSys

/-- Past the open the image is only allocated and read: the slot stays as the open left it. -/
theorem processLoadBinary_volume {r : Option (Nat × BitVec 32)} (h : processLoadBinary env filename s = .ok (r, s')) :
    ∃ fd s1, fopen env filename [0x72] s = .ok (fd, s1) ∧ SameVolume s1 s' := by
  unfold processLoadBinary at h
  obtain ⟨fd, s1, h1, h⟩ := Exec.of_bind_ok h
  refine ⟨fd, s1, h1, ?_⟩
  split at h
  · obtain ⟨-, rfl⟩ := Exec.of_pure_ok h
    exact refl s1
  obtain ⟨⟨res, fStat⟩, s2, h2, h⟩ := Exec.of_bind_ok h
  obtain rfl := fstat_state h2
  cases fStat with
  | none =>
    obtain ⟨-, rfl⟩ := Exec.of_pure_ok h
    exact refl s1
  | some fStat =>
    simp only at h
    split at h
    · obtain ⟨-, rfl⟩ := Exec.of_pure_ok h
      exact refl s1
    obtain ⟨p, s3, h3, h⟩ := Exec.of_bind_ok h
    have v3 : SameVolume s1 s3 := sameVolume_kzalloc _ _ _ _ _ h3
    split at h
    · obtain ⟨-, rfl⟩ := Exec.of_pure_ok h
      exact v3
    obtain ⟨r', s4, h4, h⟩ := Exec.of_bind_ok h
    have v4 : SameVolume s3 s4 := WritesIn.volume (fread_writesIn fStat.filesize.isLt h4)
    split at h
    · obtain ⟨-, rfl⟩ := Exec.of_pure_ok h
      exact IsTrans.trans _ _ _ v3 v4
    · obtain ⟨-, rfl⟩ := Exec.of_pure_ok h
      exact IsTrans.trans _ _ _ v3 v4

/-- A load into a free slot stops for want of memory, or opens its file and leaves the volume as the
open left it. -/
theorem processLoadForSlot_volume {slot : Fin maxProcesses} {r : Option Nat} (hfree : k.processes slot = 0)
    (h : processLoadForSlot env filename slot k = .ok (r, k')) :
    ∃ process s, kzalloc env sizeofProcess k.toSys = .ok (process, s) ∧ ((process = 0 ∧ KeepsVolume k k') ∨
      process ≠ 0 ∧ ∃ fd s', fopen env filename [0x72] s = .ok (fd, s') ∧ SameVolume s' k'.toSys) := by
  unfold processLoadForSlot at h
  rw [Exec.bind_of_ok (Exec.get_apply k), if_neg (not_not.2 hfree)] at h
  obtain ⟨process, k1, h1, h⟩ := Exec.of_bind_ok h
  have v1 : KeepsVolume k k1 := keepsVolume_onSys (sameVolume_kzalloc _ _) _ _ _ h1
  obtain ⟨s1, hs1, rfl⟩ := of_onSys_ok h1
  refine ⟨process, s1, hs1, ?_⟩
  split at h
  · rename_i hprocess
    obtain ⟨-, rfl⟩ := Exec.of_pure_ok h
    exact .inl ⟨hprocess, v1⟩
  rename_i hprocess
  obtain ⟨b, k2, h2, h⟩ := Exec.of_bind_ok h
  obtain ⟨s2, hs2, rfl⟩ := of_onSys_ok h2
  obtain ⟨fd, t, hopen, v2⟩ := processLoadBinary_volume hs2
  refine .inr ⟨hprocess, fd, t, hopen, ?_⟩
  cases b with
  | none =>
    obtain ⟨-, rfl⟩ := Exec.of_pure_ok h
    exact v2
  | some b =>
    obtain ⟨ptr, sz⟩ := b
    obtain ⟨stack, k3, h3, h⟩ := Exec.of_bind_ok h
    have v3 : KeepsVolume ((k.withSys s1).withSys s2) k3 := keepsVolume_onSys (sameVolume_kzalloc _ _) _ _ _ h3
    have v3 : SameVolume t k3.toSys := IsTrans.trans _ _ _ v2 v3
    split at h
    · obtain ⟨-, rfl⟩ := Exec.of_pure_ok h
      exact v3
    obtain ⟨task, k4, h4, h⟩ := Exec.of_bind_ok h
    have v4 : KeepsVolume k3 k4 := keepsVolume_taskNew _ _ _ _ _ h4
    have v4 : SameVolume t k4.toSys := IsTrans.trans _ _ _ v3 v4
    split at h
    · obtain ⟨-, rfl⟩ := Exec.of_pure_ok h
      exact v4
    · obtain ⟨t', k5, h5, h⟩ := Exec.of_bind_ok h
      have h5 : k4 = k5 := by
        unfold taskAt at h5
        rw [Exec.bind_of_ok (Exec.get_apply k4)] at h5
        cases ht : k4.tasks task with
        | none =>
          rw [ht] at h5
          cases h5
        | some u =>
          rw [ht] at h5
          exact (Exec.of_pure_ok h5).2
      subst h5
      obtain ⟨_, k6, h6, h⟩ := Exec.of_bind_ok h
      have v6 : KeepsVolume k4 k6 := keepsVolume_onSys (fun _ _ _ hm => (sameFiles_setMem _ _ _ _ hm).volume) _ _ _ h6
      rw [Exec.bind_of_ok (Exec.modify_apply ..)] at h
      obtain ⟨-, rfl⟩ := Exec.of_pure_ok h
      exact IsTrans.trans _ _ _ v4 v6

/-- A load takes no slot, or opens its file into one that was free. -/
theorem processLoad_slots {r : Int × Option Nat} (h : processLoad env filename k = .ok (r, k')) :
    (¬ Opens env filename k ∧ k'.fileDescriptors = k.fileDescriptors) ∨
    Opens env filename k ∧ ∃ (i : Fin maxFileDescriptors) (desc : Ptr FileDescriptor), k.fileDescriptors i = none ∧
      k'.fileDescriptors = Function.update k.fileDescriptors i (some desc) := by
  unfold processLoad at h
  rw [Exec.bind_of_ok (Exec.get_apply k)] at h
  cases hslot : processGetFreeSlot k.processes with
  | none =>
    rw [hslot] at h
    obtain ⟨-, rfl⟩ := Exec.of_pure_ok h
    refine .inl ⟨?_, rfl⟩
    rintro ⟨⟨slot, hsome⟩, -⟩
    rw [hslot] at hsome
    cases hsome
  | some slot =>
    rw [hslot] at h
    simp only at h
    obtain ⟨p, k1, h1, h⟩ := Exec.of_bind_ok h
    have hstate : k1 = k' := by
      cases p with
      | none => exact (Exec.of_pure_ok h).2
      | some p => exact (Exec.of_pure_ok h).2
    subst hstate
    have hfree : k.processes slot = 0 := of_decide_eq_true (Fin.find?_eq_some_iff.1 hslot).1
    obtain ⟨process, s, halloc, hrest⟩ := processLoadForSlot_volume hfree h1
    have hfiles := (sameFiles_kzalloc env _ _ _ _ halloc).fileDescriptors
    rcases hrest with ⟨h0, hv⟩ | ⟨hprocess, fd, s', hopen, hv⟩
    · refine .inl ⟨?_, hv.fileDescriptors⟩
      rintro ⟨-, process', s', s'', halloc', hprocess, -⟩
      rw [halloc] at halloc'
      cases halloc'
      exact hprocess h0
    · have hno (hsame : SameVolume s s') (hempty : ∀ i : Fin maxFileDescriptors, fd = i.val →
        s.fileDescriptors i = none) :
          ¬ Opens env filename k := by
        rintro ⟨-, process', t, t', halloc', -, i, hopen', hin⟩
        rw [halloc] at halloc'
        cases halloc'
        rw [hopen] at hopen'
        cases hopen'
        rw [hsame.fileDescriptors, hempty i rfl] at hin
        cases hin
      rcases fopen_slots hopen with ⟨rfl, hsame⟩ | ⟨i, rfl, hpos, hnone, hsame | ⟨desc, -, hslots⟩⟩
      · refine .inl ⟨hno hsame fun i hi => ?_, hv.fileDescriptors.trans (hsame.fileDescriptors.trans hfiles)⟩
        omega
      · refine .inl ⟨hno hsame fun j hj => ?_, hv.fileDescriptors.trans (hsame.fileDescriptors.trans hfiles)⟩
        obtain rfl : i = j := Fin.ext (by exact_mod_cast hj)
        exact hnone
      · have hin : (s'.fileDescriptors i).isSome := by rw [hslots, Function.update_self, Option.isSome_some]
        rw [hfiles] at hnone hslots
        exact .inr ⟨⟨⟨slot, hslot⟩, process, s, s', halloc, hprocess, i, hopen, hin⟩, i, desc, hnone,
          hv.fileDescriptors.trans hslots⟩

/-- The slots a load leaves, by whether it comes to take one. -/
theorem processLoad_slots_iff {r : Int × Option Nat} (h : processLoad env filename k = .ok (r, k')) :
    (∀ i, (k.fileDescriptors i).isSome → (k'.fileDescriptors i).isSome) ∧
    ((∀ i, (k'.fileDescriptors i).isSome = (k.fileDescriptors i).isSome) ↔ ¬ Opens env filename k) := by
  rcases processLoad_slots h with ⟨hno, hsame⟩ | ⟨hopens, i, desc, hnone, hslots⟩
  · rw [hsame]
    exact ⟨fun _ => id, fun _ => hno, fun _ _ => rfl⟩
  · refine ⟨fun j hj => ?_, fun hsame => ?_, fun hno => absurd hopens hno⟩
    · rw [hslots, Function.update_apply]
      split
      · rfl
      · exact hj
    · have := hsame i
      rw [hslots, Function.update_self, hnone] at this
      cases this

theorem opens_of_processLoad {slot : Int} {p : Nat} (h : processLoad env filename k = .ok ((slot, some p), k')) :
    Opens env filename k := by
  rcases of_processLoad_ok 0 0 False [] (fun hf => hf.elim) h with
    ⟨he, -⟩ | ⟨i, process, ptr, stack, task, chunk, sz, s1, s2, s3, s4, s5, k5, -, hslot, hloaded⟩
  · cases he
  · obtain ⟨item, t1, t2, fd, pos, res, -, hbinary⟩ := of_processLoadBinary_ok hloaded.imageAlloc
    obtain ⟨addr, desc, hdesc, -⟩ := hbinary.holds
    have hin : (t1.fileDescriptors fd).isSome := by rw [hdesc, Option.isSome_some]
    exact ⟨⟨i, hslot⟩, process, s1, t1, hloaded.processAlloc, hloaded.processNe, fd, hbinary.opened, hin⟩

/-- Loads leave in use exactly the slots that were in use when none of them comes to take one. -/
theorem loads_keep_slots_iff {files : List (List Byte)} (h : Loads env files k k') :
    (∀ i, (k'.fileDescriptors i).isSome = (k.fileDescriptors i).isSome) ↔ NoneOpens env files k := by
  have hgrow : ∀ {files : List (List Byte)} {k k' : Kernel}, Loads env files k k' →
      ∀ i, (k.fileDescriptors i).isSome → (k'.fileDescriptors i).isSome := by
    intro files k k' h
    induction h with
    | nil k => exact fun _ => id
    | cons hload _ ih => exact fun i hi => ih i ((processLoad_slots_iff hload).1 i hi)
  induction h with
  | nil k => exact ⟨fun _ => trivial, fun _ _ => rfl⟩
  | @cons filename files k k1 k' r hload hrest ih =>
    obtain ⟨hmore, hiff⟩ := processLoad_slots_iff hload
    rw [NoneOpens, ← hiff]
    constructor
    · intro hsame
      -- the slots only become more: those after the first load lie between
      have hfirst : ∀ i, (k1.fileDescriptors i).isSome = (k.fileDescriptors i).isSome := by
        intro i
        have hle := hmore i
        have hge := hgrow hrest i
        rw [hsame i] at hge
        exact Bool.eq_iff_iff.2 ⟨hge, hle⟩
      refine ⟨hfirst, fun r' k2 hload' => ?_⟩
      rw [hload] at hload'
      cases hload'
      exact ih.1 fun i => (hsame i).trans (hfirst i).symm
    · rintro ⟨hfirst, hnone⟩ i
      exact (ih.2 (hnone r k1 hload) i).trans (hfirst i)

end

theorem loads_keep_slots_program : ∃ k p k', Loads programDisk [onePart [0x41]] k k' ∧
    processLoad programDisk (onePart [0x41]) k = .ok ((0, some p), k') ∧
    ((∀ i, (k'.fileDescriptors i).isSome = (k.fileDescriptors i).isSome) ↔
      NoneOpens programDisk [onePart [0x41]] k) := by
  obtain ⟨k, p, k', -, -, -, -, -, hload, -⟩ := program_loads
  have hrun : Loads programDisk [onePart [0x41]] k k' := .cons hload (.nil k')
  exact ⟨k, p, k', hrun, hload, loads_keep_slots_iff hrun⟩

/-- The program is loaded, and a slot that was free is in use. -/
theorem program_load_takes_slot : ∃ k p k', Reachable programDisk k ∧
    processLoad programDisk (onePart [0x41]) k = .ok ((0, some p), k') ∧
    ¬ ∀ i, (k'.fileDescriptors i).isSome = (k.fileDescriptors i).isSome := by
  obtain ⟨k, p, k', -, -, -, hstart, -, hload, -⟩ := program_loads
  exact ⟨k, p, k', .start hstart, hload, fun hsame =>
    (processLoad_slots_iff hload).2.1 hsame (opens_of_processLoad hload)⟩

end SimpleMicrokernel.Tasking
