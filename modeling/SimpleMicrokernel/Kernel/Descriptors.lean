/-
Open files do not interfere: whatever a program does with its other files, and whatever opens fail, the calls on
a descriptor give what they give when the others are not made.
-/
import SimpleMicrokernel.Fs.Apart
import SimpleMicrokernel.Kernel.Start

namespace SimpleMicrokernel.Tasking

open Memory Disk Fs Fat16

/-- As long as memory is not used up and no buffer meets the array of the root directory, an open gives a number
that is not in use, and the calls on any descriptors, made again without the others, give what they gave but for
the numbers. Opens that failed while a slot was free may be made again or not. -/
theorem descriptors_apart {reserved size : Nat} {env : Env} {spent : Halt} {s : Sys} {events : List Event}
    (hnull : StopsOnNull env spent) (hs : Mounted reserved size s s) (hrun : Session env reserved size s s events)
    (hapart : ∀ e ∈ events, e.request.Apart (rootArray s))
    (hmem : ∀ e ∈ events, e.outcome ≠ .error spent) :
    OpensFree s events ∧ ∀ (keep : Option Int → Bool) (replay : List Event),
      (keep none = true → ∃ fd, Free (final s events) fd) →
      Replay env reserved size s id s (kept keep events) replay → (∀ e ∈ replay, e.outcome ≠ .error spent) →
      replay.map Event.seen = (kept keep events).map Event.seen :=
  ⟨opensFree_of_session hnull hs hrun hapart hmem, fun keep _ hfull hreplay hmem' =>
    (alike_start keep s).run hnull hs hs hrun hreplay hapart hmem hmem' hfull⟩

/-! ## Two files open -/

section
variable {env : Env} {item : Fat16DirectoryItem} {k : Kernel}

theorem OneProgram.rootImage_at (ho : OneProgram env item) (h : Started env 1 k) (t : Fin 32) :
    readMem (rootImage k.toSys).bytes (0 + t) = k.mem (k.fat16Private.rootDirectory.item + t) := by
  have ht : (t : Nat) < (rootArray k.toSys).size := by
    rw [ho.array_size h]
    omega
  rw [Nat.zero_add, readMem_apply, rootImage, getElem?_taken _ _ ht, Option.getD_some]
  rfl

/-- The path of the one program leads to its entry. -/
theorem OneProgram.openFrom (ho : OneProgram env item) (h : Started env 1 k) :
    Fs.openFrom env k.fat16Private (rootImage k.toSys) (onePart [0x41]) [0x72] = .ok (some (.file item)) := by
  have hat (t : Fin 32) := (ho.rootImage_at h t).trans (ho.entry_at h t)
  have hlen : (rootImage k.toSys).bytes.length = 512 := by
    rw [rootImage, length_taken, ho.array_size h]
  have hends {a : Nat} (t : Fin 32) (ha : a ≤ t) (ht : env.image 2 ⟨t, by omega⟩ = 0x20) :
    EndsInside (rootImage k.toSys).bytes a := by
    have hbyte := hat t
    rw [ht, Nat.zero_add, readMem_apply, List.getElem?_eq_getElem (by omega), Option.getD_some] at hbyte
    refine ⟨_, List.mem_iff_getElem.2 ⟨t - a, by rw [List.length_drop]; omega, rfl⟩, .inr ?_⟩
    rw [List.getElem_drop, ← hbyte]
    congr 1
    omega
  obtain ⟨-, h1, h8⟩ := ho.name
  obtain ⟨tmp, hname, hcmp⟩ := ho.named hat
  have hnameIn : nameIn (rootImage k.toSys).bytes 0 = .ok tmp := by
    unfold nameIn
    rw [if_pos ⟨hends 1 (by decide) h1, hends 8 (by decide) h8⟩]
    exact hname
  have hitemIn : itemIn (rootImage k.toSys).bytes 0 = .ok item := by
    unfold itemIn
    rw [if_pos (by rw [hlen]; decide), ho.entry _ 0 hat]
  have hfound : foundAt env k.fat16Private item = .ok (.file item) := by
    unfold foundAt
    rw [if_neg (not_not.2 ho.file)]
    rfl
  have hone : (rootImage k.toSys).entries = 1 := by
    rw [rootImage, h.root.total, ho.mountedHeader h, rootPos_oneProgram, ho.live]
    rfl
  have hfind : findIn env k.fat16Private (rootImage k.toSys) [0x41] = .ok (some (.file item)) := by
    unfold findIn
    rw [hone, findFrom, Nat.zero_mul, hnameIn]
    simp only [bind, Except.bind, List.length_singleton, hcmp, if_pos, hitemIn, hfound]
    rfl
  have hparse : parseFrom (onePart [0x41]) = .ok (0, [[0x41]]) := rfl
  have hmode : fileModeGetByString [0x72] = .ok .fileModeRead := rfl
  unfold Fs.openFrom
  rw [hparse]
  simp only [bind, Except.bind, hmode]
  unfold resolve
  rw [hfind]
  rfl

theorem find_slot {s : Sys} {i : Fin maxFileDescriptors} (hi : 1 ≤ i.val) (hfree : s.fileDescriptors i = none)
    (htaken : ∀ j : Fin maxFileDescriptors, 1 ≤ j.val → j.val < i.val → s.fileDescriptors j ≠ none) :
    Fin.find? (fun i : Fin maxFileDescriptors => 1 ≤ i.val ∧ (s.fileDescriptors i).isNone) = some i := by
  refine Fin.find?_eq_some_iff.2 ⟨?_, fun j hj => ?_⟩
  · rw [hfree]
    exact decide_eq_true ⟨hi, rfl⟩
  · refine decide_eq_false fun h => ?_
    exact htaken j h.1 (Fin.lt_def.1 hj) (Option.isNone_iff_eq_none.1 h.2)

variable {n : Nat} {s0 s : Sys}

theorem OneProgram.calls_fopen (ho : OneProgram env item) (h : Started env 1 k)
    (hfresh : Fresh kernelBlocks systemBlocks [rootArray k.toSys] (n + 12) s0 s)
    (hone : OneFile [0x41] item (rootArray k.toSys) s0) {i : Fin maxFileDescriptors}
    (hi : Fin.find? (fun i : Fin maxFileDescriptors => 1 ≤ i.val ∧ (s0.fileDescriptors i).isNone) = some i) :
    ∃ desc s', Calls env kernelBlocks systemBlocks k.toSys s (.fopen (onePart [0x41]) [0x72])
    (.ok ⟨i.val, none, []⟩) s' ∧
      Fresh kernelBlocks systemBlocks [rootArray k.toSys] n (s0.withDescriptor i desc) s' ∧ HoldsFile s' i item 0 := by
  obtain ⟨desc, s', e, h', hfile⟩ := hfresh.fopen env ⟨by decide, by decide, by decide⟩ hone
    (List.mem_singleton_self _) hi
  refine ⟨desc, s', Calls.returns (Exec.bind_of_ok ?_), h', hfile⟩
  unfold openInside
  rw [ho.openFrom h]
  exact e

theorem OneProgram.calls_fread (ho : OneProgram env item) (h : Started env 1 k) {i : Fin maxFileDescriptors}
    (hi : 1 ≤ i.val) (hfile : HoldsFile s i item 0) (hpriv : s.fat16Private = k.fat16Private) (ptr : Nat) :
    ∃ bytes s', Calls env kernelBlocks systemBlocks k.toSys s (.on i.val (.fread ptr 1 1))
    (.ok ⟨1, none, bytes⟩) s' := by
  have hload := ho.loadable h
  obtain ⟨mem, s', e, -⟩ := fread_whole env hfile hi (Nat.le_refl 1) (by decide) (by rw [hpriv]; exact hload.cluster)
    (by rw [hpriv]; exact hload.walks) ptr
  exact ⟨_, s', Calls.returns (Exec.bind_of_ok e)⟩

theorem OneProgram.null (ho : OneProgram env item) (nullFill : Nat → Mem → Except Halt Mem)
    (nullStore : Nat → List Byte → Mem → Except Halt Mem) :
    OneProgram { env with nullFill := nullFill, nullStore := nullStore } item where
  signature := ho.signature
  header := ho.header
  marker := ⟨ho.marker.ends, ho.marker.first⟩
  live := ho.live
  name := ho.name
  entry := ho.entry
  file := ho.file
  nonempty := ho.nonempty
  fits := ho.fits
  cluster := ho.cluster
  table := ho.table

end

/-- The disk with one program, on a machine that stops when memory is used up. -/
def stoppingDisk : Env := { smallDisk with
  nullFill := fun _ _ => .error .panic
  nullStore := fun _ _ _ => .error .panic }

/-- The program is opened twice and read through descriptor 2; without descriptor 1 the same is read through
descriptor 1. -/
theorem descriptors_apart_two : ∃ (s : Sys) (events replay : List Event),
    events.map Event.descriptor = [some 1, some 2, some 2] ∧ replay.map Event.descriptor = [some 1, some 1] ∧
      OpensFree s events ∧ replay.map Event.seen = (kept (fun o => o = some 2) events).map Event.seen := by
  have ho : OneProgram stoppingDisk smallItem := oneProgram_smallDisk.null _ _
  obtain ⟨k, -, hroom, h, -⟩ := ho.starts fun _ => 0
  have hone := (ho.loadable h).toOneFile
  have hfresh : Fresh kernelBlocks systemBlocks [rootArray k.toSys] 24 k.toSys k.toSys :=
    fresh_start h.ok (hroom.mono (by decide)) (List.cons_subset.2 ⟨h.array, List.nil_subset _⟩)
  have hfirst := find_slot (s := k.toSys) (i := 1) (by decide) (by rw [h.fileDescriptors]) fun j h1 h2 => by
    have h2 : j.val < 1 := h2
    omega
  obtain ⟨desc, s1, c1, f1, hfile1⟩ := ho.calls_fopen (n := 12) h hfresh hone hfirst
  have hone1 : OneFile [0x41] smallItem (rootArray k.toSys) (k.toSys.withDescriptor 1 desc) :=
    ⟨hone.filesystem, hone.entries, hone.address, hone.named, hone.holds, hone.file⟩
  have hsecond := find_slot (s := k.toSys.withDescriptor 1 desc) (i := 2) (by decide) (by
      show Function.update k.fileDescriptors 1 (some desc) 2 = none
      rw [Function.update_of_ne (by decide), h.fileDescriptors]) fun j h1 h2 => by
    have h2 : j.val < 2 := h2
    obtain rfl : j = 1 := Fin.ext (show j.val = 1 by omega)
    show Function.update k.fileDescriptors 1 (some desc) 1 ≠ none
    rw [Function.update_self]
    exact Option.some_ne_none _
  obtain ⟨desc', s2, c2, f2, hfile2⟩ := ho.calls_fopen (n := 0) h f1 hone1 hsecond
  obtain ⟨bytes, s3, c3⟩ := ho.calls_fread h (by decide) hfile2 f2.files.fat16Private
    ((rootArray k.toSys).addr + (rootArray k.toSys).size)
  obtain ⟨bytes', s3', c3'⟩ := ho.calls_fread h (by decide) hfile1 f1.files.fat16Private
    ((rootArray k.toSys).addr + (rootArray k.toSys).size)
  have hrun : Session stoppingDisk kernelBlocks systemBlocks k.toSys k.toSys
      [⟨.fopen (onePart [0x41]) [0x72], .ok ⟨1, none, []⟩, s1⟩, ⟨.fopen (onePart [0x41]) [0x72], .ok ⟨2, none, []⟩, s2⟩,
      ⟨.on 2 (.fread ((rootArray k.toSys).addr + (rootArray k.toSys).size) 1 1), .ok ⟨1, none, bytes⟩, s3⟩] := ⟨c1, c2,
        c3, trivial⟩
  have hmain := descriptors_apart ⟨fun _ _ => rfl, fun _ _ _ => rfl⟩
    (mounted_start h.ok h.filesystem h.array) hrun ?_ ?_
  · refine ⟨k.toSys, _, [⟨.fopen (onePart [0x41]) [0x72], .ok ⟨1, none, []⟩, s1⟩,
      ⟨.on 1 (.fread ((rootArray k.toSys).addr + (rootArray k.toSys).size) 1 1), .ok ⟨1, none, bytes'⟩, s3'⟩], ?_,
      ?_, hmain.1, hmain.2 (fun o => o = some 2) _ ?_ ⟨rfl, c1, rfl, c3', trivial⟩ ?_⟩
    · rfl
    · rfl
    · exact fun hnone => absurd hnone (by decide)
    · intro e he
      rcases List.mem_cons.1 he with rfl | he
      · exact Exec.ok_ne _
      · rw [List.mem_singleton.1 he]
        exact Exec.ok_ne _
  · intro e he
    rcases List.mem_cons.1 he with rfl | he
    · trivial
    rcases List.mem_cons.1 he with rfl | he
    · trivial
    · rw [List.mem_singleton.1 he]
      exact fun x _ hx => .inl hx
  · intro e he
    rcases List.mem_cons.1 he with rfl | he
    · exact Exec.ok_ne _
    rcases List.mem_cons.1 he with rfl | he
    · exact Exec.ok_ne _
    · rw [List.mem_singleton.1 he]
      exact Exec.ok_ne _

end SimpleMicrokernel.Tasking
