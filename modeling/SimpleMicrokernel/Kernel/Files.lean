/-
The file calls of the kernel against the machine of open files: what a session gives is a function of the disk
and of its calls alone, and nothing is ever closed.
-/
import SimpleMicrokernel.Fs.Table
import SimpleMicrokernel.Kernel.Descriptors

namespace SimpleMicrokernel.Tasking

open Memory Disk Fs Fat16

section
variable {reserved size : Nat} {env : Env} {spent : Halt} {s : Sys} {events : List Event}

/-- The file calls are the calls of a machine that has only the disk, the root directory and what each number shows:
as long as memory is not used up and no buffer meets the array of the root directory, any session gives what the
machine gives, call for call, and leaves open what it leaves open. -/
theorem session_runs (hnull : StopsOnNull env spent) (hs : Mounted reserved size s s)
    (hrun : Session env reserved size s s events) (hapart : ∀ e ∈ events, e.request.Apart (rootArray s))
    (hmem : ∀ e ∈ events, e.outcome ≠ .error spent) :
    OpenFiles.run env s.fat16Private (rootImage s) (shown s) (events.map Event.request) =
    (events.map Event.outcome, shown (final s events)) :=
  Session.simulates hnull hs hrun hapart hmem

theorem upTo_zero (hslots : s.fileDescriptors = fun _ => none) : OpenFiles.UpTo (shown s) 0 := by
  refine ⟨by decide, fun fd => ?_⟩
  have hnone : shown s fd = none := by
    rw [shown_eq_none]
    unfold slot
    split
    · rw [hslots]
    · rfl
  rw [hnone]
  exact iff_of_false Bool.false_ne_true (by omega)

/-- No number is given twice: from a table with nothing in it the opens of a session that succeed give 1, 2, 3 and so
on, whatever is read and sought in between and whatever opens fail, and at most 511 of them succeed. -/
theorem opens_numbered (hnull : StopsOnNull env spent) (hs : Mounted reserved size s s)
    (hrun : Session env reserved size s s events) (hapart : ∀ e ∈ events, e.request.Apart (rootArray s))
    (hmem : ∀ e ∈ events, e.outcome ≠ .error spent)
    (hslots : s.fileDescriptors = fun _ => none) :
    ∃ m, m < maxFileDescriptors ∧ events.filterMap Event.opened = (List.range' 1 m).map Int.ofNat := by
  obtain ⟨m, hm, h⟩ := Session.numbered hnull hs hrun hapart hmem (upTo_zero hslots)
  exact ⟨m, by omega, h⟩

end

theorem two_opens : ∃ (s : Sys) (events : List Event), Mounted kernelBlocks systemBlocks s s ∧
    Session stoppingDisk kernelBlocks systemBlocks s s events ∧ (∀ e ∈ events, e.request.Apart (rootArray s)) ∧
    (∀ e ∈ events, e.outcome ≠ .error .panic) ∧ s.fileDescriptors = (fun _ => none) ∧
    events.filterMap Event.opened = [1, 2] := by
  have ho : OneProgram stoppingDisk smallItem := oneProgram_smallDisk.null _ _
  obtain ⟨k, -, hroom, h, -⟩ := ho.starts fun _ => 0
  have hone := (ho.loadable h).toOneFile
  have hfresh : Fresh kernelBlocks systemBlocks [rootArray k.toSys] 24 k.toSys k.toSys :=
    fresh_start h.ok (hroom.mono (by decide)) (List.cons_subset.2 ⟨h.array, List.nil_subset _⟩)
  have hfirst := find_slot (s := k.toSys) (i := 1) (by decide) (by rw [h.fileDescriptors]) fun j h1 h2 => by
    have h2 : j.val < 1 := h2
    omega
  obtain ⟨desc, s1, c1, f1, -⟩ := ho.calls_fopen (n := 12) h hfresh hone hfirst
  have hone1 : OneFile [0x41] smallItem (rootArray k.toSys) (k.toSys.withDescriptor 1 desc) :=
    ⟨hone.filesystem, hone.entries, hone.address, hone.named, hone.holds, hone.file⟩
  have hsecond := find_slot (s := k.toSys.withDescriptor 1 desc) (i := 2) (by decide) (by
      show Function.update k.fileDescriptors 1 (some desc) 2 = none
      rw [Function.update_of_ne (by decide), h.fileDescriptors]) fun j h1 h2 => by
    have h2 : j.val < 2 := h2
    obtain rfl : j = 1 := Fin.ext (show j.val = 1 by omega)
    show Function.update k.fileDescriptors 1 (some desc) 1 ≠ none
    rw [Function.update_self]
    exact Option.some_ne_none _
  obtain ⟨desc', s2, c2, -, -⟩ := ho.calls_fopen (n := 0) h f1 hone1 hsecond
  refine ⟨k.toSys, [⟨.fopen (onePart [0x41]) [0x72], .ok ⟨1, none, []⟩, s1⟩,
    ⟨.fopen (onePart [0x41]) [0x72], .ok ⟨2, none, []⟩, s2⟩], mounted_start h.ok h.filesystem h.array, ⟨c1, c2,
    trivial⟩, fun e he => ?_, fun e he => ?_, h.fileDescriptors, rfl⟩
  · rcases List.mem_cons.1 he with rfl | he
    · trivial
    · rw [List.mem_singleton.1 he]
      trivial
  · rcases List.mem_cons.1 he with rfl | he
    · exact Exec.ok_ne _
    · rw [List.mem_singleton.1 he]
      exact Exec.ok_ne _

theorem two_opens_run : ∃ (s : Sys) (events : List Event), events.filterMap Event.opened = [1, 2] ∧
    OpenFiles.run stoppingDisk s.fat16Private (rootImage s) (shown s) (events.map Event.request) =
      (events.map Event.outcome, shown (final s events)) := by
  obtain ⟨s, events, hs, hrun, hapart, hmem, -, hopened⟩ := two_opens
  exact ⟨s, events, hopened, session_runs ⟨fun _ _ => rfl, fun _ _ _ => rfl⟩ hs hrun hapart hmem⟩

theorem two_opens_numbered : ∃ events : List Event, events.filterMap Event.opened = [1, 2] ∧
    ∃ m, m < maxFileDescriptors ∧ events.filterMap Event.opened = (List.range' 1 m).map Int.ofNat := by
  obtain ⟨s, events, hs, hrun, hapart, hmem, hslots, hopened⟩ := two_opens
  exact ⟨events, hopened, opens_numbered ⟨fun _ _ => rfl, fun _ _ _ => rfl⟩ hs hrun hapart hmem hslots⟩

end SimpleMicrokernel.Tasking
