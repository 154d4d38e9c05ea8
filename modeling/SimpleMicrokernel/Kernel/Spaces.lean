/-
The address spaces in every state reached: the kernel's directory takes every page to itself, and the directory
of each task is the map of its process as the load made it. A load makes one more such space; every other step
leaves the blocks of all spaces alone.
-/
import SimpleMicrokernel.Kernel.Isolation

namespace SimpleMicrokernel.Tasking

open Memory Fs Fat16 Paging

/-- Every entry of the directory of a chunk is present and writeable, and its tables hold this map. -/
structure HasMap (mem : Mem) (chunk : Nat) (entry : Nat → BitVec 32) : Prop where
  entries : ∀ q < 2 ^ 20, pageEntry mem chunk q = entry q
  flags : ∀ i < 1024, directoryFlags mem chunk i = 7#32

/-- The map of the kernel. -/
def kernelMap (q : Nat) : BitVec 32 := BitVec.ofNat 32 (q * 4096) ||| kernelFlags.setWidth 32

structure Mapped (k : Kernel) : Prop where
  kernel : HasMap k.mem k.kernelChunk kernelMap
  tasks : ∀ t task, k.tasks t = some task → ∃ p, k.procs task.process = some p ∧
    HasMap k.mem task.pageDirectory (processMap p identityMap)

section
variable {mem mem' : Mem} {live live' : List Live} {chunk : Nat} {entry : Nat → BitVec 32}

theorem HasMap.keep (h : HasMap mem chunk entry) (hspace : IsSpace mem live chunk) (hlive : live ⊆ live')
    (hmem : ∀ a ∈ live, a.owner = .pmm → ∀ x, a.Covers x → mem' x = mem x) : HasMap mem' chunk entry := by
  obtain ⟨-, -, hentry⟩ := IsSpace.keep hspace hlive hmem
  refine ⟨fun q hq => (hentry q hq).trans (h.entries q hq), fun i hi => ?_⟩
  rw [hspace.blocks.directoryFlags_congr (fun a ha => ?_) hi]
  · exact h.flags i hi
  · obtain ⟨ha, howner⟩ := List.mem_filter.1 ha
    exact hmem a ha (by simpa using howner)

end

section
variable {env : Env} {k k' : Kernel}

theorem mapped_start {mem : Mem} (h : startPaging env (initial mem) = .ok (⟨⟩, k)) : Mapped k := by
  obtain ⟨-, hne, s, s', hok, hnew, e⟩ := tablesOk_startPaging h
  have hspec : FramesSys kernelBlocks systemBlocks False [] s s' ∧ _ := pagingNew4gb_spec hnew hok (List.nil_subset _)
  obtain ⟨-, -, hmap, hflags⟩ := hspec.2 hne
  have hsys : k.toSys = s' := by rw [e]; rfl
  have hnone : k.tasks = fun _ => none := by rw [e]; rfl
  rw [← hsys] at hmap hflags
  refine ⟨⟨hmap, fun i hi => (hflags i hi).trans (by decide)⟩, fun t task ht => ?_⟩
  rw [hnone] at ht
  cases ht

theorem Mapped.keep (hm : Mapped k) (hi : Inv k) (hk : KeepsSpaces k k') : Mapped k' := by
  refine ⟨?_, fun t task' ht' => ?_⟩
  · rw [hk.kept.chunk]
    exact hm.kernel.keep hi.kernelSpace hk.live hk.mem
  · obtain ⟨task, ht, e⟩ := hk.kept.of_some ht'
    obtain ⟨p, hp, hmap⟩ := hm.tasks t task ht
    obtain ⟨p', -, ho⟩ := hi.owns t task ht
    rw [e, hk.kept.procs]
    exact ⟨p, hp, hmap.keep ho.space hk.live hk.mem⟩

/-- The tasks after a load that succeeded: the new one, and those there were. -/
theorem mapped_loaded {filename : List Byte} {slot : Fin maxProcesses} {process ptr stack task chunk : Nat}
    {sz : BitVec 32} {s1 s2 s3 s4 s5 : Sys} {k5 : Kernel} (hfill : FillsBelow env kernelBlocks) (hm : Mapped k)
    (hi : Inv k)
    (h : Loaded env filename slot k k' process ptr stack task chunk sz s1 s2 s3 s4 s5 k5) : Mapped k' := by
  have howned : FramesSys kernelBlocks systemBlocks True k.live k.toSys k'.toSys ∧ _ := h.owned (fun _ => hfill) hi.ok
  obtain ⟨f, ⟨-, hprocNew⟩, -⟩ := howned
  obtain ⟨-, hlive, hmem⟩ := f hi.ok (List.Subset.refl _)
  have hmem : ∀ a ∈ k.live, a.owner = .pmm → ∀ x, a.Covers x → k'.mem x = k.mem x := fun a ha _ => hmem trivial a ha
  obtain ⟨hproc, -, -, -, hentries, hflags⟩ := h.maps hi.ok
  have htasks : k'.tasks = k5.tasks := by rw [h.result]; rfl
  have hprocs : k'.procs = Function.update k.procs process (some (newProcess filename slot task ptr stack sz)) := by
    rw [h.result]
  have hchunk : k'.kernelChunk = k.kernelChunk := by
    rw [h.result]
    exact h.link.rest.2.2.2.1
  refine ⟨?_, fun t u' ht' => ?_⟩
  · rw [hchunk]
    exact hm.kernel.keep hi.kernelSpace hlive hmem
  · rw [htasks] at ht'
    by_cases he : t = task
    · subst he
      obtain ⟨t', ht, hs1, hs2⟩ := h.link.at
      have hs1 : t'.pageDirectory = chunk := hs1
      have hs2 : t'.process = process := hs2
      rw [ht] at ht'
      cases ht'
      rw [hs1, hs2]
      exact ⟨_, hproc, hentries, hflags⟩
    · obtain ⟨u, hu, hs1, hs2⟩ := h.link.of_ne he ht'
      have hu : k.tasks t = some u := hu
      obtain ⟨p, hp, hmap⟩ := hm.tasks t u hu
      obtain ⟨p', -, ho⟩ := hi.owns t u hu
      refine ⟨p, ?_, ?_⟩
      · rw [hs2, hprocs, Function.update_of_ne (hprocNew _ (hi.procLive _ _ hp))]
        exact hp
      · rw [hs1]
        exact hmap.keep ho.space hlive hmem

theorem reachable_mapped (hfill : FillsBelow env kernelBlocks) (h : Reachable env k) : Mapped k := by
  induction h with
  | start h => exact mapped_start h
  | step hr hs ih =>
    have hi := reachable_inv hfill hr
    rcases step_spaces hfill hi hs with hk | ⟨_, _, _, _, _, _, _, _, _, _, _, _, _, _, hl⟩
    · exact ih.keep hi hk
    · exact mapped_loaded hfill ih hi hl

end

end SimpleMicrokernel.Tasking
