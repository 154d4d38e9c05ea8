/-
The allocator as the rest of the kernel calls it: what each call does to the state, and what it
frames.
-/
import SimpleMicrokernel.Fs.State
import SimpleMicrokernel.Memory.Frame
import SimpleMicrokernel.Memory.Room

namespace SimpleMicrokernel.Fs

open Memory

/-- A machine where a failed allocation fills nothing, and a store through null stops or changes nothing. -/
structure NoFill (env : Env) : Prop where
  fill : ∀ size mem, env.nullFill size mem = .ok mem
  store : ∀ a bytes mem mem', env.nullStore a bytes mem = .ok mem' → mem' = mem

/-- A machine where what goes through null and comes back has left memory from block `reserved` on as it was. -/
structure FillsBelow (env : Env) (reserved : Nat) : Prop where
  fill : ∀ n mem mem', env.nullFill n mem = .ok mem' → ∀ x, reserved * pmmBlockSize ≤ x → mem' x = mem x
  store : ∀ a bytes mem mem', env.nullStore a bytes mem = .ok mem' → ∀ x, reserved * pmmBlockSize ≤ x → mem' x = mem x

theorem NoFill.below {env : Env} (h : NoFill env) (reserved : Nat) : FillsBelow env reserved where
  fill n mem mem' he x _ := by
    rw [h.fill] at he
    cases he
    rfl
  store a bytes mem mem' he x _ := by rw [h.store a bytes mem mem' he]

/-- A step from one state to the other frames `held`. -/
def FramesSys (reserved size : Nat) (keep : Prop) (held : List Live) (s s' : Sys) : Prop :=
  AllocState.Frames reserved size keep held s.toAllocState s'.toAllocState

/-- Every run of the computation frames `held`. -/
abbrev Framed {α : Type} (reserved size : Nat) (keep : Prop) (held : List Live) (x : FsM α) : Prop :=
  Exec.Keeps (FramesSys reserved size keep held) x

/-- The tables are right. -/
abbrev Sys.Ok (reserved size : Nat) (s : Sys) : Prop := AllocState.Ok reserved size s.toAllocState

variable {reserved size : Nat} {keep : Prop} {held : List Live} {env : Env} {s s' s'' : Sys}

instance : Std.Refl (FramesSys reserved size keep held) := ⟨fun s => AllocState.Frames.rfl' s.toAllocState⟩

instance : IsTrans Sys (FramesSys reserved size keep held) := ⟨fun _ _ _ h1 h2 => AllocState.Frames.trans' h1 h2⟩

theorem framesSys_of_eq (h : s'.toAllocState = s.toAllocState) : FramesSys reserved size keep held s s' := by
  unfold FramesSys
  rw [h]
  exact AllocState.Frames.rfl' _

theorem SameButStreams.frames (h : SameButStreams s s') : FramesSys reserved size keep held s s' :=
  framesSys_of_eq (by rw [h])

theorem framed_modify {f : Sys → Sys} (h : ∀ s, (f s).toAllocState = s.toAllocState) :
    Framed reserved size keep held (modify f : FsM PUnit) :=
  Exec.keeps_modify fun s => framesSys_of_eq (h s)

theorem framed_streamerSeek (id : StreamId) (pos : Int) : Framed reserved size keep held (streamerSeek id pos) := by
  intro s a s' h
  rw [streamerSeek_apply] at h
  cases h
  exact framesSys_of_eq rfl

theorem framed_streamerRead (env : Env) (id : StreamId) (total : Nat) :
    Framed reserved size keep held (streamerRead env id total) := by
  intro s a s' h
  obtain ⟨res, out⟩ := a
  exact (of_streamerRead_ok h).2.2.frames

/-! ## Calls -/

theorem kmallac_apply (n : Nat) (s : Sys) : kmallac n s = .ok ((s.heap.kmallac n).1,
    s.alloc (s.heap.kmallac n).2 (AllocState.hold s.live ⟨(s.heap.kmallac n).1, n, .kheap⟩)) := rfl

theorem kmallac_spec {n p : Nat} (h : kmallac n s = .ok (p, s')) :
    s'.mem = s.mem ∧ FramesSys reserved size keep held s s' ∧
      (s.Ok reserved size → p ≠ 0 → s'.live = ⟨p, n, .kheap⟩ :: s.live) := by
  rw [kmallac_apply, Except.ok.injEq, Prod.mk.injEq] at h
  obtain ⟨rfl, rfl⟩ := h
  refine ⟨rfl, ?_, fun _ hp => if_neg hp⟩
  exact AllocState.frames_hold (fun hok => AllocState.ok_kmallac hok n) fun _ _ _ => .inl rfl

/-- A call of `kzalloc` allocates and fills what it allocated; with no allocation to fill, memory is
as the machine leaves it. -/
theorem of_kzalloc_ok {n p : Nat} (h : kzalloc env n s = .ok (p, s')) :
    ∃ mem, s' = { s.alloc (s.heap.kmallac n).2 (AllocState.hold s.live ⟨p, n, .kheap⟩) with mem := mem } ∧
      p = (s.heap.kmallac n).1 ∧ (p = 0 → env.nullFill n s.mem = .ok mem) ∧ (p ≠ 0 → mem = memset s.mem p 0 n) := by
  unfold kzalloc at h
  rw [Exec.bind_of_ok (kmallac_apply n s), Exec.bind_of_ok (Exec.get_apply _)] at h
  obtain ⟨mem, s2, hmem, h⟩ := Exec.of_bind_ok h
  rw [Exec.bind_of_ok (Exec.set_apply ..)] at h
  obtain ⟨hp, rfl⟩ := Exec.of_pure_ok h
  subst hp
  obtain ⟨hfill, rfl⟩ := Exec.of_lift_ok hmem
  refine ⟨mem, rfl, rfl, fun h0 => ?_, fun h0 => ?_⟩
  · rw [if_pos h0] at hfill
    exact hfill
  · rw [if_neg h0] at hfill
    cases hfill
    rfl

theorem covers_of_fill {a : Live} (halign : a.addr % pmmBlockSize = 0) {x : Nat} (h1 : a.addr ≤ x)
    (h2 : x < a.addr + a.size) : a.Covers x :=
  (Live.covers_iff halign).2 ⟨h1, Nat.lt_of_lt_of_le h2 (Nat.add_le_add_left (blockCount_bounds a.size).1 _)⟩

theorem kzalloc_spec {n p : Nat} (hkeep : keep → FillsBelow env reserved ∨ p ≠ 0) (h : kzalloc env n s = .ok (p, s')) :
    FramesSys reserved size keep held s s' ∧ (s.Ok reserved size → p ≠ 0 → s'.live = ⟨p, n, .kheap⟩ :: s.live) := by
  obtain ⟨mem, rfl, hp, hnull, hfill⟩ := of_kzalloc_ok h
  refine ⟨fun hok hheld => ?_, fun _ h0 => if_neg h0⟩
  have hok' := AllocState.ok_kmallac hok n
  rw [hp]
  refine AllocState.frames_hold (fun _ => hok') (fun hk x hx0 => ?_) hok hheld
  by_cases h0 : p = 0
  · rcases hkeep hk with hbelow | hne
    · exact .inl (hbelow.fill _ _ _ (hnull h0) x hx0)
    · exact absurd h0 hne
  · rw [hfill h0, memset_apply]
    split
    · rename_i hx
      rw [← hp]
      have hl : (⟨p, n, .kheap⟩ : Live) ∈ (s.toAllocState.step (.kmallac n)).live := by
        simp only [AllocState.step, ← hp, AllocState.hold, if_neg h0]
        exact List.mem_cons_self ..
      exact .inr ⟨h0, covers_of_fill (hok'.bounds hl).1 hx.1 hx.2⟩
    · exact .inl rfl

theorem framed_kzalloc (hkeep : keep → FillsBelow env reserved) (n : Nat) :
    Framed reserved size keep held (kzalloc env n) :=
  fun _ _ _ h => (kzalloc_spec (fun hk => .inl (hkeep hk)) h).1

theorem of_nullStore_ok {a : Nat} {bytes : List Byte} (h : nullStore env a bytes s = .ok ((), s')) :
    ∃ mem, env.nullStore a bytes s.mem = .ok mem ∧ s' = { s with mem := mem } := by
  unfold nullStore at h
  rw [Exec.bind_of_ok (Exec.get_apply _)] at h
  obtain ⟨mem, s1, hmem, h⟩ := Exec.of_bind_ok h
  obtain ⟨hstore, rfl⟩ := Exec.of_lift_ok hmem
  rw [Exec.set_apply] at h
  cases h
  exact ⟨mem, hstore, rfl⟩

theorem framed_nullStore (hkeep : keep → FillsBelow env reserved) (a : Nat) (bytes : List Byte) :
    Framed reserved size keep held (nullStore env a bytes) := by
  intro s u s' h
  obtain ⟨mem, hstore, rfl⟩ := of_nullStore_ok h
  intro hok hheld
  refine ⟨hok.withMem _, hheld, fun hk b hb x hx => (hkeep hk).store _ _ _ _ hstore x ?_⟩
  obtain ⟨halign, -, hlow, -⟩ := hok.bounds (hheld hb)
  exact Nat.le_trans hlow ((Live.covers_iff halign).1 hx).1

/-- A machine where filling through null touches at most the bytes that are filled. -/
def FillsNull (env : Env) : Prop := ∀ n mem mem', env.nullFill n mem = .ok mem' → ∀ x, n ≤ x → mem' x = mem x

/-- Nothing live is in block 0, so a fill of less than a block through null changes nothing held. -/
theorem framed_kzalloc_null (hkeep : keep → FillsNull env) {n : Nat} (hn : n ≤ pmmBlockSize) :
    Framed reserved size keep held (kzalloc env n) := by
  intro s p s' h
  by_cases hp : p = 0
  · intro hok hheld
    have f : FramesSys reserved size False held s s' := (kzalloc_spec (fun hf => hf.elim) h).1
    obtain ⟨hok', hheld', -⟩ := f hok hheld
    obtain ⟨mem, rfl, -, hnull, -⟩ := of_kzalloc_ok h
    refine ⟨hok', hheld', fun hk a ha x hx => hkeep hk _ _ _ (hnull hp) x ?_⟩
    obtain ⟨h1, h2, -⟩ := hok.bounds (hheld ha)
    have hle := ((Live.covers_iff h1).1 hx).1
    unfold pmmBlockSize at h1 hn
    omega
  · exact (kzalloc_spec (fun _ => .inr hp) h).1

theorem pmmFreeBlock_spec (reserved size : Nat) (keep : Prop) {b : Nat} (hb : Live.block b ∈ s.live)
    (hout : ∀ a ∈ held, a.addr ≠ b) :
    ∃ s', pmmFreeBlock b s = .ok ((), s') ∧ s'.mem = s.mem ∧ FramesSys reserved size keep held s s' ∧
      ∀ a ∈ s'.live, a.addr ≠ b := by
  refine ⟨_, rfl, rfl, AllocState.frames_pmmFreeBlock hb hout, fun a ha => ?_⟩
  have ha := (List.mem_filter.1 ha).2
  simpa using ha

theorem pmmAllocateBlock_apply (s : Sys) : pmmAllocateBlock s = .ok (s.heap.pmm.pmmAllocateBlock.1,
    s.alloc { s.heap with pmm := s.heap.pmm.pmmAllocateBlock.2 }
    (AllocState.hold s.live (.block s.heap.pmm.pmmAllocateBlock.1))) := rfl

theorem pmmAllocateBlock_spec (reserved size : Nat) (keep : Prop) (held : List Live) {p : Nat}
    (h : pmmAllocateBlock s = .ok (p, s')) :
    s'.mem = s.mem ∧ FramesSys reserved size keep held s s' ∧
      (s.Ok reserved size → p ≠ 0 → s'.live = .block p :: s.live) := by
  unfold pmmAllocateBlock at h
  cases h
  refine ⟨rfl, ?_, fun _ hp => if_neg hp⟩
  exact AllocState.frames_hold (fun hok => AllocState.ok_pmmAllocateBlock hok) fun _ _ _ => .inl rfl

theorem kfree_spec {addr : Nat} {u : Unit} (hin : addr = 0 ∨ ∃ a ∈ s.live, a.addr = addr)
    (hout : ∀ b ∈ held, b.addr ≠ addr) (h : kfree addr s = .ok (u, s')) : FramesSys reserved size keep held s s' := by
  unfold kfree at h
  rw [Exec.modify_apply] at h
  cases h
  rcases hin with h0 | ⟨a, ha, rfl⟩
  · exact AllocState.frames_kfree_null h0
  · exact AllocState.frames_kfree ha hout

theorem frames_mem {a : Live} {mem : Mem} (ha : s.Ok reserved size → a ∈ s.live) (hout : ∀ b ∈ held, b.addr ≠ a.addr)
    (hmem : s.Ok reserved size → ∀ x, ¬ a.Covers x → mem x = s.mem x) :
    FramesSys reserved size keep held s { s with mem := mem } := by
  intro hok hheld
  refine ⟨hok, hheld, fun _ b hb x hx => hmem hok x fun hc => ?_⟩
  have hapart := hok.apart (ha hok) (hheld hb) fun he => hout b hb (congrArg Live.addr he).symm
  exact hapart.not_covers hc hx

theorem setMem_apply (f : Mem → Mem) (s : Sys) : setMem f s = .ok (⟨⟩, { s with mem := f s.mem }) := rfl

/-! ## What the allocator has nothing to do with -/

/-- The file system is as it was; the allocator and memory may have changed. -/
structure SameFiles (s s' : Sys) : Prop where
  filesystem : s'.filesystem = s.filesystem
  fat16Private : s'.fat16Private = s.fat16Private
  fileDescriptors : s'.fileDescriptors = s.fileDescriptors

instance : Std.Refl SameFiles := ⟨fun _ => ⟨rfl, rfl, rfl⟩⟩

instance : IsTrans Sys SameFiles where
  trans _ _ _ h1 h2 := ⟨h2.1.trans h1.1, h2.2.trans h1.2, h2.3.trans h1.3⟩

theorem sameFiles_kzalloc (env : Env) (n : Nat) : Exec.Keeps SameFiles (kzalloc env n) := by
  intro s p s' h
  obtain ⟨mem, rfl, -⟩ := of_kzalloc_ok h
  exact ⟨rfl, rfl, rfl⟩

theorem sameFiles_nullStore (env : Env) (a : Nat) (bytes : List Byte) :
    Exec.Keeps SameFiles (nullStore env a bytes) := by
  intro s u s' h
  obtain ⟨mem, -, rfl⟩ := of_nullStore_ok h
  exact ⟨rfl, rfl, rfl⟩

theorem sameFiles_pmmAllocateBlock : Exec.Keeps SameFiles pmmAllocateBlock := by
  intro s p s' h
  cases h
  exact ⟨rfl, rfl, rfl⟩

theorem sameFiles_setMem (f : Mem → Mem) : Exec.Keeps SameFiles (setMem f) :=
  Exec.keeps_modify fun _ => ⟨rfl, rfl, rfl⟩

/-! ## Calls that succeed -/

/-- There is room for `n` blocks. -/
abbrev Sys.Room (s : Sys) (n : Nat) : Prop := s.heap.pmm.Room n

variable {n m : Nat}

theorem kmallac_room (hr : s.Room n) (hle : blockCount m ≤ n) :
    ∃ p s', kmallac m s = .ok (p, s') ∧ p ≠ 0 ∧ s'.Room (n - blockCount m) := by
  obtain ⟨p, heap, e, hp, hr'⟩ := Heap.kmallac_room hr hle
  refine ⟨p, s.alloc heap (AllocState.hold s.live ⟨p, m, .kheap⟩), ?_, hp, hr'⟩
  rw [kmallac_apply, e]

theorem kzalloc_room (env : Env) (hr : s.Room n) (hle : blockCount m ≤ n) :
    ∃ p s', kzalloc env m s = .ok (p, s') ∧ p ≠ 0 ∧ s'.Room (n - blockCount m) := by
  obtain ⟨p, s1, e, hp, hr'⟩ := kmallac_room hr hle
  refine ⟨p, { s1 with mem := memset s1.mem p 0 m }, ?_, hp, hr'⟩
  unfold kzalloc
  rw [Exec.bind_of_ok e, Exec.bind_of_ok (Exec.get_apply s1), if_neg hp]
  rfl

/-! ## Memory that is taken -/

/-- The last byte of a page changes only in an allocation of a page or more, and these stay allocated. -/
structure KeepsEnds (s s' : Sys) : Prop where
  live : ∀ a ∈ s.live, pmmBlockSize ≤ a.size → a ∈ s'.live
  mem : ∀ x, x % pmmBlockSize = pmmBlockSize - 1 → s'.mem x = s.mem x ∨ ∃ a ∈ s'.live, a.Covers x ∧
    pmmBlockSize ≤ a.size

instance : Std.Refl KeepsEnds := ⟨fun _ => ⟨fun _ ha _ => ha, fun _ _ => .inl rfl⟩⟩

instance : IsTrans Sys KeepsEnds where
  trans s s' s'' h1 h2 := by
    refine ⟨fun a ha hsize => h2.live a (h1.live a ha hsize) hsize, fun x hx => ?_⟩
    rcases h2.mem x hx with e2 | hbig
    · rcases h1.mem x hx with e1 | ⟨a, ha, hcovers, hsize⟩
      · exact .inl (e2.trans e1)
      · exact .inr ⟨a, h2.live a ha hsize, hcovers, hsize⟩
    · exact .inr hbig

theorem keepsEnds_of_subset {s s' : Sys} (hlive : s.live ⊆ s'.live) (hmem : s'.mem = s.mem) : KeepsEnds s s' :=
  ⟨fun _ ha _ => hlive ha, fun x _ => .inl (congrFun hmem x)⟩

theorem subset_hold (live : List Live) (a : Live) : live ⊆ AllocState.hold live a := by
  unfold AllocState.hold
  split
  · exact List.Subset.refl _
  · exact List.subset_cons_self ..

theorem keepsEnds_kmallac (n : Nat) : Exec.Keeps KeepsEnds (kmallac n) := by
  intro s p s' h
  rw [kmallac_apply] at h
  cases h
  exact keepsEnds_of_subset (subset_hold _ _) rfl

theorem keepsEnds_pmmAllocateBlock : Exec.Keeps KeepsEnds pmmAllocateBlock := by
  intro s p s' h
  cases h
  exact keepsEnds_of_subset (subset_hold _ _) rfl

/-- Changes inside an allocation that is held: either they do not come to the end of its page, or it is a page
or more. -/
theorem keepsEnds_in {s s' : Sys} {a : Live} (hlive : s.live ⊆ s'.live) (ha : a ∈ s'.live)
    (halign : a.addr % pmmBlockSize = 0) (hmem : ∀ x, x < a.addr ∨ a.addr + a.size ≤ x → s'.mem x = s.mem x) :
    KeepsEnds s s' := by
  refine ⟨fun b hb _ => hlive hb, fun x hx => ?_⟩
  by_cases hin : x < a.addr ∨ a.addr + a.size ≤ x
  · exact .inl (hmem x hin)
  · refine .inr ⟨a, ha, covers_of_fill halign (by omega) (by omega), ?_⟩
    unfold pmmBlockSize at *
    omega

theorem keepsEnds_store {s s' : Sys} {p n : Nat} {o : Owner} {bytes : List Byte} (ha : ⟨p, n, o⟩ ∈ s.live)
    (halign : p % pmmBlockSize = 0) (hlive : s'.live = s.live) (hmem : s'.mem = store s.mem p bytes)
    (hlen : bytes.length ≤ n) :
    KeepsEnds s s' := by
  refine keepsEnds_in (hlive ▸ List.Subset.refl _) (hlive ▸ ha) halign fun x hx => ?_
  have hx : x < p ∨ p + n ≤ x := hx
  rw [hmem, store_apply]
  split
  · rw [List.getElem?_eq_none (by omega), Option.getD_none]
  · rfl

theorem keepsEnds_kzalloc {reserved size n p : Nat} {env : Env} {s s' : Sys} (hok : s.Ok reserved size)
    (h : kzalloc env n s = .ok (p, s')) (hp : p ≠ 0) : KeepsEnds s s' := by
  have z : FramesSys reserved size True s.live s s' ∧ _ := kzalloc_spec (fun _ => .inr hp) h
  obtain ⟨hok', -, -⟩ := z.1 hok (List.Subset.refl _)
  have hlive := z.2 hok hp
  have hin : (⟨p, n, .kheap⟩ : Live) ∈ s'.live := hlive ▸ List.mem_cons_self ..
  refine keepsEnds_in (hlive ▸ List.subset_cons_self ..) hin (hok'.bounds hin).1 fun x hx => ?_
  obtain ⟨mem, rfl, -, -, hfill⟩ := of_kzalloc_ok h
  show mem x = s.mem x
  rw [hfill hp, memset_apply, if_neg (by simp only at hx; omega)]

theorem keepsEnds_kfree {reserved size n p : Nat} {s s' : Sys} (hok : s.Ok reserved size) (hp : ⟨p, n, .kheap⟩ ∈ s.live)
    (hn : n < pmmBlockSize) (h : kfree p s = .ok ((), s')) : KeepsEnds s s' := by
  cases h
  refine ⟨fun a ha hsize => List.mem_filter.2 ⟨ha, decide_eq_true fun he => ?_⟩, fun x _ => .inl rfl⟩
  have hne : a ≠ ⟨p, n, .kheap⟩ := fun e => by
    rw [e] at hsize
    simp only at hsize
    omega
  exact (hok.apart ha hp hne).addr_ne he

/-- The last byte of a page in the memory that is handed out next is as it was. -/
theorem KeepsEnds.next {reserved size n i : Nat} {s0 s : Sys} (h : KeepsEnds s0 s) (hok : s.Ok reserved size)
    (hp : (s.heap.kmallac n).1 ≠ 0) (hi : i < blockCount n * pmmBlockSize)
    (hend : i % pmmBlockSize = pmmBlockSize - 1) :
    s.mem ((s.heap.kmallac n).1 + i) = s0.mem ((s.heap.kmallac n).1 + i) := by
  have hspec : _ ∧ FramesSys reserved size False [] s _ ∧ _ := kmallac_spec (kmallac_apply n s)
  obtain ⟨-, f, hlive⟩ := hspec
  obtain ⟨hok', -, -⟩ := f hok (List.nil_subset _)
  have hlive := hlive hok hp
  have halign : (s.heap.kmallac n).1 % pmmBlockSize = 0 := (hok'.bounds (hlive ▸ List.mem_cons_self ..)).1
  have hnext : (⟨(s.heap.kmallac n).1, n, .kheap⟩ : Live).Covers ((s.heap.kmallac n).1 + i) :=
    (Live.covers_iff halign).2 ⟨Nat.le_add_right .., Nat.add_lt_add_left hi _⟩
  rcases h.mem ((s.heap.kmallac n).1 + i) (by unfold pmmBlockSize at *; omega) with e | ⟨a, ha, hcovers, -⟩
  · exact e
  · exact absurd hcovers ((hok'.fresh hlive a ha).not_covers hnext)

/-- Since `s0` memory was taken, with room for `n` blocks left, and nothing of `held` was touched. -/
structure Fresh (reserved size : Nat) (held : List Live) (n : Nat) (s0 s : Sys) : Prop where
  ok : s.Ok reserved size
  room : s.Room n
  live : held ⊆ s.live
  mem : ∀ a ∈ held, ∀ x, a.Covers x → s.mem x = s0.mem x
  ends : KeepsEnds s0 s
  files : SameFiles s0 s

section
variable {reserved size n m : Nat} {held : List Live} {env : Env} {s0 s s' : Sys}

theorem fresh_start (hok : s.Ok reserved size) (hroom : s.Room n) (hlive : held ⊆ s.live) :
    Fresh reserved size held n s s :=
  ⟨hok, hroom, hlive, fun _ _ _ _ => rfl, refl s, refl s⟩

theorem Fresh.step (h : Fresh reserved size held n s0 s) (f : FramesSys reserved size True held s s')
    (hends : KeepsEnds s s') (hfiles : SameFiles s s') (hroom : s'.Room m) : Fresh reserved size held m s0 s' := by
  obtain ⟨hok, hlive, hmem⟩ := f h.ok h.live
  exact ⟨hok, hroom, hlive, fun a ha x hx => (hmem trivial a ha x hx).trans (h.mem a ha x hx),
    IsTrans.trans _ _ _ h.ends hends, IsTrans.trans _ _ _ h.files hfiles⟩

theorem Fresh.kzalloc (h : Fresh reserved size held n s0 s) (env : Env) (hle : blockCount m ≤ n) :
    ∃ p s', kzalloc env m s = .ok (p, s') ∧ p ≠ 0 ∧ Fresh reserved size held (n - blockCount m) s0 s' ∧
      s'.live = ⟨p, m, .kheap⟩ :: s.live := by
  obtain ⟨p, s', e, hp, hroom⟩ := kzalloc_room env h.room hle
  have z : FramesSys reserved size True held s s' ∧ _ := kzalloc_spec (fun _ => .inr hp) e
  exact ⟨p, s', e, hp, h.step z.1 (keepsEnds_kzalloc h.ok e hp) (sameFiles_kzalloc env m _ _ _ e) hroom, z.2 h.ok hp⟩

theorem Fresh.kzallocPage (h : Fresh reserved size held (n + 1) s0 s) (env : Env) (hm : m ≤ 4096) :
    ∃ p s', Fs.kzalloc env m s = .ok (p, s') ∧ p ≠ 0 ∧ Fresh reserved size held n s0 s' ∧
    s'.live = ⟨p, m, .kheap⟩ :: s.live := by
  have hone := blockCount_of_le hm
  obtain ⟨p, s', e, hp, h', hlive⟩ := h.kzalloc env (m := m) (by omega)
  rw [hone, Nat.add_sub_cancel] at h'
  exact ⟨p, s', e, hp, h', hlive⟩

theorem Fresh.kfree {p : Nat} (h : Fresh reserved size held (n + 1) s0 s) (hp : ⟨p, m, .kheap⟩ ∈ s.live) (hm : m < 4096)
    (hout : ∀ a ∈ held, a.addr ≠ p) : ∃ s', kfree p s = .ok ((), s') ∧ Fresh reserved size held n s0 s' := by
  refine ⟨_, rfl, h.step (kfree_spec (.inr ⟨_, hp, rfl⟩) hout rfl) (keepsEnds_kfree h.ok hp hm rfl) ⟨rfl, rfl, rfl⟩ ?_⟩
  obtain ⟨L, hlive, hok⟩ := h.ok
  have ha : (⟨p, m, .kheap⟩ : Live) ∈ L.live := hlive ▸ hp
  rcases hok.kfree_cases ha with ⟨-, -, hbig, -⟩ | ⟨-, e⟩
  · have hbig : 4096 < m := hbig
    omega
  · have hroom : (s.heap.kfree p).pmm.Room n := by
      rw [e]
      have hstart := (hok.addr_eq ha).2.1
      exact h.room.give (Nat.le_trans hok.reservedLo hstart)
    exact hroom

end

/-! ## Single blocks -/

/-- The next `n` requests for a block are granted. -/
def Grants : Nat → Pmm → Prop
  | 0, _ => True
  | n + 1, p => p.pmmAllocateBlock.1 ≠ 0 ∧ Grants n p.pmmAllocateBlock.2

theorem kzalloc_page (env : Env) {m : Nat} (hm : m ≤ 4096) (hp : s.heap.pmm.pmmAllocateBlock.1 ≠ 0) :
    ∃ s', kzalloc env m s = .ok (s.heap.pmm.pmmAllocateBlock.1, s') ∧ s'.heap.pmm = s.heap.pmm.pmmAllocateBlock.2 := by
  have hk := s.heap.kmallac_of_le hm
  obtain ⟨s1, hs1⟩ : ∃ s1, s1 = s.alloc (s.heap.kmallac m).2
    (AllocState.hold s.live ⟨(s.heap.kmallac m).1, m, .kheap⟩) := ⟨_, rfl⟩
  have hcall : kmallac m s = .ok (s.heap.pmm.pmmAllocateBlock.1, s1) := by
    rw [kmallac_apply, ← hs1, hk]
  refine ⟨{ s1 with mem := memset s1.mem s.heap.pmm.pmmAllocateBlock.1 0 m }, ?_, ?_⟩
  · unfold kzalloc
    rw [Exec.bind_of_ok hcall, Exec.bind_of_ok (Exec.get_apply _), if_neg hp]
    rfl
  · show s1.heap.pmm = _
    rw [hs1, hk]
    rfl

theorem of_kzalloc_page {m p : Nat} (hm : m ≤ 4096) (h : kzalloc env m s = .ok (p, s')) :
    p = s.heap.pmm.pmmAllocateBlock.1 ∧ s'.heap.pmm = s.heap.pmm.pmmAllocateBlock.2 := by
  have hk := s.heap.kmallac_of_le hm
  obtain ⟨mem, rfl, rfl, -, -⟩ := of_kzalloc_ok h
  show _ ∧ (s.heap.kmallac m).2.pmm = _
  rw [hk]
  exact ⟨rfl, rfl⟩

theorem kzalloc_grants {n m : Nat} (env : Env) {s : Sys} (hm : m ≤ 4096) (h : Grants (n + 1) s.heap.pmm) :
    ∃ p s', kzalloc env m s = .ok (p, s') ∧ p ≠ 0 ∧ Grants n s'.heap.pmm := by
  obtain ⟨hp, hrest⟩ := h
  obtain ⟨s', e, hpmm⟩ := kzalloc_page env hm hp
  exact ⟨_, s', e, hp, hpmm ▸ hrest⟩

theorem Room.grants {p : Pmm} : ∀ {n : Nat}, p.Room n → Grants n p
  | 0, _ => trivial
  | n + 1, h => by
    obtain ⟨addr, p', e, haddr, h'⟩ := h.pmmAllocateBlock (by omega)
    refine ⟨?_, ?_⟩
    · rw [e]
      exact haddr
    · rw [e]
      exact Room.grants h'

/-- What is left when `n` blocks were handed out. -/
def afterBlocks : Nat → Pmm → Pmm
  | 0, p => p
  | n + 1, p => afterBlocks n p.pmmAllocateBlock.2

theorem grants_add (m : Nat) : ∀ {n : Nat} {p : Pmm}, Grants (n + m) p ↔ Grants n p ∧ Grants m (afterBlocks n p)
  | 0, p => by rw [Nat.zero_add, Grants, afterBlocks, true_and]
  | n + 1, p => by rw [Nat.add_right_comm, Grants, Grants, afterBlocks, grants_add m, and_assoc]

theorem afterBlocks_add (m : Nat) : ∀ {n : Nat} {p : Pmm}, afterBlocks (n + m) p = afterBlocks m (afterBlocks n p)
  | 0, p => by rw [Nat.zero_add, afterBlocks]
  | n + 1, p => by rw [Nat.add_right_comm, afterBlocks, afterBlocks, afterBlocks_add m]

theorem grants_ends (n : Nat) (p : Pmm) : Grants (n + 2) p ↔ p.pmmAllocateBlock.1 ≠ 0 ∧ Grants n p.pmmAllocateBlock.2 ∧
    (afterBlocks n p.pmmAllocateBlock.2).pmmAllocateBlock.1 ≠ 0 := by
  have hlast : ∀ q, Grants 1 q ↔ q.pmmAllocateBlock.1 ≠ 0 := fun _ => and_iff_left trivial
  rw [Grants, grants_add 1, hlast]

theorem afterBlocks_ends (n : Nat) (p : Pmm) :
    afterBlocks (n + 2) p = (afterBlocks n p.pmmAllocateBlock.2).pmmAllocateBlock.2 := by
  rw [afterBlocks, afterBlocks_add 1]
  rfl

theorem Room.afterBlocks {m : Nat} : ∀ {n : Nat} {p : Pmm}, p.Room (m + n) → (afterBlocks n p).Room m
  | 0, _, h => h
  | n + 1, p, h => by
    obtain ⟨addr, p', e, -, h'⟩ := h.pmmAllocateBlock (by omega)
    rw [Fs.afterBlocks, e]
    exact Room.afterBlocks h'

/-- Nothing but the allocator, as `pmm_init` leaves it. -/
def bare (size reserved : Nat) : Sys where
  toAllocState := AllocState.init size reserved fun _ => 0
  filesystem := false
  fat16Private := ⟨⟨0, 0, 0, 0, 0, 0, 0⟩, ⟨0, 0, 0, 0⟩, fun _ => ⟨0⟩⟩
  fileDescriptors := fun _ => none

theorem bare_pmm (size reserved : Nat) : (bare size reserved).heap.pmm = Pmm.booted size reserved :=
  Pmm.pmmInit_zero size reserved

theorem room_bare {size reserved : Nat} (h1 : 1 ≤ reserved) (h2 : reserved < size) (h3 : size ≤ 2 ^ 20) :
    (bare size reserved).Room (size - reserved - 1) := by
  rw [Sys.Room, bare_pmm]
  exact Pmm.room_booted h1 h2 h3

end SimpleMicrokernel.Fs
