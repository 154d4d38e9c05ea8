/-
Runs of the allocator: `kmallac`, `kzalloc`, `kfree`, `pmm_allocate_block` and `pmm_free_block` in
any order and number, each address given back once, by the routine of the allocator it came from,
while it is live. Every step refines a step of the ledger, so after every run the live allocations
are pairwise disjoint, inside the memory past the reserved blocks, and marked.
-/
import SimpleMicrokernel.Lib.Run
import SimpleMicrokernel.Memory.HeapInv

namespace SimpleMicrokernel.Memory

/-- The allocator, the memory it fills, and what its callers hold. -/
structure AllocState where
  heap : Heap
  mem : Mem
  live : List Live

/-- A call of the allocator. -/
inductive Op where
  | kmallac (size : Nat)
  | kzalloc (size : Nat)
  | kfree (a : Live)
  | pmmAllocateBlock
  | pmmFreeBlock (a : Live)
deriving DecidableEq, Repr

namespace AllocState

/-- After `pmm_init(size, reserved)` on the zero globals, with any memory and nothing handed out. -/
def init (size reserved : Nat) (mem : Mem) : AllocState :=
  ⟨{ Heap.zero with pmm := Heap.zero.pmm.pmmInit size reserved }, mem, []⟩

/-- A call is made with a 32-bit size; an address is given back while it is live, by the routine
of the allocator it came from. -/
def Allows (s : AllocState) : Op → Prop
  | .kmallac size => size < 2 ^ 32
  | .kzalloc size => size < 2 ^ 32
  | .kfree a => a ∈ s.live ∧ a.owner = .kheap
  | .pmmAllocateBlock => True
  | .pmmFreeBlock a => a ∈ s.live ∧ a.owner = .pmm

/-- What the callers hold after a call that returned `a`. -/
def hold (live : List Live) (a : Live) : List Live := if a.addr = 0 then live else a :: live

def step (s : AllocState) : Op → AllocState
  | .kmallac size =>
    let (p, h) := s.heap.kmallac size
    ⟨h, s.mem, hold s.live ⟨p, size, .kheap⟩⟩
  | .kzalloc size =>
    let (p, h, m) := s.heap.kzalloc s.mem size
    ⟨h, m, hold s.live ⟨p, size, .kheap⟩⟩
  | .kfree a => ⟨s.heap.kfree a.addr, s.mem, s.live.erase a⟩
  | .pmmAllocateBlock =>
    let (p, pmm) := s.heap.pmm.pmmAllocateBlock
    ⟨{ s.heap with pmm := pmm }, s.mem, hold s.live (.block p)⟩
  | .pmmFreeBlock a => ⟨{ s.heap with pmm := s.heap.pmm.pmmFreeBlock a.addr }, s.mem, s.live.erase a⟩

/-- The state after a list of calls. -/
abbrev after (s : AllocState) (ops : List Op) : AllocState := Run.run step s ops

/-- Every call of the list is allowed when it is made. -/
abbrev Allowed (s : AllocState) (ops : List Op) : Prop := Run.AllSteps step Allows s ops

/-- What is held is a ledger, and the tables hold exactly it. -/
def Ok (reserved size : Nat) (s : AllocState) : Prop :=
  ∃ L : Ledger Live.extent reserved size, L.live = s.live ∧ HeapOk s.heap L

variable {reserved size : Nat}

theorem init_eq (size reserved : Nat) (mem : Mem) : init size reserved mem = ⟨.booted size reserved, mem, []⟩ := by
  rw [init, Heap.booted, ← Pmm.pmmInit_zero]
  rfl

theorem ok_init (h3 : size ≤ 2 ^ 20) (mem : Mem) : Ok (max 1 reserved) size (init size reserved mem) := by
  rw [init_eq]
  exact ⟨_, rfl, heapOk_booted reserved h3⟩

theorem hold_refines {h' : Heap} {L : Ledger Live.extent reserved size} {a : Live}
    (hstep : (a.addr = 0 ∧ HeapOk h' L) ∨ ∃ hfree hin, a.addr ≠ 0 ∧ HeapOk h' (L.insert a hfree hin)) :
    ∃ L', Ledger.Step L L' ∧ L'.live = hold L.live a ∧ HeapOk h' L' := by
  unfold hold
  rcases hstep with ⟨h0, hok⟩ | ⟨hfree, hin, h0, hok⟩
  · exact ⟨L, .stay L, by rw [if_pos h0], hok⟩
  · exact ⟨_, .grow L a hfree hin, by rw [if_neg h0]; rfl, hok⟩

/-- Every allowed call refines a step of the ledger. -/
theorem step_refines {s : AllocState} {op : Op} {L : Ledger Live.extent reserved size} (hlive : L.live = s.live)
    (hok : HeapOk s.heap L) (hop : s.Allows op) :
    ∃ L', Ledger.Step L L' ∧ L'.live = (s.step op).live ∧ HeapOk (s.step op).heap L' := by
  cases op with
  | kmallac n =>
    simp only [step, ← hlive]
    exact hold_refines (hok.kmallac n)
  | kzalloc n =>
    simp only [step, Heap.kzalloc, ← hlive]
    exact hold_refines (hok.kmallac n)
  | kfree a =>
    obtain ⟨ha, -⟩ := hop
    rw [← hlive] at ha
    exact ⟨_, .shrink L a ha, by simp only [step, ← hlive]; rfl, hok.kfree ha⟩
  | pmmAllocateBlock =>
    simp only [step, ← hlive]
    refine hold_refines ?_
    rcases hok.pmmAllocateBlock with e | ⟨hfree, hin, h0, hok'⟩
    · rw [e]; exact .inl ⟨rfl, hok⟩
    · exact .inr ⟨hfree, hin, h0, hok'⟩
  | pmmFreeBlock a =>
    obtain ⟨ha, howner⟩ := hop
    rw [← hlive] at ha
    exact ⟨_, .shrink L a ha, by simp only [step, ← hlive]; rfl, hok.pmmFreeBlock ha howner⟩

theorem step_ok {s : AllocState} {op : Op} (h : Ok reserved size s) (hop : s.Allows op) :
    Ok reserved size (s.step op) := by
  obtain ⟨L, hlive, hok⟩ := h
  obtain ⟨L', -, hlive', hok'⟩ := step_refines hlive hok hop
  exact ⟨L', hlive', hok'⟩

/-- The invariant holds after every run from `pmm_init`. -/
theorem after_ok (h3 : size ≤ 2 ^ 20) {mem : Mem} {ops : List Op} (hops : Allowed (init size reserved mem) ops) :
    Ok (max 1 reserved) size ((init size reserved mem).after ops) :=
  Run.run_inv (fun _ _ h hop => step_ok h hop) (ok_init h3 mem) hops

theorem extent_len (a : Live) : a.extent.len = if a.size ≤ 4096 then 1 else (a.size + 4095) / 4096 := by
  simp only [Live.extent, blockCount]
  by_cases h : a.size ≤ 4096
  · rw [if_neg (by omega), if_pos h]
  · rw [if_pos (by omega), if_neg h]
    split <;> omega

/-- No two live allocations overlap: after any run, requests that failed and any number of live
large allocations included, the blocks of the live allocations are pairwise disjoint, lie between
the reserved blocks and the end of memory, and are all marked in the map. -/
theorem live_disjoint (h1 : 1 ≤ reserved) (_ : reserved ≤ size) (h3 : size ≤ 2 ^ 20) (mem : Mem) (ops : List Op)
    (hops : Allowed (init size reserved mem) ops) :
    let s := (init size reserved mem).after ops
    s.live.Pairwise (fun a b => Disjoint a.extent.cells b.extent.cells) ∧
      ∀ a ∈ s.live, a.extent.len = (if a.size ≤ 4096 then 1 else (a.size + 4095) / 4096) ∧
        reserved ≤ a.extent.start ∧ a.extent.start + a.extent.len ≤ size ∧
        ∀ i ∈ a.extent.cells, s.heap.pmm.pmmMemoryMapTest i = 1 := by
  intro s
  obtain ⟨L, hlive, hok⟩ := after_ok h3 hops
  have hlive : L.live = s.live := hlive
  refine ⟨hlive ▸ L.disjoint, fun a ha => ?_⟩
  rw [← hlive] at ha
  obtain ⟨-, hlo, hhi⟩ := L.inside a ha
  refine ⟨extent_len a, by omega, hhi, fun i hi => ?_⟩
  rw [Pmm.pmmMemoryMapTest_eq, hok.held i ⟨a, ha, hi⟩]
  rfl

/-- Three allocations are live when a fourth request fails. -/
theorem live_disjoint_run :
    let s := (init 16 1 fun _ => 0).after [.kmallac 5000, .pmmAllocateBlock, .kmallac 12, .kzalloc 70000]
    s.live.length = 3 ∧ s.live.Pairwise (fun a b => Disjoint a.extent.cells b.extent.cells) ∧
      ∀ a ∈ s.live, a.extent.len = (if a.size ≤ 4096 then 1 else (a.size + 4095) / 4096) ∧
        1 ≤ a.extent.start ∧ a.extent.start + a.extent.len ≤ 16 ∧
        ∀ i ∈ a.extent.cells, s.heap.pmm.pmmMemoryMapTest i = 1 :=
  ⟨by rw [init_eq]; decide +kernel, live_disjoint (by decide) (by decide) (by decide) _ _
    ⟨by simp only [Allows]; decide, trivial, by simp only [Allows]; decide, by simp only [Allows]; decide, trivial⟩⟩

end AllocState

end SimpleMicrokernel.Memory
