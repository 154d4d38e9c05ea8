/-
Ledgers of extents: what an allocator of numbered cells has to keep straight. An extent is a run
of consecutive cells; a ledger is a list of live items whose extents are pairwise disjoint and lie
inside `[lo, hi)`. It can only grow by an item whose cells nobody holds, so two live items never
share a cell, however the ledger was reached.
-/
import Mathlib.Order.Interval.Finset.Nat
import Mathlib.Data.Finset.Basic
import Mathlib.Data.List.Nodup
import Mathlib.Logic.Relation
import Mathlib.Algebra.Ring.Nat
import Mathlib.Algebra.Order.BigOperators.Group.List
import Mathlib.Algebra.BigOperators.Group.Finset.Basic

/-- A run of `len` consecutive cells from `start`. -/
structure Extent where
  start : Nat
  len : Nat
deriving DecidableEq, Repr

namespace Extent

/-- The cells of an extent. -/
def cells (e : Extent) : Finset Nat := Finset.Ico e.start (e.start + e.len)

@[simp] theorem mem_cells {e : Extent} {i : Nat} : i ∈ e.cells ↔ e.start ≤ i ∧ i < e.start + e.len := by
  simp [cells]

theorem not_disjoint_self {e : Extent} (h : 0 < e.len) : ¬ Disjoint e.cells e.cells := by
  rw [Finset.disjoint_left]
  exact fun hd => hd (a := e.start) (by simp [h]) (by simp [h])

end Extent

/-- Live items with pairwise disjoint, nonempty extents inside `[lo, hi)`. -/
structure Ledger {α : Type*} (ext : α → Extent) (lo hi : Nat) where
  live : List α
  disjoint : live.Pairwise fun a b => Disjoint (ext a).cells (ext b).cells
  inside : ∀ a ∈ live, 0 < (ext a).len ∧ lo ≤ (ext a).start ∧ (ext a).start + (ext a).len ≤ hi

namespace Ledger

variable {α : Type*} {ext : α → Extent} {lo hi : Nat}

/-- The ledger with nothing live. -/
def empty (ext : α → Extent) (lo hi : Nat) : Ledger ext lo hi := ⟨[], by simp, by simp⟩

/-- Cell `i` is held by a live item. -/
def Held (L : Ledger ext lo hi) (i : Nat) : Prop := ∃ a ∈ L.live, i ∈ (ext a).cells

/-- One more live item, on cells nobody holds. -/
def insert (L : Ledger ext lo hi) (a : α) (hfree : ∀ i ∈ (ext a).cells, ¬ L.Held i)
    (hin : 0 < (ext a).len ∧ lo ≤ (ext a).start ∧ (ext a).start + (ext a).len ≤ hi) : Ledger ext lo hi where
  live := a :: L.live
  disjoint := by
    refine List.Pairwise.cons (fun b hb => ?_) L.disjoint
    rw [Finset.disjoint_left]
    exact fun i h1 h2 => hfree i h1 ⟨b, hb, h2⟩
  inside := by
    intro b hb
    rcases List.mem_cons.1 hb with rfl | hb
    · exact hin
    · exact L.inside b hb

theorem held_insert {L : Ledger ext lo hi} {a : α} {hfree hin} {i : Nat} :
    (L.insert a hfree hin).Held i ↔ i ∈ (ext a).cells ∨ L.Held i := by
  simp [Held, insert]

theorem Held.bounds {L : Ledger ext lo hi} {i : Nat} (h : L.Held i) : lo ≤ i ∧ i < hi := by
  obtain ⟨a, ha, hi'⟩ := h
  have := L.inside a ha
  rw [Extent.mem_cells] at hi'
  omega

theorem eq_of_mem_cells {L : Ledger ext lo hi} {a b : α} (ha : a ∈ L.live) (hb : b ∈ L.live) {i : Nat}
    (h1 : i ∈ (ext a).cells) (h2 : i ∈ (ext b).cells) : a = b := by
  by_contra hab
  have hs : Std.Symm fun a b => Disjoint (ext a).cells (ext b).cells := ⟨fun _ _ h => h.symm⟩
  have := L.disjoint.forall ha hb hab
  exact Finset.disjoint_left.1 this h1 h2

theorem start_mem {L : Ledger ext lo hi} {a : α} (ha : a ∈ L.live) : (ext a).start ∈ (ext a).cells := by
  have := (L.inside a ha).1
  simp [this]

theorem nodup (L : Ledger ext lo hi) : L.live.Nodup := by
  refine (L.disjoint.imp_of_mem fun {a b} ha _ h => ?_)
  rintro rfl
  exact Extent.not_disjoint_self (L.inside a ha).1 h

theorem sum_len_le (L : Ledger ext lo hi) : (L.live.map fun a => (ext a).len).sum ≤ hi - lo := by
  classical
  have hcard : (L.live.toFinset.biUnion fun a => (ext a).cells).card = (L.live.map fun a => (ext a).len).sum := by
    rw [Finset.card_biUnion fun a ha b hb hne => ?_, List.sum_toFinset _ L.nodup]
    · simp only [Extent.cells, Nat.card_Ico, Nat.add_sub_cancel_left]
    · have hs : Std.Symm fun a b => Disjoint (ext a).cells (ext b).cells := ⟨fun _ _ h => h.symm⟩
      exact L.disjoint.forall (List.mem_toFinset.1 ha) (List.mem_toFinset.1 hb) hne
  have hsub : (L.live.toFinset.biUnion fun a => (ext a).cells) ⊆ Finset.Ico lo hi := by
    intro i hi
    obtain ⟨a, ha, hi⟩ := Finset.mem_biUnion.1 hi
    obtain ⟨h1, h2⟩ := Held.bounds (L := L) ⟨a, List.mem_toFinset.1 ha, hi⟩
    exact Finset.mem_Ico.2 ⟨h1, h2⟩
  rw [← hcard, ← Nat.card_Ico]
  exact Finset.card_le_card hsub

section
variable [DecidableEq α]

/-- A live item given back. -/
def remove (L : Ledger ext lo hi) (a : α) : Ledger ext lo hi where
  live := L.live.erase a
  disjoint := L.disjoint.sublist List.erase_sublist
  inside := fun b hb => L.inside b (List.mem_of_mem_erase hb)

theorem mem_remove {L : Ledger ext lo hi} {a b : α} : b ∈ (L.remove a).live ↔ b ≠ a ∧ b ∈ L.live :=
  L.nodup.mem_erase_iff

theorem held_remove {L : Ledger ext lo hi} {a : α} (ha : a ∈ L.live) {i : Nat} :
    (L.remove a).Held i ↔ L.Held i ∧ i ∉ (ext a).cells := by
  constructor
  · rintro ⟨b, hb, hi⟩
    obtain ⟨hne, hb⟩ := mem_remove.1 hb
    exact ⟨⟨b, hb, hi⟩, fun h => hne (eq_of_mem_cells hb ha hi h)⟩
  · rintro ⟨⟨b, hb, hi⟩, hn⟩
    exact ⟨b, mem_remove.2 ⟨fun h => hn (h ▸ hi), hb⟩, hi⟩

/-- What an allocator may do to a ledger: nothing, one new item, or one item given back. -/
inductive Step : Ledger ext lo hi → Ledger ext lo hi → Prop
  | stay (L : Ledger ext lo hi) : Step L L
  | grow (L : Ledger ext lo hi) (a : α) (hfree hin) : Step L (L.insert a hfree hin)
  | shrink (L : Ledger ext lo hi) (a : α) (ha : a ∈ L.live) : Step L (L.remove a)

end

end Ledger
