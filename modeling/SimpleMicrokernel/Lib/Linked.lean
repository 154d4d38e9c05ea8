/-
Doubly linked lists over nodes named in some type. `link a` gives the nodes after and before `a`, none
when there is no node `a`; one name, `null`, is no node's. A segment is a list of nodes linked one
after the other; it is taken apart at any seam, and it reads back as the list from either end.
-/
import Mathlib.Data.List.Rotate

namespace Linked

variable {α : Type*}

/-- The nodes of `l` are linked one after the other, `p` before the first and `q` after the last. -/
def Segment (link : α → Option (α × α)) : α → List α → α → Prop
  | _, [], _ => True
  | p, a :: l, q => link a = some (l.headD q, p) ∧ Segment link a l q

/-- Following a pointer from `a` until it is null goes through `l`. -/
def Follows (step : α → Option α) (null : α) : α → List α → Prop
  | a, [] => a = null
  | a, b :: l => a = b ∧ b ≠ null ∧ ∃ c, step b = some c ∧ Follows step null c l

variable {link link' : α → Option (α × α)} {p q null : α} {l m : List α}

theorem segment_append : Segment link p (l ++ m) q ↔ Segment link p l (m.headD q) ∧
    Segment link (l.getLastD p) m q := by
  induction l generalizing p with
  | nil => exact ⟨fun h => ⟨trivial, h⟩, fun h => h.2⟩
  | cons a l ih =>
    have hhead : (l ++ m).headD q = l.headD (m.headD q) := by
      cases l with
      | nil => rfl
      | cons b l => rfl
    have hlast : (a :: l).getLastD p = l.getLastD a := by
      cases l with
      | nil => rfl
      | cons b l => rfl
    rw [List.cons_append, Segment, Segment, ih, hhead, hlast, and_assoc]

theorem segment_snoc {a : α} : Segment link p (l ++ [a]) q ↔ Segment link p l a ∧ link a = some (q, l.getLastD p) := by
  rw [segment_append]
  exact and_congr_right fun _ => ⟨fun h => h.1, fun h => ⟨h, trivial⟩⟩

theorem Segment.congr (h : Segment link p l q) (he : ∀ a ∈ l, link' a = link a) : Segment link' p l q := by
  induction l generalizing p with
  | nil => trivial
  | cons a l ih =>
    exact ⟨(he a (List.mem_cons_self ..)).trans h.1, ih h.2 fun b hb => he b (List.mem_cons_of_mem _ hb)⟩

/-- What comes after a node, and what comes before it. -/
theorem Segment.link_getElem (h : Segment link p l q) {i : Nat} (hi : i < l.length) :
    link l[i] = some ((l[i + 1]?).getD q, if i = 0 then p else (l[i - 1]?).getD p) := by
  induction l generalizing p i with
  | nil => exact absurd hi (by simp)
  | cons a l ih =>
    cases i with
    | zero =>
      rw [List.getElem_cons_zero, h.1]
      cases l with
      | nil => rfl
      | cons b l => rfl
    | succ i =>
      have hi : i < l.length := Nat.lt_of_succ_lt_succ hi
      rw [List.getElem_cons_succ, ih h.2 hi, List.getElem?_cons_succ]
      cases i with
      | zero => rfl
      | succ i =>
        have hl : i < l.length := by omega
        simp [List.getElem?_eq_getElem hl]

theorem Segment.points (h : Segment link p l q) {a : α} (ha : a ∈ l) :
    ∃ n b, link a = some (n, b) ∧ (n = q ∨ n ∈ l) ∧ (b = p ∨ b ∈ l) := by
  obtain ⟨i, hi, rfl⟩ := List.mem_iff_getElem.1 ha
  refine ⟨_, _, h.link_getElem hi, ?_, ?_⟩
  · cases hn : l[i + 1]? with
    | none => exact .inl rfl
    | some n => exact .inr (List.mem_of_getElem? hn)
  · split
    · exact .inl rfl
    · cases hb : l[i - 1]? with
      | none => exact .inl rfl
      | some b => exact .inr (List.mem_of_getElem? hb)

theorem Segment.follows_next (h : Segment link p l null) (hnull : null ∉ l) :
    Follows (fun a => (link a).map Prod.fst) null (l.headD null) l := by
  induction l generalizing p with
  | nil => rfl
  | cons a l ih =>
    refine ⟨rfl, fun he => hnull (he ▸ List.mem_cons_self ..), l.headD null, ?_,
      ih h.2 fun hm => hnull (List.mem_cons_of_mem _ hm)⟩
    simp only [h.1, Option.map_some]

theorem Segment.follows_prev (h : Segment link null l q) (hnull : null ∉ l) :
    Follows (fun a => (link a).map Prod.snd) null (l.getLastD null) l.reverse := by
  induction l using List.reverseRecOn generalizing q with
  | nil => rfl
  | append_singleton l a ih =>
    obtain ⟨hl, ha⟩ := segment_snoc.1 h
    have hlast : (l ++ [a]).getLastD null = a := List.getLastD_concat ..
    rw [List.reverse_append, hlast]
    refine ⟨rfl, fun he => hnull (he ▸ List.mem_append_right _ (List.mem_singleton_self a)), l.getLastD null, ?_,
      ih hl fun hm => hnull (List.mem_append_left _ hm)⟩
    simp only [ha, Option.map_some]

theorem Segment.push {a : α} (h : Segment link p (l ++ [a]) null) (hnodup : (l ++ [a]).Nodup) {b : α}
    (hb : b ∉ l ++ [a]) (hlink : ∀ c, c ≠ a → c ≠ b → link' c = link c) (ha : link' a = some (b, l.getLastD p))
    (hnew : link' b = some (q, a)) :
    Segment link' p (l ++ [a] ++ [b]) q := by
  obtain ⟨hl, -⟩ := segment_snoc.1 h
  have hal : a ∉ l := fun hm => (List.nodup_append.1 hnodup).2.2 a hm a (List.mem_singleton_self a) rfl
  refine segment_snoc.2 ⟨segment_snoc.2 ⟨hl.congr fun c hc => hlink c ?_ ?_, ha⟩, ?_⟩
  · exact fun he => hal (he ▸ hc)
  · exact fun he => hb (he ▸ List.mem_append_left _ hc)
  · rw [hnew, List.getLastD_concat]

theorem Segment.pop {a b : α} (h : Segment link p (l ++ [a] ++ [b]) q)
    (hlink : ∀ c ∈ l, link' c = link c) (ha : link' a = some (null, l.getLastD p)) :
    Segment link' p (l ++ [a]) null := by
  obtain ⟨hl, -⟩ := segment_snoc.1 (segment_snoc.1 h).1
  exact segment_snoc.2 ⟨hl.congr hlink, ha⟩

end Linked
