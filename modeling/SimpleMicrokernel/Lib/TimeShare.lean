/-
Machines that take turns on one processor. They wait in a queue in the order they were started; the one whose
turn it is acts, on its own state; and the turn goes on to the next of the queue, after the last to the first.
A run leaves every machine where its own actions alone take it (`Steps.machine`), and no machine waits for more
turns than there are others (`Steps.served`).
-/
import Mathlib.Data.List.Cycle
import Mathlib.Logic.Function.Basic

namespace TimeShare

variable {ι σ α : Type*}

/-- Machines with states in `σ`, under names in `ι`. -/
structure Shared (ι σ : Type*) where
  queue : List ι
  current : Option ι
  machine : ι → Option σ

inductive Event (ι σ α : Type*) where
  /-- One more machine, at the end of the queue. -/
  | start (i : ι) (s : σ)
  /-- The machine whose turn it is acts. -/
  | act (a : α)
  | turn
  /-- The turn goes to the first of the queue. -/
  | first

/-- An event, and whose turn it was. -/
abbrev Entry (ι σ α : Type*) := Option ι × Event ι σ α

section
variable [DecidableEq ι] (act : σ → α → Option σ)

inductive Step : Shared ι σ → Event ι σ α → Shared ι σ → Prop where
  | start {w : Shared ι σ} {i : ι} {s : σ} : i ∉ w.queue → Step w (.start i s)
      { queue := w.queue ++ [i], current := some (w.current.getD i), machine := Function.update w.machine i (some s) }
  | act {w : Shared ι σ} {i : ι} {s s' : σ} {a : α} : w.current = some i → w.machine i = some s → act s a = some s' →
      Step w (.act a) { w with machine := Function.update w.machine i (some s') }
  | turn {w : Shared ι σ} {i : ι} (h : i ∈ w.queue) : w.current = some i →
      Step w .turn { w with current := some (w.queue.next i h) }
  | first {w : Shared ι σ} {i : ι} : w.queue.head? = some i → Step w .first { w with current := some i }

inductive Steps : Shared ι σ → List (Entry ι σ α) → Shared ι σ → Prop where
  | nil (w : Shared ι σ) : Steps w [] w
  | cons {w w1 w' : Shared ι σ} {e : Event ι σ α} {es : List (Entry ι σ α)} : Step act w e w1 → Steps w1 es w' →
      Steps w ((w.current, e) :: es) w'

/-- The machines are those of the queue, and the turn is one's of them. -/
structure Shared.Ok (w : Shared ι σ) : Prop where
  nodup : w.queue.Nodup
  named : ∀ i, (w.machine i).isSome ↔ i ∈ w.queue
  current : ∀ i, w.current = some i → i ∈ w.queue

variable {act} {w w' : Shared ι σ} {e : Event ι σ α} {es fs : List (Entry ι σ α)} {i : ι} {s : σ}

theorem steps_one (h : Step act w e w') : Steps act w [(w.current, e)] w' := .cons h (.nil w')

theorem Steps.append {w1 : Shared ι σ} (h : Steps act w es w1) (h' : Steps act w1 fs w') :
    Steps act w (es ++ fs) w' := by
  induction h with
  | nil w => exact h'
  | cons hs _ ih => exact .cons hs (ih h')

theorem isSome_update {f : ι → Option σ} (hi : (f i).isSome) (j : ι) : (Function.update f i (some s) j).isSome ↔
    (f j).isSome := by
  by_cases hj : j = i
  · subst hj
    rw [Function.update_self]
    exact iff_of_true rfl hi
  · rw [Function.update_of_ne hj]

/-- A machine that was started stays in the queue. -/
theorem Step.mem_queue (h : Step act w e w') (hi : i ∈ w.queue) : i ∈ w'.queue := by
  cases h with
  | start _ => exact List.mem_append_left _ hi
  | act _ _ _ => exact hi
  | turn _ _ => exact hi
  | first _ => exact hi

theorem Step.ok (hw : w.Ok) (h : Step act w e w') : w'.Ok := by
  cases h with
  | @start i s hi =>
    refine ⟨?_, fun j => ?_, fun j hj => ?_⟩
    · exact List.nodup_append.2 ⟨hw.nodup, List.nodup_singleton i, fun a ha b hb => by
        rw [List.mem_singleton.1 hb]
        exact fun he => hi (he ▸ ha)⟩
    · show (Function.update w.machine i (some s) j).isSome ↔ j ∈ w.queue ++ [i]
      by_cases hj : j = i
      · subst hj
        rw [Function.update_self]
        exact iff_of_true rfl (List.mem_append_right _ (List.mem_singleton_self j))
      · rw [Function.update_of_ne hj, hw.named, List.mem_append, List.mem_singleton]
        exact ⟨.inl, fun h => h.resolve_right hj⟩
    · cases hc : w.current with
      | none =>
        rw [hc] at hj
        cases hj
        exact List.mem_append_right _ (List.mem_singleton_self _)
      | some c =>
        rw [hc] at hj
        cases hj
        exact List.mem_append_left _ (hw.current _ hc)
  | @act i s s' a hc hs ha =>
    refine ⟨hw.nodup, fun j => ?_, hw.current⟩
    exact (isSome_update (by rw [hs]; rfl) j).trans (hw.named j)
  | turn hi hc =>
    refine ⟨hw.nodup, hw.named, fun j hj => ?_⟩
    cases hj
    exact List.next_mem _ _ hi
  | first hi =>
    refine ⟨hw.nodup, hw.named, fun j hj => ?_⟩
    cases hj
    exact List.mem_of_head? hi

/-! ## What a machine did -/

/-- The action of a machine that an event of a run is. -/
def actOf (i : ι) : Entry ι σ α → Option α
  | (some j, .act a) => if j = i then some a else none
  | _ => none

/-- The actions of a machine in a run. -/
def acts (i : ι) (es : List (Entry ι σ α)) : List α := es.filterMap (actOf i)

theorem acts_append (i : ι) (es fs : List (Entry ι σ α)) : acts i (es ++ fs) = acts i es ++ acts i fs :=
    List.filterMap_append

/-- A step leaves a machine where its own action takes it. -/
theorem Step.machine (hw : w.Ok) (h : Step act w e w') (hi : w.machine i = some s) :
    w'.machine i = (actOf i (w.current, e)).elim (some s) (act s) := by
  cases h with
  | @start j s' hj =>
    have hne : i ≠ j := fun he => hj ((hw.named j).1 (by rw [← he, hi]; rfl))
    have hnone : actOf i (w.current, (Event.start j s' : Event ι σ α)) = none := by cases w.current <;> rfl
    rw [hnone]
    exact (Function.update_of_ne hne ..).trans hi
  | @act j s1 s2 a hc hs ha =>
    rw [hc]
    show Function.update w.machine j (some s2) i = (if j = i then some a else none : Option α).elim (some s) (act s)
    by_cases hij : j = i
    · subst hij
      rw [hs] at hi
      cases hi
      rw [Function.update_self, if_pos rfl]
      exact ha.symm
    · rw [Function.update_of_ne (Ne.symm hij), if_neg hij]
      exact hi
  | turn hj hc =>
    rw [hc]
    exact hi
  | first hj =>
    have hnone : actOf i (w.current, (Event.first : Event ι σ α)) = none := by cases w.current <;> rfl
    rw [hnone]
    exact hi

/-- A run leaves a machine where its own actions take it, whatever the others do in between. -/
theorem Steps.machine (h : Steps act w es w') (hw : w.Ok) (hi : w.machine i = some s) :
    w'.machine i = (acts i es).foldlM act s := by
  induction h generalizing s with
  | nil w => exact hi
  | @cons w w1 w' e es hs hrun ih =>
    have hstep := hs.machine hw hi
    have hok := hs.ok hw
    unfold acts
    rw [List.filterMap_cons]
    cases ha : actOf i (w.current, e) with
    | none =>
      rw [ha] at hstep
      exact ih hok hstep
    | some a =>
      rw [ha] at hstep
      have hstep : w1.machine i = act s a := hstep
      cases hs' : act s a with
      | none =>
        have hsome := (hok.named i).2 (hs.mem_queue ((hw.named i).1 (by rw [hi]; rfl)))
        rw [hstep, hs'] at hsome
        cases hsome
      | some s' =>
        rw [hs'] at hstep
        show _ = (act s a).bind fun s' => (acts i es).foldlM act s'
        rw [hs']
        exact ih hok hstep

theorem Steps.ok (h : Steps act w es w') (hw : w.Ok) : w'.Ok := by
  induction h with
  | nil w => exact hw
  | cons hs _ ih => exact ih (hs.ok hw)

/-! ## Waiting -/

/-- How many turns there are in a run. -/
def turns : List (Entry ι σ α) → Nat
  | [] => 0
  | (_, .turn) :: es => turns es + 1
  | _ :: es => turns es

omit [DecidableEq ι] in
theorem turns_append (es fs : List (Entry ι σ α)) : turns (es ++ fs) = turns es + turns fs := by
  induction es with
  | nil => exact (Nat.zero_add _).symm
  | cons e es ih =>
    obtain ⟨c, ev⟩ := e
    cases ev with
    | turn =>
      show turns (es ++ fs) + 1 = turns es + 1 + turns fs
      omega
    | start i s => exact ih
    | act x => exact ih
    | first => exact ih

/-- No event of a run gives the turn to the first of the queue. -/
def NoFirst (es : List (Entry ι σ α)) : Prop := ∀ c, (c, Event.first) ∉ es

/-- How many turns a machine may have to wait for, with at most `n` machines, when it is `j`'s turn. -/
def distance (l : List ι) (n : Nat) (j i : ι) : Nat :=
  if l.idxOf j ≤ l.idxOf i then l.idxOf i - l.idxOf j else n + l.idxOf i - l.idxOf j

theorem distance_append {l : List ι} {n : Nat} {i j x : ι} (hi : i ∈ l) (hj : j ∈ l) :
    distance (l ++ [x]) n j i = distance l n j i := by
  unfold distance
  rw [List.idxOf_append_of_mem hi, List.idxOf_append_of_mem hj]

theorem distance_lt {l : List ι} {n : Nat} {i j : ι} (hi : i ∈ l) (hn : l.length ≤ n) : distance l n j i < n := by
  have := List.idxOf_lt_length_of_mem hi
  unfold distance
  split <;> omega

theorem eq_of_distance {l : List ι} {n : Nat} {i j : ι} (hi : i ∈ l) (hj : j ∈ l) (hn : l.length ≤ n)
    (h : distance l n j i = 0) : j = i := by
  have h1 := List.idxOf_lt_length_of_mem hi
  have h2 := List.idxOf_lt_length_of_mem hj
  unfold distance at h
  refine (List.idxOf_inj hj).1 ?_
  split at h <;> omega

theorem distance_next {l : List ι} {n : Nat} {i j : ι} (hl : l.Nodup) (hi : i ∈ l) (hj : j ∈ l) (hn : l.length ≤ n)
    (hne : j ≠ i) :
    distance l n (l.next j hj) i + 1 ≤ distance l n j i := by
  have h1 := List.idxOf_lt_length_of_mem hi
  have h2 := List.idxOf_lt_length_of_mem hj
  have h3 : l.idxOf j ≠ l.idxOf i := fun he => hne ((List.idxOf_inj hj).1 he)
  have hnext : l.idxOf (l.next j hj) = (l.idxOf j + 1) % l.length := by
    rw [List.next_eq_getElem hj, hl.idxOf_getElem]
  unfold distance
  rw [hnext]
  by_cases hlast : l.idxOf j + 1 = l.length
  · rw [hlast, Nat.mod_self]
    split <;> split <;> omega
  · rw [Nat.mod_eq_of_lt (by omega)]
    split <;> split <;> omega

/-- A machine whose turn it never is comes nearer with every turn. -/
theorem Steps.nearer (h : Steps act w es w') (hw : w.Ok) (hi : i ∈ w.queue) {n : Nat} (hn : w'.queue.length ≤ n) {j : ι}
    (hc : w.current = some j) (hfirst : NoFirst es) (hnot : ∀ e ∈ es, e.1 ≠ some i) :
    ∃ j', w'.current = some j' ∧ i ∈ w'.queue ∧ w.queue.length ≤ w'.queue.length ∧
      distance w'.queue n j' i + turns es ≤ distance w.queue n j i := by
  induction h generalizing j with
  | nil w => exact ⟨j, hc, hi, Nat.le_refl _, Nat.le_refl _⟩
  | @cons w w1 w' e es hs hrun ih =>
    have hok := hs.ok hw
    have hj := hw.current j hc
    have hfirst' : NoFirst es := fun c hm => hfirst c (List.mem_cons_of_mem _ hm)
    have hnot' : ∀ e ∈ es, e.1 ≠ some i := fun e hm => hnot e (List.mem_cons_of_mem _ hm)
    have hne : j ≠ i := fun he => hnot _ (List.mem_cons_self ..) (by rw [hc, he])
    cases hs with
    | @start x s hx =>
      obtain ⟨j', hc', hi', hlen, hd⟩ := ih hok (List.mem_append_left _ hi) hn (j := j) (by rw [hc]; rfl) hfirst' hnot'
      rw [List.length_append] at hlen
      rw [distance_append hi hj] at hd
      exact ⟨j', hc', hi', by omega, hd⟩
    | act h1 h2 h3 => exact ih hok hi hn hc hfirst' hnot'
    | @turn x hx hxc =>
      rw [hc] at hxc
      cases hxc
      obtain ⟨j', hc', hi', hlen, hd⟩ := ih hok hi hn rfl hfirst' hnot'
      have hd : distance w'.queue n j' i + turns es ≤ distance w.queue n (w.queue.next j hx) i := hd
      have hnext := distance_next hw.nodup hi hx (Nat.le_trans hlen hn) hne
      refine ⟨j', hc', hi', hlen, ?_⟩
      show distance w'.queue n j' i + (turns es + 1) ≤ _
      omega
    | first hx => exact absurd (List.mem_cons_self ..) (hfirst w.current)

/-- With at most `n` machines, one of them has its turn before `n - 1` turns are over. -/
theorem Steps.served (h : Steps act w es w') (hw : w.Ok) (hi : i ∈ w.queue) {n : Nat} (hn : w'.queue.length ≤ n) {j : ι}
    (hc : w.current = some j) (hfirst : NoFirst es) (hturns : n ≤ turns es + 1) :
    (∃ e ∈ es, e.1 = some i) ∨ w'.current = some i := by
  by_contra hno
  rw [not_or] at hno
  obtain ⟨hnot, hlast⟩ := hno
  obtain ⟨j', hc', hi', hlen, hd⟩ := h.nearer hw hi hn hc hfirst fun e he hei => hnot ⟨e, he, hei⟩
  have hlt := distance_lt (j := j) hi (Nat.le_trans hlen hn)
  have hj' : j' = i := eq_of_distance hi' ((h.ok hw).current j' hc') hn (by omega)
  exact hlast (hj' ▸ hc')

end

end TimeShare
