/-
Computations over a state that may stop: each step either stops with a reason or gives a value and
a new state. The rules here take a sequence of steps apart and put it together, and carry a
relation between the state before and the state after through a whole computation.
-/
import Mathlib.Data.Set.Basic
import Mathlib.Order.Defs.Unbundled

/-- A computation over `σ` that may stop with a reason in `ε`. -/
abbrev Exec (ε σ α : Type) := StateT σ (Except ε) α

namespace Exec

variable {ε σ α β : Type} {s s' s'' : σ} {a : α} {b : β} {e : ε}

/-! ## One step after another -/

theorem pure_apply (a : α) (s : σ) : (pure a : Exec ε σ α) s = .ok (a, s) := rfl

theorem bind_of_ok {x : Exec ε σ α} {f : α → Exec ε σ β} (h : x s = .ok (a, s')) : (x >>= f) s = f a s' := by
  show (do let (a, s) ← x s; f a s : Except ε (β × σ)) = f a s'
  rw [h]
  rfl

theorem bind_of_error {x : Exec ε σ α} {f : α → Exec ε σ β} (h : x s = .error e) : (x >>= f) s = .error e := by
  show (do let (a, s) ← x s; f a s : Except ε (β × σ)) = .error e
  rw [h]
  rfl

theorem bind_error_iff {x : Exec ε σ α} {f : α → Exec ε σ β} (hf : ∀ a s', x s = .ok (a, s') → f a s' ≠ .error e) :
    (x >>= f) s = .error e ↔ x s = .error e := by
  cases hx : x s with
  | error e' =>
    rw [bind_of_error hx]
    exact ⟨fun h => by rw [Except.error.inj h], fun h => by rw [Except.error.inj h]⟩
  | ok r =>
    obtain ⟨a, s'⟩ := r
    rw [bind_of_ok hx]
    exact iff_of_false (hf a s' hx) fun h => by cases h

/-- A sequence that gave a value gave one at each step. -/
theorem of_bind_ok {x : Exec ε σ α} {f : α → Exec ε σ β} (h : (x >>= f) s = .ok (b, s'')) :
    ∃ a s', x s = .ok (a, s') ∧ f a s' = .ok (b, s'') := by
  cases hx : x s with
  | error e => rw [bind_of_error hx] at h; cases h
  | ok p =>
    obtain ⟨a, s'⟩ := p
    rw [bind_of_ok hx] at h
    exact ⟨a, s', rfl, h⟩

theorem of_pure_ok {a' : α} (h : (pure a : Exec ε σ α) s = .ok (a', s')) : a = a' ∧ s = s' := by
  rw [pure_apply] at h
  cases h
  exact ⟨rfl, rfl⟩

theorem get_apply (s : σ) : (get : Exec ε σ σ) s = .ok (s, s) := rfl

theorem set_apply (s t : σ) : (set t : Exec ε σ PUnit) s = .ok (⟨⟩, t) := rfl

theorem modify_apply (f : σ → σ) (s : σ) : (modify f : Exec ε σ PUnit) s = .ok (⟨⟩, f s) := rfl

theorem throw_apply (e : ε) (s : σ) : (throw e : Exec ε σ α) s = .error e := rfl

theorem of_lift_ok {x : Except ε α} (h : (liftM x : Exec ε σ α) s = .ok (a, s')) : x = .ok a ∧ s = s' := by
  cases x with
  | error e => cases h
  | ok b => cases h; exact ⟨rfl, rfl⟩

/-! ## Going through a list -/

theorem mapM_ok {f : α → Except ε β} {g : α → β} :
    ∀ {l : List α}, (∀ a ∈ l, f a = .ok (g a)) → l.mapM f = .ok (l.map g)
  | [], _ => rfl
  | a :: l, h => by
    rw [List.mapM_cons, h a (List.mem_cons_self ..), mapM_ok fun b hb => h b (List.mem_cons_of_mem _ hb)]
    rfl

theorem mapM_error {f : α → Except ε β} :
    ∀ {l : List α}, (∀ a ∈ l, f a = .error e ∨ ∃ b, f a = .ok b) → (∃ a ∈ l, f a = .error e) → l.mapM f = .error e
  | [], _, ⟨_, ha, _⟩ => by cases ha
  | a :: l, hall, hex => by
    rw [List.mapM_cons]
    rcases hall a (List.mem_cons_self ..) with ha | ⟨b, ha⟩
    · rw [ha]; rfl
    · have hrest : ∃ c ∈ l, f c = .error e := by
        obtain ⟨c, hc, hce⟩ := hex
        rcases List.mem_cons.1 hc with rfl | hc
        · rw [ha] at hce; cases hce
        · exact ⟨c, hc, hce⟩
      rw [ha, mapM_error (fun c hc => hall c (List.mem_cons_of_mem _ hc)) hrest]
      rfl

theorem length_of_mapM_ok {f : α → Except ε β} :
    ∀ {l : List α} {bs : List β}, l.mapM f = .ok bs → bs.length = l.length
  | [], bs, h => by rw [List.mapM_nil] at h; cases h; rfl
  | a :: l, bs, h => by
    rw [List.mapM_cons] at h
    cases ha : f a with
    | error => rw [ha] at h; cases h
    | ok b =>
      cases hl : l.mapM f with
      | error => rw [ha, hl] at h; cases h
      | ok bs' =>
        rw [ha, hl] at h
        cases h
        rw [List.length_cons, List.length_cons, length_of_mapM_ok hl]

theorem bind_ne {x : Except ε α} {f : α → Except ε β} (hx : x ≠ .error e) (hf : ∀ a, f a ≠ .error e) :
    x >>= f ≠ .error e := by
  cases x with
  | error e' => exact fun h => hx (by cases h; rfl)
  | ok a => exact hf a

theorem exists_bind_ok {x : Except ε α} {f : α → Except ε β} (hx : ∃ a, x = .ok a) (hf : ∀ a, ∃ b, f a = .ok b) :
    ∃ b, x >>= f = .ok b := by
  obtain ⟨a, rfl⟩ := hx
  exact hf a

theorem ok_ne (a : α) : (.ok a : Except ε α) ≠ .error e := fun h => by cases h

theorem mapM_ne {f : α → Except ε β} : ∀ {l : List α}, (∀ a ∈ l, f a ≠ .error e) → l.mapM f ≠ .error e
  | [], _ => ok_ne _
  | a :: l, h => by
    rw [List.mapM_cons]
    refine bind_ne (h a (List.mem_cons_self ..)) fun b => ?_
    exact bind_ne (mapM_ne fun b hb => h b (List.mem_cons_of_mem _ hb)) fun bs => ok_ne _

theorem mapM_congr {f g : α → Except ε β} : ∀ {l : List α}, (∀ a ∈ l, f a = g a) → l.mapM f = l.mapM g
  | [], _ => rfl
  | a :: l, h => by
    rw [List.mapM_cons, List.mapM_cons, h a (List.mem_cons_self ..),
      mapM_congr fun b hb => h b (List.mem_cons_of_mem _ hb)]

theorem getElem?_of_mapM_ok {f : α → Except ε β} :
    ∀ {l : List α} {bs : List β}, l.mapM f = .ok bs → ∀ {i : Nat} {a : α}, l[i]? = some a → ∃ b, f a = .ok b ∧
    bs[i]? = some b
  | [], _, _, _, _, hi => by rw [List.getElem?_nil] at hi; cases hi
  | a :: l, bs, h, i, c, hi => by
    rw [List.mapM_cons] at h
    cases ha : f a with
    | error => rw [ha] at h; cases h
    | ok b =>
      cases hl : l.mapM f with
      | error => rw [ha, hl] at h; cases h
      | ok bs' =>
        rw [ha, hl] at h
        cases h
        cases i with
        | zero => cases hi; exact ⟨b, ha, rfl⟩
        | succ i => exact getElem?_of_mapM_ok hl hi

theorem exists_mapM_ok {f : α → Except ε β} :
    ∀ {l : List α}, (∀ a ∈ l, ∃ b, f a = .ok b) → ∃ bs, l.mapM f = .ok bs
  | [], _ => ⟨[], rfl⟩
  | a :: l, h => by
    obtain ⟨b, hb⟩ := h a (List.mem_cons_self ..)
    obtain ⟨bs, hbs⟩ := exists_mapM_ok fun c hc => h c (List.mem_cons_of_mem _ hc)
    exact ⟨b :: bs, by rw [List.mapM_cons, hb, hbs]; rfl⟩

/-! ## A relation kept by every computation that does not stop -/

/-- Whatever value the computation gives, it moves the state along `R`. -/
def Keeps (R : σ → σ → Prop) (x : Exec ε σ α) : Prop := ∀ s a s', x s = .ok (a, s') → R s s'

variable {R : σ → σ → Prop} {x : Exec ε σ α} {f : α → Exec ε σ β}

theorem keeps_pure [Std.Refl R] (a : α) : Keeps R (pure a : Exec ε σ α) := by
  intro s b s' h
  obtain ⟨-, rfl⟩ := of_pure_ok h
  exact refl s

theorem keeps_throw (e : ε) : Keeps R (throw e : Exec ε σ α) := by
  intro s a s' h
  rw [throw_apply] at h
  cases h

theorem keeps_lift [Std.Refl R] (x : Except ε α) : Keeps R (liftM x : Exec ε σ α) := by
  intro s a s' h
  obtain ⟨-, rfl⟩ := of_lift_ok h
  exact refl s

theorem keeps_get [Std.Refl R] : Keeps R (get : Exec ε σ σ) := by
  intro s a s' h
  rw [get_apply] at h
  cases h
  exact refl s

theorem keeps_modify {g : σ → σ} (h : ∀ s, R s (g s)) : Keeps R (modify g : Exec ε σ PUnit) := by
  intro s a s' hs
  rw [modify_apply] at hs
  cases hs
  exact h s

theorem keeps_bind [IsTrans σ R] (hx : Keeps R x) (hf : ∀ a, Keeps R (f a)) : Keeps R (x >>= f) := by
  intro s b s'' h
  obtain ⟨a, s', h1, h2⟩ := of_bind_ok h
  exact IsTrans.trans _ _ _ (hx s a s' h1) (hf a s' b s'' h2)

theorem keeps_ite {p : Prop} [Decidable p] {y : Exec ε σ α} (hx : Keeps R x) (hy : Keeps R y) :
    Keeps R (if p then x else y) := by
  split
  · exact hx
  · exact hy

/-! ## A computation that does not stop for one reason -/

/-- From a state with `P` the computation does not stop with `e`, and the state it comes to has `Q`. -/
def Avoids (e : ε) (P : σ → Prop) (x : Exec ε σ α) (Q : σ → Prop) : Prop :=
  ∀ s, P s → x s ≠ .error e ∧ ∀ a s', x s = .ok (a, s') → Q s'

section
variable {P Q T : σ → Prop}

theorem avoids_pure (a : α) : Avoids e P (pure a : Exec ε σ α) P := by
  refine fun s hs => ⟨fun h => ?_, fun b s' h => ?_⟩
  · cases h
  · obtain ⟨-, rfl⟩ := of_pure_ok h
    exact hs

theorem avoids_throw {e' : ε} (h : e' ≠ e) : Avoids e P (throw e' : Exec ε σ α) Q := by
  refine fun s _ => ⟨fun he => ?_, fun a s' he => ?_⟩
  · rw [throw_apply] at he
    cases he
    exact h rfl
  · rw [throw_apply] at he
    cases he

theorem avoids_lift {x : Except ε α} (h : x ≠ .error e) : Avoids e P (liftM x : Exec ε σ α) P := by
  refine fun s hs => ⟨fun he => ?_, fun a s' he => ?_⟩
  · cases x with
    | error e' =>
      cases he
      exact h rfl
    | ok a => cases he
  · obtain ⟨-, rfl⟩ := of_lift_ok he
    exact hs

theorem avoids_modify {g : σ → σ} (h : ∀ s, P s → Q (g s)) : Avoids e P (modify g : Exec ε σ PUnit) Q := by
  refine fun s hs => ⟨fun he => ?_, fun a s' he => ?_⟩
  · rw [modify_apply] at he
    cases he
  · rw [modify_apply] at he
    cases he
    exact h s hs

theorem Avoids.bind (hx : Avoids e P x Q) (hf : ∀ a, Avoids e Q (f a) T) : Avoids e P (x >>= f) T := by
  refine fun s hs => ⟨fun h => ?_, fun b s'' h => ?_⟩
  · obtain ⟨hno, hkeep⟩ := hx s hs
    cases hv : x s with
    | error e' =>
      rw [bind_of_error hv] at h
      cases h
      exact hno hv
    | ok r =>
      obtain ⟨a, s'⟩ := r
      rw [bind_of_ok hv] at h
      exact (hf a s' (hkeep a s' hv)).1 h
  · obtain ⟨a, s', h1, h2⟩ := of_bind_ok h
    exact (hf a s' ((hx s hs).2 a s' h1)).2 b s'' h2

theorem avoids_get_bind {f : σ → Exec ε σ β} (h : ∀ s, P s → Avoids e P (f s) Q) : Avoids e P (get >>= f) Q := by
  intro s hs
  rw [bind_of_ok (get_apply s)]
  exact h s hs s hs

theorem avoids_lift_bind {x : Except ε α} {f : α → Exec ε σ β} (hx : x = .ok a) (hf : Avoids e P (f a) Q) :
    Avoids e P ((liftM x : Exec ε σ α) >>= f) Q := by
  subst hx
  intro s hs
  have he : (liftM (.ok a : Except ε α) : Exec ε σ α) s = .ok (a, s) := rfl
  rw [bind_of_ok he]
  exact hf s hs

theorem avoids_ite {p : Prop} [Decidable p] {y : Exec ε σ α} (hx : p → Avoids e P x Q) (hy : ¬ p → Avoids e P y Q) :
    Avoids e P (if p then x else y) Q := by
  split
  · rename_i h
    exact hx h
  · rename_i h
    exact hy h

end

/-! ## A computation whose value is known beforehand -/

/-- In the state `s` the computation stops or gives a value as `v` says, and moves along `R`. -/
def Gives (R : σ → σ → Prop) (x : Exec ε σ α) (s : σ) (v : Except ε α) : Prop :=
  match v with
  | .error e => x s = .error e
  | .ok a => ∃ s', R s s' ∧ x s = .ok (a, s')

theorem gives_error (h : x s = .error e) : Gives R x s (.error e) := h

theorem gives_pure [Std.Refl R] (a : α) (s : σ) : Gives R (pure a : Exec ε σ α) s (.ok a) := ⟨s, refl s, rfl⟩

theorem Gives.start [IsTrans σ R] {y : Exec ε σ α} {v : Except ε α} (h : x s = y s') (hR : R s s')
    (hy : Gives R y s' v) :
    Gives R x s v := by
  cases v with
  | error e => exact h.trans hy
  | ok a =>
    obtain ⟨s'', hR', e⟩ := hy
    exact ⟨s'', IsTrans.trans _ _ _ hR hR', h.trans e⟩

/-- What follows is looked at in the states it can start in. -/
theorem Gives.bind [IsTrans σ R] {v : Except ε α} {w : α → Except ε β} (hx : Gives R x s v)
    (hf : ∀ a s', v = .ok a → R s s' → Gives R (f a) s' (w a)) : Gives R (x >>= f) s (v >>= w) := by
  cases v with
  | error e => exact bind_of_error hx
  | ok a =>
    obtain ⟨s', hR, e⟩ := hx
    have hrest := hf a s' rfl hR
    show Gives R (x >>= f) s (w a)
    cases hw : w a with
    | error e' =>
      rw [hw] at hrest
      exact (bind_of_ok e).trans hrest
    | ok b =>
      rw [hw] at hrest
      obtain ⟨s'', hR', e'⟩ := hrest
      exact ⟨s'', IsTrans.trans _ _ _ hR hR', (bind_of_ok e).trans e'⟩

/-! ## A computation that follows a value up to two reasons to stop -/

/-- In the state `s` the computation stops as `v` does, or its value and state stand to the value of `v` as
`Q` says. It may stop with `spent` instead, and nothing is said of it when `v` stops with `out`. -/
def Follows (out spent : ε) (Q : σ → α → β → Prop) (x : Exec ε σ α) (s : σ) (v : Except ε β) : Prop :=
  v = .error out ∨ x s = .error spent ∨
    match v with
    | .error e => x s = .error e
    | .ok b => ∃ a s', x s = .ok (a, s') ∧ Q s' a b

section
variable {γ δ : Type} {out spent : ε} {Q : σ → α → γ → Prop} {T : σ → β → δ → Prop} {v : Except ε γ}
    {w : γ → Except ε δ}

theorem follows_ok {c : γ} (hx : x s = .ok (a, s')) (hq : Q s' a c) : Follows out spent Q x s (.ok c) :=
    .inr (.inr ⟨a, s', hx, hq⟩)

theorem follows_error (hx : x s = .error e) : Follows out spent Q x s (.error e) := .inr (.inr hx)

theorem follows_spent (hx : x s = .error spent) : Follows out spent Q x s v := .inr (.inl hx)

theorem follows_out : Follows out spent Q x s (.error out) := .inl rfl

theorem follows_pure {c : γ} (hq : Q s a c) : Follows out spent Q (pure a) s (.ok c) := follows_ok (pure_apply a s) hq

theorem Gives.follows {v : Except ε α} (h : Gives R x s v) :
    Follows out spent (fun s' a c => R s s' ∧ a = c) x s v := by
  cases v with
  | error e => exact follows_error h
  | ok a =>
    obtain ⟨s', hR, hx⟩ := h
    exact follows_ok hx ⟨hR, rfl⟩

theorem Follows.start {y : Exec ε σ α} (h : x s = y s') (hy : Follows out spent Q y s' v) :
    Follows out spent Q x s v := by
  unfold Follows at hy ⊢
  rw [h]
  exact hy

theorem Follows.bind {f : α → Exec ε σ β} (hx : Follows out spent Q x s v)
    (hf : ∀ a s' c, x s = .ok (a, s') → v = .ok c → Q s' a c → Follows out spent T (f a) s' (w c)) :
    Follows out spent T (x >>= f) s (v >>= w) := by
  rcases hx with rfl | hspent | hx
  · exact follows_out
  · exact follows_spent (bind_of_error hspent)
  · cases v with
    | error e => exact follows_error (bind_of_error hx)
    | ok c =>
      obtain ⟨a, s', h1, hq⟩ := hx
      exact (hf a s' c h1 rfl hq).start (bind_of_ok h1)

/-- A first step that may only stop with `spent`, and whose value `v` does without. -/
theorem follows_bind {f : α → Exec ε σ β} {u : Except ε δ} (hx : ∀ e, x s = .error e → e = spent)
    (hf : ∀ a s', x s = .ok (a, s') → Follows out spent T (f a) s' u) : Follows out spent T (x >>= f) s u := by
  cases h : x s with
  | error e =>
    rw [hx e h] at h
    exact follows_spent (bind_of_error h)
  | ok r =>
    obtain ⟨a, s'⟩ := r
    exact (hf a s' h).start (bind_of_ok h)

theorem follows_lift_bind {x : Except ε α} {f : α → Exec ε σ β} {w : α → Except ε δ}
    (hf : ∀ a, x = .ok a → Follows out spent T (f a) s (w a)) :
    Follows out spent T ((liftM x : Exec ε σ α) >>= f) s (x >>= w) := by
  cases x with
  | error e => exact follows_error rfl
  | ok a => exact (hf a rfl).start (bind_of_ok rfl)

end

/-! ## Runs of calls that may stop -/

section
variable {ι : Type}

/-- `P` holds of every call of the run, at the state before it; a run ends with a call that stops. -/
def AlongRun (call : ι → Exec ε σ α) (P : σ → ι → Prop) : σ → List ι → Prop
  | _, [] => True
  | s, i :: is => P s i ∧ ∀ a s', call i s = .ok (a, s') → AlongRun call P s' is

variable {call : ι → Exec ε σ α} {P C : σ → ι → Prop} {I : σ → Prop}

/-- A condition that holds of the calls from every state an invariant allows holds along the run. -/
theorem alongRun_of (hstep : ∀ s i, I s → P s i) (hkeep : ∀ s i a s', I s → call i s = .ok (a, s') → I s') :
    ∀ {s : σ} {is : List ι}, I s → AlongRun call P s is
  | _, [], _ => trivial
  | s, i :: _, hi => ⟨hstep s i hi, fun a s' h => alongRun_of hstep hkeep (hkeep s i a s' hi h)⟩

theorem alongRun_congr (hstep : ∀ s i, I s → (P s i ↔ C s i))
    (hkeep : ∀ s i a s', I s → P s i → call i s = .ok (a, s') → I s') :
    ∀ {s : σ} {is : List ι}, I s → (AlongRun call P s is ↔ AlongRun call C s is)
  | _, [], _ => Iff.rfl
  | s, i :: is, hi => by
    rw [AlongRun, AlongRun, ← hstep s i hi]
    refine and_congr_right fun hp => forall_congr' fun a => forall_congr' fun s' => forall_congr' fun h => ?_
    exact alongRun_congr hstep hkeep (hkeep s i a s' hi hp h)

end

end Exec
