/-
The open files as a machine of their own. Its state is what each number shows, and what a call gives and leaves is a
function of that state, of the disk and of the call: no memory, no stream and no allocator are part of it. Every
session of a program is a run of this machine, so opens that succeed are numbered one after another and there
are at most as many as there are numbers.
-/
import SimpleMicrokernel.Fs.Apart

namespace SimpleMicrokernel.Fs

open Memory Disk Fat16

/-! ## The machine -/

/-- What each number shows. -/
abbrev OpenFiles := Int → Option View

namespace OpenFiles

@[irreducible] def firstFree (files : OpenFiles) : Option (Fin maxFileDescriptors) :=
    Fin.find? fun i => 1 ≤ i.val ∧ (files i.val).isNone

/-- What is found goes under the first number that is free, at its beginning. -/
def take (files : OpenFiles) : Option Found → Answer × OpenFiles
  | none => (⟨-1, none, []⟩, files)
  | some found => match files.firstFree with
    | none => (⟨-1, none, []⟩, files)
    | some i => (⟨i.val, none, []⟩, Function.update files i.val (some (foundContents found, 0)))

def call (env : Env) (fat16Private : Fat16Private) (root : DirImage) (files : OpenFiles) :
    FileRequest → Except Halt (Answer × OpenFiles)
  | .fopen filename mode => (openFrom env fat16Private root filename mode).map files.take
  | .on fd c => (answer env fat16Private (files fd) c).map fun r => (r.1, Function.update files fd r.2)

/-- A call that stops leaves what is open. -/
def after (files : OpenFiles) : Except Halt (Answer × OpenFiles) → OpenFiles
  | .error _ => files
  | .ok r => r.2

/-- What the calls give one after another, and what is open in the end. -/
def run (env : Env) (fat16Private : Fat16Private) (root : DirImage) : OpenFiles → List FileRequest →
    List Outcome × OpenFiles
  | files, [] => ([], files)
  | files, r :: rs =>
    let x := files.call env fat16Private root r
    let rest := run env fat16Private root (files.after x) rs
    (x.map Prod.fst :: rest.1, rest.2)

end OpenFiles

/-! ## A session is a run of it -/

section
variable {reserved size : Nat} {env : Env} {spent : Halt} {s0 s s' : Sys} {fd : Int} {o : Outcome} {r : FileRequest}

theorem firstFree_shown (s : Sys) : OpenFiles.firstFree (shown s) = firstFree s := by
  unfold OpenFiles.firstFree firstFree
  refine congrArg Fin.find? (funext fun i => ?_)
  by_cases hi : 1 ≤ i.val
  · have hnone : (shown s i.val).isNone = (s.fileDescriptors i).isNone := by
      unfold shown
      rw [slot_val s hi, Option.isNone_map]
    rw [hnone]
  · rw [decide_eq_false fun h => hi h.1, decide_eq_false fun h => hi h.1]

theorem ShowsAt.shown_eq {v : Option View} (h : ShowsAt s s' fd v) : shown s' = Function.update (shown s) fd v := by
  funext x
  by_cases hx : x = fd
  · rw [hx, h.here, Function.update_self]
  · rw [h.others x hx, Function.update_of_ne hx]

/-- A call is a call of the machine. -/
theorem Calls.simulates (hc : Calls env reserved size s0 s r o s') (hnull : StopsOnNull env spent)
    (h : Mounted reserved size s0 s) (hmem : o ≠ .error spent) :
    o = (OpenFiles.call env s0.fat16Private (rootImage s0) (shown s) r).map Prod.fst ∧
      shown s' = OpenFiles.after (shown s) (OpenFiles.call env s0.fat16Private (rootImage s0) (shown s) r) := by
  cases r with
  | fopen filename mode =>
    rw [OpenFiles.call]
    rcases hc.fopen hnull h hmem with ⟨e, hopen, rfl, hslots⟩ | ⟨found, fd, hopen, rfl, hopened⟩
    · rw [hopen]
      exact ⟨rfl, shown_congr hslots⟩
    · rw [hopen]
      show Except.ok (⟨fd, none, []⟩ : Answer) = .ok (OpenFiles.take (shown s) found).1 ∧
        shown s' = (OpenFiles.take (shown s) found).2
      cases found with
      | none =>
        rw [OpenFiles.take]
        obtain ⟨rfl, hslots⟩ := hopened
        exact ⟨rfl, shown_congr hslots⟩
      | some found =>
        rw [OpenFiles.take, firstFree_shown]
        rw [Opened] at hopened
        cases hslot : firstFree s with
        | none =>
          rw [hslot] at hopened
          obtain ⟨rfl, hslots⟩ := hopened
          exact ⟨rfl, shown_congr hslots⟩
        | some i =>
          rw [hslot] at hopened
          obtain ⟨rfl, desc, hslots, hpos, hcontents⟩ := hopened
          have hat := showsAt_update (free_val.1 (firstFree_some hslot).1).1 hslots
          have hview : view desc = (foundContents found, 0) := by
            unfold view
            rw [hpos, hcontents]
          rw [Option.map_some, hview] at hat
          exact ⟨rfl, hat.shown_eq⟩
  | on fd c =>
    obtain ⟨rfl, hat⟩ := hc.on h
    rw [OpenFiles.call, hat.shown_eq]
    cases answer env s0.fat16Private (shown s fd) c with
    | error e => exact ⟨rfl, Function.update_eq_self ..⟩
    | ok r => exact ⟨rfl, rfl⟩

/-- The calls of a session give what the machine gives, whatever the rest of the system is like. -/
theorem Session.simulates (hnull : StopsOnNull env spent) :
    ∀ {events : List Event} {s : Sys}, Mounted reserved size s0 s →
    Session env reserved size s0 s events → (∀ e ∈ events, e.request.Apart (rootArray s0)) →
    (∀ e ∈ events, e.outcome ≠ .error spent) →
    OpenFiles.run env s0.fat16Private (rootImage s0) (shown s) (events.map Event.request) =
      (events.map Event.outcome, shown (final s events))
  | [], s, _, _, _, _ => rfl
  | e :: es, s, hs, ⟨hc, hrun⟩, hapart, hmem => by
    have hs' := hc.mounted hnull hs (hapart e (List.mem_cons_self ..))
    obtain ⟨ho, hshown⟩ := hc.simulates hnull hs (hmem e (List.mem_cons_self ..))
    have ih := Session.simulates hnull hs' hrun (fun e' he => hapart e' (List.mem_cons_of_mem _ he))
      fun e' he => hmem e' (List.mem_cons_of_mem _ he)
    rw [List.map_cons, OpenFiles.run, ← hshown, ih, ← ho]
    rfl

/-! ## Numbers -/

/-- The numbers in use are 1 to `n`. -/
structure OpenFiles.UpTo (files : OpenFiles) (n : Nat) : Prop where
  bound : n < maxFileDescriptors
  used : ∀ fd, (files fd).isSome ↔ 1 ≤ fd ∧ fd ≤ n

variable {files : OpenFiles} {n : Nat} {v : Option View} {fat16Private : Fat16Private} {root : DirImage}

theorem OpenFiles.UpTo.firstFree (h : files.UpTo n) {i : Fin maxFileDescriptors} (hi : files.firstFree = some i) :
    i.val = n + 1 := by
  unfold OpenFiles.firstFree at hi
  obtain ⟨hfree, hbefore⟩ := Fin.find?_eq_some_iff.1 hi
  obtain ⟨h1, hnone⟩ := of_decide_eq_true hfree
  rw [Option.isNone_iff_eq_none] at hnone
  have hunused : ¬ ((1 : Int) ≤ (i.val : Int) ∧ (i.val : Int) ≤ n) := by
    rw [← h.used, hnone]
    decide
  by_contra hne
  have hlt : n + 1 < i.val := by omega
  have hno := hbefore ⟨n + 1, by omega⟩ (Fin.lt_def.2 hlt)
  rw [decide_eq_false_iff_not] at hno
  refine hno ⟨Nat.succ_pos n, ?_⟩
  rw [← Option.not_isSome, Bool.not_eq_true', Bool.eq_false_iff]
  intro hsome
  have hused := (h.used _).1 hsome
  show False
  push_cast at hused
  omega

/-- An open that succeeds gives the next number. -/
theorem OpenFiles.UpTo.take (h : files.UpTo n) (found : Option Found) :
    ((files.take found).1.res = -1 ∧ (files.take found).2 = files) ∨
      ((files.take found).1.res = (n : Int) + 1 ∧ (files.take found).2.UpTo (n + 1)) := by
  cases found with
  | none => exact .inl ⟨rfl, rfl⟩
  | some found =>
    rw [OpenFiles.take]
    cases hslot : files.firstFree with
    | none => exact .inl ⟨rfl, rfl⟩
    | some i =>
      have hi := h.firstFree hslot
      have hlt := i.isLt
      refine .inr ⟨by show (i.val : Int) = n + 1; omega, by omega, fun fd => ?_⟩
      show (Function.update files (i.val : Int) _ fd).isSome ↔ _
      by_cases hfd : fd = i.val
      · rw [hfd, Function.update_self]
        exact iff_of_true rfl (by omega)
      · rw [Function.update_of_ne hfd, h.used]
        omega

/-- A call on a descriptor opens and closes nothing. -/
theorem OpenFiles.UpTo.on (h : files.UpTo n) (fd : Int) (c : DescriptorCall) :
    (OpenFiles.after files (OpenFiles.call env fat16Private root files (.on fd c))).UpTo n := by
  have hsome : viewAfter (files fd) (answer env fat16Private (files fd) c) = none ↔ files fd = none :=
    viewAfter_eq_none ..
  rw [OpenFiles.call]
  cases hr : answer env fat16Private (files fd) c with
  | error e => exact h
  | ok r =>
    rw [hr] at hsome
    refine ⟨h.bound, fun x => ?_⟩
    show (Function.update files fd r.2 x).isSome ↔ _
    by_cases hx : x = fd
    · have hsame : r.2.isSome = (files fd).isSome := by
        rw [Bool.eq_iff_iff, ← not_iff_not, Option.not_isSome_iff_eq_none, Option.not_isSome_iff_eq_none]
        exact hsome
      rw [hx, Function.update_self, hsame, h.used]
    · rw [Function.update_of_ne hx, h.used]

/-- What an event opens is the next number. -/
theorem Calls.numbered {e : Event} (hc : Calls env reserved size s0 s e.request e.outcome e.left)
    (hnull : StopsOnNull env spent) (hs : Mounted reserved size s0 s) (hmem : e.outcome ≠ .error spent)
    (h : OpenFiles.UpTo (shown s) n) :
    (e.opened = none ∧ OpenFiles.UpTo (shown e.left) n) ∨
    (e.opened = some ((n : Int) + 1) ∧ OpenFiles.UpTo (shown e.left) (n + 1)) := by
  obtain ⟨ho, hshown⟩ := hc.simulates hnull hs hmem
  obtain ⟨request, outcome, left⟩ := e
  simp only at ho hshown
  rw [hshown]
  cases request with
  | on fd c => exact .inl ⟨rfl, h.on fd c⟩
  | fopen filename mode =>
    rw [OpenFiles.call] at ho ⊢
    cases hopen : openFrom env s0.fat16Private (rootImage s0) filename mode with
    | error err =>
      rw [hopen] at ho
      subst ho
      exact .inl ⟨rfl, h⟩
    | ok found =>
      rw [hopen] at ho
      subst ho
      have hopened : Event.opened ⟨.fopen filename mode, .ok (OpenFiles.take (shown s) found).1, left⟩ =
          if (OpenFiles.take (shown s) found).1.res = -1 then none else some (OpenFiles.take (shown s) found).1.res :=
            rfl
      rcases h.take found with ⟨hres, hsame⟩ | ⟨hres, hnext⟩
      · refine .inl ⟨?_, ?_⟩
        · exact hopened.trans (if_pos hres)
        · show OpenFiles.UpTo (OpenFiles.take (shown s) found).2 n
          rw [hsame]
          exact h
      · refine .inr ⟨?_, hnext⟩
        rw [hres, if_neg (by omega)] at hopened
        exact hopened

theorem Session.numbered (hnull : StopsOnNull env spent) :
    ∀ {events : List Event} {s : Sys} {n : Nat}, Mounted reserved size s0 s →
    Session env reserved size s0 s events → (∀ e ∈ events, e.request.Apart (rootArray s0)) →
    (∀ e ∈ events, e.outcome ≠ .error spent) →
    OpenFiles.UpTo (shown s) n → ∃ m, n + m < maxFileDescriptors ∧
      events.filterMap Event.opened = (List.range' (n + 1) m).map Int.ofNat
  | [], s, n, _, _, _, _, h => ⟨0, h.bound, rfl⟩
  | e :: es, s, n, hs, ⟨hc, hrun⟩, hapart, hmem, h => by
    have hs' := hc.mounted hnull hs (hapart e (List.mem_cons_self ..))
    have hrest : ∀ {n' : Nat}, OpenFiles.UpTo (shown e.left) n' → ∃ m, n' + m < maxFileDescriptors ∧
        es.filterMap Event.opened = (List.range' (n' + 1) m).map Int.ofNat := fun h' =>
      Session.numbered hnull hs' hrun (fun e' he => hapart e' (List.mem_cons_of_mem _ he))
        (fun e' he => hmem e' (List.mem_cons_of_mem _ he)) h'
    rcases hc.numbered hnull hs (hmem e (List.mem_cons_self ..)) h with ⟨hnone, h'⟩ | ⟨hopened, h'⟩
    · obtain ⟨m, hm, e'⟩ := hrest h'
      exact ⟨m, hm, by rw [List.filterMap_cons_none hnone, e']⟩
    · obtain ⟨m, hm, e'⟩ := hrest h'
      refine ⟨m + 1, by omega, ?_⟩
      rw [List.filterMap_cons_some hopened, e', List.range'_succ]
      rfl

end

end SimpleMicrokernel.Fs
