/-
What path resolution is for: the lookup of each part in turn, from the root directory on, as long
as each part but the last is a directory that was loaded, and nothing otherwise. The code is this
lookup exactly when no part between the first and the last is missing and no directory before the
last part failed to load; there it reads through the null pointer it was given.
-/
import SimpleMicrokernel.Fat16.Directory

namespace SimpleMicrokernel.Fat16

open Memory Fs

/-- The parts looked up one after another in the item found before, nothing for an item that is not
a loaded directory. An item is given back once the next part was looked up in it. -/
def lookupFrom (env : Env) : List (List Byte) → Option (Ptr FatItem) → FsM (Option (Ptr FatItem))
  | [], item => return item
  | part :: next, some ⟨addr, .directory (some directory)⟩ => do
    let item ← fat16FindItemInDirectory env (some directory.val) part
    fat16FatItemFree ⟨addr, .directory (some directory)⟩
    lookupFrom env next item
  | _ :: _, _ => return none

/-- The lookup of a path, its first part in the root directory. -/
def lookup (env : Env) (part : List Byte) (next : List (List Byte)) : FsM (Option (Ptr FatItem)) := do
  let item ← fat16FindItemInDirectory env (some (← get).fat16Private.rootDirectory) part
  lookupFrom env next item

/-- What a computation gives, without the state after it. -/
def outcome {α : Type} (x : FsM α) (s : Sys) : Except Halt α := (x s).map Prod.fst

/-- Where a lookup of parts comes to. -/
abbrev LookupTo := List (List Byte) → Except Halt (Option (Ptr FatItem) × Sys)

/-- The lookup comes to a directory that is not loaded, with parts left to look up. -/
def MeetsUnloaded (walk : LookupTo) (next : List (List Byte)) : Prop :=
  ∃ done part rest addr s, next = done ++ part :: rest ∧ walk done = .ok (some ⟨addr, .directory none⟩, s)

/-- The lookup comes to a loaded directory in which the next part is missing, with parts left to look
up after it. -/
def MissesMiddle (env : Env) (walk : LookupTo) (next : List (List Byte)) : Prop :=
  ∃ done part part' rest addr directory s s', next = done ++ part :: part' :: rest ∧
    walk done = .ok (some ⟨addr, .directory (some directory)⟩, s) ∧
    fat16FindItemInDirectory env (some directory.val) part s = .ok (none, s')

/-! ## What is in the way -/

section
variable {env : Env} {walk : LookupTo} {part : List Byte} {next : List (List Byte)}

theorem not_meetsUnloaded_nil : ¬ MeetsUnloaded walk [] := by
  rintro ⟨done, part, rest, addr, s, h, -⟩
  exact List.append_ne_nil_of_right_ne_nil done (List.cons_ne_nil part rest) h.symm

theorem not_missesMiddle_nil : ¬ MissesMiddle env walk [] := by
  rintro ⟨done, part, part', rest, addr, directory, s, s', h, -⟩
  exact List.append_ne_nil_of_right_ne_nil done (List.cons_ne_nil part (part' :: rest)) h.symm

theorem not_meetsUnloaded (h : ∀ done addr d s, walk done ≠ .ok (some ⟨addr, .directory d⟩, s))
    (next : List (List Byte)) :
    ¬ MeetsUnloaded walk next := by
  rintro ⟨done, part, rest, addr, s, -, hto⟩
  exact h done addr none s hto

theorem not_missesMiddle (h : ∀ done addr d s, walk done ≠ .ok (some ⟨addr, .directory d⟩, s))
    (next : List (List Byte)) :
    ¬ MissesMiddle env walk next := by
  rintro ⟨done, part, part', rest, addr, directory, s, s', -, hto, -⟩
  exact h done addr (some directory) s hto

theorem meetsUnloaded_cons : MeetsUnloaded walk (part :: next) ↔
    (∃ addr s, walk [] = .ok (some ⟨addr, .directory none⟩, s)) ∨
    MeetsUnloaded (fun done => walk (part :: done)) next := by
  constructor
  · rintro ⟨done, part', rest, addr, s, h, hto⟩
    cases done with
    | nil => exact .inl ⟨addr, s, hto⟩
    | cons p done =>
      cases h
      exact .inr ⟨done, part', rest, addr, s, rfl, hto⟩
  · rintro (⟨addr, s, hto⟩ | ⟨done, part', rest, addr, s, rfl, hto⟩)
    · exact ⟨[], part, next, addr, s, rfl, hto⟩
    · exact ⟨part :: done, part', rest, addr, s, rfl, hto⟩

theorem missesMiddle_cons : MissesMiddle env walk (part :: next) ↔
    (next ≠ [] ∧ ∃ addr directory s s', walk [] = .ok (some ⟨addr, .directory (some directory)⟩, s) ∧
      fat16FindItemInDirectory env (some directory.val) part s = .ok (none, s')) ∨
    MissesMiddle env (fun done => walk (part :: done)) next := by
  constructor
  · rintro ⟨done, part', part'', rest, addr, directory, s, s', h, hto, hmiss⟩
    cases done with
    | nil =>
      cases h
      exact .inl ⟨List.cons_ne_nil _ _, addr, directory, s, s', hto, hmiss⟩
    | cons p done =>
      cases h
      exact .inr ⟨done, part', part'', rest, addr, directory, s, s', rfl, hto, hmiss⟩
  · rintro (⟨hne, addr, directory, s, s', hto, hmiss⟩ | ⟨done, part', part'', rest, addr, directory, s, s', rfl,
      hto, hmiss⟩)
    · obtain ⟨part', rest, rfl⟩ := List.exists_cons_of_ne_nil hne
      exact ⟨[], part, part', rest, addr, directory, s, s', rfl, hto, hmiss⟩
    · exact ⟨part :: done, part', part'', rest, addr, directory, s, s', rfl, hto, hmiss⟩

end

/-! ## The loop of the code -/

section
variable {env : Env} {s : Sys}

theorem fat16FatItemFree_ok (item : Ptr FatItem) (s : Sys) : ∃ s', fat16FatItemFree item s = .ok ((), s') := by
  unfold fat16FatItemFree
  cases item.val with
  | file i => exact ⟨_, rfl⟩
  | directory d =>
    cases d with
    | none => exact ⟨_, rfl⟩
    | some d =>
      simp only [fat16FreeDirectory]
      split <;> exact ⟨_, rfl⟩

theorem lookupFrom_cons {addr : Nat} {directory : Ptr Fat16Directory} {part : List Byte} {r : Option (Ptr FatItem)}
    {s1 s2 : Sys} (hfind : fat16FindItemInDirectory env (some directory.val) part s = .ok (r, s1))
    (hfree : fat16FatItemFree ⟨addr, .directory (some directory)⟩ s1 = .ok ((), s2)) (next : List (List Byte)) :
    lookupFrom env (part :: next) (some ⟨addr, .directory (some directory)⟩) s = lookupFrom env next r s2 := by
  rw [lookupFrom, Exec.bind_of_ok hfind, Exec.bind_of_ok hfree]

/-- From an item on, the loop of the code is the lookup, or it reads through a null pointer where the
lookup finds nothing; the second exactly when an unloaded directory or a missing part is in the way. -/
theorem directoryEntryLoop_cases (env : Env) (s : Sys) (next : List (List Byte)) (item : Ptr FatItem) :
    (directoryEntryLoop env next (some item) s = lookupFrom env next (some item) s ∧
      ¬ MeetsUnloaded (fun done => lookupFrom env done (some item) s) next ∧
      ¬ MissesMiddle env (fun done => lookupFrom env done (some item) s) next) ∨
    (directoryEntryLoop env next (some item) s = .error .nullDeref ∧
      (∃ s', lookupFrom env next (some item) s = .ok (none, s')) ∧
      (MeetsUnloaded (fun done => lookupFrom env done (some item) s) next ∨
        MissesMiddle env (fun done => lookupFrom env done (some item) s) next)) := by
  induction next generalizing item s with
  | nil => exact .inl ⟨rfl, not_meetsUnloaded_nil, not_missesMiddle_nil⟩
  | cons part next ih =>
    obtain ⟨addr, val⟩ := item
    cases val with
    | file i =>
      have hno : ∀ done addr' d s', lookupFrom env done (some ⟨addr, .file i⟩) s ≠
        .ok (some ⟨addr', .directory d⟩, s') := by
        intro done addr' d s' h
        cases done <;> cases h
      exact .inl ⟨rfl, not_meetsUnloaded hno _, not_missesMiddle hno _⟩
    | directory d =>
      cases d with
      | none => exact .inr ⟨rfl, ⟨s, rfl⟩, .inl (meetsUnloaded_cons.2 (.inl ⟨addr, s, rfl⟩))⟩
      | some d =>
        rw [meetsUnloaded_cons, missesMiddle_cons]
        cases hfind : fat16FindItemInDirectory env (some d.val) part s with
        | error e =>
          have hstop : ∀ rest, lookupFrom env (part :: rest) (some ⟨addr, .directory (some d)⟩) s = .error e :=
            fun rest => by rw [lookupFrom, Exec.bind_of_error hfind]
          have hno : ∀ done addr' d' s', lookupFrom env (part :: done) (some ⟨addr, .directory (some d)⟩) s ≠
              .ok (some ⟨addr', .directory d'⟩, s') := by
            intro done addr' d' s' h
            rw [hstop] at h
            cases h
          refine .inl ⟨?_, ?_, ?_⟩
          · rw [hstop, directoryEntryLoop]
            exact Exec.bind_of_error hfind
          · rintro (⟨addr', s', h⟩ | h)
            · cases h
            · exact not_meetsUnloaded hno _ h
          · rintro (⟨-, addr', d', s', s'', h, hmiss⟩ | h)
            · cases h
              rw [hfind] at hmiss
              cases hmiss
            · exact not_missesMiddle hno _ h
        | ok r =>
          obtain ⟨r, s1⟩ := r
          obtain ⟨s2, hfree⟩ := fat16FatItemFree_ok ⟨addr, .directory (some d)⟩ s1
          have hloop : directoryEntryLoop env (part :: next) (some ⟨addr, .directory (some d)⟩) s =
              directoryEntryLoop env next r s2 := by
            rw [directoryEntryLoop]
            exact (Exec.bind_of_ok hfind).trans (Exec.bind_of_ok hfree)
          have hloaded : ¬ ∃ addr' s', lookupFrom env [] (some ⟨addr, .directory (some d)⟩) s =
            .ok (some ⟨addr', .directory none⟩, s') := by
            rintro ⟨addr', s', h⟩
            cases h
          have hmiss : (∃ addr' d' s' s'', lookupFrom env [] (some ⟨addr, .directory (some d)⟩) s =
              .ok (some ⟨addr', .directory (some d')⟩, s') ∧
                fat16FindItemInDirectory env (some d'.val) part s' = .ok (none, s'')) ↔
              r = none := by
            constructor
            · rintro ⟨addr', d', s', s'', h, hmiss⟩
              cases h
              rw [hfind] at hmiss
              cases hmiss
              rfl
            · rintro rfl
              exact ⟨addr, d, s, s1, rfl, hfind⟩
          -- what is in the way from `r` on is in the way from the item on
          simp only [hloop, lookupFrom_cons hfind hfree, or_iff_right hloaded, hmiss]
          cases r with
          | some r => simpa using ih s2 r
          | none =>
            cases next with
            | nil =>
              refine .inl ⟨rfl, not_meetsUnloaded_nil, ?_⟩
              rintro (⟨hne, -⟩ | h)
              · exact hne rfl
              · exact not_missesMiddle_nil h
            | cons part' rest => exact .inr ⟨rfl, ⟨s2, rfl⟩, .inr (.inl ⟨List.cons_ne_nil _ _, rfl⟩)⟩

/-- Path resolution gives what the lookup of its parts in turn gives, and stops only where that does,
exactly when no directory before the last part is unloaded and no part between the first and the
last is missing. -/
theorem directory_entry_iff (env : Env) (s : Sys) (part : List Byte) (next : List (List Byte)) :
    outcome (fat16GetDirectoryEntry env part next) s = outcome (lookup env part next) s ↔
      ¬ MeetsUnloaded (fun done => lookup env part done s) next ∧
      ¬ MissesMiddle env (fun done => lookup env part done s) next := by
  unfold outcome fat16GetDirectoryEntry lookup
  simp only [Exec.bind_of_ok (Exec.get_apply s)]
  cases hfind : fat16FindItemInDirectory env (some s.fat16Private.rootDirectory) part s with
  | error e =>
    simp only [Exec.bind_of_error hfind]
    have hno : ∀ (done : List (List Byte)) addr d s', (Except.error e : Except Halt (Option (Ptr FatItem) × Sys)) ≠
        .ok (some ⟨addr, .directory d⟩, s') := fun _ _ _ _ h => by cases h
    exact ⟨fun _ => ⟨not_meetsUnloaded hno _, not_missesMiddle hno _⟩, fun _ => trivial⟩
  | ok r =>
    obtain ⟨r, s1⟩ := r
    simp only [Exec.bind_of_ok hfind]
    cases r with
    | none =>
      have hno : ∀ done addr d s', lookupFrom env done none s1 ≠ .ok (some ⟨addr, .directory d⟩, s') := by
        intro done addr d s' h
        cases done <;> cases h
      refine ⟨fun _ => ⟨not_meetsUnloaded hno _, not_missesMiddle hno _⟩, fun _ => ?_⟩
      cases next <;> rfl
    | some item =>
      simp only [Option.isNone_some, Bool.false_eq_true, if_false]
      rcases directoryEntryLoop_cases env s1 next item with ⟨e, h1, h2⟩ | ⟨e, ⟨s', e'⟩, h⟩
      · rw [e]
        exact ⟨fun _ => ⟨h1, h2⟩, fun _ => rfl⟩
      · rw [e, e']
        refine ⟨fun h => (by cases h), fun hno => ?_⟩
        rcases h with h | h
        · exact absurd h hno.1
        · exact absurd h hno.2

end

/-- One directory in the root, `A`, whose first cluster is 2. -/
def oneDirectoryMem : Mem := fun a =>
  if a = 0x8000 then 0x41 else if a = 0x800B then 0x10 else if a = 0x801A then 2 else
    if 0x8000 ≤ a ∧ a < 0x800B then 0x20 else 0

def oneDirectory : Sys where
  heap := ⟨.booted 32 1, fun _ => ⟨0, 0⟩⟩
  mem := oneDirectoryMem
  live := []
  filesystem := true
  fat16Private := ⟨⟨512, 1, 1, 1, 16, 1, 0⟩, ⟨0x8000, 1, 3, 4⟩, fun _ => ⟨0⟩⟩
  fileDescriptors := fun _ => none

def emptyDisk : Env := ⟨fun _ _ => 0, fun _ _ => .error .outOfBounds, fun _ m => .ok m, fun _ _ _ => .error .nullDeref⟩

/-- The path `A/B/C`, with nothing in `A`: the lookup finds nothing, the code reads through null. -/
theorem directory_entry_null_read :
    outcome (fat16GetDirectoryEntry emptyDisk [0x41] [[0x42], [0x43]]) oneDirectory = .error .nullDeref ∧
      outcome (lookup emptyDisk [0x41] [[0x42], [0x43]]) oneDirectory = .ok none := by
  decide +kernel

end SimpleMicrokernel.Fat16
