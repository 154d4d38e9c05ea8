/-
The components of a path and what the parser makes of them. It takes one component after another, whatever
its length, and an empty one ends the list wherever it stands: at the NUL, or between two slashes.
-/
import SimpleMicrokernel.Fs.Alloc
import SimpleMicrokernel.Fs.PathParser

namespace SimpleMicrokernel.Fs

open Memory Disk

/-- What stands between the slashes of a path. -/
abbrev components (path : List Byte) : List (List Byte) := path.splitOn 0x2F

/-- The components that come before the first empty one. -/
def leading (path : List Byte) : List (List Byte) := (components path).takeWhile fun c => c ≠ []

/-- `Pathparser_parse` with the place its caller's pointer comes to. -/
def pathparserParsePointer (env : Env) (path : List Byte) : FsM (Option (Ptr PathRoot) × List Byte) := do
  let (root, drivePath, path) ← pathparserCreatePathRoot env path
  let (first, path) ← pathparserCreatePathPart env path
  let root ← linkFirst env root drivePath first
  return (root, path)

theorem pathparserParse_eq (env : Env) (path : List Byte) :
    pathparserParse env path = (do let r ← pathparserParsePointer env path; return r.1) := by
  unfold pathparserParse pathparserParsePointer
  simp only [bind_assoc, pure_bind, bind_pure]

/-! ## One component at a time -/

/-- A path starts with a component, and ends after it or goes on with a slash. -/
structure StartsWith (path comp rest : List Byte) : Prop where
  eq : path = comp ++ rest
  chars : ∀ c ∈ comp, c ≠ 0x2F ∧ c ≠ 0
  rest : rest = [] ∨ ∃ cs, rest = 0x2F :: cs

section
variable {env : Env} {s s' : Sys} {path comp rest : List Byte} {n c : Nat}

theorem exists_startsWith : ∀ {path : List Byte}, 0 ∉ path → ∃ comp rest, StartsWith path comp rest
  | [], _ => ⟨[], [], rfl, fun _ h => absurd h List.not_mem_nil, .inl rfl⟩
  | c :: cs, h => by
    rw [List.mem_cons, not_or] at h
    by_cases hc : c = 0x2F
    · exact ⟨[], c :: cs, rfl, fun _ h => absurd h List.not_mem_nil, .inr ⟨cs, by rw [hc]⟩⟩
    · obtain ⟨comp, rest, hs⟩ := exists_startsWith h.2
      refine ⟨c :: comp, rest, by rw [hs.eq]; rfl, fun d hd => ?_, hs.rest⟩
      rcases List.mem_cons.1 hd with rfl | hd
      · exact ⟨hc, Ne.symm h.1⟩
      · exact hs.chars d hd

/-- What is left to do when the characters are known. -/
def finishPart (env : Env) (temp cTemp : Nat) (part path : List Byte) : FsM (Option (Ptr PathPart) × List Byte) := do
  storePart env cTemp part
  let path := if charAt path 0 = 0x2F then path.tail else path
  if part.length = 0 then
    kfree temp
    return (none, path)
  if temp = 0 then
    nullStore env 0 (uint32Bytes (BitVec.ofNat 32 cTemp))
    return (none, path)
  else
    return (some ⟨temp, ⟨⟨cTemp, if cTemp = 0 then [] else part⟩⟩⟩, path)

theorem pathparserGetPathPart_copied {temp cTemp : Nat} {part : List Byte} {s1 s2 : Sys}
    (e1 : kzalloc env sizeofPathPart s = .ok (temp, s1)) (e2 : kzalloc env maxPath s1 = .ok (cTemp, s2))
    (hcopy : copyPart cTemp path 0 = .ok (part, rest)) :
    pathparserGetPathPart env path s = finishPart env temp cTemp part rest s2 := by
  unfold pathparserGetPathPart
  rw [Exec.bind_of_ok e1, Exec.bind_of_ok e2, hcopy]
  rfl

theorem storePart_buffer {cTemp : Nat} (hcTemp : cTemp ≠ 0) (part : List Byte) (s : Sys) :
    storePart env cTemp part s = .ok ((), s) := by
  unfold storePart
  rw [if_neg hcTemp]
  rfl

namespace StartsWith

theorem not_mem (h : StartsWith path comp rest) : 0x2F ∉ comp := fun hc => (h.chars _ hc).1 rfl

theorem tail_nul (h : StartsWith path comp rest) (hnul : 0 ∉ path) : 0 ∉ rest.tail := by
  intro h0
  refine hnul ?_
  rw [h.eq]
  exact List.mem_append_right _ (List.mem_of_mem_tail h0)

theorem tail_length (h : StartsWith path comp rest) (hne : comp ≠ []) : rest.tail.length < path.length := by
  have hpos := List.length_pos_of_ne_nil hne
  rw [h.eq, List.length_append, List.length_tail]
  omega

theorem components_eq (h : StartsWith path comp rest) :
    components path = if rest = [] then [comp] else comp :: components rest.tail := by
  rcases h.rest with rfl | ⟨cs, rfl⟩
  · rw [if_pos rfl, h.eq, List.append_nil]
    exact List.splitOn_eq_singleton h.not_mem
  · rw [if_neg (List.cons_ne_nil _ _), h.eq, List.tail_cons, components,
      List.splitOn_append_cons_of_beq comp cs (beq_self_eq_true 0x2F), List.splitOn_eq_singleton h.not_mem]
    rfl

theorem leading_nil (h : StartsWith path [] rest) : leading path = [] := by
  unfold leading
  rw [h.components_eq]
  split
  · rfl
  · rfl

theorem leading_cons (h : StartsWith path comp rest) (hne : comp ≠ []) : leading path = comp :: leading rest.tail := by
  unfold leading
  rw [h.components_eq]
  split
  · rename_i hrest
    rw [hrest, List.takeWhile_cons, if_pos (decide_eq_true hne)]
    rfl
  · rw [List.takeWhile_cons, if_pos (decide_eq_true hne)]

/-- The characters of a component that fits, or has no buffer, are copied up to its slash or the end of the path. -/
theorem copyPart_fits (hrest : rest = [] ∨ ∃ cs, rest = 0x2F :: cs) : ∀ {comp : List Byte} {i : Nat},
    (∀ d ∈ comp, d ≠ 0x2F ∧ d ≠ 0) → (c ≠ 0 → i + comp.length < maxPath) →
    copyPart c (comp ++ rest) i = .ok (comp, rest)
  | [], i, _, hlt => by
    have hin : ¬ (c ≠ 0 ∧ maxPath ≤ i) := fun ⟨hc, hle⟩ => Nat.not_lt_of_le hle (hlt hc)
    rw [List.nil_append]
    rcases hrest with rfl | ⟨cs, rfl⟩
    · rw [copyPart, if_neg hin]
    · rw [copyPart, if_neg hin]
      simp only
      rw [if_neg (by decide)]
  | d :: comp, i, hchars, hlt => by
    rw [List.length_cons] at hlt
    have hnext : copyPart c (comp ++ rest) (i + 1) = .ok (comp, rest) :=
      copyPart_fits hrest (fun d hd => hchars d (List.mem_cons_of_mem _ hd)) fun hc => by have := hlt hc; omega
    rw [List.cons_append, copyPart, if_neg fun ⟨hc, hle⟩ => by have := hlt hc; omega]
    simp only
    rw [if_pos (hchars d (List.mem_cons_self ..)), hnext]
    rfl

theorem copyPart_long (hc : c ≠ 0) : ∀ {comp : List Byte} {i : Nat},
    (∀ d ∈ comp, d ≠ 0x2F ∧ d ≠ 0) → maxPath ≤ i + comp.length → copyPart c (comp ++ rest) i = .error .outOfBounds
  | [], i, _, hlen => by
    rw [List.length_nil] at hlen
    unfold copyPart
    rw [if_pos ⟨hc, by omega⟩]
  | d :: comp, i, hchars, hlen => by
    rw [List.length_cons] at hlen
    rw [List.cons_append, copyPart]
    split
    · rfl
    · simp only
      rw [if_pos (hchars d (List.mem_cons_self ..)),
        copyPart_long hc (fun d hd => hchars d (List.mem_cons_of_mem _ hd)) (by omega)]
      rfl

theorem kzalloc_part (env : Env) (hmem : Grants 2 s.heap.pmm) :
    ∃ temp cTemp s1 s2, kzalloc env sizeofPathPart s = .ok (temp, s1) ∧ kzalloc env maxPath s1 = .ok (cTemp, s2) ∧
      temp ≠ 0 ∧ cTemp ≠ 0 ∧ s2.heap.pmm = afterBlocks 2 s.heap.pmm := by
  obtain ⟨h1, h2, -⟩ := hmem
  obtain ⟨s1, e1, hpmm1⟩ := kzalloc_page env (by decide : sizeofPathPart ≤ 4096) h1
  obtain ⟨s2, e2, hpmm2⟩ := kzalloc_page (s := s1) env (by decide : maxPath ≤ 4096) (by rwa [hpmm1])
  refine ⟨_, _, s1, s2, e1, e2, h1, by rwa [hpmm1], ?_⟩
  rw [hpmm2, hpmm1]
  rfl

/-- A component that fits is taken once there are blocks for it, and the cursor is left after its slash. -/
theorem getPathPart_of_blocks (h : StartsWith path comp rest) (hne : comp ≠ []) (hshort : comp.length < maxPath)
    {temp cTemp : Nat} {s1 s2 : Sys} (e1 : kzalloc env sizeofPathPart s = .ok (temp, s1))
    (e2 : kzalloc env maxPath s1 = .ok (cTemp, s2))
    (htemp : temp ≠ 0) (hcTemp : cTemp ≠ 0) :
    pathparserGetPathPart env path s = .ok ((some ⟨temp, ⟨⟨cTemp, comp⟩⟩⟩, rest.tail), s2) := by
  have hcopy : copyPart cTemp path 0 = .ok (comp, rest) := by
    rw [h.eq]
    exact copyPart_fits h.rest h.chars fun _ => by omega
  have hlen : comp.length ≠ 0 := fun h0 => hne (List.eq_nil_of_length_eq_zero h0)
  rw [pathparserGetPathPart_copied e1 e2 hcopy, finishPart, Exec.bind_of_ok (storePart_buffer hcTemp comp s2),
    if_neg hlen, if_neg htemp, if_neg hcTemp]
  rcases h.rest with hrest | ⟨cs, hrest⟩
  · rw [hrest]
    rfl
  · rw [hrest]
    rfl

theorem getPathPart_fits (env : Env) (h : StartsWith path comp rest) (hne : comp ≠ []) (hshort : comp.length < maxPath)
    (hmem : Grants 2 s.heap.pmm) :
    ∃ part s', pathparserGetPathPart env path s = .ok ((some part, rest.tail), s') ∧ part.val.part.val = comp ∧
      s'.heap.pmm = afterBlocks 2 s.heap.pmm := by
  obtain ⟨temp, cTemp, s1, s2, e1, e2, htemp, hcTemp, hpmm⟩ := kzalloc_part env hmem
  exact ⟨_, s2, h.getPathPart_of_blocks hne hshort e1 e2 htemp hcTemp, rfl, hpmm⟩

/-- An empty component is none, and the cursor is left after its slash too. -/
theorem getPathPart_empty (env : Env) (h : StartsWith path [] rest) (hmem : Grants 2 s.heap.pmm) :
    ∃ s', pathparserGetPathPart env path s = .ok ((none, rest.tail), s') := by
  obtain ⟨temp, cTemp, s1, s2, e1, e2, -, hcTemp, -⟩ := kzalloc_part env hmem
  have hcopy : copyPart cTemp path 0 = .ok ([], rest) := by
    rw [h.eq]
    exact copyPart_fits h.rest h.chars fun _ => by decide
  obtain ⟨s3, e3⟩ : ∃ s3, kfree temp s2 = .ok (⟨⟩, s3) := ⟨_, rfl⟩
  have hend (path : List Byte) :
      (do kfree temp; return (none, path) : FsM (Option (Ptr PathPart) × List Byte)) s2 = .ok ((none, path), s3) := by
    rw [Exec.bind_of_ok e3]
    rfl
  refine ⟨s3, ?_⟩
  rw [pathparserGetPathPart_copied e1 e2 hcopy, finishPart, Exec.bind_of_ok (storePart_buffer hcTemp [] s2)]
  rcases h.rest with hrest | ⟨cs, hrest⟩
  · rw [hrest]
    exact hend []
  · rw [hrest]
    exact hend cs

theorem getPathPart_long (env : Env) (h : StartsWith path comp rest) (hlong : maxPath ≤ comp.length)
    (hmem : Grants 2 s.heap.pmm) :
    pathparserGetPathPart env path s = .error .outOfBounds := by
  obtain ⟨temp, cTemp, s1, s2, e1, e2, -, hcTemp, -⟩ := kzalloc_part env hmem
  unfold pathparserGetPathPart
  rw [Exec.bind_of_ok e1, Exec.bind_of_ok e2, h.eq, copyPart_long hcTemp h.chars (by omega)]
  rfl

end StartsWith

/-! ## Memory that runs out -/

/-- What goes through null is not a store past a buffer. -/
structure NullInside (env : Env) : Prop where
  fill : ∀ size mem, env.nullFill size mem ≠ .error .outOfBounds
  store : ∀ a bytes mem, env.nullStore a bytes mem ≠ .error .outOfBounds

theorem pmmSystemMemorySize_allocate (p : Pmm) : p.pmmAllocateBlock.2.pmmSystemMemorySize = p.pmmSystemMemorySize := by
  rcases p.pmmAllocateBlock_cases with ⟨e, -⟩ | ⟨i, -, -, -, -, -, e⟩
  · rw [e]
  · rw [e]
    rfl

theorem copyPart_null : ∀ (path : List Byte) (i : Nat), ∃ r, copyPart 0 path i = .ok r
  | [], i => ⟨_, by rw [copyPart, if_neg fun h => h.1 rfl]⟩
  | c :: cs, i => by
    obtain ⟨r, hr⟩ := copyPart_null cs (i + 1)
    rw [copyPart, if_neg fun h => h.1 rfl]
    simp only
    split
    · rw [hr]
      exact ⟨_, rfl⟩
    · exact ⟨_, rfl⟩

theorem kzalloc_null (hnull : NullInside env) {m : Nat} (hm : m ≤ 4096) (h : s.heap.pmm.pmmAllocateBlock.1 = 0) :
    (∃ e, kzalloc env m s = .error e ∧ e ≠ .outOfBounds) ∨
      ∃ s', kzalloc env m s = .ok (0, s') ∧ s'.heap.pmm = s.heap.pmm.pmmAllocateBlock.2 := by
  have hk := s.heap.kmallac_of_le hm
  obtain ⟨s1, hs1⟩ : ∃ s1, s1 = s.alloc (s.heap.kmallac m).2
    (AllocState.hold s.live ⟨(s.heap.kmallac m).1, m, .kheap⟩) := ⟨_, rfl⟩
  have hcall : kmallac m s = .ok (0, s1) := by
    rw [kmallac_apply, ← hs1, hk, h]
  unfold kzalloc
  rw [Exec.bind_of_ok hcall, Exec.bind_of_ok (Exec.get_apply _), if_pos rfl]
  cases hfill : env.nullFill m s1.mem with
  | error e =>
    refine .inl ⟨e, rfl, fun he => hnull.fill m s1.mem ?_⟩
    rw [hfill, he]
  | ok mem =>
    refine .inr ⟨{ s1 with mem := mem }, rfl, ?_⟩
    show s1.heap.pmm = _
    rw [hs1, hk]
    rfl

theorem nullStore_cases (env : Env) (a : Nat) (bytes : List Byte) (s : Sys) :
    (∃ e, env.nullStore a bytes s.mem = .error e ∧ nullStore env a bytes s = .error e) ∨
      ∃ mem, nullStore env a bytes s = .ok ((), { s with mem := mem }) := by
  unfold nullStore
  rw [Exec.bind_of_ok (Exec.get_apply s)]
  cases env.nullStore a bytes s.mem with
  | error e => exact .inl ⟨e, rfl, rfl⟩
  | ok mem => exact .inr ⟨mem, rfl⟩

/-- A part with no buffer is not stored past one, and what comes after it has no memory either. -/
theorem getPathPart_spent (hnull : NullInside env) (hsize : s.heap.pmm.pmmSystemMemorySize ≤ 2 ^ 20)
    (hmem : ¬ Grants 2 s.heap.pmm) (path : List Byte) :
    pathparserGetPathPart env path s ≠ .error .outOfBounds ∧
    ∀ part left s', pathparserGetPathPart env path s = .ok ((some part, left), s') →
      s'.heap.pmm.pmmAllocateBlock.1 = 0 ∧ s'.heap.pmm.pmmSystemMemorySize ≤ 2 ^ 20 := by
  have hstops {x : FsM (Option (Ptr PathPart) × List Byte)} {t : Sys} {e : Halt} (hx : x t = .error e)
    (he : e ≠ .outOfBounds) :
      x t ≠ .error .outOfBounds ∧ ∀ part left s', x t = .ok ((some part, left), s') →
        s'.heap.pmm.pmmAllocateBlock.1 = 0 ∧ s'.heap.pmm.pmmSystemMemorySize ≤ 2 ^ 20 := by
    rw [hx]
    exact ⟨fun h => he (Except.error.inj h), fun _ _ _ h => by cases h⟩
  have hends {x : FsM (Option (Ptr PathPart) × List Byte)} {t t' : Sys} {rest : List Byte}
    (hx : x t = .ok ((none, rest), t')) :
      x t ≠ .error .outOfBounds ∧ ∀ part left s', x t = .ok ((some part, left), s') →
        s'.heap.pmm.pmmAllocateBlock.1 = 0 ∧ s'.heap.pmm.pmmSystemMemorySize ≤ 2 ^ 20 := by
    rw [hx]
    exact ⟨Exec.ok_ne _, fun _ _ _ h => by cases h⟩
  have hfirst : (∃ e, kzalloc env sizeofPathPart s = .error e ∧ e ≠ .outOfBounds) ∨
      ∃ temp s1, kzalloc env sizeofPathPart s = .ok (temp, s1) ∧ s1.heap.pmm.pmmAllocateBlock.1 = 0 ∧
        s1.heap.pmm.pmmSystemMemorySize ≤ 2 ^ 20 := by
    by_cases h1 : s.heap.pmm.pmmAllocateBlock.1 = 0
    · refine (kzalloc_null hnull (by decide) h1).imp_right fun ⟨s1, e1, hpmm⟩ => ⟨0, s1, e1, ?_⟩
      rw [hpmm, Pmm.pmmAllocateBlock_null hsize h1]
      exact ⟨h1, hsize⟩
    · obtain ⟨s1, e1, hpmm⟩ := kzalloc_page env (by decide : sizeofPathPart ≤ 4096) h1
      refine .inr ⟨_, s1, e1, ?_, ?_⟩
      · rw [hpmm]
        by_contra h2
        exact hmem ⟨h1, h2, trivial⟩
      · rw [hpmm, pmmSystemMemorySize_allocate]
        exact hsize
  rcases hfirst with ⟨e, e1, hne⟩ | ⟨temp, s1, e1, h2, hsize1⟩
  · exact hstops (Exec.bind_of_error e1) hne
  rcases kzalloc_null hnull (by decide : maxPath ≤ 4096) h2 with ⟨e, e2, hne⟩ | ⟨s2, e2, hpmm⟩
  · refine hstops ?_ hne
    unfold pathparserGetPathPart
    rw [Exec.bind_of_ok e1, Exec.bind_of_error e2]
  rw [Pmm.pmmAllocateBlock_null hsize1 h2] at hpmm
  obtain ⟨⟨part, rest⟩, hcopy⟩ : ∃ r, copyPart 0 path 0 = .ok r := copyPart_null path 0
  rw [pathparserGetPathPart_copied e1 e2 hcopy, finishPart]
  have hstore : storePart env 0 part = nullStore env 0 (part ++ [0]) := rfl
  rw [hstore]
  rcases nullStore_cases env 0 (part ++ [0]) s2 with ⟨e, he, e3⟩ | ⟨mem, e3⟩
  · exact hstops (Exec.bind_of_error e3) fun h => hnull.store _ _ _ (h ▸ he)
  rw [Exec.bind_of_ok e3]
  simp only
  split
  · exact hends rfl
  split
  · rcases nullStore_cases env 0 (uint32Bytes (BitVec.ofNat 32 0)) { s2 with mem := mem } with ⟨e, he, e4⟩ | ⟨mem', e4⟩
    · exact hstops (Exec.bind_of_error e4) fun h => hnull.store _ _ _ (h ▸ he)
    · exact hends (Exec.bind_of_ok e4)
  · refine ⟨Exec.ok_ne _, fun _ _ s' h => ?_⟩
    obtain ⟨-, rfl⟩ := Exec.of_pure_ok h
    show s2.heap.pmm.pmmAllocateBlock.1 = 0 ∧ s2.heap.pmm.pmmSystemMemorySize ≤ 2 ^ 20
    rw [hpmm]
    exact ⟨h2, hsize1⟩

/-! ## The parts of a path -/

/-- The contents of the buffers. -/
abbrev partNames (parts : List (Ptr PathPart)) : List (List Byte) := parts.map fun part => part.val.part.val

/-- What a call for the next component can do: an empty one is none, one that has no structure is none either, and one
that has no buffer is lost. -/
theorem of_getPathPart_ok {o : Option (Ptr PathPart)} {left : List Byte} (h : StartsWith path comp rest)
    (hok : pathparserGetPathPart env path s = .ok ((o, left), s')) : left = rest.tail ∧
      ∃ temp cTemp s1 s2, kzalloc env sizeofPathPart s = .ok (temp, s1) ∧ kzalloc env maxPath s1 = .ok (cTemp, s2) ∧
        (comp = [] ∧ o = none ∨ comp ≠ [] ∧ temp = 0 ∧ o = none ∨
          comp ≠ [] ∧ temp ≠ 0 ∧ s'.heap = s2.heap ∧ o = some ⟨temp, ⟨⟨cTemp, if cTemp = 0 then [] else comp⟩⟩⟩) := by
  unfold pathparserGetPathPart at hok
  obtain ⟨temp, s1, h1, hok⟩ := Exec.of_bind_ok hok
  obtain ⟨cTemp, s2, h2, hok⟩ := Exec.of_bind_ok hok
  obtain ⟨r, s3, hlift, hok⟩ := Exec.of_bind_ok hok
  obtain ⟨hcopy, rfl⟩ := Exec.of_lift_ok hlift
  have hshort (hcTemp : cTemp ≠ 0) : 0 + comp.length < maxPath := by
    by_contra hlong
    rw [h.eq, StartsWith.copyPart_long hcTemp h.chars (by omega)] at hcopy
    cases hcopy
  rw [h.eq, StartsWith.copyPart_fits h.rest h.chars hshort] at hcopy
  cases hcopy
  obtain ⟨_, s4, hstore, hok⟩ := Exec.of_bind_ok hok
  have hheap : s4.heap = s2.heap := by
    unfold storePart at hstore
    split at hstore
    · obtain ⟨mem, -, rfl⟩ := of_nullStore_ok hstore
      rfl
    · obtain ⟨-, rfl⟩ := Exec.of_pure_ok hstore
      rfl
  have htail : (if charAt rest 0 = 0x2F then rest.tail else rest) = rest.tail := by
    rcases h.rest with rfl | ⟨cs, rfl⟩
    · rfl
    · rfl
  simp only [htail] at hok
  by_cases hne : comp = []
  · rw [if_pos (by rw [hne]; rfl)] at hok
    obtain ⟨-, s5, -, hok⟩ := Exec.of_bind_ok hok
    obtain ⟨he, -⟩ := Exec.of_pure_ok hok
    cases he
    exact ⟨rfl, temp, cTemp, s1, s2, h1, h2, .inl ⟨hne, rfl⟩⟩
  · rw [if_neg fun h0 => hne (List.eq_nil_of_length_eq_zero h0)] at hok
    split at hok
    · rename_i htemp
      obtain ⟨-, s5, -, hok⟩ := Exec.of_bind_ok hok
      obtain ⟨he, -⟩ := Exec.of_pure_ok hok
      cases he
      exact ⟨rfl, temp, cTemp, s1, s2, h1, h2, .inr (.inl ⟨hne, htemp, rfl⟩)⟩
    · rename_i htemp
      obtain ⟨he, rfl⟩ := Exec.of_pure_ok hok
      cases he
      exact ⟨rfl, temp, cTemp, s1, s2, h1, h2, .inr (.inr ⟨hne, htemp, hheap, rfl⟩)⟩

/-- With memory for every part, and every part of the size of its buffer, the loop comes to an end. -/
theorem createPathPartLoop_returns (env : Env) : ∀ {n : Nat} {path : List Byte} {s : Sys}, 0 ∉ path → path.length < n →
    (∀ c ∈ leading path, c.length < maxPath) → Grants (2 * (leading path).length + 2) s.heap.pmm →
    ∃ parts left s', createPathPartLoop env n path s = .ok ((parts, left), s')
  | 0, _, _, _, hlt, _, _ => absurd hlt (Nat.not_lt_zero _)
  | n + 1, path, s, hnul, hlt, hshort, hmem => by
    obtain ⟨comp, rest, hstart⟩ := exists_startsWith hnul
    obtain ⟨hmem2, hmem⟩ := (grants_add (2 * (leading path).length)).1 (by rwa [Nat.add_comm])
    by_cases hne : comp = []
    · subst hne
      obtain ⟨s1, e1⟩ := StartsWith.getPathPart_empty env hstart hmem2
      refine ⟨[], rest.tail, s1, ?_⟩
      rw [createPathPartLoop, Exec.bind_of_ok e1]
      rfl
    · rw [hstart.leading_cons hne] at hshort hmem
      obtain ⟨part, s1, e1, -, hpmm⟩ := StartsWith.getPathPart_fits env hstart hne
        (hshort comp (List.mem_cons_self ..)) hmem2
      obtain ⟨parts, left, s2, e2⟩ := createPathPartLoop_returns env (n := n) (s := s1) (hstart.tail_nul hnul)
        (by have := hstart.tail_length hne; omega) (fun c hc => hshort c (List.mem_cons_of_mem _ hc)) (by rwa [hpmm])
      refine ⟨part :: parts, left, s2, ?_⟩
      rw [createPathPartLoop, Exec.bind_of_ok e1]
      simp only
      rw [Exec.bind_of_ok e2]
      rfl

/-! ## Stores past a buffer -/

theorem createPathPartLoop_spent (hnull : NullInside env) :
    ∀ (n : Nat) {s : Sys}, s.heap.pmm.pmmSystemMemorySize ≤ 2 ^ 20 →
    ¬ Grants 2 s.heap.pmm → ∀ path, createPathPartLoop env n path s ≠ .error .outOfBounds
  | 0, _, _, _, _ => fun h => by cases h
  | n + 1, s, hsize, hmem, path => by
    obtain ⟨hno, hsome⟩ := getPathPart_spent hnull hsize hmem path
    unfold createPathPartLoop
    cases e1 : pathparserGetPathPart env path s with
    | error e =>
      rw [Exec.bind_of_error e1]
      exact fun h => hno (e1.trans (congrArg Except.error (Except.error.inj h)))
    | ok r =>
      obtain ⟨⟨o, left⟩, s1⟩ := r
      rw [Exec.bind_of_ok e1]
      cases o with
      | none => exact Exec.ok_ne _
      | some part =>
        obtain ⟨hnone, hsize1⟩ := hsome part left s1 e1
        simp only
        refine (not_congr (Exec.bind_error_iff fun _ _ _ => Exec.ok_ne _)).2 ?_
        exact createPathPartLoop_spent hnull n hsize1 (fun hg => hg.1 hnone) left

/-- The loop stores past no buffer exactly when no component that memory gives a buffer to is too long. -/
theorem createPathPartLoop_inside (hnull : NullInside env) : ∀ {n : Nat} {path : List Byte} {s : Sys}, 0 ∉ path →
    path.length < n →
    s.heap.pmm.pmmSystemMemorySize ≤ 2 ^ 20 →
    (createPathPartLoop env n path s ≠ .error .outOfBounds ↔
      ∀ k c, (leading path)[k]? = some c → maxPath ≤ c.length → ¬ Grants (2 * k + 2) s.heap.pmm)
  | 0, _, _, _, hlt, _ => absurd hlt (Nat.not_lt_zero _)
  | n + 1, path, s, hnul, hlt, hsize => by
    obtain ⟨comp, rest, hstart⟩ := exists_startsWith hnul
    unfold createPathPartLoop
    by_cases hmem : Grants 2 s.heap.pmm
    · by_cases hne : comp = []
      · -- the list ends here
        subst hne
        obtain ⟨s1, e1⟩ := StartsWith.getPathPart_empty env hstart hmem
        rw [Exec.bind_of_ok e1, hstart.leading_nil]
        exact iff_of_true (Exec.ok_ne _) fun k c hk => by cases hk
      · rw [hstart.leading_cons hne]
        by_cases hlong : maxPath ≤ comp.length
        · rw [Exec.bind_of_error (StartsWith.getPathPart_long env hstart hlong hmem)]
          exact iff_of_false (fun h => h rfl) fun h => h 0 comp rfl hlong hmem
        · obtain ⟨part, s1, e1, -, hpmm⟩ := StartsWith.getPathPart_fits env hstart hne (Nat.lt_of_not_le hlong) hmem
          have ih := createPathPartLoop_inside hnull (n := n) (s := s1) (hstart.tail_nul hnul)
            (by have := hstart.tail_length hne; omega)
            (by rw [hpmm, afterBlocks, afterBlocks, afterBlocks, pmmSystemMemorySize_allocate,
              pmmSystemMemorySize_allocate]; exact hsize)
          rw [Exec.bind_of_ok e1]
          simp only
          refine ((not_congr (Exec.bind_error_iff fun _ _ _ => Exec.ok_ne _)).trans ih).trans
            ⟨fun h k c hk hc hg => ?_, fun h k c hk hc hg => ?_⟩
          · cases k with
            | zero =>
              cases hk
              exact hlong hc
            | succ k =>
              refine h k c hk hc ?_
              rw [hpmm]
              exact ((grants_add (2 * k + 2)).1 (by rwa [show 2 + (2 * k + 2) = 2 * (k + 1) + 2 by omega])).2
          · refine h (k + 1) c hk hc ?_
            rw [hpmm] at hg
            rw [show 2 * (k + 1) + 2 = 2 + (2 * k + 2) by omega]
            exact (grants_add (2 * k + 2)).2 ⟨hmem, hg⟩
    · refine iff_of_true (createPathPartLoop_spent hnull (n + 1) hsize hmem path) fun k c _ _ hg => hmem ?_
      exact ((grants_add (2 * k)).1 (by rwa [Nat.add_comm])).1

theorem pathparserCreatePathRoot_page (env : Env) (path : List Byte) (h1 : s.heap.pmm.pmmAllocateBlock.1 ≠ 0) :
    ∃ s1, pathparserCreatePathRoot env path s =
    .ok ((s.heap.pmm.pmmAllocateBlock.1, pathparserGetDriveByPath path), s1) ∧
      s1.heap.pmm = s.heap.pmm.pmmAllocateBlock.2 := by
  obtain ⟨s1, e1, hpmm⟩ := kzalloc_page env (by decide : sizeofPathRoot ≤ 4096) h1
  refine ⟨s1, ?_, hpmm⟩
  unfold pathparserCreatePathRoot
  rw [Exec.bind_of_ok e1]
  simp only [if_neg h1]
  rfl

theorem of_pathparserCreatePathRoot_ok {r : Nat × Int × List Byte}
    (h : pathparserCreatePathRoot env path s = .ok (r, s')) :
    r = (s.heap.pmm.pmmAllocateBlock.1, pathparserGetDriveByPath path) ∧
    s'.heap.pmm = s.heap.pmm.pmmAllocateBlock.2 := by
  unfold pathparserCreatePathRoot at h
  obtain ⟨temp, s1, h1, h⟩ := Exec.of_bind_ok h
  obtain ⟨rfl, hpmm⟩ := of_kzalloc_page (by decide) h1
  simp only at h
  split at h
  · obtain ⟨_, s2, h2, h⟩ := Exec.of_bind_ok h
    obtain ⟨mem, -, rfl⟩ := of_nullStore_ok h2
    cases h
    exact ⟨rfl, hpmm⟩
  · cases h
    exact ⟨rfl, hpmm⟩

theorem linkFirst_root {root : Nat} (hroot : root ≠ 0) (drivePath : Int) (first : List (Ptr PathPart)) (s : Sys) :
    linkFirst env root drivePath first s = .ok (some ⟨root, ⟨drivePath, first⟩⟩, s) := by
  unfold linkFirst
  rw [if_neg hroot]
  rfl

theorem linkFirst_ne (hnull : NullInside env) (root : Nat) (drivePath : Int) (first : List (Ptr PathPart)) (s : Sys) :
    linkFirst env root drivePath first s ≠ .error .outOfBounds := by
  unfold linkFirst
  split
  · rcases nullStore_cases env 4 (uint32Bytes (BitVec.ofNat 32 (firstAddr first))) s with ⟨e, he, h⟩ | ⟨mem, h⟩
    · rw [Exec.bind_of_error h]
      exact fun h' => hnull.store _ _ _ (Except.error.inj h' ▸ he)
    · rw [Exec.bind_of_ok h]
      exact Exec.ok_ne _
  · exact Exec.ok_ne _

theorem not_mem_drive (hnul : 0 ∉ path) : 0 ∉ (pathparserGetDriveByPath path).2 := by
  unfold pathparserGetDriveByPath
  split
  · exact hnul
  · exact fun h => hnul (List.mem_of_mem_drop h)

/-- Parsing stores past no buffer exactly when every component before the first empty one fits in its buffer;
one that does not is no harm only where memory runs out before it has a buffer. -/
theorem pathparserParse_inside_iff (hnull : NullInside env) (hnul : 0 ∉ path)
    (hsize : s.heap.pmm.pmmSystemMemorySize ≤ 2 ^ 20) :
    pathparserParse env path s ≠ .error .outOfBounds ↔
      ∀ k c, (leading (pathparserGetDriveByPath path).2)[k]? = some c → maxPath ≤ c.length →
      ¬ Grants (2 * k + 3) s.heap.pmm := by
  have hparse {root : Nat} {drive : Int} {left : List Byte} {s1 : Sys}
      (e1 : pathparserCreatePathRoot env path s = .ok ((root, drive, left), s1)) :
      pathparserParse env path s ≠ .error .outOfBounds ↔
        pathparserCreatePathPart env left s1 ≠ .error .outOfBounds := by
    unfold pathparserParse
    rw [Exec.bind_of_ok e1]
    exact not_congr (Exec.bind_error_iff fun _ _ _ => linkFirst_ne hnull _ _ _ _)
  obtain ⟨drive, left, hdrive⟩ : ∃ drive left, pathparserGetDriveByPath path = (drive, left) := ⟨_, _, rfl⟩
  have hleft := not_mem_drive hnul
  by_cases h1 : s.heap.pmm.pmmAllocateBlock.1 = 0
  · refine iff_of_true ?_ fun k c _ _ hg => hg.1 h1
    rcases kzalloc_null hnull (by decide : sizeofPathRoot ≤ 4096) h1 with ⟨e, e1, hne⟩ | ⟨s1, e1, hpmm⟩
    · unfold pathparserParse pathparserCreatePathRoot
      rw [Exec.bind_of_error (Exec.bind_of_error e1)]
      exact fun h => hne (Except.error.inj h)
    · rcases nullStore_cases env 0 (uint32Bytes (BitVec.ofInt 32 drive) ++ uint32Bytes 0) s1 with
        ⟨e, he, e2⟩ | ⟨mem, e2⟩
      · have hroot : pathparserCreatePathRoot env path s = .error e := by
          unfold pathparserCreatePathRoot
          rw [Exec.bind_of_ok e1, hdrive]
          exact Exec.bind_of_error e2
        unfold pathparserParse
        rw [Exec.bind_of_error hroot]
        exact fun h => hnull.store _ _ _ (Except.error.inj h ▸ he)
      · have hroot : pathparserCreatePathRoot env path s = .ok ((0, drive, left), { s1 with mem := mem }) := by
          unfold pathparserCreatePathRoot
          rw [Exec.bind_of_ok e1, hdrive]
          exact Exec.bind_of_ok e2
        have hpmm1 : s1.heap.pmm = s.heap.pmm := hpmm.trans (Pmm.pmmAllocateBlock_null hsize h1)
        refine (hparse hroot).2 (createPathPartLoop_spent hnull _ (s := { s1 with mem := mem }) ?_ ?_ left)
        · rw [← hpmm1] at hsize
          exact hsize
        · rw [← hpmm1] at h1
          exact fun hg => hg.1 h1
  · obtain ⟨s1, e1, hpmm⟩ := pathparserCreatePathRoot_page env path h1
    rw [hdrive] at e1 hleft ⊢
    have hloop := createPathPartLoop_inside hnull hleft (Nat.lt_succ_self left.length) (s := s1)
      (by rw [hpmm, pmmSystemMemorySize_allocate]; exact hsize)
    have hgrants (k : Nat) : Grants (2 * k + 2) s1.heap.pmm ↔ Grants (2 * k + 3) s.heap.pmm := by
      rw [hpmm]
      exact (and_iff_right h1).symm
    simp only [hgrants] at hloop
    exact (hparse e1).trans hloop

/-! ## Where the cursor ends -/

/-- Two slashes in a row are the end of the string. -/
def DoublesAtEnd (path : List Byte) : Prop := ∀ u v, path = u ++ 0x2F :: 0x2F :: v → v = []

theorem doublesAtEnd_singleton (c : Byte) : DoublesAtEnd [c] := by
  intro u v h
  have hlen := congrArg List.length h
  rw [List.length_singleton, List.length_append, List.length_cons, List.length_cons] at hlen
  omega

theorem doublesAtEnd_double {v : List Byte} : DoublesAtEnd (0x2F :: 0x2F :: v) ↔ v = [] := by
  refine ⟨fun h => h [] v rfl, ?_⟩
  rintro rfl u v h
  have hlen := congrArg List.length h
  rw [List.length_append, List.length_cons, List.length_cons, List.length_cons, List.length_cons,
    List.length_nil] at hlen
  exact List.eq_nil_of_length_eq_zero (by omega)

theorem doublesAtEnd_cons {c : Byte} {cs : List Byte} (h : ∀ v, c :: cs ≠ 0x2F :: 0x2F :: v) :
    DoublesAtEnd (c :: cs) ↔ DoublesAtEnd cs := by
  refine ⟨fun hd u v he => hd (c :: u) v (by rw [he]; rfl), fun hd u v he => ?_⟩
  cases u with
  | nil => exact absurd he (h v)
  | cons d u => exact hd u v (List.cons_eq_cons.1 he).2

theorem doublesAtEnd_append : ∀ {comp : List Byte}, 0x2F ∉ comp → (DoublesAtEnd (comp ++ rest) ↔ DoublesAtEnd rest)
  | [], _ => Iff.rfl
  | c :: comp, h => by
    rw [List.mem_cons, not_or] at h
    rw [List.cons_append, doublesAtEnd_cons fun v he => h.1 (List.cons_eq_cons.1 he).1.symm, doublesAtEnd_append h.2]

theorem StartsWith.doublesAtEnd_iff (h : StartsWith path comp rest) (hne : comp ≠ []) :
    DoublesAtEnd (0x2F :: path) ↔ DoublesAtEnd (0x2F :: rest.tail) := by
  have hskip : DoublesAtEnd (0x2F :: path) ↔ DoublesAtEnd rest := by
    rw [doublesAtEnd_cons, h.eq, doublesAtEnd_append h.not_mem]
    intro v he
    obtain ⟨c, comp, rfl⟩ := List.exists_cons_of_ne_nil hne
    rw [h.eq] at he
    exact (h.chars c (List.mem_cons_self ..)).1 (List.cons_eq_cons.1 (List.cons_eq_cons.1 he).2).1
  rw [hskip]
  rcases h.rest with rfl | ⟨cs, rfl⟩
  · refine iff_of_true (fun u v he => ?_) (doublesAtEnd_singleton _)
    exact absurd he (List.append_ne_nil_of_right_ne_nil _ (List.cons_ne_nil _ _)).symm
  · exact Iff.rfl

/-- The components that name something. -/
abbrev named (path : List Byte) : List (List Byte) := (components path).filter fun c => c ≠ []

theorem StartsWith.named_cons (h : StartsWith path comp rest) (hne : comp ≠ []) :
    named path = comp :: named rest.tail := by
  unfold named
  rw [h.components_eq]
  split
  · rename_i hrest
    rw [hrest, List.filter_cons, if_pos (decide_eq_true hne)]
    rfl
  · rw [List.filter_cons, if_pos (decide_eq_true hne)]

/-- With no memory left there are no parts. -/
theorem createPathPartLoop_empty (hnul : 0 ∉ path) {parts : List (Ptr PathPart)} {left : List Byte}
    (h0 : s.heap.pmm.pmmAllocateBlock.1 = 0) (h : createPathPartLoop env n path s = .ok ((parts, left), s')) :
    parts = [] := by
  cases n with
  | zero => cases h
  | succ n =>
    obtain ⟨comp, rest, hstart⟩ := exists_startsWith hnul
    unfold createPathPartLoop at h
    obtain ⟨⟨o, tail⟩, s1, e1, h⟩ := Exec.of_bind_ok h
    obtain ⟨-, temp, cTemp, t1, t2, a1, -, hcases⟩ := of_getPathPart_ok hstart e1
    obtain ⟨htemp, -⟩ := of_kzalloc_page (by decide) a1
    rcases hcases with ⟨-, rfl⟩ | ⟨-, -, rfl⟩ | ⟨-, hne, -⟩
    · cases h
      rfl
    · cases h
      rfl
    · exact absurd (htemp.trans h0) hne

/-- The loop comes to the end of the path with every name exactly when slashes are doubled at the end only and there is
memory for every name. -/
theorem createPathPartLoop_through :
    ∀ {n : Nat} {path left : List Byte} {parts : List (Ptr PathPart)} {s s' : Sys}, 0 ∉ path →
    s.heap.pmm.pmmSystemMemorySize ≤ 2 ^ 20 → createPathPartLoop env n path s = .ok ((parts, left), s') →
    (left = [] ∧ (named path).Sublist (partNames parts) ↔ DoublesAtEnd (0x2F :: path) ∧
      Grants (2 * (named path).length) s.heap.pmm)
  | 0, _, _, _, _, _, _, _, h => by cases h
  | n + 1, path, left, parts, s, s', hnul, hsize, h => by
    obtain ⟨comp, rest, hstart⟩ := exists_startsWith hnul
    unfold createPathPartLoop at h
    obtain ⟨⟨o, tail⟩, s1, e1, h⟩ := Exec.of_bind_ok h
    obtain ⟨rfl, temp, cTemp, t1, t2, a1, a2, hcases⟩ := of_getPathPart_ok hstart e1
    obtain ⟨htemp, hpmm1⟩ := of_kzalloc_page (by decide) a1
    obtain ⟨hcTemp, hpmm2⟩ := of_kzalloc_page (by decide) a2
    rw [hpmm1] at hcTemp hpmm2
    rcases hcases with ⟨rfl, rfl⟩ | ⟨hne, h0, rfl⟩ | ⟨hne, h1, hheap, rfl⟩
    · cases h
      have heq : path = rest := hstart.eq
      rcases hstart.rest with rfl | ⟨cs, rfl⟩
      · rw [heq]
        exact iff_of_true ⟨rfl, List.nil_sublist _⟩ ⟨doublesAtEnd_singleton _, trivial⟩
      · -- the slash after an empty component follows another slash
        rw [heq, doublesAtEnd_double]
        refine ⟨fun h => ⟨h.1, ?_⟩, fun h => ⟨h.1, ?_⟩⟩
        · have hcs : cs = [] := h.1
          rw [hcs]
          trivial
        · rw [h.1]
          exact List.nil_sublist _
    · -- no structure: the name is missing
      cases h
      rw [hstart.named_cons hne]
      refine iff_of_false (fun h => List.cons_ne_nil _ _ (List.sublist_nil.1 h.2)) fun h => ?_
      exact h.2.1 (htemp.symm.trans h0)
    · obtain ⟨⟨next, last⟩, s2, e2, h⟩ := Exec.of_bind_ok h
      cases h
      have hsize1 : s1.heap.pmm.pmmSystemMemorySize ≤ 2 ^ 20 := by
        rw [hheap, hpmm2, pmmSystemMemorySize_allocate, pmmSystemMemorySize_allocate]
        exact hsize
      have hgrants : Grants (2 * (named path).length) s.heap.pmm ↔ cTemp ≠ 0 ∧
        Grants (2 * (named rest.tail).length) s1.heap.pmm := by
        rw [hstart.named_cons hne, List.length_cons,
          show 2 * ((named rest.tail).length + 1) = 2 * (named rest.tail).length + 1 + 1 by omega, Grants, Grants,
          hheap, hpmm2, hcTemp, ← htemp]
        exact and_iff_right h1
      rw [hgrants, hstart.doublesAtEnd_iff hne, hstart.named_cons hne, partNames, List.map_cons]
      by_cases hc : cTemp = 0
      · -- no buffer: the name is lost, and no name follows
        have hnone : s1.heap.pmm.pmmAllocateBlock.1 = 0 := by
          have h2 : s.heap.pmm.pmmAllocateBlock.2.pmmAllocateBlock.1 = 0 := hcTemp.symm.trans hc
          have hsize2 : s.heap.pmm.pmmAllocateBlock.2.pmmSystemMemorySize ≤ 2 ^ 20 := by
            rw [pmmSystemMemorySize_allocate]
            exact hsize
          rw [hheap, hpmm2, Pmm.pmmAllocateBlock_null hsize2 h2]
          exact h2
        obtain rfl := createPathPartLoop_empty (hstart.tail_nul hnul) hnone e2
        refine iff_of_false (fun h => hne ?_) fun h => h.2.1 hc
        have hsub := h.2
        simp only [if_pos hc] at hsub
        exact List.mem_singleton.1 (hsub.subset (List.mem_cons_self ..))
      · have ih := createPathPartLoop_through (hstart.tail_nul hnul) hsize1 e2
        simp only [if_neg hc]
        rw [List.cons_sublist_cons, ih, and_iff_right hc]

/-- A path on a drive: more than three characters, a digit, a colon and a slash first. -/
structure IsDrivePath (path : List Byte) : Prop where
  long : 3 < path.length
  digit : isDigit (charAt path 0) = true
  colon : charAt path 1 = 0x3A
  slash : charAt path 2 = 0x2F
  nul : 0 ∉ path

theorem strnlen_of_not_mem : ∀ {str : List Byte} {max : Nat}, 0 ∉ str → strnlen str max = min str.length max
  | [], max, _ => by
    rw [strnlen, List.length_nil, Nat.zero_min]
  | c :: cs, 0, _ => by
    rw [Nat.min_zero]
    rfl
  | c :: cs, max + 1, h => by
    rw [List.mem_cons, not_or] at h
    rw [strnlen, if_neg (Ne.symm h.1), strnlen_of_not_mem h.2, List.length_cons, Nat.add_min_add_right]

theorem IsDrivePath.drive_eq (h : IsDrivePath path) :
    pathparserGetDriveByPath path = (toNumericDigit (charAt path 0), path.drop 3) := by
  have hlen : ¬ strnlen path maxPath ≤ 3 := by
    have hlong := h.long
    rw [strnlen_of_not_mem h.nul, maxPath]
    omega
  unfold pathparserGetDriveByPath pathparserPathValidFormat
  simp only [if_neg hlen, h.digit, h.colon, h.slash]
  rfl

theorem IsDrivePath.drop_two (h : IsDrivePath path) : path.drop 2 = 0x2F :: path.drop 3 := by
  have hlong := h.long
  have hslash : path[2] = 0x2F := by
    have hs := h.slash
    rw [charAt, List.getElem?_eq_getElem (by omega), Option.getD_some] at hs
    exact hs
  rw [List.drop_eq_getElem_cons (by omega), hslash]

/-- The names in the list of a root; through a null root there is none. -/
def rootNames (root : Option (Ptr PathRoot)) : List (List Byte) := root.elim [] fun r => partNames r.val.first

section
variable {root : Option (Ptr PathRoot)} {left : List Byte}

/-- A parse that returns went through the loop, from the state the root was allocated in. -/
theorem of_pathparserParsePointer_ok (hpath : IsDrivePath path)
    (h : pathparserParsePointer env path s = .ok ((root, left), s')) :
    ∃ drive parts s1 s2, s1.heap.pmm = s.heap.pmm.pmmAllocateBlock.2 ∧
      createPathPartLoop env ((path.drop 3).length + 1) (path.drop 3) s1 = .ok ((parts, left), s2) ∧
      linkFirst env s.heap.pmm.pmmAllocateBlock.1 drive parts s2 = .ok (root, s') := by
  unfold pathparserParsePointer at h
  obtain ⟨⟨temp, drive, start⟩, s1, e1, h⟩ := Exec.of_bind_ok h
  obtain ⟨hstart, hpmm⟩ := of_pathparserCreatePathRoot_ok e1
  rw [hpath.drive_eq] at hstart
  cases hstart
  obtain ⟨⟨first, last⟩, s2, e2, h⟩ := Exec.of_bind_ok h
  obtain ⟨r, s3, e3, h⟩ := Exec.of_bind_ok h
  cases h
  exact ⟨_, first, s1, s2, hpmm, e2, e3⟩

theorem pathparserParsePointer_rooted (hpath : IsDrivePath path) (hsize : s.heap.pmm.pmmSystemMemorySize ≤ 2 ^ 20)
    (h0 : s.heap.pmm.pmmAllocateBlock.1 ≠ 0) (h : pathparserParsePointer env path s = .ok ((root, left), s')) :
    left = [] ∧ (named (path.drop 3)).Sublist (rootNames root) ↔
      DoublesAtEnd (path.drop 2) ∧ Grants (2 * (named (path.drop 3)).length + 1) s.heap.pmm := by
  obtain ⟨drive, parts, s1, s2, hpmm, e2, e3⟩ := of_pathparserParsePointer_ok hpath h
  have hnul : 0 ∉ path.drop 3 := fun hin => hpath.nul (List.mem_of_mem_drop hin)
  have hthrough := createPathPartLoop_through hnul (by rw [hpmm, pmmSystemMemorySize_allocate]; exact hsize) e2
  rw [linkFirst_root h0] at e3
  cases e3
  rw [hpath.drop_two, Grants, and_iff_right h0, ← hpmm]
  exact hthrough

theorem pathparserParsePointer_unrooted (hpath : IsDrivePath path) (hsize : s.heap.pmm.pmmSystemMemorySize ≤ 2 ^ 20)
    (h0 : s.heap.pmm.pmmAllocateBlock.1 = 0) (h : pathparserParsePointer env path s = .ok ((root, left), s')) :
    left = [] ∧ (named (path.drop 3)).Sublist (rootNames root) ↔ DoublesAtEnd (path.drop 2) ∧
    named (path.drop 3) = [] := by
  obtain ⟨drive, parts, s1, s2, hpmm, e2, e3⟩ := of_pathparserParsePointer_ok hpath h
  have hnul : 0 ∉ path.drop 3 := fun hin => hpath.nul (List.mem_of_mem_drop hin)
  have hpmm := hpmm.trans (Pmm.pmmAllocateBlock_null hsize h0)
  rw [← hpmm] at hsize
  have h1 : s1.heap.pmm.pmmAllocateBlock.1 = 0 := by rwa [hpmm]
  have hthrough := createPathPartLoop_through hnul hsize e2
  obtain rfl := createPathPartLoop_empty hnul h1 e2
  have hroot : rootNames root = [] := by
    unfold linkFirst at e3
    rw [if_pos h0] at e3
    obtain ⟨_, _, -, e3⟩ := Exec.of_bind_ok e3
    cases e3
    rfl
  rw [hroot, hpath.drop_two]
  refine hthrough.trans (and_congr_right fun _ => ?_)
  cases hnamed : named (path.drop 3) with
  | nil => exact iff_of_true trivial rfl
  | cons c cs => exact iff_of_false (fun hg => hg.1 h1) (List.cons_ne_nil _ _)

/-- A parse that returns has come to the NUL with every name of the path exactly when two slashes in a row, the
one of the drive included, are the end of the path, and blocks for the root and for every name are granted. -/
theorem pathparserParse_through_iff (hpath : IsDrivePath path) (hsize : s.heap.pmm.pmmSystemMemorySize ≤ 2 ^ 20)
    (h : pathparserParsePointer env path s = .ok ((root, left), s')) :
    left = [] ∧ (named (path.drop 3)).Sublist (rootNames root) ↔
      DoublesAtEnd (path.drop 2) ∧
      (named (path.drop 3) = [] ∨ Grants (2 * (named (path.drop 3)).length + 1) s.heap.pmm) := by
  by_cases h0 : s.heap.pmm.pmmAllocateBlock.1 = 0
  · rw [pathparserParsePointer_unrooted hpath hsize h0 h]
    exact and_congr_right fun _ => ⟨.inl, fun hg => hg.resolve_right fun hg => hg.1 h0⟩
  · rw [pathparserParsePointer_rooted hpath hsize h0 h]
    refine and_congr_right fun _ => ⟨.inr, fun hg => hg.elim (fun hnil => ?_) id⟩
    rw [hnil]
    exact ⟨h0, trivial⟩

end

end

section
variable {env : Env} {s : Sys} {path : List Byte}

/-- With memory for every part, a path whose parts fit is parsed. -/
theorem pathparserParsePointer_returns (env : Env) (hnul : 0 ∉ path)
    (hshort : ∀ c ∈ leading (pathparserGetDriveByPath path).2, c.length < maxPath)
    (hmem : Grants (2 * (leading (pathparserGetDriveByPath path).2).length + 3) s.heap.pmm) :
    ∃ root left s', pathparserParsePointer env path s = .ok ((root, left), s') := by
  obtain ⟨s1, e1, hpmm⟩ := pathparserCreatePathRoot_page env path hmem.1
  obtain ⟨drive, start, hdrive⟩ : ∃ drive start, pathparserGetDriveByPath path = (drive, start) := ⟨_, _, rfl⟩
  have hleft := not_mem_drive hnul
  rw [hdrive] at e1 hleft hshort hmem
  obtain ⟨parts, left, s2, e2⟩ := createPathPartLoop_returns env hleft (Nat.lt_succ_self start.length) hshort
    (by rw [hpmm]; exact hmem.2)
  refine ⟨some ⟨s.heap.pmm.pmmAllocateBlock.1, ⟨drive, parts⟩⟩, left, s2, ?_⟩
  unfold pathparserParsePointer
  rw [Exec.bind_of_ok e1]
  have hpart : pathparserCreatePathPart env start s1 = .ok ((parts, left), s2) := e2
  simp only
  rw [Exec.bind_of_ok hpart]
  exact Exec.bind_of_ok (linkFirst_root hmem.1 drive parts s2)

/-- A first component that is too long is stored past its buffer. -/
theorem pathparserParse_long (env : Env) {comp rest : List Byte}
    (hstart : StartsWith (pathparserGetDriveByPath path).2 comp rest) (hlong : maxPath ≤ comp.length)
    (hmem : Grants 3 s.heap.pmm) : pathparserParse env path s = .error .outOfBounds := by
  obtain ⟨s1, e1, hpmm⟩ := pathparserCreatePathRoot_page env path hmem.1
  obtain ⟨drive, start, hdrive⟩ : ∃ drive start, pathparserGetDriveByPath path = (drive, start) := ⟨_, _, rfl⟩
  rw [hdrive] at e1 hstart
  unfold pathparserParse
  rw [Exec.bind_of_ok e1]
  refine Exec.bind_of_error ?_
  unfold pathparserCreatePathPart createPathPartLoop
  exact Exec.bind_of_error (hstart.getPathPart_long env hlong (by rw [hpmm]; exact hmem.2))

end

theorem grants_bare (n : Nat) (hn : n ≤ 4094) : Grants n (bare 4096 1).heap.pmm :=
  Room.grants (Pmm.Room.mono (room_bare (by decide) (by decide) (by decide)) hn)

/-- A name of 108 characters. -/
def overlongName : List Byte := List.replicate 108 0x61

theorem chars_overlongName : ∀ c ∈ overlongName, c ≠ 0x2F ∧ c ≠ 0 := by
  intro c hc
  rw [List.eq_of_mem_replicate hc]
  decide

theorem nul_overlongName {name : List Byte} (h : name ⊆ overlongName) : 0 ∉ [0x30, 0x3A, 0x2F] ++ name := by
  intro hin
  rcases List.mem_append.1 hin with hin | hin
  · exact absurd hin (by decide)
  · exact (chars_overlongName 0 (h hin)).2 rfl

theorem nullInside_zeroDisk : NullInside zeroDisk := ⟨fun _ _ => Exec.ok_ne _, fun _ _ _ h => by cases h⟩

/-- A path of 111 characters overruns the buffer. -/
theorem pathparserParse_overruns : ¬ ∀ (env : Env) (path : List Byte) (s : Sys), NullInside env → 0 ∉ path →
    s.heap.pmm.pmmSystemMemorySize ≤ 2 ^ 20 → pathparserParse env path s ≠ .error .outOfBounds := by
  intro h
  have hnul : 0 ∉ [0x30, 0x3A, 0x2F] ++ overlongName := nul_overlongName (List.Subset.refl _)
  have hdrive : IsDrivePath ([0x30, 0x3A, 0x2F] ++ overlongName) := ⟨by decide, rfl, rfl, rfl, hnul⟩
  have hstart : StartsWith (pathparserGetDriveByPath ([0x30, 0x3A, 0x2F] ++ overlongName)).2 overlongName [] := by
    rw [hdrive.drive_eq]
    exact ⟨(List.append_nil _).symm, chars_overlongName, .inl rfl⟩
  exact h zeroDisk _ (bare 4096 1) nullInside_zeroDisk hnul (by rw [bare_pmm]; decide)
    (pathparserParse_long zeroDisk hstart List.length_replicate.ge (grants_bare 3 (by decide)))

/-- A name one character shorter does not. -/
theorem pathparserParse_inside_longest :
    pathparserParse zeroDisk ([0x30, 0x3A, 0x2F] ++ overlongName.tail) (bare 4096 1) ≠ .error .outOfBounds ↔
      ∀ k c, (leading (pathparserGetDriveByPath ([0x30, 0x3A, 0x2F] ++ overlongName.tail)).2)[k]? = some c →
      maxPath ≤ c.length →
        ¬ Grants (2 * k + 3) (bare 4096 1).heap.pmm :=
  pathparserParse_inside_iff nullInside_zeroDisk (nul_overlongName (List.tail_subset _)) (by rw [bare_pmm]; decide)

/-- `0:/a//b`. -/
def doubledPath : List Byte := [0x30, 0x3A, 0x2F, 0x61, 0x2F, 0x2F, 0x62]

theorem isDrivePath_doubledPath : IsDrivePath doubledPath := ⟨by decide, rfl, rfl, rfl, by decide⟩

theorem doubledPath_returns : ∃ root left s',
    pathparserParsePointer zeroDisk doubledPath (bare 4096 1) = .ok ((root, left), s') := by
  refine pathparserParsePointer_returns zeroDisk (by decide) (by decide) (grants_bare _ ?_)
  decide

/-- The parse of `0:/a//b` returns before `b`. -/
theorem pathparserParse_through_doubled : ∃ root left s',
    pathparserParsePointer zeroDisk doubledPath (bare 4096 1) = .ok ((root, left), s') ∧
      (left = [] ∧ (named (doubledPath.drop 3)).Sublist (rootNames root) ↔ DoublesAtEnd (doubledPath.drop 2) ∧
        (named (doubledPath.drop 3) = [] ∨
          Grants (2 * (named (doubledPath.drop 3)).length + 1) (bare 4096 1).heap.pmm)) := by
  obtain ⟨root, left, s', h⟩ := doubledPath_returns
  exact ⟨root, left, s', h, pathparserParse_through_iff isDrivePath_doubledPath (by rw [bare_pmm]; decide) h⟩

/-- The name after a doubled slash is dropped. -/
theorem pathparserParse_drops : ¬ ∀ (env : Env) (path : List Byte) (s : Sys) (root : Option (Ptr PathRoot))
    (left : List Byte) (s' : Sys),
    IsDrivePath path → (∀ c ∈ components (path.drop 3), c.length ≤ 107) →
    pathparserParsePointer env path s = .ok ((root, left), s') →
    left = [] ∧ (named (path.drop 3)).Sublist (rootNames root) := by
  intro h
  obtain ⟨root, left, s', hrun⟩ := doubledPath_returns
  have hall := h zeroDisk doubledPath (bare 4096 1) root left s' isDrivePath_doubledPath (by decide) hrun
  have hgrants : Grants 1 (bare 4096 1).heap.pmm := grants_bare 1 (by decide)
  have hiff := pathparserParsePointer_rooted isDrivePath_doubledPath (by rw [bare_pmm]; decide) hgrants.1 hrun
  exact absurd ((hiff.1 hall).1 [0x2F, 0x61] [0x62] rfl) (List.cons_ne_nil _ _)

end SimpleMicrokernel.Fs
