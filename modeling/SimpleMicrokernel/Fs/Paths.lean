/-
Parsing a printed path: the drive, the components one after another with a slash between them, and a
slash at the end or none. The cursor comes through the drive, then past one component and its slash
at a time, and is on the terminating NUL when an empty component ends the loop.
-/
import SimpleMicrokernel.Fs.Components

namespace SimpleMicrokernel.Fs

open Memory Disk

/-- A name is a part of a path: no slash and no NUL, and short enough for its buffer. -/
structure IsPart (name : List Byte) : Prop where
  nonempty : 0 < name.length
  chars : ∀ c ∈ name, c ≠ 0x2F ∧ c ≠ 0
  short : name.length < maxPath

/-- The components with a slash between them, and one after the last when there is a trailing slash. -/
def printParts (trailing : Bool) : List (List Byte) → List Byte
  | [] => []
  | [c] => c ++ if trailing then [0x2F] else []
  | c :: cs => c ++ 0x2F :: printParts trailing cs

/-- `d:/c1/c2/.../cn`. -/
def printPath (d : Nat) (cs : List (List Byte)) (trailing : Bool) : List Byte :=
  BitVec.ofNat 8 (48 + d) :: 0x3A :: 0x2F :: printParts trailing cs

theorem printParts_cons (trailing : Bool) (c : List Byte) (cs : List (List Byte)) :
    ∃ rest, printParts trailing (c :: cs) = c ++ rest ∧
      (rest = [] ∧ cs = [] ∨ rest = 0x2F :: printParts trailing cs) := by
  cases cs with
  | nil =>
    cases trailing with
    | false => exact ⟨[], rfl, .inl ⟨rfl, rfl⟩⟩
    | true => exact ⟨[0x2F], rfl, .inr rfl⟩
  | cons c' cs => exact ⟨_, rfl, .inr rfl⟩

section
variable {s : Sys}

/-- The loop gives the components in order, and comes to the end of the path. -/
theorem createPathPartLoop_print (env : Env) (trailing : Bool) : ∀ {cs : List (List Byte)} {k : Nat} {s : Sys},
    (∀ c ∈ cs, IsPart c) → cs.length < k → Grants (2 * cs.length + 2) s.heap.pmm →
    ∃ parts s', createPathPartLoop env k (printParts trailing cs) s = .ok ((parts, []), s') ∧
      (parts.map fun part => part.val.part.val) = cs
  | [], k + 1, s, _, _, hmem => by
    have hstart : StartsWith [] [] [] := ⟨rfl, fun _ h => absurd h List.not_mem_nil, .inl rfl⟩
    obtain ⟨s', e⟩ := hstart.getPathPart_empty env hmem
    refine ⟨[], s', ?_, rfl⟩
    rw [printParts, createPathPartLoop, Exec.bind_of_ok e]
    rfl
  | c :: cs, k + 1, s, hcs, hlt, hmem => by
    obtain ⟨rest, hprint, hrest⟩ := printParts_cons trailing c cs
    have hend : rest = [] ∨ ∃ cs, rest = 0x2F :: cs := hrest.imp And.left fun h => ⟨_, h⟩
    have htail : rest.tail = printParts trailing cs := by
      rcases hrest with ⟨rfl, rfl⟩ | rfl
      · rfl
      · rfl
    rw [List.length_cons] at hlt hmem
    have hc := hcs c (List.mem_cons_self ..)
    have hstart : StartsWith (printParts trailing (c :: cs)) c rest := ⟨hprint, hc.chars, hend⟩
    obtain ⟨hmem2, hmem⟩ := (grants_add (n := 2) (2 * cs.length + 2)).1
      (by rwa [show 2 + (2 * cs.length + 2) = 2 * (cs.length + 1) + 2 by omega])
    obtain ⟨part, s1, e1, hpart, hpmm⟩ := hstart.getPathPart_fits env
      (List.ne_nil_of_length_pos hc.nonempty) hc.short hmem2
    rw [htail] at e1
    obtain ⟨parts, s2, e2, hparts⟩ := createPathPartLoop_print env trailing
      (fun c hc => hcs c (List.mem_cons_of_mem _ hc))
      (Nat.lt_of_succ_lt_succ hlt) (by rwa [hpmm])
    refine ⟨part :: parts, s2, ?_, by rw [List.map_cons, hpart, hparts]⟩
    rw [createPathPartLoop, Exec.bind_of_ok e1]
    simp only
    rw [Exec.bind_of_ok e2]
    rfl

theorem length_le_printParts (trailing : Bool) : ∀ {cs : List (List Byte)}, (∀ c ∈ cs, IsPart c) →
    cs.length ≤ (printParts trailing cs).length
  | [], _ => Nat.zero_le _
  | c :: cs, hcs => by
    obtain ⟨rest, hprint, hrest⟩ := printParts_cons trailing c cs
    have hc := (hcs c (List.mem_cons_self ..)).nonempty
    have hle := length_le_printParts trailing fun c hc => hcs c (List.mem_cons_of_mem _ hc)
    rw [hprint, List.length_append, List.length_cons]
    rcases hrest with ⟨rfl, rfl⟩ | rfl
    · rw [List.length_nil]
      omega
    · rw [List.length_cons]
      omega

/-- The drive is the digit, and the cursor is left on the first component. -/
theorem pathparserGetDriveByPath_print {d : Nat} (hd : d < 10) {cs : List (List Byte)} (hcs : ∀ c ∈ cs, IsPart c)
    (hne : cs ≠ []) (trailing : Bool) :
    pathparserGetDriveByPath (printPath d cs trailing) = ((d : Int), printParts trailing cs) := by
  obtain ⟨ch, rest, hch, hprint⟩ : ∃ ch rest, ch ≠ (0 : Byte) ∧ printParts trailing cs = ch :: rest := by
    cases cs with
    | nil => exact absurd rfl hne
    | cons c cs =>
      have hc := hcs c (List.mem_cons_self ..)
      obtain ⟨rest, hprint, -⟩ := printParts_cons trailing c cs
      cases c with
      | nil => exact absurd hc.nonempty (by decide)
      | cons ch c => exact ⟨ch, c ++ rest, (hc.chars ch (List.mem_cons_self ..)).2, hprint⟩
  have hdigits : ∀ d < 10, BitVec.ofNat 8 (48 + d) ≠ (0 : Byte) ∧ isDigit (BitVec.ofNat 8 (48 + d)) = true ∧
      toNumericDigit (BitVec.ofNat 8 (48 + d)) = d := by decide
  have hdigit := hdigits d hd
  have hlen : ¬ strnlen (printPath d cs trailing) maxPath ≤ 3 := by
    unfold printPath
    rw [hprint]
    simp only [strnlen, if_neg hdigit.1, if_neg hch]
    have h2 : (0x3A : Byte) ≠ 0 := by decide
    have h3 : (0x2F : Byte) ≠ 0 := by decide
    rw [if_neg h2, if_neg h3]
    omega
  have hfirst : charAt (printPath d cs trailing) 0 = BitVec.ofNat 8 (48 + d) := rfl
  unfold pathparserGetDriveByPath pathparserPathValidFormat
  simp only [if_neg hlen, hfirst, hdigit.2.1, hdigit.2.2]
  rfl

/-- Parsing inverts printing: the drive and the components come back, and the cursor that the two steps of
the parse move ends on the NUL. -/
theorem pathparserParse_print (env : Env) {d : Nat} (hd : d < 10) {cs : List (List Byte)} (hne : cs ≠ [])
    (hcs : ∀ c ∈ cs, IsPart c) (trailing : Bool) (hmem : Grants (2 * cs.length + 3) s.heap.pmm) :
    ∃ root parts s', pathparserParse env (printPath d cs trailing) s = .ok (some ⟨root, ⟨d, parts⟩⟩, s') ∧
      (parts.map fun part => part.val.part.val) = cs ∧
      ∃ rest s1, pathparserCreatePathRoot env (printPath d cs trailing) s = .ok ((root, d, rest), s1) ∧
        pathparserCreatePathPart env rest s1 = .ok ((parts, []), s') := by
  obtain ⟨s1, hroot, hpmm⟩ := pathparserCreatePathRoot_page env (printPath d cs trailing) hmem.1
  rw [pathparserGetDriveByPath_print hd hcs hne] at hroot
  obtain ⟨parts, s2, e2, hparts⟩ := createPathPartLoop_print env trailing (k := (printParts trailing cs).length + 1) hcs
    (Nat.lt_succ_of_le (length_le_printParts trailing hcs)) (by rw [hpmm]; exact hmem.2)
  have hpart : pathparserCreatePathPart env (printParts trailing cs) s1 = .ok ((parts, []), s2) := e2
  refine ⟨_, parts, s2, ?_, hparts, printParts trailing cs, s1, hroot, hpart⟩
  unfold pathparserParse
  rw [Exec.bind_of_ok hroot]
  simp only
  rw [Exec.bind_of_ok hpart]
  exact linkFirst_root hmem.1 d parts s2

end

/-- The path of the parser test. -/
theorem pathparserParse_binShell :
    ∃ root parts s', pathparserParse zeroDisk
        (printPath 1 [[0x62, 0x69, 0x6E], [0x73, 0x68, 0x65, 0x6C, 0x6C, 0x2E, 0x65, 0x78, 0x65]] false) (bare 4096 1) =
          .ok (some ⟨root, ⟨1, parts⟩⟩, s') ∧
      (parts.map fun part => part.val.part.val) =
      [[0x62, 0x69, 0x6E], [0x73, 0x68, 0x65, 0x6C, 0x6C, 0x2E, 0x65, 0x78, 0x65]] ∧
      ∃ rest s1, pathparserCreatePathRoot zeroDisk
      (printPath 1 [[0x62, 0x69, 0x6E], [0x73, 0x68, 0x65, 0x6C, 0x6C, 0x2E, 0x65, 0x78, 0x65]]
          false) (bare 4096 1) = .ok ((root, 1, rest), s1) ∧
        pathparserCreatePathPart zeroDisk rest s1 = .ok ((parts, []), s') := by
  have hroom : (bare 4096 1).Room 4094 := room_bare (by decide) (by decide) (by decide)
  have hparts : ∀ c ∈ [[0x62, 0x69, 0x6E], [0x73, 0x68, 0x65, 0x6C, 0x6C, 0x2E, 0x65, 0x78, 0x65]], IsPart c := by
    intro c hc
    rcases List.mem_cons.1 hc with rfl | hc
    · exact ⟨by decide, by decide, by decide⟩
    · rw [List.mem_singleton.1 hc]
      exact ⟨by decide, by decide, by decide⟩
  exact pathparserParse_print zeroDisk (by decide) (by decide) hparts false
    (Room.grants (Pmm.Room.mono hroom (by decide)))

end SimpleMicrokernel.Fs
