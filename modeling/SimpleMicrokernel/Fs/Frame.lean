/-
What opening and reading leave alone: opening frames everything that was held before, and a read
stores to its buffer and moves streams.
-/
import SimpleMicrokernel.Fs.Open

namespace SimpleMicrokernel.Fs

open Memory Fat16

section
variable {reserved size : Nat} {keep : Prop} {held : List Live} {env : Env} {s s' : Sys}

/-! ## Paths -/

theorem framed_storePart (hkeep : keep → FillsBelow env reserved) (cTemp : Nat) (part : List Byte) :
    Framed reserved size keep held (storePart env cTemp part) := by
  unfold storePart
  exact Exec.keeps_ite (framed_nullStore hkeep _ _) (Exec.keeps_pure _)

/-- A part that is empty gives back the structure allocated for it, and not its buffer. -/
theorem framed_pathparserGetPathPart (hkeep : keep → FillsBelow env reserved) (path : List Byte) :
    Framed reserved size keep held (pathparserGetPathPart env path) := by
  intro s r s' h
  unfold pathparserGetPathPart at h
  obtain ⟨temp, s1, h1, h⟩ := Exec.of_bind_ok h
  obtain ⟨cTemp, s2, h2, h⟩ := Exec.of_bind_ok h
  obtain ⟨p, s3, h3, h⟩ := Exec.of_bind_ok h
  obtain ⟨-, rfl⟩ := Exec.of_lift_ok h3
  obtain ⟨part, rest⟩ := p
  have z1 : ∀ held, FramesSys reserved size keep held s s1 ∧ _ :=
    fun held => kzalloc_spec (fun hk => .inl (hkeep hk)) h1
  have f2 : ∀ held, FramesSys reserved size keep held s1 s2 := fun held => framed_kzalloc hkeep maxPath _ _ _ h2
  obtain ⟨_, s3, h3, h⟩ := Exec.of_bind_ok h
  have f3 : ∀ held, FramesSys reserved size keep held s2 s3 := fun held => framed_storePart hkeep cTemp part _ _ _ h3
  have f13 := ((z1 held).1.trans' (f2 held)).trans' (f3 held)
  simp only at h
  split at h
  · obtain ⟨_, s4, h4, h⟩ := Exec.of_bind_ok h
    obtain ⟨-, rfl⟩ := Exec.of_pure_ok h
    intro hok hheld
    obtain ⟨hok1, hheld1, -⟩ := (z1 held).1 hok hheld
    by_cases h0 : temp = 0
    · have hout : ∀ b ∈ held, b.addr ≠ temp := by
        intro b hb
        have := (hok.in32 (hheld hb)).2.1
        omega
      exact (f13.trans' (kfree_spec (.inl h0) hout h4)) hok hheld
    · have o1 := owns_kzalloc hok1 hheld ((z1 held).2 hok h0)
      have hbase := List.append_subset.2 ⟨o1.live, hheld1⟩
      have hlive3 := (List.append_subset.1 (((f2 _).trans' (f3 _)) hok1 hbase).2.1).1
      exact (f13.trans' (kfree_owned (o1.frames hlive3) h4).1) hok hheld
  · split at h
    · obtain ⟨_, s4, h4, h⟩ := Exec.of_bind_ok h
      obtain ⟨-, rfl⟩ := Exec.of_pure_ok h
      exact f13.trans' (framed_nullStore hkeep _ _ _ _ _ h4)
    · obtain ⟨-, rfl⟩ := Exec.of_pure_ok h
      exact f13

theorem framed_createPathPartLoop (hkeep : keep → FillsBelow env reserved) : ∀ (n : Nat) (path : List Byte),
    Framed reserved size keep held (createPathPartLoop env n path)
  | 0, path => Exec.keeps_throw _
  | n + 1, path => by
    rw [createPathPartLoop]
    refine Exec.keeps_bind (framed_pathparserGetPathPart hkeep path) fun p => ?_
    obtain ⟨part, rest⟩ := p
    cases part with
    | none => exact Exec.keeps_pure _
    | some part => exact Exec.keeps_bind (framed_createPathPartLoop hkeep n rest) fun q => Exec.keeps_pure _

theorem framed_linkFirst (hkeep : keep → FillsBelow env reserved) (root : Nat) (drivePath : Int)
    (first : List (Ptr PathPart)) :
    Framed reserved size keep held (linkFirst env root drivePath first) := by
  unfold linkFirst
  exact Exec.keeps_ite (Exec.keeps_bind (framed_nullStore hkeep _ _) fun _ => Exec.keeps_pure _) (Exec.keeps_pure _)

theorem framed_pathparserParse (hkeep : keep → FillsBelow env reserved) (path : List Byte) :
    Framed reserved size keep held (pathparserParse env path) := by
  unfold pathparserParse pathparserCreatePathRoot
  refine Exec.keeps_bind ?_ fun p => ?_
  · refine Exec.keeps_bind (framed_kzalloc hkeep _) fun temp => ?_
    exact Exec.keeps_ite (Exec.keeps_bind (framed_nullStore hkeep _ _) fun _ => Exec.keeps_pure _) (Exec.keeps_pure _)
  · exact Exec.keeps_bind (framed_createPathPartLoop hkeep _ _) fun q => framed_linkFirst hkeep _ _ _

/-! ## Opening -/

theorem framed_of_makes {α : Type} {addrs : α → List Nat} {x : FsM (Option α)} (h : Makes reserved size keep addrs x) :
    Framed reserved size keep held x := fun s r s' hx => (h held s r s' hx).1

theorem framed_fat16Open (hkeep : keep → FillsBelow env reserved) (pathPart : List Byte) (next : List (List Byte))
    (mode : FileMode) :
    Framed reserved size keep held (fat16Open env pathPart next mode) := by
  unfold fat16Open
  refine Exec.keeps_ite (Exec.keeps_pure _) ?_
  refine Exec.keeps_bind (framed_kzalloc hkeep _) fun descriptor => ?_
  refine Exec.keeps_ite (Exec.keeps_pure _) ?_
  refine Exec.keeps_bind (framed_of_makes (makes_fat16GetDirectoryEntry hkeep _ _)) fun fItem => ?_
  refine Exec.keeps_bind (framed_of_makes (makes_fat16GetDirectoryEntry hkeep _ _)) fun item => ?_
  cases item with
  | none => exact Exec.keeps_pure _
  | some item => exact Exec.keeps_pure _

theorem framed_fileNewDescriptor (hkeep : keep → FillsBelow env reserved) (privateData : Ptr FatFileDescriptor) :
    Framed reserved size keep held (fileNewDescriptor env privateData) := by
  unfold fileNewDescriptor
  refine Exec.keeps_bind Exec.keeps_get fun s => ?_
  split
  · exact Exec.keeps_pure _
  · refine Exec.keeps_bind (framed_kzalloc hkeep _) fun desc => ?_
    refine Exec.keeps_ite ?_ (Exec.keeps_bind (framed_modify fun s => rfl) fun _ => Exec.keeps_pure _)
    refine Exec.keeps_bind (framed_nullStore hkeep _ _) fun _ => ?_
    exact Exec.keeps_bind (framed_nullStore hkeep _ _) fun _ => Exec.keeps_pure _

/-- Opening a file, or failing to, frames everything held. -/
theorem framed_fopen (hkeep : keep → FillsBelow env reserved) (filename mode : List Byte) :
    Framed reserved size keep held (fopen env filename mode) := by
  unfold fopen
  refine Exec.keeps_bind (framed_pathparserParse hkeep filename) fun root => ?_
  cases root with
  | none => exact Exec.keeps_pure _
  | some rootPath =>
  simp only
  split
  · exact Exec.keeps_pure _
  · refine Exec.keeps_ite (Exec.keeps_pure _) ?_
    refine Exec.keeps_bind Exec.keeps_get fun s => ?_
    refine Exec.keeps_ite (Exec.keeps_pure _) ?_
    refine Exec.keeps_bind (Exec.keeps_lift _) fun fMode => ?_
    refine Exec.keeps_ite (Exec.keeps_pure _) ?_
    refine Exec.keeps_bind (framed_fat16Open hkeep _ _ _) fun des => ?_
    cases des with
    | none => exact Exec.keeps_pure _
    | some des =>
      refine Exec.keeps_bind (framed_fileNewDescriptor hkeep des) fun index => ?_
      cases index with
      | none => exact Exec.keeps_pure _
      | some index => exact Exec.keeps_pure _

/-! ## Reading -/

theorem of_fileGetDescriptor {fd : Int} {r : Option (Ptr FileDescriptor)} (h : fileGetDescriptor fd s = .ok (r, s')) :
    s = s' := by
  unfold fileGetDescriptor at h
  rw [Exec.bind_of_ok (Exec.get_apply s)] at h
  split at h
  · exact (Exec.of_pure_ok h).2
  · exact (Exec.of_pure_ok h).2

theorem of_fileItem {descriptor : FatFileDescriptor} {item : Fat16DirectoryItem}
    (h : fileItem descriptor s = .ok (item, s')) :
    s = s' ∧ ∃ addr, descriptor.item.val = .file (some ⟨addr, item⟩) := by
  unfold fileItem at h
  cases hv : descriptor.item.val with
  | directory d =>
    rw [hv] at h
    cases h
  | file i =>
    rw [hv] at h
    cases i with
    | none => cases h
    | some i =>
      obtain ⟨rfl, rfl⟩ := Exec.of_pure_ok h
      exact ⟨rfl, i.addr, rfl⟩

theorem readItems_writesIn {c n : Nat} (hlt : n < 2 ^ 32) (nmemb : Nat) :
    ∀ {offset res : Int} {outPtr : Nat} {s s' : Sys},
    readItems env c n nmemb offset outPtr s = .ok (res, s') → WritesIn outPtr (n * nmemb) s s' := by
  induction nmemb with
  | zero =>
    intro offset res outPtr s s' h
    obtain ⟨-, rfl⟩ := Exec.of_pure_ok h
    exact SameButStreams.writesIn (refl s) _ _
  | succ nmemb ih =>
    intro offset res outPtr s s' h
    rw [readItems] at h
    obtain ⟨r, s1, h1, h⟩ := Exec.of_bind_ok h
    have hone := readInternalFromStream_writesIn (Int.lt_of_lt_of_le (int32_bounds _).2 (by decide)) h1
    rw [uint32_int32, uint32_of_lt hlt] at hone
    rw [Nat.mul_succ]
    split at h
    · obtain ⟨-, rfl⟩ := Exec.of_pure_ok h
      exact ⟨hone.1, fun x hx => hone.2 x (by omega)⟩
    · have hrest := ih h
      exact (WritesIn.trans ⟨hone.1, fun x hx => hone.2 x (by omega)⟩ hrest (by omega) (by omega))

/-- A read stores to its buffer only. -/
theorem fread_writesIn {ptr n nmemb : Nat} {fd res : Int} (hlt : n < 2 ^ 32)
    (h : fread env ptr n nmemb fd s = .ok (res, s')) : WritesIn ptr (n * nmemb) s s' := by
  unfold fread at h
  split at h
  · obtain ⟨-, rfl⟩ := Exec.of_pure_ok h
    exact SameButStreams.writesIn (refl s) _ _
  · obtain ⟨desc, s1, h1, h⟩ := Exec.of_bind_ok h
    obtain rfl := of_fileGetDescriptor h1
    cases desc with
    | none =>
      obtain ⟨-, rfl⟩ := Exec.of_pure_ok h
      exact SameButStreams.writesIn (refl s) _ _
    | some desc =>
      obtain ⟨item, s2, h2, h⟩ := Exec.of_bind_ok h
      obtain ⟨rfl, -⟩ := of_fileItem h2
      obtain ⟨r, s3, h3, h⟩ := Exec.of_bind_ok h
      have hread := readItems_writesIn hlt nmemb h3
      split at h
      · obtain ⟨-, rfl⟩ := Exec.of_pure_ok h
        exact hread
      · obtain ⟨-, rfl⟩ := Exec.of_pure_ok h
        exact hread

end

end SimpleMicrokernel.Fs
