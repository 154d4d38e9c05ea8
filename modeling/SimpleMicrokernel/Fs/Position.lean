/-
The position of an open file under any calls on its descriptor. Only `fseek` moves it, and the one
check of `fseek` compares the offset with the size before it looks at the mode: a seek from the
current position is checked as if it went from the start.
-/
import SimpleMicrokernel.Fs.Reads

namespace SimpleMicrokernel.Fs

open Memory Disk Fat16

/-! ## Calls on one descriptor -/

/-- A call on an open file, with its arguments. -/
inductive FileCall where
  | fread (ptr size nmemb : Nat)
  | fseek (offset : Int) (whence : FileSeekMode)
  | fstat

/-- The call on a descriptor: what it returns, and what it writes to `stat`. -/
def FileCall.call (env : Env) (fd : Int) : FileCall → FsM (Int × Option FileStat)
  | .fread ptr size nmemb => do
    let res ← Fs.fread env ptr size nmemb fd
    return (res, none)
  | .fseek offset whence => do
    let res ← Fs.fseek fd offset whence
    return (res, none)
  | .fstat => Fs.fstat fd

/-- After the call the position is inside the file, and a seek that returned -1 has left it. -/
def StaysInside (env : Env) (fd : Fin maxFileDescriptors) (item : Fat16DirectoryItem) (s : Sys) (c : FileCall) : Prop :=
  ∀ r s', c.call env fd.val s = .ok (r, s') → ∃ pos, HoldsFile s' fd item pos ∧ pos.toNat ≤ item.filesize.toNat ∧
    ∀ offset whence, c = .fseek offset whence → r.1 = -1 → HoldsFile s fd item pos

/-- A seek from the current position that the check lets through ends inside the file. -/
def SeeksInside (fd : Fin maxFileDescriptors) (item : Fat16DirectoryItem) (s : Sys) (c : FileCall) : Prop :=
  ∀ offset pos, c = .fseek offset .seekCur → HoldsFile s fd item pos → uint32 offset < item.filesize.toNat →
    (pos.toNat + uint32 offset) % 2 ^ 32 ≤ item.filesize.toNat

section
variable {env : Env} {s s' : Sys} {fd : Fin maxFileDescriptors} {item : Fat16DirectoryItem} {p : BitVec 32}

theorem seekFrom_refused {filesize pos : BitVec 32} {offset : Nat} {whence : FileSeekMode}
    (h : (seekFrom filesize pos offset whence).1 = -1) : (seekFrom filesize pos offset whence).2 = pos := by
  unfold seekFrom at h ⊢
  split
  · rfl
  · rename_i hlt
    rw [if_neg hlt] at h
    cases whence with
    | seekSet => cases h
    | seekCur => cases h
    | seekEnd => rfl
    | other => rfl

/-- Only a seek from the current position can leave the file. -/
theorem seekFrom_le_iff {filesize pos : BitVec 32} (hpos : pos.toNat ≤ filesize.toNat) {offset : Nat}
    (ho : offset < 2 ^ 32) (whence : FileSeekMode) : (seekFrom filesize pos offset whence).2.toNat ≤ filesize.toNat ↔
      (whence = .seekCur → offset < filesize.toNat → (pos.toNat + offset) % 2 ^ 32 ≤ filesize.toNat) := by
  unfold seekFrom
  split
  · exact ⟨fun _ _ _ => by omega, fun _ => hpos⟩
  · rename_i hlt
    cases whence with
    | seekSet =>
      refine ⟨fun _ => nofun, fun _ => ?_⟩
      rw [BitVec.toNat_ofNat, Nat.mod_eq_of_lt ho]
      omega
    | seekCur =>
      rw [BitVec.toNat_add, BitVec.toNat_ofNat, Nat.mod_eq_of_lt ho]
      exact ⟨fun h _ _ => h, fun h => h rfl (by omega)⟩
    | seekEnd => exact ⟨fun _ => nofun, fun _ => hpos⟩
    | other => exact ⟨fun _ => nofun, fun _ => hpos⟩

theorem HoldsFile.fread (h : HoldsFile s fd item p) (hfd : 1 ≤ fd.val) {ptr size nmemb : Nat} {res : Int}
    (hread : fread env ptr size nmemb fd.val s = .ok (res, s')) : HoldsFile s' fd item p := by
  have hreads := fread_reads env h hfd ptr size nmemb
  cases hv : freadFrom env s.fat16Private item p.toNat size nmemb with
  | error e =>
    rw [hv] at hreads
    have hreads : Fs.fread env ptr size nmemb fd.val s = .error e := hreads
    rw [hread] at hreads
    cases hreads
  | ok v =>
    rw [hv] at hreads
    obtain ⟨s1, hsame, e⟩ := hreads
    rw [hread] at e
    cases e
    exact h.of_same hsame

theorem fstat_apply (h : HoldsFile s fd item p) (hfd : 1 ≤ fd.val) : ∃ r, fstat fd.val s = .ok (r, s) := by
  obtain ⟨addr, desc, hdesc, hitem, -⟩ := h
  unfold fstat
  rw [Exec.bind_of_ok (fileGetDescriptor_apply hfd), hdesc]
  simp only
  unfold fat16Stat
  rw [hitem]
  simp only
  rw [Exec.bind_of_ok (fileItem_apply hitem s)]
  exact ⟨_, rfl⟩

/-- A call keeps the position inside the file, and what it must keep, when it seeks inside. -/
theorem staysInside_iff (h : HoldsFile s fd item p) (hfd : 1 ≤ fd.val) (hp : p.toNat ≤ item.filesize.toNat)
    (c : FileCall) :
    StaysInside env fd item s c ↔ SeeksInside fd item s c := by
  cases c with
  | fread ptr size nmemb =>
    refine ⟨fun _ _ _ => nofun, fun _ r s' hc => ⟨p, ?_, hp, fun _ _ => nofun⟩⟩
    obtain ⟨res, s1, h1, hc⟩ := Exec.of_bind_ok hc
    obtain ⟨-, rfl⟩ := Exec.of_pure_ok hc
    exact h.fread hfd h1
  | fseek offset whence =>
    have hcall : (FileCall.fseek offset whence).call env fd.val s =
        .ok (((seekFrom item.filesize p (uint32 offset) whence).1, none),
          s.setPos fd (seekFrom item.filesize p (uint32 offset) whence).2) :=
      Exec.bind_of_ok (fseek_apply h hfd offset whence)
    have hle := seekFrom_le_iff hp (uint32_lt offset) whence
    constructor
    · rintro hin o pos ⟨⟩ hpos hlt
      obtain ⟨pos', hpos', hinside, -⟩ := hin _ _ hcall
      rw [(HoldsFile.unique hpos' (h.setPos _)).2] at hinside
      rw [(HoldsFile.unique hpos h).2]
      exact hle.1 hinside rfl hlt
    · intro hseeks r s' hc
      rw [hcall] at hc
      cases hc
      refine ⟨_, h.setPos _, hle.2 fun hcur hlt => ?_, fun o w _ hrefused => ?_⟩
      · subst hcur
        exact hseeks _ _ rfl h hlt
      · rw [seekFrom_refused hrefused]
        exact h
  | fstat =>
    refine ⟨fun _ _ _ => nofun, fun _ r s' hc => ⟨p, ?_, hp, fun _ _ => nofun⟩⟩
    obtain ⟨r', e⟩ := fstat_apply h hfd
    rw [show FileCall.call env fd.val .fstat s = .ok (r', s) from e] at hc
    cases hc
    exact h

/-- Along any calls on a descriptor the position stays inside the file, and every seek that returns
-1 leaves it, exactly when every seek from the current position that is let through ends inside. -/
theorem position_inside_iff (h : HoldsFile s fd item p) (hfd : 1 ≤ fd.val) (hp : p.toNat ≤ item.filesize.toNat)
    (calls : List FileCall) :
    Exec.AlongRun (FileCall.call env fd.val) (StaysInside env fd item) s calls ↔
      Exec.AlongRun (FileCall.call env fd.val) (SeeksInside fd item) s calls := by
  refine Exec.alongRun_congr (I := fun s => ∃ p, HoldsFile s fd item p ∧ p.toNat ≤ item.filesize.toNat) ?_ ?_ ⟨p, h, hp⟩
  · rintro s c ⟨p, h, hp⟩
    exact staysInside_iff h hfd hp c
  · rintro s c r s' - hin hc
    obtain ⟨pos, hpos, hle, -⟩ := hin r s' hc
    exact ⟨pos, hpos, hle⟩

end

/-- A seek to 400 and one by 600 more, in a file of 1000 bytes. -/
theorem position_inside_two :
    Exec.AlongRun (FileCall.call twoClustersDisk (1 : Fin maxFileDescriptors).val)
    (StaysInside twoClustersDisk 1 twoClusters) twoClustersOpen
      [.fseek 400 .seekSet, .fseek 600 .seekCur] ↔
    Exec.AlongRun (FileCall.call twoClustersDisk (1 : Fin maxFileDescriptors).val)
    (SeeksInside 1 twoClusters) twoClustersOpen
      [.fseek 400 .seekSet, .fseek 600 .seekCur] :=
  position_inside_iff holdsFile_twoClusters (by decide) (by decide) [.fseek 400 .seekSet, .fseek 600 .seekCur]

/-- Two seeks by 999 in a file of 1000 bytes: the position is 1998. -/
theorem position_leaves : HoldsFile twoClustersOpen 1 twoClusters 0 ∧
    ¬ Exec.AlongRun (FileCall.call twoClustersDisk (1 : Fin maxFileDescriptors).val)
    (StaysInside twoClustersDisk 1 twoClusters) twoClustersOpen
      [.fseek 999 .seekCur, .fseek 999 .seekCur] := by
  refine ⟨holdsFile_twoClusters, ?_⟩
  rintro ⟨-, hrest⟩
  have h1 := holdsFile_twoClusters.setPos 999
  have e1 : fseek (1 : Fin maxFileDescriptors).val 999 .seekCur twoClustersOpen =
    .ok (0, twoClustersOpen.setPos 1 999) :=
    fseek_apply holdsFile_twoClusters (by decide) 999 .seekCur
  have e2 : fseek (1 : Fin maxFileDescriptors).val 999 .seekCur (twoClustersOpen.setPos 1 999) =
      .ok (0, (twoClustersOpen.setPos 1 999).setPos 1 1998) := fseek_apply h1 (by decide) 999 .seekCur
  obtain ⟨hin, -⟩ := hrest (0, none) _ (Exec.bind_of_ok e1)
  obtain ⟨pos, hpos, hle, -⟩ := hin (0, none) _ (Exec.bind_of_ok e2)
  rw [(HoldsFile.unique hpos (h1.setPos 1998)).2] at hle
  exact absurd hle (by decide)

end SimpleMicrokernel.Fs
