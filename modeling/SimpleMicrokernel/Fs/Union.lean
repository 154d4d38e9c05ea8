/-
The union of `struct fat_item`, a file's item or a directory, through an open descriptor. `fat16_seek`
and `fat16_stat` look at the type first; `fat16_read` does not and takes a directory for a file.
-/
import SimpleMicrokernel.Fat16.Lookup
import SimpleMicrokernel.Fs.Open
import SimpleMicrokernel.Fs.Position
import SimpleMicrokernel.Fs.Stops

namespace SimpleMicrokernel.Fs

open Memory Disk Fat16

/-- The descriptor in a slot refers to a directory. -/
def RefersToDirectory (s : Sys) (fd : Fin maxFileDescriptors) : Prop :=
  ∃ desc directory, s.fileDescriptors fd = some desc ∧ desc.val.privateData.val.item.val = .directory directory

/-- The call does not read the union under the type it does not have, and on a directory it returns a
negative value and changes nothing. -/
def RightType (env : Env) (fd : Fin maxFileDescriptors) (s : Sys) (c : FileCall) : Prop :=
  c.call env fd.val s ≠ .error .typeConfusion ∧
    (RefersToDirectory s fd → ∃ r, c.call env fd.val s = .ok (r, s) ∧ r.1 < 0 ∧ r.2 = none)

/-- A read that asks for bytes. -/
def FileCall.Reads : FileCall → Prop
  | .fread _ size nmemb => size ≠ 0 ∧ nmemb ≠ 0
  | .fseek _ _ => False
  | .fstat => False

section
variable {env : Env} {s s' : Sys} {fd : Fin maxFileDescriptors}

/-! ## On a directory -/

theorem fread_directory (env : Env) (h : RefersToDirectory s fd) (hfd : 1 ≤ fd.val) {size nmemb : Nat}
    (hsize : size ≠ 0) (hn : nmemb ≠ 0) (ptr : Nat) : fread env ptr size nmemb fd.val s = .error .typeConfusion := by
  obtain ⟨desc, directory, hdesc, hitem⟩ := h
  have hconfused : fileItem desc.val.privateData.val s = .error .typeConfusion := by
    unfold fileItem
    rw [hitem]
    rfl
  unfold fread
  rw [if_neg (by omega), Exec.bind_of_ok (fileGetDescriptor_apply hfd), hdesc]
  exact Exec.bind_of_error hconfused

/-- A read of no bytes, a seek and `fstat` give -1 and change nothing. -/
theorem call_directory (env : Env) (h : RefersToDirectory s fd) (hfd : 1 ≤ fd.val) {c : FileCall} (hc : ¬ c.Reads) :
    c.call env fd.val s = .ok ((-1, none), s) := by
  obtain ⟨desc, directory, hdesc, hitem⟩ := h
  cases c with
  | fread ptr size nmemb =>
    have h0 : fread env ptr size nmemb fd.val s = .ok (-1, s) := by
      unfold fread
      rw [if_pos (by unfold FileCall.Reads at hc; omega)]
      rfl
    exact Exec.bind_of_ok h0
  | fseek offset whence =>
    have hseek : fat16Seek desc.val.privateData.val (uint32 offset) whence s =
      .ok ((-1, desc.val.privateData.val.pos), s) := by
      unfold fat16Seek
      rw [hitem]
      rfl
    -- the position is stored as it was
    have hsame : s.setPos fd desc.val.privateData.val.pos = s := by
      have hslot : (s.fileDescriptors fd).map (fun d : Ptr FileDescriptor => { d with val := { d.val with privateData :=
          { d.val.privateData with val := { d.val.privateData.val with pos := desc.val.privateData.val.pos } } } }) =
            s.fileDescriptors fd := by
        rw [hdesc]
        rfl
      unfold Sys.setPos
      rw [hslot, Function.update_eq_self]
    have hcall : fseek fd.val offset whence s = .ok (-1, s) := by
      unfold fseek
      rw [Exec.bind_of_ok (fileGetDescriptor_apply hfd), hdesc]
      simp only
      rw [Exec.bind_of_ok hseek, Exec.bind_of_ok (Exec.modify_apply ..), dif_pos ⟨by omega, by have := fd.isLt; omega⟩]
      exact congrArg (fun s => Except.ok ((-1 : Int), s)) hsame
    exact Exec.bind_of_ok hcall
  | fstat =>
    show fstat fd.val s = _
    unfold fstat
    rw [Exec.bind_of_ok (fileGetDescriptor_apply hfd), hdesc]
    simp only
    unfold fat16Stat
    rw [hitem]
    rfl

/-! ## On a file -/

theorem HoldsFile.not_directory {item : Fat16DirectoryItem} {p : BitVec 32} (h : HoldsFile s fd item p) :
    ¬ RefersToDirectory s fd := by
  obtain ⟨addr, desc, hdesc, hitem, -⟩ := h
  rintro ⟨desc', directory, hdesc', hdir⟩
  rw [hdesc] at hdesc'
  cases hdesc'
  rw [hitem] at hdir
  cases hdir

theorem fread_file (hover : ∀ pos index, env.overread pos index ≠ .error .typeConfusion) {item : Fat16DirectoryItem}
    {p : BitVec 32} (h : HoldsFile s fd item p) (hfd : 1 ≤ fd.val) (ptr size nmemb : Nat) :
    fread env ptr size nmemb fd.val s ≠ .error .typeConfusion := by
  by_cases h0 : size = 0 ∨ nmemb = 0
  · unfold fread
    rw [if_pos (by omega)]
    nofun
  · have hsteady : Steady fun _ => True := ⟨fun _ _ _ _ => trivial, fun _ _ _ => trivial⟩
    have hitems := avoids_readItems (e := .typeConfusion) hsteady hover nofun
      (fat16GetFirstCluster item) size nmemb (int32 p.toNat) ptr
    rw [fread_eq env h hfd (by omega) (by omega)]
    refine (Exec.Avoids.bind (T := fun _ => True) hitems (fun res => ?_) s trivial).1
    exact Exec.avoids_ite (fun _ => Exec.avoids_pure _) fun _ => Exec.avoids_pure _

/-- No call on a file takes it for a directory, and the file stays in its slot. -/
theorem call_file (hover : ∀ pos index, env.overread pos index ≠ .error .typeConfusion) {item : Fat16DirectoryItem}
    {p : BitVec 32} (h : HoldsFile s fd item p) (hfd : 1 ≤ fd.val) (c : FileCall) :
    c.call env fd.val s ≠ .error .typeConfusion ∧
      ∀ r s', c.call env fd.val s = .ok (r, s') → ¬ RefersToDirectory s' fd := by
  cases c with
  | fread ptr size nmemb =>
    refine ⟨fun hc => ?_, fun r s' hc => ?_⟩
    · cases hread : fread env ptr size nmemb fd.val s with
      | error e =>
        rw [show FileCall.call env fd.val (.fread ptr size nmemb) s = .error e from Exec.bind_of_error hread] at hc
        cases hc
        exact fread_file hover h hfd ptr size nmemb hread
      | ok r =>
        rw [show FileCall.call env fd.val (.fread ptr size nmemb) s = .ok ((r.1, none), r.2) from
          Exec.bind_of_ok hread] at hc
        cases hc
    · obtain ⟨res, s1, h1, hc⟩ := Exec.of_bind_ok hc
      obtain ⟨-, rfl⟩ := Exec.of_pure_ok hc
      exact (h.fread hfd h1).not_directory
  | fseek offset whence =>
    have hcall : (FileCall.fseek offset whence).call env fd.val s = .ok (_, _) :=
      Exec.bind_of_ok (fseek_apply h hfd offset whence)
    rw [hcall]
    refine ⟨nofun, ?_⟩
    rintro _ _ ⟨⟩
    exact (h.setPos _).not_directory
  | fstat =>
    obtain ⟨r', e⟩ := fstat_apply h hfd
    rw [show FileCall.call env fd.val .fstat s = .ok (r', s) from e]
    refine ⟨nofun, ?_⟩
    rintro _ _ ⟨⟩
    exact h.not_directory

/-! ## Without an item -/

/-- A slot without a descriptor refuses every call. -/
theorem call_closed (env : Env) (h : s.fileDescriptors fd = none) (hfd : 1 ≤ fd.val) (c : FileCall) :
    c.call env fd.val s = .ok ((-1, none), s) := by
  have hget := @fileGetDescriptor_apply s fd hfd
  rw [h] at hget
  cases c with
  | fread ptr size nmemb =>
    have hread : fread env ptr size nmemb fd.val s = .ok (-1, s) := by
      unfold fread
      split
      · rfl
      · rw [Exec.bind_of_ok hget]
        rfl
    exact Exec.bind_of_ok hread
  | fseek offset whence =>
    have hseek : fseek fd.val offset whence s = .ok (-1, s) := Exec.bind_of_ok hget
    exact Exec.bind_of_ok hseek
  | fstat => exact Exec.bind_of_ok hget

/-- A descriptor whose item could not be cloned: a call that looks at it reads through null. -/
theorem call_null (env : Env) {desc : Ptr FileDescriptor} (h : s.fileDescriptors fd = some desc)
    (hitem : desc.val.privateData.val.item.val = .file none) (hfd : 1 ≤ fd.val) (c : FileCall) :
    c.call env fd.val s = .error .nullDeref ∨ ∃ r, c.call env fd.val s = .ok (r, s) := by
  have hget := @fileGetDescriptor_apply s fd hfd
  rw [h] at hget
  have hnull : fileItem desc.val.privateData.val s = .error .nullDeref := by
    unfold fileItem
    rw [hitem]
    rfl
  cases c with
  | fread ptr size nmemb =>
    by_cases h0 : size = 0 ∨ nmemb = 0
    · have hread : fread env ptr size nmemb fd.val s = .ok (-1, s) := by
        unfold fread
        rw [if_pos (by omega)]
        rfl
      exact .inr ⟨_, Exec.bind_of_ok hread⟩
    · have hread : fread env ptr size nmemb fd.val s = .error .nullDeref := by
        unfold fread
        rw [if_neg (by omega), Exec.bind_of_ok hget]
        exact Exec.bind_of_error hnull
      exact .inl (Exec.bind_of_error hread)
  | fseek offset whence =>
    have hseek : fat16Seek desc.val.privateData.val (uint32 offset) whence s = .error .nullDeref := by
      unfold fat16Seek
      rw [hitem]
      exact Exec.bind_of_error hnull
    have hcall : fseek fd.val offset whence s = .error .nullDeref := by
      unfold fseek
      rw [Exec.bind_of_ok hget]
      exact Exec.bind_of_error hseek
    exact .inl (Exec.bind_of_error hcall)
  | fstat =>
    refine .inl ?_
    show fstat fd.val s = _
    unfold fstat
    rw [Exec.bind_of_ok hget]
    simp only
    unfold fat16Stat
    rw [hitem]
    exact Exec.bind_of_error hnull

/-- No call on anything but a directory reads the union as it is not, and the slot holds no directory
after it. -/
theorem call_not_directory (hover : ∀ pos index, env.overread pos index ≠ .error .typeConfusion)
    (h : ¬ RefersToDirectory s fd) (hfd : 1 ≤ fd.val) (c : FileCall) : c.call env fd.val s ≠ .error .typeConfusion ∧
      ∀ r s', c.call env fd.val s = .ok (r, s') → ¬ RefersToDirectory s' fd := by
  cases hslot : s.fileDescriptors fd with
  | none =>
    rw [call_closed env hslot hfd c]
    refine ⟨nofun, ?_⟩
    rintro _ _ ⟨⟩
    exact h
  | some desc =>
    cases hitem : desc.val.privateData.val.item.val with
    | directory directory => exact absurd ⟨desc, directory, hslot, hitem⟩ h
    | file item =>
      cases item with
      | some item => exact call_file hover ⟨item.addr, desc, hslot, hitem, rfl⟩ hfd c
      | none =>
        rcases call_null env hslot hitem hfd c with e | ⟨r, e⟩
        · rw [e]
          exact ⟨nofun, nofun⟩
        · rw [e]
          refine ⟨nofun, ?_⟩
          rintro _ _ ⟨⟩
          exact h

/-- Along any calls on a descriptor the union is read under its type, and on a directory every call
refuses, exactly when the descriptor refers to no directory or no call asks for bytes. -/
theorem right_type_iff (hover : ∀ pos index, env.overread pos index ≠ .error .typeConfusion) (hfd : 1 ≤ fd.val)
    (calls : List FileCall) :
    Exec.AlongRun (FileCall.call env fd.val) (RightType env fd) s calls ↔
    (RefersToDirectory s fd → ∀ c ∈ calls, ¬ c.Reads) := by
  by_cases hdir : RefersToDirectory s fd
  · rw [forall_prop_of_true hdir]
    induction calls with
    | nil => exact iff_of_true trivial (List.forall_mem_nil _)
    | cons c calls ih =>
      rw [Exec.AlongRun, List.forall_mem_cons]
      by_cases hc : c.Reads
      · refine iff_of_false (fun h => ?_) fun h => h.1 hc
        cases c with
        | fread ptr size nmemb =>
          exact h.1.1 (Exec.bind_of_error (fread_directory env hdir hfd hc.1 hc.2 ptr))
        | fseek offset whence => exact hc
        | fstat => exact hc
      · have hcall := call_directory env hdir hfd hc
        have hright : RightType env fd s c := by
          refine ⟨fun h => ?_, fun _ => ⟨_, hcall, by decide, rfl⟩⟩
          rw [hcall] at h
          cases h
        rw [← ih]
        constructor
        · exact fun h => ⟨hc, h.2 _ _ hcall⟩
        · rintro ⟨-, h⟩
          refine ⟨hright, fun r s' hc' => ?_⟩
          rw [hcall] at hc'
          cases hc'
          exact h
  · have hkeep : ∀ s c r s', ¬ RefersToDirectory s fd → FileCall.call env fd.val c s = .ok (r, s') →
      ¬ RefersToDirectory s' fd :=
      fun s c r s' h hc => (call_not_directory hover h hfd c).2 r s' hc
    refine iff_of_true (Exec.alongRun_of (fun s c h => ?_) hkeep hdir) fun h => absurd h hdir
    exact ⟨(call_not_directory hover h hfd c).1, fun hd => absurd hd h⟩

end

/-- A root directory with one directory, `A`, and memory to open it. -/
def directoryDisk : Sys := { oneDirectory with heap := ⟨.booted 64 16, fun _ => ⟨0, 0⟩⟩ }

/-- `0:/A` -/
def directoryPath : List Byte := [0x30, 0x3A, 0x2F, 0x41]

theorem fopen_directory : ∃ s,
    fopen emptyDisk directoryPath [0x72] directoryDisk = .ok ((1 : Fin maxFileDescriptors).val, s) := by
  have hopen : outcome (fopen emptyDisk directoryPath [0x72]) directoryDisk = .ok 1 := by decide +kernel
  unfold outcome at hopen
  generalize fopen emptyDisk directoryPath [0x72] directoryDisk = r at hopen ⊢
  cases r with
  | error e => cases hopen
  | ok r =>
    obtain ⟨fd, s⟩ := r
    obtain rfl : fd = 1 := Except.ok.inj hopen
    exact ⟨s, rfl⟩

theorem overread_emptyDisk (pos index : Nat) : emptyDisk.overread pos index ≠ .error .typeConfusion := by
  intro h
  cases h

theorem right_type_directory :
    ∃ s, fopen emptyDisk directoryPath [0x72] directoryDisk = .ok ((1 : Fin maxFileDescriptors).val, s) ∧
    (Exec.AlongRun (FileCall.call emptyDisk (1 : Fin maxFileDescriptors).val)
      (RightType emptyDisk 1) s [.fseek 1 .seekCur, .fstat] ↔
      (RefersToDirectory s 1 → ∀ c ∈ [.fseek 1 .seekCur, .fstat], ¬ FileCall.Reads c)) := by
  obtain ⟨s, hopen⟩ := fopen_directory
  exact ⟨s, hopen, right_type_iff overread_emptyDisk (by decide) [.fseek 1 .seekCur, .fstat]⟩

/-- One byte read from the directory: its union is read as a file's item. -/
theorem fread_opened_directory :
    ∃ s, fopen emptyDisk directoryPath [0x72] directoryDisk = .ok ((1 : Fin maxFileDescriptors).val, s) ∧
    ¬ Exec.AlongRun (FileCall.call emptyDisk (1 : Fin maxFileDescriptors).val)
    (RightType emptyDisk 1) s [.fread 0x20000 1 1] := by
  obtain ⟨s, hopen⟩ := fopen_directory
  have hread : outcome (fopen emptyDisk directoryPath [0x72] >>= fread emptyDisk 0x20000 1 1) directoryDisk =
    .error .typeConfusion := by
    decide +kernel
  unfold outcome at hread
  rw [Exec.bind_of_ok hopen] at hread
  refine ⟨s, hopen, fun h => h.1.1 (Exec.bind_of_error ?_)⟩
  generalize fread emptyDisk 0x20000 1 1 (1 : Fin maxFileDescriptors).val s = r at hread ⊢
  cases r with
  | error e =>
    cases hread
    rfl
  | ok r => cases hread

end SimpleMicrokernel.Fs
