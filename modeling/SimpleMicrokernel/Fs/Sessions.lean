/-
Calls of a program that has files open. What a call on a descriptor gives is a function of the disk and of what
the slot shows, an item and a position; where the streams are and what else is open do not enter.
-/
import SimpleMicrokernel.Fs.Opens
import SimpleMicrokernel.Fs.Position

namespace SimpleMicrokernel.Fs

open Memory Disk Fat16

/-! ## Calls -/

/-- A call on a descriptor, with its arguments. -/
inductive DescriptorCall where
  | fread (ptr : Nat) (size nmemb : BitVec 32)
  | fseek (offset : Int) (whence : FileSeekMode)
  | fstat
deriving DecidableEq, Repr

def DescriptorCall.fileCall : DescriptorCall → FileCall
  | .fread ptr size nmemb => .fread ptr size.toNat nmemb.toNat
  | .fseek offset whence => .fseek offset whence
  | .fstat => .fstat

/-- What a call that returns gives: its result, what it writes to `stat`, and the bytes it delivers. -/
structure Answer where
  res : Int
  stat : Option FileStat
  bytes : List Byte
deriving DecidableEq, Repr

/-- A call gives an answer or stops. -/
abbrev Outcome := Except Halt Answer

/-- The bytes that stand in the buffer of a read that has succeeded. -/
def DescriptorCall.delivered (mem : Mem) (res : Int) : DescriptorCall → List Byte
  | .fread ptr size nmemb => if 0 < res then taken mem ptr (size.toNat * nmemb.toNat) else []
  | .fseek _ _ => []
  | .fstat => []

/-! ## What a slot shows -/

/-- What the calls on a descriptor see of it: the item and the position. -/
abbrev View := Option (Option Fat16DirectoryItem) × BitVec 32

def view (desc : Ptr FileDescriptor) : View :=
    (contents desc.val.privateData.val.item.val, desc.val.privateData.val.pos)

theorem toNat_lt_of_inTable {fd : Int} (h : 1 ≤ fd ∧ fd < maxFileDescriptors) : fd.toNat < maxFileDescriptors := by
  omega

/-- The descriptor that `file_get_descriptor` gives. -/
def slot (s : Sys) (fd : Int) : Option (Ptr FileDescriptor) :=
  if h : 1 ≤ fd ∧ fd < maxFileDescriptors then s.fileDescriptors ⟨fd.toNat, toNat_lt_of_inTable h⟩ else none

def shown (s : Sys) (fd : Int) : Option View := (slot s fd).map view

/-- The item a call reads. -/
def itemOf : Option (Option Fat16DirectoryItem) → Except Halt Fat16DirectoryItem
  | none => .error .typeConfusion
  | some none => .error .nullDeref
  | some (some item) => .ok item

/-- What a read gives on an open descriptor, and what it writes. -/
def readView (env : Env) (fat16Private : Fat16Private) (v : View) (size nmemb : Nat) : Except Halt (Int × Written) :=
  if size = 0 ∨ nmemb = 0 then .ok (-1, Written.nothing)
  else do
    let item ← itemOf v.1
    freadFrom env fat16Private item v.2.toNat size nmemb

/-- What a seek gives, and the position it leaves. -/
def seekView (v : View) (offset : Int) (whence : FileSeekMode) : Except Halt (Int × BitVec 32) :=
  if v.1.isNone then .ok (-1, v.2)
  else do
    let item ← itemOf v.1
    return seekFrom item.filesize v.2 (uint32 offset) whence

def statView (v : View) : Except Halt (Int × Option FileStat) :=
  if v.1.isNone then .ok (-1, none)
  else do
    let item ← itemOf v.1
    return (1, some ⟨if item.itemAttribute &&& fatFileReadOnly ≠ 0 then fileStatReadOnly else 0, item.filesize⟩)

/-- What a call gives on a descriptor that shows this, and what the descriptor shows after it. -/
def answerView (env : Env) (fat16Private : Fat16Private) (v : View) : DescriptorCall → Except Halt (Answer × View)
  | .fread _ size nmemb => do
    let r ← readView env fat16Private v size.toNat nmemb.toNat
    return (⟨r.1, none, if 0 < r.1 then (List.range (size.toNat * nmemb.toNat)).map fun t => (r.2 t).getD 0 else []⟩, v)
  | .fseek offset whence => do
    let r ← seekView v offset whence
    return (⟨r.1, none, []⟩, (v.1, r.2))
  | .fstat => do
    let r ← statView v
    return (⟨r.1, r.2, []⟩, v)

/-- With nothing open every call gives -1. -/
def answer (env : Env) (fat16Private : Fat16Private) (o : Option View) (c : DescriptorCall) :
    Except Halt (Answer × Option View) :=
  match o with
  | none => .ok (⟨-1, none, []⟩, none)
  | some v => do
    let r ← answerView env fat16Private v c
    return (r.1, some r.2)

/-- The slots are as they were, but for what this one shows. -/
structure ShowsAt (s s' : Sys) (fd : Int) (o : Option View) : Prop where
  here : shown s' fd = o
  others : ∀ fd', fd' ≠ fd → shown s' fd' = shown s fd'

section
variable {env : Env} {fat16Private : Fat16Private} {s s' : Sys} {fd : Int} {desc : Ptr FileDescriptor}

theorem fileGetDescriptor_eq (fd : Int) (s : Sys) : fileGetDescriptor fd s = .ok (slot s fd, s) := by
  unfold fileGetDescriptor slot
  rw [Exec.bind_of_ok (Exec.get_apply s)]
  split
  · rfl
  · rfl

theorem slot_val (s : Sys) {i : Fin maxFileDescriptors} (hi : 1 ≤ i.val) : slot s i.val = s.fileDescriptors i := by
  unfold slot
  rw [dif_pos ⟨by omega, by have := i.isLt; omega⟩]
  rfl

theorem exists_of_slot (h : slot s fd = some desc) : ∃ i : Fin maxFileDescriptors, fd = i.val ∧ 1 ≤ i.val ∧
    s.fileDescriptors i = some desc := by
  unfold slot at h
  split at h
  · rename_i hfd
    refine ⟨⟨fd.toNat, by omega⟩, ?_, ?_, h⟩
    · show fd = (fd.toNat : Int)
      omega
    · show 1 ≤ fd.toNat
      omega
  · cases h

theorem shown_of_slot (h : slot s fd = some desc) : shown s fd = some (view desc) := congrArg (Option.map view) h

theorem shown_eq_none : shown s fd = none ↔ slot s fd = none := Option.map_eq_none_iff

theorem shown_congr (h : s'.fileDescriptors = s.fileDescriptors) : shown s' = shown s := by
  funext fd
  unfold shown slot
  rw [h]

theorem showsAt_of_eq (h : s'.fileDescriptors = s.fileDescriptors) (fd : Int) : ShowsAt s s' fd (shown s fd) :=
  ⟨by rw [shown_congr h], fun _ _ => by rw [shown_congr h]⟩

theorem showsAt_refl (s : Sys) (fd : Int) : ShowsAt s s fd (shown s fd) := showsAt_of_eq rfl fd

theorem showsAt_update {i : Fin maxFileDescriptors} (hi : 1 ≤ i.val) {o : Option (Ptr FileDescriptor)}
    (h : s'.fileDescriptors = Function.update s.fileDescriptors i o) : ShowsAt s s' i.val (o.map view) := by
  refine ⟨?_, fun fd hne => ?_⟩
  · unfold shown
    rw [slot_val s' hi, h, Function.update_self]
  · unfold shown slot
    split
    · rename_i hfd
      have hother : (⟨fd.toNat, by omega⟩ : Fin maxFileDescriptors) ≠ i := by
        intro he
        have hval : fd.toNat = i.val := congrArg Fin.val he
        omega
      rw [h, Function.update_of_ne hother]
    · rfl

theorem fileItem_eq (desc : FatFileDescriptor) (s : Sys) :
    fileItem desc s = (itemOf (contents desc.item.val)).map fun item => (item, s) := by
  unfold fileItem
  cases desc.item.val with
  | directory d => rfl
  | file i => cases i with
    | none => rfl
    | some i => rfl

theorem freadFrom_volume (h : OnVolume fat16Private s) (env : Env) :
    freadFrom env s.fat16Private = freadFrom env fat16Private := by
  have hsame : SameButStreams { s with fat16Private := fat16Private } s := by
    unfold SameButStreams
    rw [← h]
  funext item pos size nmemb
  unfold freadFrom
  rw [itemsFrom_stream hsame]

/-! ## Calls on an open descriptor -/

theorem fread_view (h : slot s fd = some desc) (hv : OnVolume fat16Private s) (ptr size nmemb : Nat) :
    Reads (fread env ptr size nmemb fd) s ptr (readView env fat16Private (view desc) size nmemb) := by
  obtain ⟨i, rfl, hi, hdesc⟩ := exists_of_slot h
  unfold readView
  by_cases h0 : size = 0 ∨ nmemb = 0
  · rw [if_pos h0]
    refine ⟨s, ?_, ?_⟩
    · rw [put_nothing]
      rfl
    · unfold fread
      rw [if_pos (h0.elim .inl fun h => .inr (.inl h))]
      rfl
  rw [if_neg h0]
  have hread : fread env ptr size nmemb i.val s = fat16Read env desc.val.privateData.val size nmemb ptr s := by
    unfold fread
    rw [if_neg (by omega), Exec.bind_of_ok (fileGetDescriptor_eq _ s), h]
  cases hitem : itemOf (view desc).1 with
  | error e =>
    have hfile : fileItem desc.val.privateData.val s = .error e := by
      rw [fileItem_eq, show itemOf (contents desc.val.privateData.val.item.val) = .error e from hitem]
      rfl
    exact hread.trans (Exec.bind_of_error hfile)
  | ok item =>
    have hfile : ∃ addr, desc.val.privateData.val.item.val = .file (some ⟨addr, item⟩) := by
      have he : fileItem desc.val.privateData.val s = .ok (item, s) := by
        rw [fileItem_eq, show itemOf (contents desc.val.privateData.val.item.val) = .ok item from hitem]
        rfl
      exact (of_fileItem he).2
    obtain ⟨addr, hfile⟩ := hfile
    have hholds : HoldsFile s i item desc.val.privateData.val.pos := ⟨addr, desc, hdesc, hfile, rfl⟩
    have hreads := fread_reads env hholds hi ptr size nmemb
    rw [freadFrom_volume hv] at hreads
    exact hreads

theorem fat16Seek_view (desc : FatFileDescriptor) (offset : Int) (whence : FileSeekMode) (s : Sys) :
    fat16Seek desc (uint32 offset) whence s = (seekView (contents desc.item.val, desc.pos) offset whence).map fun r =>
    (r, s) := by
  have hitem := fileItem_eq desc s
  unfold fat16Seek seekView
  cases hkind : desc.item.val with
  | directory d => rfl
  | file i =>
    rw [hkind] at hitem
    cases i with
    | none => exact Exec.bind_of_error hitem
    | some i =>
      refine (Exec.bind_of_ok hitem).trans ?_
      show (if uint32 offset ≥ i.val.filesize.toNat then _ else _ : FsM (Int × BitVec 32)) s =
        .ok (seekFrom i.val.filesize desc.pos (uint32 offset) whence, s)
      unfold seekFrom
      split
      · rfl
      · cases whence with
        | seekSet => rfl
        | seekCur => rfl
        | seekEnd => rfl
        | other => rfl

/-- A seek changes what its slot shows, and no other. -/
theorem fseek_view (h : slot s fd = some desc) (offset : Int) (whence : FileSeekMode) :
    (∃ e, seekView (view desc) offset whence = .error e ∧ fseek fd offset whence s = .error e) ∨
      ∃ res pos s', seekView (view desc) offset whence = .ok (res, pos) ∧ fseek fd offset whence s = .ok (res, s') ∧
        ShowsAt s s' fd (some ((view desc).1, pos)) := by
  obtain ⟨i, rfl, hi, hdesc⟩ := exists_of_slot h
  have hseek := fat16Seek_view desc.val.privateData.val offset whence s
  have hview : (contents desc.val.privateData.val.item.val, desc.val.privateData.val.pos) = view desc := rfl
  rw [hview] at hseek
  cases hr : seekView (view desc) offset whence with
  | error e =>
    rw [hr] at hseek
    refine .inl ⟨e, rfl, ?_⟩
    unfold fseek
    rw [Exec.bind_of_ok (fileGetDescriptor_eq _ s), h]
    exact Exec.bind_of_error hseek
  | ok r =>
    obtain ⟨res, pos⟩ := r
    rw [hr] at hseek
    refine .inr ⟨res, pos, s.setPos i pos, rfl, ?_, ?_⟩
    · unfold fseek
      rw [Exec.bind_of_ok (fileGetDescriptor_eq _ s), h]
      refine (Exec.bind_of_ok hseek).trans ?_
      simp only
      rw [Exec.bind_of_ok (Exec.modify_apply ..), dif_pos ⟨by omega, by have := i.isLt; omega⟩]
      rfl
    · have hslots : (s.setPos i pos).fileDescriptors =
        Function.update s.fileDescriptors i (some { desc with val := { desc.val with privateData :=
          { desc.val.privateData with val := { desc.val.privateData.val with pos := pos } } } }) := by
        unfold Sys.setPos
        rw [hdesc]
        rfl
      exact showsAt_update hi hslots

theorem fstat_view (h : slot s fd = some desc) : fstat fd s = (statView (view desc)).map fun r => (r, s) := by
  have hitem := fileItem_eq desc.val.privateData.val s
  unfold fstat statView view
  rw [Exec.bind_of_ok (fileGetDescriptor_eq _ s), h]
  simp only
  unfold fat16Stat
  cases hkind : desc.val.privateData.val.item.val with
  | directory d => rfl
  | file i =>
    rw [hkind] at hitem
    cases i with
    | none => exact Exec.bind_of_error hitem
    | some i => exact Exec.bind_of_ok hitem

/-- The bytes in the buffer of a read that has succeeded are those it has written. -/
theorem delivered_read {v : View} {ptr : Nat} {size nmemb : BitVec 32} {res : Int} {w : Written} {mem : Mem}
    (h : readView env fat16Private v size.toNat nmemb.toNat = .ok (res, w)) :
    (DescriptorCall.fread ptr size nmemb).delivered (w.put mem ptr) res =
      if 0 < res then (List.range (size.toNat * nmemb.toNat)).map fun t => (w t).getD 0 else [] := by
  rw [DescriptorCall.delivered]
  split
  · rename_i hres
    have hread : ∃ item, freadFrom env fat16Private item v.2.toNat size.toNat nmemb.toNat = .ok (res, w) := by
      unfold readView at h
      split at h
      · cases h
        exact absurd hres (by decide)
      · cases hitem : itemOf v.1 with
        | error e =>
          rw [hitem] at h
          cases h
        | ok item =>
          rw [hitem] at h
          exact ⟨item, h⟩
    obtain ⟨item, hread⟩ := hread
    unfold taken
    refine List.map_congr_left fun t ht => ?_
    obtain ⟨-, b, hb⟩ := freadFrom_bytes size.isLt hread hres (List.mem_range.1 ht)
    unfold Written.put
    rw [if_pos (Nat.le_add_right ..), Nat.add_sub_cancel_left, hb]
    rfl
  · rfl

/-- A call gives the answer, and its slot shows what is said; no other slot shows anything else than before. -/
def DescriptorCall.Answers (env : Env) (s : Sys) (fd : Int) (c : DescriptorCall)
    (x : Except Halt (Answer × Option View)) : Prop :=
  (∃ e, x = .error e ∧ c.fileCall.call env fd s = .error e) ∨
    ∃ a o s', x = .ok (a, o) ∧ c.fileCall.call env fd s = .ok ((a.res, a.stat), s') ∧
      c.delivered s'.mem a.res = a.bytes ∧ ShowsAt s s' fd o

theorem answers_closed (env : Env) (hslot : slot s fd = none) (c : DescriptorCall) :
    c.Answers env s fd (.ok (⟨-1, none, []⟩, none)) := by
  refine .inr ⟨⟨-1, none, []⟩, none, s, rfl, ?_, ?_, (shown_eq_none.2 hslot) ▸ showsAt_refl s fd⟩
  · cases c with
    | fread ptr size nmemb =>
      have hread : fread env ptr size.toNat nmemb.toNat fd s = .ok (-1, s) := by
        unfold fread
        split
        · rfl
        · rw [Exec.bind_of_ok (fileGetDescriptor_eq _ s), hslot]
          rfl
      exact Exec.bind_of_ok hread
    | fseek offset whence =>
      have hseek : fseek fd offset whence s = .ok (-1, s) := by
        unfold fseek
        rw [Exec.bind_of_ok (fileGetDescriptor_eq _ s), hslot]
        rfl
      exact Exec.bind_of_ok hseek
    | fstat =>
      show fstat fd s = _
      unfold fstat
      rw [Exec.bind_of_ok (fileGetDescriptor_eq _ s), hslot]
      rfl
  · cases c with
    | fread ptr size nmemb => rfl
    | fseek offset whence => rfl
    | fstat => rfl

/-- A read moves no descriptor. -/
theorem answers_fread (hslot : slot s fd = some desc) (hv : OnVolume fat16Private s) (ptr : Nat)
    (size nmemb : BitVec 32) :
    (DescriptorCall.fread ptr size nmemb).Answers env s fd
    (answer env fat16Private (some (view desc)) (.fread ptr size nmemb)) := by
  have hread : Reads (fread env ptr size.toNat nmemb.toNat fd) s ptr
      (readView env fat16Private (view desc) size.toNat nmemb.toNat) :=
    fread_view hslot hv ptr size.toNat nmemb.toNat
  cases hr : readView env fat16Private (view desc) size.toNat nmemb.toNat with
  | error e =>
    rw [hr] at hread
    refine .inl ⟨e, ?_, Exec.bind_of_error hread⟩
    simp only [answer, answerView, hr]
    rfl
  | ok r =>
    obtain ⟨res, w⟩ := r
    rw [hr] at hread
    obtain ⟨s', hmem, e⟩ := hread
    have hslots : s'.fileDescriptors = s.fileDescriptors := by rw [hmem]
    have hput : s'.mem = w.put s.mem ptr := by rw [hmem]
    refine .inr ⟨⟨res, none, (DescriptorCall.fread ptr size nmemb).delivered s'.mem res⟩, _, s', ?_,
      Exec.bind_of_ok e, rfl, shown_of_slot hslot ▸ showsAt_of_eq hslots fd⟩
    rw [hput, delivered_read hr]
    simp only [answer, answerView, hr]
    rfl

theorem answers_fseek (hslot : slot s fd = some desc) (offset : Int) (whence : FileSeekMode) :
    (DescriptorCall.fseek offset whence).Answers env s fd
    (answer env fat16Private (some (view desc)) (.fseek offset whence)) := by
  rcases fseek_view hslot offset whence with ⟨e, hr, hseek⟩ | ⟨res, pos, s', hr, hseek, hat⟩
  · refine .inl ⟨e, ?_, Exec.bind_of_error hseek⟩
    simp only [answer, answerView, hr]
    rfl
  · refine .inr ⟨⟨res, none, []⟩, _, s', ?_, Exec.bind_of_ok hseek, rfl, hat⟩
    simp only [answer, answerView, hr]
    rfl

theorem answers_fstat (hslot : slot s fd = some desc) :
    DescriptorCall.fstat.Answers env s fd (answer env fat16Private (some (view desc)) .fstat) := by
  have hstat := fstat_view hslot
  cases hr : statView (view desc) with
  | error e =>
    rw [hr] at hstat
    refine .inl ⟨e, ?_, hstat⟩
    simp only [answer, answerView, hr]
    rfl
  | ok r =>
    rw [hr] at hstat
    refine .inr ⟨⟨r.1, r.2, []⟩, _, s, ?_, hstat, rfl, shown_of_slot hslot ▸ showsAt_refl s fd⟩
    simp only [answer, answerView, hr]
    rfl

/-- A call gives what its slot's view and the volume say, and changes what its own slot shows only. -/
theorem call_answer (env : Env) (hv : OnVolume fat16Private s) (fd : Int) (c : DescriptorCall) :
    c.Answers env s fd (answer env fat16Private (shown s fd) c) := by
  cases hslot : slot s fd with
  | none =>
    rw [shown_eq_none.2 hslot]
    exact answers_closed env hslot c
  | some desc =>
    rw [shown_of_slot hslot]
    cases c with
    | fread ptr size nmemb => exact answers_fread hslot hv ptr size nmemb
    | fseek offset whence => exact answers_fseek hslot offset whence
    | fstat => exact answers_fstat hslot

end

end SimpleMicrokernel.Fs
