/-
`disk/disk.c` and `disk/streamer.c`: the disk is read one 512-byte sector at a time, and a stream
over it copies from the sector buffer at the position's offset in the sector, up to 512 bytes a
step. A step that starts inside a sector and runs past its end reads past the buffer. A read is
the disk's bytes from the position on exactly when no step of it does.
-/
import SimpleMicrokernel.Env
import SimpleMicrokernel.Lib.Exec

namespace SimpleMicrokernel.Disk

open Memory

/-- `struct disk_stream`. Its `disk` is always the one disk there is. -/
structure DiskStream where
  pos : Nat
deriving DecidableEq, Repr

/-- One sector. The controller is given 24 bits of the sector number. -/
def diskReadSectors (env : Env) (lba : Nat) : Fin 512 → Byte := env.image (lba % 2 ^ 24)

/-- The result is 1 and never negative for the one disk there is. -/
def diskReadBlock (env : Env) (lba : Nat) : Int × (Fin 512 → Byte) := (1, diskReadSectors env lba)

/-- `buffer[index]` of the sector buffer in `disk_streamer_read`, for a stream at `pos`. -/
def bufferAt (env : Env) (pos : Nat) (buffer : Fin 512 → Byte) (index : Nat) : Except Halt Byte :=
  if h : index < 512 then .ok (buffer ⟨index, h⟩) else env.overread pos index

def diskStreamerSeek (_ : DiskStream) (pos : Int) : Int × DiskStream := (0, ⟨uint32 pos⟩)

/-- The bytes copied to `out` stand in the result. -/
def diskStreamerRead (env : Env) (stream : DiskStream) (total : Nat) : Except Halt (Int × List Byte × DiskStream) := do
  let sector := if stream.pos = 0 then 0 else stream.pos / 512
  let offset := stream.pos % 512
  let (res, buffer) := diskReadBlock env sector
  if res < 0 then
    return (res, [], stream)
  let totalToRead := if total > 512 then 512 else total
  let out ← (List.range totalToRead).mapM fun i => bufferAt env stream.pos buffer (offset + i)
  let stream := { stream with pos := (stream.pos + totalToRead) % 2 ^ 32 }
  if total > 512 then
    let (res', out', stream) ← diskStreamerRead env stream (total - 512)
    return (res + res', out ++ out', stream)
  else
    return (res, out, stream)
termination_by total
decreasing_by omega

/-! ## What a read gives -/

/-- The `n` disk bytes from a position on, positions wrapping at `2^32`. -/
def bytesAt (env : Env) (p n : Nat) : List Byte := (List.range n).map fun t => env.byteAt ((p + t) % 2 ^ 32)

@[simp] theorem length_bytesAt (env : Env) (p n : Nat) : (bytesAt env p n).length = n := by
  simp [bytesAt]

theorem getElem?_bytesAt (env : Env) {p n t : Nat} (h : t < n) :
    (bytesAt env p n)[t]? = some (env.byteAt ((p + t) % 2 ^ 32)) := by
  simp [bytesAt, h]

theorem bytesAt_append (env : Env) (p m n : Nat) :
    bytesAt env p (m + n) = bytesAt env p m ++ bytesAt env ((p + m) % 2 ^ 32) n := by
  unfold bytesAt
  rw [List.range_add, List.map_append, List.map_map]
  congr 2
  funext t
  simp only [Function.comp]
  congr 1
  omega

/-- A read of `total` bytes at a position stays inside the sector buffers: it starts on a sector
boundary or ends in the sector it starts in. -/
def InBuffer (pos total : Nat) : Prop := pos % 512 = 0 ∨ pos % 512 + total ≤ 512

instance (pos total : Nat) : Decidable (InBuffer pos total) := inferInstanceAs (Decidable (_ ∨ _))

section
variable {env : Env} {pos : Nat}

/-- One step of the read. -/
theorem diskStreamerRead_eq (env : Env) (pos total : Nat) :
    diskStreamerRead env ⟨pos⟩ total = (do
      let out ← (List.range (min total 512)).mapM fun i =>
        bufferAt env pos (diskReadSectors env (pos / 512)) (pos % 512 + i)
      if total > 512 then
        let (res', out', stream) ← diskStreamerRead env ⟨(pos + 512) % 2 ^ 32⟩ (total - 512)
        return (1 + res', out ++ out', stream)
      else return (1, out, ⟨(pos + total) % 2 ^ 32⟩)) := by
  have hsector : (if pos = 0 then 0 else pos / 512) = pos / 512 := by
    split
    · rename_i h; rw [h]
    · rfl
  have hmin : (if total > 512 then 512 else total) = min total 512 := by split <;> omega
  rw [diskStreamerRead]
  simp only [hsector, hmin, diskReadBlock]
  rw [if_neg (by decide)]
  split
  · rename_i h
    simp only [Nat.min_eq_right (Nat.le_of_lt h)]
  · rename_i h
    simp only [Nat.min_eq_left (Nat.le_of_not_lt h)]

theorem mapM_bufferAt (hpos : pos < 2 ^ 32) {n : Nat} (h : pos % 512 + n ≤ 512) :
    ((List.range n).mapM fun i => bufferAt env pos (diskReadSectors env (pos / 512)) (pos % 512 + i)) =
      .ok (bytesAt env pos n) := by
  refine Exec.mapM_ok fun i hi => ?_
  rw [List.mem_range] at hi
  have hlt : pos % 512 + i < 512 := by omega
  have hdiv : (pos + i) % 2 ^ 32 / 512 = pos / 512 := by omega
  have hmod : (pos + i) % 2 ^ 32 % 512 = pos % 512 + i := by omega
  have hlba : pos / 512 % 2 ^ 24 = pos / 512 := by omega
  simp only [bufferAt, dif_pos hlt, diskReadSectors, Env.byteAt, hdiv, hmod, hlba]

/-- A read that stays inside the sector buffers gives the disk's bytes and moves on. -/
theorem diskStreamerRead_ok (env : Env) {total : Nat} (hpos : pos < 2 ^ 32) (h : InBuffer pos total) :
    ∃ res, 0 < res ∧ diskStreamerRead env ⟨pos⟩ total = .ok (res, bytesAt env pos total, ⟨(pos + total) % 2 ^ 32⟩) := by
  induction total using Nat.strong_induction_on generalizing pos with
  | _ total ih =>
    rw [diskStreamerRead_eq]
    by_cases hbig : total > 512
    · have h0 : pos % 512 = 0 := by unfold InBuffer at h; omega
      rw [mapM_bufferAt hpos (by omega), Nat.min_eq_right (by omega)]
      obtain ⟨res, hres, e⟩ := ih (total - 512) (by omega)
        (show (pos + 512) % 2 ^ 32 < 2 ^ 32 from Nat.mod_lt _ (by decide)) (by unfold InBuffer; omega)
      refine ⟨1 + res, by omega, ?_⟩
      have happ := bytesAt_append env pos 512 (total - 512)
      rw [show 512 + (total - 512) = total by omega] at happ
      rw [happ]
      have hnext : ((pos + 512) % 2 ^ 32 + (total - 512)) % 2 ^ 32 = (pos + total) % 2 ^ 32 := by omega
      simp only [bind, Except.bind, pure, Except.pure, if_pos hbig, e, hnext]
    · rw [Nat.min_eq_left (by omega), mapM_bufferAt hpos (by unfold InBuffer at h; omega)]
      refine ⟨1, by decide, ?_⟩
      simp only [bind, Except.bind, pure, Except.pure, if_neg hbig]

/-- With a sector buffer that may not be read past, a read that leaves it stops the kernel. -/
theorem diskStreamerRead_halts {e : Halt} (hover : ∀ pos index, env.overread pos index = .error e) {total : Nat}
    (h : ¬ InBuffer pos total) : diskStreamerRead env ⟨pos⟩ total = .error e := by
  unfold InBuffer at h
  rw [diskStreamerRead_eq, Exec.mapM_error]
  · rfl
  · intro i _
    unfold bufferAt
    split
    · exact .inr ⟨_, rfl⟩
    · exact .inl (hover _ _)
  · -- the first index past the buffer
    refine ⟨512 - pos % 512, List.mem_range.2 (by omega), ?_⟩
    rw [bufferAt, dif_neg (by omega), hover]

/-- A read that does not stop copies `total` bytes, whatever is past the buffer, and moves on. -/
theorem diskStreamerRead_length {total : Nat} {res : Int} {out : List Byte} {stream : DiskStream}
    (h : diskStreamerRead env ⟨pos⟩ total = .ok (res, out, stream)) :
    0 < res ∧ out.length = total ∧ stream.pos = (pos + total) % 2 ^ 32 := by
  induction total using Nat.strong_induction_on generalizing pos res out stream with
  | _ total ih =>
    rw [diskStreamerRead_eq] at h
    cases ho : (List.range (min total 512)).mapM fun i =>
        bufferAt env pos (diskReadSectors env (pos / 512)) (pos % 512 + i) with
    | error => rw [ho] at h; cases h
    | ok bs =>
      rw [ho] at h
      have hbs := Exec.length_of_mapM_ok ho
      rw [List.length_range] at hbs
      simp only [bind, Except.bind] at h
      split at h
      · rename_i hbig
        cases hr : diskStreamerRead env ⟨(pos + 512) % 2 ^ 32⟩ (total - 512) with
        | error => rw [hr] at h; cases h
        | ok r =>
          obtain ⟨res', out', stream'⟩ := r
          obtain ⟨h1, h2, h3⟩ := ih (total - 512) (by omega) hr
          rw [hr] at h
          cases h
          exact ⟨by omega, by rw [List.length_append, hbs, h2]; omega, by rw [h3]; omega⟩
      · cases h
        exact ⟨by decide, by omega, rfl⟩

/-- A read gives the disk's bytes from its position on, looks at nothing past its sector buffers and comes
to the position after them, exactly when it stays inside the sector buffers. -/
theorem diskStreamerRead_iff (env : Env) {pos total : Nat} (hend : pos + total < 2 ^ 32) :
    (∀ overread, ∃ res, diskStreamerRead { env with overread := overread } ⟨pos⟩ total =
      .ok (res, bytesAt env pos total, ⟨pos + total⟩)) ↔
      InBuffer pos total := by
  constructor
  · intro h
    by_contra hout
    obtain ⟨res, e⟩ := h fun _ _ => .error .outOfBounds
    have hhalt : diskStreamerRead { env with overread := fun _ _ => .error .outOfBounds } ⟨pos⟩ total =
      .error .outOfBounds :=
      diskStreamerRead_halts (fun _ _ => rfl) hout
    rw [hhalt] at e
    cases e
  · intro h overread
    obtain ⟨res, -, e⟩ := diskStreamerRead_ok { env with overread := overread } (show pos < 2 ^ 32 by omega) h
    rw [Nat.mod_eq_of_lt hend] at e
    exact ⟨res, e⟩

end

/-- A disk that is all zero. -/
def zeroDisk : Env := ⟨fun _ _ => 0, fun _ _ => .ok 0, fun _ mem => .ok mem, fun _ _ _ => .error .nullDeref⟩

/-- The two bytes of the streamer test, from position 513 on. -/
theorem diskStreamerRead_two :
    (∀ overread, ∃ res, diskStreamerRead { zeroDisk with overread := overread } ⟨513⟩ 2 =
      .ok (res, bytesAt zeroDisk 513 2, ⟨513 + 2⟩)) ↔
      InBuffer 513 2 :=
  diskStreamerRead_iff zeroDisk (by decide)

/-- Four bytes from position 510: the last two are read past the sector buffer. -/
theorem diskStreamerRead_crosses : 510 + 4 < 2 ^ 32 ∧
    ¬ ∀ overread, ∃ res, diskStreamerRead { zeroDisk with overread := overread } ⟨510⟩ 4 =
    .ok (res, bytesAt zeroDisk 510 4, ⟨510 + 4⟩) := by
  refine ⟨by decide, fun h => ?_⟩
  obtain ⟨res, e⟩ := h fun _ _ => .error .outOfBounds
  have hhalt : diskStreamerRead { zeroDisk with overread := fun _ _ => .error .outOfBounds } ⟨510⟩ 4 =
    .error .outOfBounds :=
    diskStreamerRead_halts (fun _ _ => rfl) (by decide)
  rw [hhalt] at e
  cases e

end SimpleMicrokernel.Disk
