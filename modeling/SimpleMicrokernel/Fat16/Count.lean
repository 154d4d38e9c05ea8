/-
Counting the entries of a directory. `fat16_get_total_items_for_directory` reads the disk's sectors one
after another from where the directory starts, up to the first end marker, and counts every entry that
is not deleted. A disk with no marker among the entries a stream can come to is counted for ever.
-/
import SimpleMicrokernel.Fat16.Directory

namespace SimpleMicrokernel.Fat16

open Memory Disk Fs

/-- The first byte of entry `j` of the entries from a position on. -/
def firstByte (env : Env) (p j : Nat) : Byte := env.byteAt ((p + sizeofFat16DirectoryItem * j) % 2 ^ 32)

/-- The first end marker is entry `m`. -/
structure Marker (env : Env) (p m : Nat) : Prop where
  ends : firstByte env p m = 0x00
  first : ∀ j < m, firstByte env p j ≠ 0x00

/-- The entries among the first `m` that are not deleted. -/
def liveCount (env : Env) (p m : Nat) : Nat := (List.range m).countP fun j => firstByte env p j ≠ 0xE5

section
variable {env : Env} {s s' : Sys} {p m n : Nat}

theorem firstByte_next (env : Env) (p j : Nat) :
    firstByte env (p + sizeofFat16DirectoryItem) j = firstByte env p (j + 1) := by
  unfold firstByte
  rw [Nat.mul_succ, Nat.add_assoc, Nat.add_comm (sizeofFat16DirectoryItem * j)]

theorem Marker.unique (h : Marker env p m) (h' : Marker env p n) : m = n := by
  rcases Nat.lt_trichotomy m n with hlt | he | hlt
  · exact absurd h.ends (h'.first m hlt)
  · exact he
  · exact absurd h'.ends (h.first n hlt)

theorem exists_marker (h : firstByte env p m = 0x00) (hm : m < n) : ∃ k < n, Marker env p k := by
  have hdec : ∃ k, firstByte env p k = 0x00 := ⟨m, h⟩
  exact ⟨Nat.find hdec, Nat.lt_of_le_of_lt (Nat.find_min' hdec h) hm, Nat.find_spec hdec,
    fun j hj => Nat.find_min hdec hj⟩

theorem Marker.next (h : Marker env p (m + 1)) : Marker env (p + sizeofFat16DirectoryItem) m :=
  ⟨by rw [firstByte_next, h.ends], fun j hj => by rw [firstByte_next]; exact h.first _ (by omega)⟩

theorem liveCount_succ (env : Env) (p m : Nat) : liveCount env p (m + 1) =
    (if firstByte env p 0 = 0xE5 then 0 else 1) + liveCount env (p + sizeofFat16DirectoryItem) m := by
  unfold liveCount
  rw [List.range_succ_eq_map, List.countP_cons, List.countP_map, Nat.add_comm]
  congr 1
  · by_cases h : firstByte env p 0 = 0xE5
    · rw [if_pos h, if_neg (by simpa using h)]
    · rw [if_neg h, if_pos (by simpa using h)]
  · congr 1
    funext j
    simp only [Function.comp, firstByte_next]

theorem liveCount_le (env : Env) (p m : Nat) : liveCount env p m ≤ m := by
  have h := List.countP_le_length (p := fun j => decide (firstByte env p j ≠ 0xE5)) (l := List.range m)
  rwa [List.length_range] at h

/-- The read of one entry. -/
theorem streamerRead_entry (env : Env) (hp : p % 32 = 0) (hs : s.fat16Private.stream .directory = ⟨p % 2 ^ 32⟩) :
    ∃ res bytes s', streamerRead env .directory sizeofFat16DirectoryItem s = .ok ((res, bytes), s') ∧ 0 < res ∧
      bytes.head? = some (firstByte env p 0) ∧ SameButStreams s s' ∧
      s'.fat16Private.stream .directory = ⟨(p + sizeofFat16DirectoryItem) % 2 ^ 32⟩ := by
  have hbuf : InBuffer (p % 2 ^ 32) sizeofFat16DirectoryItem := by
    unfold InBuffer sizeofFat16DirectoryItem
    omega
  obtain ⟨res, hres, e⟩ := diskStreamerRead_ok env (Nat.mod_lt p (by decide)) hbuf
  have hnext : (p % 2 ^ 32 + sizeofFat16DirectoryItem) % 2 ^ 32 = (p + sizeofFat16DirectoryItem) % 2 ^ 32 :=
    Nat.mod_add_mod ..
  rw [hnext] at e
  refine ⟨res, bytesAt env (p % 2 ^ 32) sizeofFat16DirectoryItem,
    s.setStream .directory ⟨(p + sizeofFat16DirectoryItem) % 2 ^ 32⟩, ?_, hres, ?_, sameButStreams_setStream s .., ?_⟩
  · unfold streamerRead
    rw [hs, e]
    rfl
  · rw [List.head?_eq_getElem?, getElem?_bytesAt env (by decide)]
    unfold firstByte
    rw [Nat.mul_zero, Nat.add_zero, Nat.add_zero, Nat.mod_mod]
  · rw [Sys.stream_setStream]

/-- Up to the marker every entry that is not deleted is counted. -/
theorem totalItemsLoop_ok (hn : m < n) : ∀ {p : Nat} {i : Int} {s : Sys}, Marker env p m → p % 32 = 0 →
    s.fat16Private.stream .directory = ⟨p % 2 ^ 32⟩ →
    ∃ s', totalItemsLoop env n i s = .ok (i + liveCount env p m, s') ∧ SameButStreams s s' := by
  induction m generalizing n with
  | zero =>
    intro p i s hmark hp hs
    obtain ⟨n, rfl⟩ : ∃ k, n = k + 1 := ⟨n - 1, by omega⟩
    obtain ⟨res, bytes, s', e, hres, hhead, hsame, -⟩ := streamerRead_entry env hp hs
    refine ⟨s', ?_, hsame⟩
    rw [totalItemsLoop, Exec.bind_of_ok e]
    simp only
    rw [if_neg (by omega), hhead, hmark.ends, if_pos rfl]
    simp [liveCount]
    rfl
  | succ m ih =>
    intro p i s hmark hp hs
    obtain ⟨n, rfl⟩ : ∃ k, n = k + 1 := ⟨n - 1, by omega⟩
    obtain ⟨res, bytes, s1, e, hres, hhead, hsame, hs1⟩ := streamerRead_entry env hp hs
    have hlive : firstByte env p 0 ≠ 0x00 := hmark.first 0 (by omega)
    have hnext : (p + sizeofFat16DirectoryItem) % 32 = 0 := by unfold sizeofFat16DirectoryItem; omega
    rw [totalItemsLoop, Exec.bind_of_ok e]
    simp only
    rw [if_neg (by omega), hhead, if_neg (by simpa using hlive), liveCount_succ]
    by_cases hdel : firstByte env p 0 = 0xE5
    · obtain ⟨s2, e2, hsame2⟩ := ih (n := n) (by omega) (i := i) hmark.next hnext hs1
      refine ⟨s2, ?_, IsTrans.trans _ _ _ hsame hsame2⟩
      rw [if_pos (by rw [hdel]), if_pos hdel, Nat.zero_add]
      exact e2
    · obtain ⟨s2, e2, hsame2⟩ := ih (n := n) (by omega) (i := i + 1) hmark.next hnext hs1
      refine ⟨s2, ?_, IsTrans.trans _ _ _ hsame hsame2⟩
      rw [if_neg (by simpa using hdel), if_neg hdel, Nat.cast_add, ← Int.add_assoc]
      exact e2

theorem totalItemsLoop_hang : ∀ {n p : Nat} {i : Int} {s : Sys}, (∀ j < n, firstByte env p j ≠ 0x00) → p % 32 = 0 →
    s.fat16Private.stream .directory = ⟨p % 2 ^ 32⟩ → totalItemsLoop env n i s = .error .hang
  | 0, _, _, _, _, _, _ => rfl
  | n + 1, p, i, s, hno, hp, hs => by
    obtain ⟨res, bytes, s1, e, hres, hhead, -, hs1⟩ := streamerRead_entry env hp hs
    have hrest : ∀ i, totalItemsLoop env n i s1 = .error .hang := fun i =>
      totalItemsLoop_hang (fun j hj => by rw [firstByte_next]; exact hno _ (by omega))
        (by unfold sizeofFat16DirectoryItem; omega) hs1
    have hlive : firstByte env p 0 ≠ 0x00 := hno 0 (by omega)
    rw [totalItemsLoop, Exec.bind_of_ok e]
    simp only
    rw [if_neg (by omega), hhead, if_neg (by simpa using hlive)]
    split
    · exact hrest i
    · exact hrest (i + 1)

theorem seek_directory (sector : Nat) (s : Sys) :
    ∃ s', streamerSeek .directory (fat16SectorsToAbosulute sector) s = .ok (0, s') ∧
    SameButStreams s s' ∧ s'.fat16Private.stream .directory = ⟨fat16SectorsToAbosulute sector % 2 ^ 32⟩ := by
  have hlt : uint32 (fat16SectorsToAbosulute sector : Int) = fat16SectorsToAbosulute sector % 2 ^ 32 := uint32_natCast _
  refine ⟨_, streamerSeek_apply .., sameButStreams_setStream s .., ?_⟩
  rw [Sys.stream_setStream, hlt]

theorem fat16SectorsToAbosulute_mod (sector : Nat) : fat16SectorsToAbosulute sector % 32 = 0 := by
  unfold fat16SectorsToAbosulute sectorSize
  omega

theorem fat16GetTotalItemsForDirectory_ok (hm : m < 2 ^ 27) {sector : Nat}
    (hmark : Marker env (fat16SectorsToAbosulute sector) m)
    (s : Sys) : ∃ s', fat16GetTotalItemsForDirectory env sector s =
    .ok ((liveCount env (fat16SectorsToAbosulute sector) m : Int), s') ∧
      SameButStreams s s' := by
  obtain ⟨s1, e1, hsame1, hs1⟩ := seek_directory sector s
  obtain ⟨s2, e2, hsame2⟩ := totalItemsLoop_ok hm (i := 0) hmark (fat16SectorsToAbosulute_mod sector) hs1
  refine ⟨s2, ?_, IsTrans.trans _ _ _ hsame1 hsame2⟩
  unfold fat16GetTotalItemsForDirectory
  rw [Exec.bind_of_ok e1, e2, Int.zero_add]

theorem of_fat16GetTotalItemsForDirectory {sector : Nat} {total : Int}
    (h : fat16GetTotalItemsForDirectory env sector s = .ok (total, s')) :
    SameButStreams s s' ∧ ∃ m < 2 ^ 27, Marker env (fat16SectorsToAbosulute sector) m ∧
      total = liveCount env (fat16SectorsToAbosulute sector) m := by
  by_cases hex : ∃ m < 2 ^ 27, firstByte env (fat16SectorsToAbosulute sector) m = 0x00
  · obtain ⟨k, hk, hzero⟩ := hex
    obtain ⟨m, hm, hmark⟩ := exists_marker hzero hk
    obtain ⟨s2, e, hsame⟩ := fat16GetTotalItemsForDirectory_ok hm hmark s
    rw [e] at h
    cases h
    exact ⟨hsame, m, hm, hmark, rfl⟩
  · push Not at hex
    obtain ⟨s1, e1, -, hs1⟩ := seek_directory sector s
    unfold fat16GetTotalItemsForDirectory at h
    rw [Exec.bind_of_ok e1, totalItemsLoop_hang hex (fat16SectorsToAbosulute_mod sector) hs1] at h
    cases h

end

end SimpleMicrokernel.Fat16
