/-
What the file system leaves alone. Reading a table or counting a directory moves streams only;
reading clusters moves streams and stores to its buffer; loading, finding and resolving allocate,
store to what they allocated, and give back what they made themselves.
-/
import SimpleMicrokernel.Fat16.Directory
import SimpleMicrokernel.Fs.Alloc

namespace SimpleMicrokernel.Fat16

open Memory Disk Fs

/-! ## What moves streams only -/

theorem keeps_streamerSeek (id : StreamId) (pos : Int) : Exec.Keeps SameButStreams (streamerSeek id pos) := by
  intro s a s' h
  rw [streamerSeek_apply] at h
  cases h
  exact sameButStreams_setStream ..

theorem keeps_streamerRead (env : Env) (id : StreamId) (total : Nat) :
    Exec.Keeps SameButStreams (streamerRead env id total) := by
  intro s a s' h
  obtain ⟨res, out⟩ := a
  exact (of_streamerRead_ok h).2.2

theorem keeps_fat16GetFatEntry (env : Env) (cluster : Int) :
    Exec.Keeps SameButStreams (fat16GetFatEntry env cluster) := by
  unfold fat16GetFatEntry
  refine Exec.keeps_bind Exec.keeps_get fun s => ?_
  refine Exec.keeps_bind (keeps_streamerSeek _ _) fun res => ?_
  refine Exec.keeps_ite (Exec.keeps_pure _) ?_
  refine Exec.keeps_bind (keeps_streamerRead _ _ _) fun p => ?_
  exact Exec.keeps_ite (Exec.keeps_pure _) (Exec.keeps_pure _)

theorem keeps_clusterLoop (env : Env) : ∀ (n : Nat) (c : Int), Exec.Keeps SameButStreams (clusterLoop env n c)
  | 0, c => Exec.keeps_pure _
  | n + 1, c => by
    rw [clusterLoop]
    refine Exec.keeps_bind (keeps_fat16GetFatEntry _ _) fun entry => ?_
    refine Exec.keeps_ite (Exec.keeps_pure _) ?_
    refine Exec.keeps_ite (Exec.keeps_pure _) ?_
    refine Exec.keeps_ite (Exec.keeps_pure _) ?_
    exact Exec.keeps_ite (Exec.keeps_pure _) (keeps_clusterLoop env n _)

theorem keeps_fat16GetClusterForOffset (env : Env) (c offset : Int) :
    Exec.Keeps SameButStreams (fat16GetClusterForOffset env c offset) := by
  unfold fat16GetClusterForOffset
  refine Exec.keeps_bind Exec.keeps_get fun s => ?_
  exact Exec.keeps_ite (Exec.keeps_throw _) (keeps_clusterLoop _ _ _)

theorem keeps_totalItemsLoop (env : Env) : ∀ (n : Nat) (i : Int), Exec.Keeps SameButStreams (totalItemsLoop env n i)
  | 0, i => Exec.keeps_throw _
  | n + 1, i => by
    rw [totalItemsLoop]
    refine Exec.keeps_bind (keeps_streamerRead _ _ _) fun p => ?_
    refine Exec.keeps_ite (Exec.keeps_pure _) ?_
    refine Exec.keeps_ite (Exec.keeps_pure _) ?_
    exact Exec.keeps_ite (keeps_totalItemsLoop env n _) (keeps_totalItemsLoop env n _)

theorem keeps_fat16GetTotalItemsForDirectory (env : Env) (startSector : Nat) :
    Exec.Keeps SameButStreams (fat16GetTotalItemsForDirectory env startSector) := by
  unfold fat16GetTotalItemsForDirectory
  exact Exec.keeps_bind (keeps_streamerSeek _ _) fun _ => keeps_totalItemsLoop _ _ _

/-! ## What stores to its buffer -/

/-- Streams may have moved and the `n` bytes from `lo` on may have changed, nothing else. -/
def WritesIn (lo n : Nat) (s s' : Sys) : Prop :=
  SameButStreams { s with mem := s'.mem } s' ∧ ∀ x, x < lo ∨ lo + n ≤ x → s'.mem x = s.mem x

theorem SameButStreams.writesIn {s s' : Sys} (h : SameButStreams s s') (lo n : Nat) : WritesIn lo n s s' := by
  unfold WritesIn SameButStreams at *
  rw [h]
  exact ⟨rfl, fun _ _ => rfl⟩

theorem WritesIn.trans {lo n lo' n' : Nat} {s s' s'' : Sys} (h1 : WritesIn lo n s s') (h2 : WritesIn lo' n' s' s'')
    (hlo : lo ≤ lo') (hhi : lo' + n' ≤ lo + n) : WritesIn lo n s s'' := by
  refine ⟨?_, fun x hx => (h2.2 x (by omega)).trans (h1.2 x hx)⟩
  have e1 := h1.1
  have e2 := h2.1
  unfold SameButStreams at *
  rw [e2, e1]

theorem writesIn_store {s : Sys} {lo n : Nat} {bs : List Byte} (hlen : bs.length ≤ n) :
    WritesIn lo n s { s with mem := store s.mem lo bs } := by
  refine ⟨rfl, fun x hx => ?_⟩
  show store s.mem lo bs x = s.mem x
  rw [store_apply]
  split
  · rw [List.getElem?_eq_none (by omega)]
    rfl
  · rfl

/-- Reading clusters stores at most as many bytes as were asked for. -/
theorem readInternalFromStream_writesIn {env : Env} {id : StreamId} {cluster : Int} :
    ∀ {offset total : Int} {out : Nat} {s s' : Sys} {res : Int}, total < 2 ^ 32 →
      fat16ReadInternalFromStream env id cluster offset total out s = .ok (res, s') →
      WritesIn out (uint32 total) s s' := by
  intro offset total
  induction hk : total.toNat using Nat.strong_induction_on generalizing offset total with
  | _ k ih =>
    intro out s s' res hlt h
    rw [fat16ReadInternalFromStream, Exec.bind_of_ok (Exec.get_apply s)] at h
    simp only at h
    split at h
    · rw [Exec.throw_apply] at h
      cases h
    · rename_i hsize
      obtain ⟨cl, s1, hcl, h⟩ := Exec.of_bind_ok h
      have hsame := SameButStreams.writesIn (keeps_fat16GetClusterForOffset _ _ _ _ _ _ hcl) out (uint32 total)
      split at h
      · obtain ⟨-, rfl⟩ := Exec.of_pure_ok h
        exact hsame
      · rw [Exec.bind_of_ok (streamerSeek_apply ..), if_neg (by decide)] at h
        obtain ⟨p, s2, hread, h⟩ := Exec.of_bind_ok h
        obtain ⟨r, bytes⟩ := p
        obtain ⟨hr, hlen, hsame2⟩ := of_streamerRead_ok hread
        simp only at h
        rw [Exec.bind_of_ok (Exec.modify_apply ..), if_neg (by omega)] at h
        have hseek := SameButStreams.writesIn (sameButStreams_setStream s1 id ⟨uint32 (int32 (uint32
          (fat16ClusterToSector s.fat16Private cl * sectorSize) + offset.tmod (sizeOfClusterInBytes s.fat16Private)))⟩)
          out (uint32 total)
        have hstep := ((hsame.trans hseek (le_refl _) (le_refl _)).trans
          (SameButStreams.writesIn hsame2 out (uint32 total))
          (le_refl _) (le_refl _)).trans (writesIn_store (Nat.le_of_eq hlen)) (le_refl _) (le_refl _)
        have hread : (if total > (sizeOfClusterInBytes s.fat16Private : Int) then
          (sizeOfClusterInBytes s.fat16Private : Int)
            else total) = min total (sizeOfClusterInBytes s.fat16Private) := by split <;> omega
        rw [hread] at h
        split at h
        · rename_i hmore
          have hrest := ih (total - min total (sizeOfClusterInBytes s.fat16Private)).toNat (by omega) rfl (by omega) h
          refine hstep.trans hrest (by omega) ?_
          unfold uint32 at *
          omega
        · obtain ⟨-, rfl⟩ := Exec.of_pure_ok h
          exact hstep

/-! ## What a computation owns -/

section
variable {reserved size : Nat} {keep : Prop} {env : Env} {s s' s'' : Sys} {held own own' : List Live}
    {addrs addrs' : List Nat}

/-- The allocations `own` are live, at the addresses `addrs`, each at another, none among `held`. -/
structure Owns (held own : List Live) (s : Sys) (addrs : List Nat) : Prop where
  made : own.map Live.addr = addrs
  live : own ⊆ s.live
  nodup : addrs.Nodup
  out : ∀ a ∈ own, ∀ b ∈ held, b.addr ≠ a.addr

theorem Owns.nil (held : List Live) (s : Sys) : Owns held [] s [] := ⟨rfl, List.nil_subset _, List.nodup_nil, by simp⟩

theorem Owns.append (h' : Owns (own ++ held) own' s addrs') (h : Owns held own s addrs) :
    Owns held (own' ++ own) s (addrs' ++ addrs) := by
  refine ⟨by rw [List.map_append, h'.made, h.made], List.append_subset.2 ⟨h'.live, h.live⟩, ?_, ?_⟩
  · refine List.nodup_append.2 ⟨h'.nodup, h.nodup, ?_⟩
    rw [← h'.made, ← h.made]
    intro x hx y hy
    obtain ⟨a, ha, rfl⟩ := List.mem_map.1 hx
    obtain ⟨b, hb, rfl⟩ := List.mem_map.1 hy
    exact (h'.out a ha b (List.mem_append_left _ hb)).symm
  · intro a ha b hb
    rcases List.mem_append.1 ha with ha | ha
    · exact h'.out a ha b (List.mem_append_right _ hb)
    · exact h.out a ha b hb

theorem Owns.frames (h : Owns held own s addrs) (hlive : own ⊆ s'.live) : Owns held own s' addrs :=
  ⟨h.made, hlive, h.nodup, h.out⟩

theorem owns_kzalloc {n p : Nat} (hok' : s'.Ok reserved size) (hheld : held ⊆ s.live)
    (hlive : s'.live = ⟨p, n, .kheap⟩ :: s.live) : Owns held [⟨p, n, .kheap⟩] s' [p] := by
  refine ⟨rfl, by rw [hlive]; simp, by simp, fun a ha b hb => ?_⟩
  obtain rfl := List.mem_singleton.1 ha
  exact (hok'.fresh hlive b (hheld hb)).symm.addr_ne

theorem kfree_owned {x : Nat} {a : Live} {u : Unit} (h : Owns held (a :: own) s (x :: addrs))
    (hfree : kfree x s = .ok (u, s')) : FramesSys reserved size keep held s s' ∧ Owns held own s' addrs := by
  obtain ⟨hx, haddrs⟩ := List.cons_eq_cons.1 h.made
  have hlive := List.cons_subset.1 h.live
  have hnodup := List.nodup_cons.1 h.nodup
  refine ⟨kfree_spec (.inr ⟨a, hlive.1, hx⟩) (fun b hb => hx ▸ h.out a (List.mem_cons_self ..) b hb) hfree,
    haddrs, fun b hb => ?_, hnodup.2, fun b hb => h.out b (List.mem_cons_of_mem _ hb)⟩
  unfold kfree at hfree
  rw [Exec.modify_apply] at hfree
  cases hfree
  refine List.mem_filter.2 ⟨hlive.2 hb, ?_⟩
  have hb' : b.addr ∈ addrs := haddrs ▸ List.mem_map_of_mem hb
  have : b.addr ≠ x := fun he => hnodup.1 (he ▸ hb')
  simpa using this

theorem WritesIn.frames {p n : Nat} {owner : Owner} (h : WritesIn p n s s')
    (ha : s.Ok reserved size → ⟨p, n, owner⟩ ∈ s.live) (hout : ∀ b ∈ held, b.addr ≠ p) :
    FramesSys reserved size keep held s s' := by
  obtain ⟨hsame, hmem⟩ := h
  have halloc : s'.toAllocState = { s with mem := s'.mem }.toAllocState := by rw [hsame]
  have hframes : FramesSys reserved size keep held s { s with mem := s'.mem } :=
    frames_mem ha hout fun hok x hx => hmem x (by
      by_contra hin
      have hin : p ≤ x ∧ x < p + n := by omega
      exact hx (covers_of_fill (hok.bounds (ha hok)).1 hin.1 hin.2))
  unfold FramesSys
  rw [halloc]
  exact hframes

/-- The computation frames what is held, and what it gives it owns. -/
def Makes {α : Type} (reserved size : Nat) (keep : Prop) (addrs : α → List Nat) (x : FsM (Option α)) : Prop :=
  ∀ held s r s', x s = .ok (r, s') → FramesSys reserved size keep held s s' ∧
    (s.Ok reserved size → held ⊆ s.live → ∀ d ∈ r, ∃ own, Owns held own s' (addrs d))

theorem makes_none {α : Type} {addrs : α → List Nat} {r : Option α}
    (hf : FramesSys reserved size keep held s s') (hr : (pure none : FsM (Option α)) s' = .ok (r, s'')) :
    FramesSys reserved size keep held s s'' ∧
      (s.Ok reserved size → held ⊆ s.live → ∀ d ∈ r, ∃ own, Owns held own s'' (addrs d)) := by
  obtain ⟨rfl, rfl⟩ := Exec.of_pure_ok hr
  exact ⟨hf, by simp⟩

end

/-! ## Directories -/

/-- What a loaded directory is made of. -/
def directoryAddrs (d : Ptr Fat16Directory) : List Nat := [d.val.item, d.addr]

/-- What an item is made of. -/
def itemAddrs (item : Ptr FatItem) : List Nat :=
  match item.val with
  | .directory (some d) => directoryAddrs d ++ [item.addr]
  | .file (some i) => [i.addr, item.addr]
  | _ => [item.addr]

section
variable {reserved size : Nat} {keep : Prop} {env : Env} {s s' : Sys} {held own : List Live}

/-- A directory that is owned is given back whole. -/
theorem fat16FreeDirectory_owned {d : Ptr Fat16Directory} {rest : List Nat} {u : Unit}
    (h : Owns held own s (directoryAddrs d ++ rest)) (hfree : fat16FreeDirectory (some d) s = .ok (u, s')) :
    FramesSys reserved size keep held s s' ∧ (s.Ok reserved size → ∃ own', Owns held own' s' rest) := by
  obtain ⟨a, own, rfl⟩ : ∃ a l, own = a :: l := by
    cases own with
    | nil => cases h.made
    | cons a l => exact ⟨a, l, rfl⟩
  by_cases hitem : d.val.item = 0
  · -- no live allocation is at the null address
    have hno : ¬ s.Ok reserved size := fun hok => by
      have ha := (hok.bounds (h.live (List.mem_cons_self ..))).2.1
      exact ha ((List.cons_eq_cons.1 h.made).1.trans hitem)
    exact ⟨fun hok => absurd hok hno, fun hok => absurd hok hno⟩
  · simp only [fat16FreeDirectory, if_pos hitem] at hfree
    obtain ⟨_, s1, h1, hfree⟩ := Exec.of_bind_ok hfree
    obtain ⟨f1, o1⟩ := kfree_owned h h1
    obtain ⟨b, own, rfl⟩ : ∃ b l, own = b :: l := by
      cases own with
      | nil => cases o1.made
      | cons b l => exact ⟨b, l, rfl⟩
    obtain ⟨f2, o2⟩ := kfree_owned o1 hfree
    exact ⟨AllocState.Frames.trans' f1 f2, fun _ => ⟨own, o2⟩⟩

/-- A loaded directory is its structure and its array, both new. -/
theorem makes_fat16LoadDirectory (hkeep : keep → FillsBelow env reserved) (dirItem : Nat) :
    Makes reserved size keep directoryAddrs (fat16LoadDirectory env dirItem) := by
  intro held s r s' h
  unfold fat16LoadDirectory at h
  rw [Exec.bind_of_ok (Exec.get_apply s)] at h
  split at h
  · exact makes_none (AllocState.Frames.rfl' _) h
  · obtain ⟨directory, s1, h1, h⟩ := Exec.of_bind_ok h
    obtain ⟨f1, l1⟩ := kzalloc_spec (fun hk => .inl (hkeep hk)) h1
    split at h
    · exact makes_none f1 h
    · rename_i hdir
      rw [Exec.bind_of_ok (Exec.get_apply s1)] at h
      obtain ⟨totalItems, s2, h2, h⟩ := Exec.of_bind_ok h
      have hsame := keeps_fat16GetTotalItemsForDirectory _ _ _ _ _ h2
      obtain ⟨item, s3, h3, h⟩ := Exec.of_bind_ok h
      have f3 : ∀ held, FramesSys reserved size keep held s2 s3 ∧
        (s2.Ok reserved size → item ≠ 0 → s3.live = _ :: s2.live) :=
        fun held => kzalloc_spec (fun hk => .inl (hkeep hk)) h3
      split at h
      · exact makes_none (f1.trans' (hsame.frames.trans' (f3 held).1)) h
      · rename_i hitem
        obtain ⟨res, s4, h4, h⟩ := Exec.of_bind_ok h
        have hbuf := readInternalFromStream_writesIn (Int.lt_of_lt_of_le (int32_bounds _).2 (by decide)) h4
        -- both parts are new when they are allocated, and neither is framed
        have hnew : s.Ok reserved size → held ⊆ s.live → FramesSys reserved size keep held s s4 ∧
            ∃ own, Owns held own s4 [item, directory] := by
          intro hok hheld
          obtain ⟨hok1, hheld1, -⟩ := f1 hok hheld
          have o1 := owns_kzalloc hok1 hheld (l1 hok hdir)
          obtain ⟨own1, hown1⟩ : ∃ l, l = [Live.mk directory sizeofFat16Directory .kheap] := ⟨_, rfl⟩
          rw [← hown1] at o1
          have hbase1 : own1 ++ held ⊆ s1.live := List.append_subset.2 ⟨o1.live, hheld1⟩
          have fcount : FramesSys reserved size keep (own1 ++ held) s1 s2 := hsame.frames
          obtain ⟨hok2, hbase2, -⟩ := fcount hok1 hbase1
          obtain ⟨hok3, -, -⟩ := (f3 held).1 hok2 (List.append_subset.1 hbase2).2
          have o3 := owns_kzalloc hok3 hbase2 ((f3 held).2 hok2 hitem)
          have fread : FramesSys reserved size keep (own1 ++ held) s3 s4 :=
            hbuf.frames (fun _ => o3.live (List.mem_cons_self ..)) (o3.out _ (List.mem_cons_self ..))
          have ffrom1 := fcount.trans' ((f3 _).1.trans' fread)
          have hlive1 := (List.append_subset.1 (ffrom1 hok1 hbase1).2.1).1
          have hlive4 : s4.live = s3.live := by rw [hbuf.1]
          refine ⟨f1.trans' (ffrom1.mono (List.subset_append_right ..) fun hheld => ?_), _,
            (o3.frames (hlive4 ▸ o3.live)).append (o1.frames hlive1)⟩
          exact List.append_subset.2 ⟨o1.live, hheld⟩
        split at h
        · obtain ⟨_, s5, h5, h⟩ := Exec.of_bind_ok h
          refine makes_none (fun hok hheld => ?_) h
          obtain ⟨f4, own, o4⟩ := hnew hok hheld
          have hfree : FramesSys reserved size keep held s4 s5 :=
            (fat16FreeDirectory_owned (d := ⟨directory, ⟨item, totalItems, 0, 0⟩⟩) o4 h5).1
          exact (f4.trans' hfree) hok hheld
        · obtain ⟨rfl, rfl⟩ := Exec.of_pure_ok h
          refine ⟨fun hok hheld => (hnew hok hheld).1 hok hheld, fun hok hheld d hd => ?_⟩
          obtain rfl := Option.mem_some_iff.1 hd
          exact (hnew hok hheld).2

/-- The structure of an item and what is new in it. -/
theorem makes_fat16CloneDirectoryItem (hkeep : keep → FillsBelow env reserved) (item n : Nat) :
    Makes reserved size keep (fun i => [i.addr]) (fat16CloneDirectoryItem env item n) := by
  intro held s r s' h
  unfold fat16CloneDirectoryItem at h
  split at h
  · exact makes_none (AllocState.Frames.rfl' _) h
  · obtain ⟨itemCopy, s1, h1, h⟩ := Exec.of_bind_ok h
    obtain ⟨f1, l1⟩ := kzalloc_spec (fun hk => .inl (hkeep hk)) h1
    split at h
    · exact makes_none f1 h
    · rename_i hcopy
      rw [Exec.bind_of_ok (Exec.get_apply s1)] at h
      obtain ⟨rfl, rfl⟩ := Exec.of_pure_ok h
      refine ⟨f1, fun hok hheld d hd => ?_⟩
      obtain rfl := Option.mem_some_iff.1 hd
      exact ⟨_, owns_kzalloc (f1 hok hheld).1 hheld (l1 hok hcopy)⟩

/-- An item is its structure and what its side of the union names. -/
theorem makes_fat16NewFatItemDirectoryItem (hkeep : keep → FillsBelow env reserved) (item : Nat) :
    Makes reserved size keep itemAddrs (fat16NewFatItemDirectoryItem env item) := by
  intro held s r s' h
  unfold fat16NewFatItemDirectoryItem at h
  obtain ⟨fItem, s1, h1, h⟩ := Exec.of_bind_ok h
  obtain ⟨f1, l1⟩ := kzalloc_spec (fun hk => .inl (hkeep hk)) h1
  split at h
  · exact makes_none f1 h
  · rename_i hitem
    rw [Exec.bind_of_ok (Exec.get_apply s1)] at h
    -- what is made inside the item frames the item and what is held
    have hinside : ∀ {α : Type} {addrs : α → List Nat} {x : FsM (Option α)} {side : Option α} {s2 : Sys},
        Makes reserved size keep addrs x → x s1 = .ok (side, s2) → FramesSys reserved size keep held s s2 ∧
          (s.Ok reserved size → held ⊆ s.live →
            ∃ own, Owns held own s2 ((side.map addrs).getD [] ++ [fItem])) := by
      intro α addrs x side s2 hmakes hx
      refine ⟨f1.trans' (hmakes held _ _ _ hx).1, fun hok hheld => ?_⟩
      obtain ⟨hok1, hheld1, -⟩ := f1 hok hheld
      have o1 := owns_kzalloc hok1 hheld (l1 hok hitem)
      have hbase := List.append_subset.2 ⟨o1.live, hheld1⟩
      obtain ⟨f2, o2⟩ := hmakes _ _ _ _ hx
      have o1' := o1.frames (List.append_subset.1 (f2 hok1 hbase).2.1).1
      cases side with
      | none => exact ⟨_, (Owns.nil _ s2).append o1'⟩
      | some d =>
        obtain ⟨own, o2⟩ := o2 hok1 hbase d rfl
        exact ⟨_, o2.append o1'⟩
    split at h
    · obtain ⟨directory, s2, h2, h⟩ := Exec.of_bind_ok h
      obtain ⟨rfl, rfl⟩ := Exec.of_pure_ok h
      obtain ⟨f2, o2⟩ := hinside (makes_fat16LoadDirectory hkeep item) h2
      refine ⟨f2, fun hok hheld d hd => ?_⟩
      obtain rfl := Option.mem_some_iff.1 hd
      cases directory with
      | none => exact o2 hok hheld
      | some directory => exact o2 hok hheld
    · obtain ⟨file, s2, h2, h⟩ := Exec.of_bind_ok h
      obtain ⟨rfl, rfl⟩ := Exec.of_pure_ok h
      obtain ⟨f2, o2⟩ := hinside (makes_fat16CloneDirectoryItem hkeep item sizeofFat16DirectoryItem) h2
      refine ⟨f2, fun hok hheld d hd => ?_⟩
      obtain rfl := Option.mem_some_iff.1 hd
      cases file with
      | none => exact o2 hok hheld
      | some file => exact o2 hok hheld

/-- The search keeps the last item it made; an item it drops stays allocated. -/
theorem findLoop_makes (hkeep : keep → FillsBelow env reserved) (directory : Fat16Directory)
    (name : List Byte) (n : Nat) :
    ∀ {held : List Live} {i : Nat} {fItem r : Option (Ptr FatItem)} {s s' : Sys},
      findLoop env directory name n i fItem s = .ok (r, s') → FramesSys reserved size keep held s s' ∧
        (s.Ok reserved size → held ⊆ s.live → (∀ d ∈ fItem, ∃ own, Owns held own s (itemAddrs d)) →
          ∀ d ∈ r, ∃ own, Owns held own s' (itemAddrs d)) := by
  induction n with
  | zero =>
    intro held i fItem r s s' h
    obtain ⟨rfl, rfl⟩ := Exec.of_pure_ok h
    exact ⟨AllocState.Frames.rfl' _, fun _ _ hitem => hitem⟩
  | succ n ih =>
    intro held i fItem r s s' h
    rw [findLoop, Exec.bind_of_ok (Exec.get_apply s)] at h
    obtain ⟨tmpFilename, s1, h1, h⟩ := Exec.of_bind_ok h
    obtain ⟨-, rfl⟩ := Exec.of_lift_ok h1
    obtain ⟨cmp, s2, h2, h⟩ := Exec.of_bind_ok h
    obtain ⟨-, rfl⟩ := Exec.of_lift_ok h2
    split at h
    · obtain ⟨item, s3, h3, h⟩ := Exec.of_bind_ok h
      obtain ⟨f3, o3⟩ := makes_fat16NewFatItemDirectoryItem hkeep _ held _ _ _ h3
      obtain ⟨f4, o4⟩ := ih h
      exact ⟨f3.trans' f4, fun hok hheld _ => o4 (f3 hok hheld).1 (f3 hok hheld).2.1 (o3 hok hheld)⟩
    · exact ih h

theorem makes_fat16FindItemInDirectory (hkeep : keep → FillsBelow env reserved) (directory : Option Fat16Directory)
    (name : List Byte) : Makes reserved size keep itemAddrs (fat16FindItemInDirectory env directory name) := by
  intro held s r s' h
  cases directory with
  | none => cases h
  | some d =>
    obtain ⟨f, o⟩ := findLoop_makes hkeep d name _ h
    exact ⟨f, fun hok hheld => o hok hheld (by simp)⟩

theorem fat16FatItemFree_owned {addr : Nat} {d : Ptr Fat16Directory} {u : Unit}
    (h : Owns held own s (itemAddrs ⟨addr, .directory (some d)⟩))
    (hfree : fat16FatItemFree ⟨addr, .directory (some d)⟩ s = .ok (u, s')) :
    FramesSys reserved size keep held s s' := by
  intro hok hheld
  simp only [fat16FatItemFree] at hfree
  obtain ⟨_, s1, h1, hfree⟩ := Exec.of_bind_ok hfree
  obtain ⟨f1, o1⟩ := fat16FreeDirectory_owned h h1
  obtain ⟨own', o1⟩ := o1 hok
  cases own' with
  | nil => cases o1.made
  | cons a own' => exact (f1.trans' (kfree_owned o1 hfree).1) hok hheld

/-! ## Paths -/

theorem directoryEntryLoop_makes (hkeep : keep → FillsBelow env reserved) (next : List (List Byte)) :
    ∀ {held own : List Live} {item : Ptr FatItem} {r : Option (Ptr FatItem)} {s s' : Sys},
      directoryEntryLoop env next (some item) s = .ok (r, s') → Owns held own s (itemAddrs item) →
      FramesSys reserved size keep held s s' ∧
        (s.Ok reserved size → held ⊆ s.live → ∀ d ∈ r, ∃ own, Owns held own s' (itemAddrs d)) := by
  induction next with
  | nil =>
    intro held own item r s s' h ho
    obtain ⟨rfl, rfl⟩ := Exec.of_pure_ok h
    refine ⟨AllocState.Frames.rfl' _, fun _ _ d hd => ?_⟩
    obtain rfl := Option.mem_some_iff.1 hd
    exact ⟨own, ho⟩
  | cons part next ih =>
    intro held own item r s s' h ho
    obtain ⟨addr, val⟩ := item
    cases val with
    | file i => exact makes_none (AllocState.Frames.rfl' _) h
    | directory d =>
      cases d with
      | none => cases h
      | some d =>
        simp only [directoryEntryLoop, Option.map_some] at h
        obtain ⟨tmpItem, s1, h1, h⟩ := Exec.of_bind_ok h
        obtain ⟨_, s2, h2, h⟩ := Exec.of_bind_ok h
        have hfind : FramesSys reserved size keep (own ++ held) s s1 ∧ _ :=
          makes_fat16FindItemInDirectory hkeep _ _ (own ++ held) _ _ _ h1
        obtain ⟨f1, o1⟩ := hfind
        have hgo : s.Ok reserved size → held ⊆ s.live → FramesSys reserved size keep held s s' ∧
            ∀ d ∈ r, ∃ own, Owns held own s' (itemAddrs d) := by
          intro hok hheld
          have hbase := List.append_subset.2 ⟨ho.live, hheld⟩
          obtain ⟨hok1, hbase1, -⟩ := f1 hok hbase
          obtain ⟨hown1, hheld1⟩ := List.append_subset.1 hbase1
          have f1' : FramesSys reserved size keep held s s1 :=
            f1.mono (List.subset_append_right ..) fun h => List.append_subset.2 ⟨ho.live, h⟩
          cases tmpItem with
          | none =>
            cases next with
            | nil =>
              exact (makes_none (f1'.trans' (fat16FatItemFree_owned (ho.frames hown1) h2)) h).imp id
                fun g => g hok hheld
            | cons part next => cases h
          | some item =>
            obtain ⟨own', o1⟩ := o1 hok hbase item rfl
            -- the directory searched is given back, the item found in it is framed
            have ho' : Owns (own' ++ held) own s1 (itemAddrs ⟨addr, .directory (some d)⟩) := by
              refine ⟨ho.made, hown1, ho.nodup, fun a ha b hb => ?_⟩
              rcases List.mem_append.1 hb with hb | hb
              · exact (o1.out b hb a (List.mem_append_left _ ha)).symm
              · exact ho.out a ha b hb
            have f2 : FramesSys reserved size keep (own' ++ held) s1 s2 := fat16FatItemFree_owned ho' h2
            have hbase' := List.append_subset.2 ⟨o1.live, hheld1⟩
            obtain ⟨hok2, hbase2, -⟩ := f2 hok1 hbase'
            obtain ⟨hown2, hheld2⟩ := List.append_subset.1 hbase2
            have o2 : Owns held own' s2 (itemAddrs item) :=
              ⟨o1.made, hown2, o1.nodup, fun a ha b hb => o1.out a ha b (List.mem_append_right _ hb)⟩
            obtain ⟨f3, o3⟩ := ih h o2
            have f2' : FramesSys reserved size keep held s1 s2 :=
              f2.mono (List.subset_append_right ..) fun h => List.append_subset.2 ⟨o1.live, h⟩
            exact ⟨f1'.trans' (f2'.trans' f3), o3 hok2 hheld2⟩
        exact ⟨fun hok hheld => (hgo hok hheld).1 hok hheld, fun hok hheld => (hgo hok hheld).2⟩

/-- Resolving a path makes the item it gives, and frames everything that was held before. -/
theorem makes_fat16GetDirectoryEntry (hkeep : keep → FillsBelow env reserved) (part : List Byte)
    (next : List (List Byte)) :
    Makes reserved size keep itemAddrs (fat16GetDirectoryEntry env part next) := by
  intro held s r s' h
  unfold fat16GetDirectoryEntry at h
  rw [Exec.bind_of_ok (Exec.get_apply s)] at h
  obtain ⟨rootItem, s1, h1, h⟩ := Exec.of_bind_ok h
  obtain ⟨f1, o1⟩ := makes_fat16FindItemInDirectory hkeep _ _ held _ _ _ h1
  cases rootItem with
  | none => exact makes_none f1 h
  | some item =>
    rw [if_neg (by simp)] at h
    have hgo : s.Ok reserved size → held ⊆ s.live → FramesSys reserved size keep held s s' ∧
        ∀ d ∈ r, ∃ own, Owns held own s' (itemAddrs d) := by
      intro hok hheld
      obtain ⟨own, o1⟩ := o1 hok hheld item rfl
      obtain ⟨f2, o2⟩ := directoryEntryLoop_makes hkeep next h o1
      exact ⟨f1.trans' f2, o2 (f1 hok hheld).1 (f1 hok hheld).2.1⟩
    exact ⟨fun hok hheld => (hgo hok hheld).1 hok hheld, fun hok hheld => (hgo hok hheld).2⟩

end

end SimpleMicrokernel.Fat16
