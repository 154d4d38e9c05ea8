/-
What a read of the disk does not stop for. It stops for what a read past a sector buffer finds, and divides
by the size of a cluster; a condition on anything but the streams and memory holds after it as before.
-/
import SimpleMicrokernel.Fat16.Descriptor

namespace SimpleMicrokernel.Fs

open Memory Disk Fat16

/-- A condition that neither the streams nor the bytes of memory matter to. -/
structure Steady (P : Sys → Prop) : Prop where
  stream : ∀ s id stream, P s → P (s.setStream id stream)
  mem : ∀ s mem, P s → P { s with mem := mem }

/-- Clusters have bytes, where the reason looked at is a division. -/
def HasBytes (e : Halt) (P : Sys → Prop) : Prop := e = .divByZero → ∀ s, P s → sizeOfClusterInBytes s.fat16Private ≠ 0

section
variable {env : Env} {e : Halt} {P : Sys → Prop}

theorem avoids_streamerSeek (hP : Steady P) (id : StreamId) (pos : Int) : Exec.Avoids e P (streamerSeek id pos) P := by
  refine fun s hs => ⟨fun h => ?_, fun a s' h => ?_⟩
  · rw [streamerSeek_apply] at h
    cases h
  · rw [streamerSeek_apply] at h
    cases h
    exact hP.stream _ _ _ hs

theorem diskStreamerRead_ne (hover : ∀ pos index, env.overread pos index ≠ .error e) (pos total : Nat) :
    diskStreamerRead env ⟨pos⟩ total ≠ .error e := by
  induction total using Nat.strong_induction_on generalizing pos with
  | _ total ih =>
    rw [diskStreamerRead_eq]
    have hbytes : (List.range (min total 512)).mapM (fun i =>
        bufferAt env pos (diskReadSectors env (pos / 512)) (pos % 512 + i)) ≠ .error e := by
      refine Exec.mapM_ne fun i _ => ?_
      unfold bufferAt
      split
      · exact Exec.ok_ne _
      · exact hover _ _
    refine Exec.bind_ne hbytes fun bytes => ?_
    split
    · rename_i hmore
      exact Exec.bind_ne (ih (total - 512) (by omega) _) fun r => Exec.ok_ne _
    · exact Exec.ok_ne _

theorem avoids_streamerRead (hP : Steady P) (hover : ∀ pos index, env.overread pos index ≠ .error e) (id : StreamId)
    (total : Nat) :
    Exec.Avoids e P (streamerRead env id total) P := by
  intro s hs
  have hread := diskStreamerRead_ne hover (s.fat16Private.stream id).pos total
  unfold streamerRead
  cases hr : diskStreamerRead env (s.fat16Private.stream id) total with
  | error e' =>
    refine ⟨fun h => ?_, fun a s' h => ?_⟩
    · cases h
      exact hread hr
    · cases h
  | ok r =>
    refine ⟨fun h => ?_, fun a s' h => ?_⟩
    · cases h
    · cases h
      exact hP.stream _ _ _ hs

theorem avoids_fat16GetFatEntry (hP : Steady P) (hover : ∀ pos index, env.overread pos index ≠ .error e)
    (cluster : Int) :
    Exec.Avoids e P (fat16GetFatEntry env cluster) P := by
  unfold fat16GetFatEntry
  refine Exec.avoids_get_bind fun s _ => ?_
  refine (avoids_streamerSeek hP _ _).bind fun res => ?_
  refine Exec.avoids_ite (fun _ => Exec.avoids_pure _) fun _ => ?_
  refine (avoids_streamerRead hP hover _ _).bind fun r => ?_
  exact Exec.avoids_ite (fun _ => Exec.avoids_pure _) fun _ => Exec.avoids_pure _

theorem avoids_clusterLoop (hP : Steady P) (hover : ∀ pos index, env.overread pos index ≠ .error e) :
    ∀ (n : Nat) (cluster : Int),
    Exec.Avoids e P (clusterLoop env n cluster) P
  | 0, _ => Exec.avoids_pure _
  | n + 1, cluster => by
    rw [clusterLoop]
    refine (avoids_fat16GetFatEntry hP hover cluster).bind fun entry => ?_
    simp only
    refine Exec.avoids_ite (fun _ => Exec.avoids_pure _) fun _ => ?_
    refine Exec.avoids_ite (fun _ => Exec.avoids_pure _) fun _ => ?_
    refine Exec.avoids_ite (fun _ => Exec.avoids_pure _) fun _ => ?_
    refine Exec.avoids_ite (fun _ => Exec.avoids_pure _) fun _ => ?_
    exact avoids_clusterLoop hP hover n _

theorem avoids_fat16GetClusterForOffset (hP : Steady P) (hover : ∀ pos index, env.overread pos index ≠ .error e)
    (h0 : HasBytes e P) (cluster offset : Int) : Exec.Avoids e P (fat16GetClusterForOffset env cluster offset) P := by
  unfold fat16GetClusterForOffset
  refine Exec.avoids_get_bind fun s hs => ?_
  simp only
  exact Exec.avoids_ite (fun hz => Exec.avoids_throw fun he => h0 he.symm s hs hz) fun _ =>
    avoids_clusterLoop hP hover _ _

theorem avoids_fat16ReadInternalFromStream (hP : Steady P) (hover : ∀ pos index, env.overread pos index ≠ .error e)
    (h0 : HasBytes e P) (id : StreamId) (cluster : Int) (n : Nat) :
    ∀ {offset total : Int} {out : Nat}, total.toNat = n →
      Exec.Avoids e P (fat16ReadInternalFromStream env id cluster offset total out) P := by
  induction n using Nat.strong_induction_on with
  | _ n ih =>
    intro offset total out hn
    rw [fat16ReadInternalFromStream]
    refine Exec.avoids_get_bind fun s hs => ?_
    simp only
    refine Exec.avoids_ite (fun hz => Exec.avoids_throw fun he => h0 he.symm s hs hz) fun hsize => ?_
    refine (avoids_fat16GetClusterForOffset hP hover h0 cluster offset).bind fun cl => ?_
    refine Exec.avoids_ite (fun _ => Exec.avoids_pure _) fun _ => ?_
    refine (avoids_streamerSeek hP _ _).bind fun res => ?_
    refine Exec.avoids_ite (fun _ => Exec.avoids_pure _) fun _ => ?_
    refine (avoids_streamerRead hP hover _ _).bind fun r => ?_
    refine Exec.Avoids.bind (Q := P) (Exec.avoids_modify fun s hs => hP.mem s _ hs) fun _ => ?_
    refine Exec.avoids_ite (fun _ => Exec.avoids_pure _) fun _ => ?_
    refine Exec.avoids_ite (fun hmore => ?_) fun _ => Exec.avoids_pure _
    -- what is left is less than what was asked for
    refine ih _ ?_ rfl
    split at hmore
    · split
      · omega
      · omega
    · split
      · omega
      · omega

theorem avoids_fat16ReadInternal (hP : Steady P) (hover : ∀ pos index, env.overread pos index ≠ .error e)
    (h0 : HasBytes e P) (cluster : Nat) (offset total : Int) (out : Nat) :
    Exec.Avoids e P (fat16ReadInternal env cluster offset total out) P :=
  avoids_fat16ReadInternalFromStream hP hover h0 .clusterRead cluster _ rfl

theorem avoids_readItems (hP : Steady P) (hover : ∀ pos index, env.overread pos index ≠ .error e) (h0 : HasBytes e P)
    (c size : Nat) :
    ∀ (n : Nat) (offset : Int) (out : Nat), Exec.Avoids e P (readItems env c size n offset out) P
  | 0, _, _ => Exec.avoids_pure _
  | n + 1, offset, out => by
    rw [readItems]
    refine (avoids_fat16ReadInternal hP hover h0 _ _ _ _).bind fun res => ?_
    exact Exec.avoids_ite (fun _ => Exec.avoids_pure _) fun _ => avoids_readItems hP hover h0 c size n _ _

end

end SimpleMicrokernel.Fs
