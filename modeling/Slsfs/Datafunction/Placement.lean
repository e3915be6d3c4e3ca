import Slsfs.Datafunction.Job

/-!
# Where the replicas of a block are placed

`select_replica` seeds an engine with the file id, discards a number of draws that depends on the
block and on the index of the replica, and draws a host. Nothing keeps the draws for two indices
apart, and for block 0 the number discarded is 0 for every index, so that all its replicas are on
the one host. The second half of `backend_list_`, which the copies go to, names the hosts of the
first half again.

The number of draws is a product of `int`s that grows with the square of the block, so for a large
file it overflows.

The engine is a parameter: what it yields after a number of discarded draws, by seed.
-/

namespace Slsfs.Datafunction

open LeveldbPack

/-- `partition * (partition * replication_index)`, a product of `int`s that `discard` takes as an
`unsigned long long`. -/
def discarded (partition replicationIndex : Int32) : UInt64 :=
  (partition * (partition * replicationIndex)).toInt64.toUInt64

/-- `select_replica`. `draw` is the engine: the number the distribution yields when the engine is
seeded with the file id and has discarded so many draws. -/
def selectReplica {hosts : ℕ} (draw : Key → UInt64 → Fin hosts) (uuid : Key) (partition : UInt32)
    (replicationIndex : ℕ) : Fin hosts :=
  draw uuid (discarded partition.toInt32 (Int32.ofNat replicationIndex))

section Hosts

variable {η : Type*}

/-- `init`: every host once for the blocks and once more for the copies. -/
def backendList (hosts : List η) : List η := hosts ++ hosts

variable (hosts : List η) (draw : Key → UInt64 → Fin hosts.length) (uuid : Key) (blockid : UInt32)

/-- The host of a replica: that of the block for the index 0, as `start_2pc_prepare` chooses it, and
one of the second half for the others, as `start_replication` does. -/
def replicaHost (replicaIndex : ℕ) : Option η :=
  let selected := (selectReplica draw uuid blockid replicaIndex : ℕ)
  (backendList hosts)[if replicaIndex = 0 then selected else hosts.length + selected]?

private theorem replicaHost_eq (replicaIndex : ℕ) :
    replicaHost hosts draw uuid blockid replicaIndex
      = some (hosts.get (selectReplica draw uuid blockid replicaIndex)) := by
  have hlt := (selectReplica draw uuid blockid replicaIndex).isLt
  rw [replicaHost, backendList]
  by_cases hzero : replicaIndex = 0
  · rw [if_pos hzero, List.getElem?_append_left hlt, List.getElem?_eq_getElem hlt]
    rfl
  · rw [if_neg hzero, List.getElem?_append_right (Nat.le_add_right _ _), Nat.add_sub_cancel_left,
      List.getElem?_eq_getElem hlt]
    rfl

/-- The configuration of a backend with these hosts and this engine. -/
def Config.ofEngine (replicationSize blocksize : ℕ) (blocksize_pos : 0 < blocksize)
    (blocksize_le : blocksize ≤ 2 ^ 16) : Config where
  blocksize
  blocksize_pos
  blocksize_le
  replicationSize
  hosts := hosts.length
  selectReplica uuid partition index :=
    Datafunction.selectReplica draw uuid (UInt32.ofNat partition) index

theorem replicaHost_eq_ofEngine {replicationSize blocksize : ℕ} (hpos : 0 < blocksize)
    (hle : blocksize ≤ 2 ^ 16) (replicaIndex : ℕ) :
    replicaHost hosts draw uuid blockid replicaIndex
      = some (hosts.get ((Config.ofEngine hosts draw replicationSize blocksize hpos
          hle).selectReplica uuid blockid.toNat replicaIndex)) := by
  rw [replicaHost_eq]
  simp only [Config.ofEngine, UInt32.ofNat_toNat]

/-- The hosts of the replicas are pairwise different. -/
def DistinctReplicas (replicationSize : ℕ) : Prop :=
  ∀ i j, i < j → j < replicationSize →
    replicaHost hosts draw uuid blockid i ≠ replicaHost hosts draw uuid blockid j

/-- Two replicas that one draw decides are on one host. -/
theorem not_distinctReplicas {replicationSize : ℕ} (h : 1 < replicationSize)
    (hsame : selectReplica draw uuid blockid 0 = selectReplica draw uuid blockid 1) :
    ¬DistinctReplicas hosts draw uuid blockid replicationSize := by
  intro hdistinct
  refine hdistinct 0 1 Nat.zero_lt_one h ?_
  rw [replicaHost_eq, replicaHost_eq, hsame]

private theorem distinctReplicas_of_le_one {replicationSize : ℕ} (h : replicationSize ≤ 1) :
    DistinctReplicas hosts draw uuid blockid replicationSize :=
  fun i j hij hj ↦ absurd hij (by omega)

private theorem selectReplica_zero (replicaIndex : ℕ) :
    selectReplica draw uuid 0 replicaIndex = draw uuid 0 := by
  rw [selectReplica, discarded]
  congr 1
  have hzero : (0 : UInt32).toInt32 = 0 := rfl
  rw [hzero, Int32.zero_mul]
  rfl

end Hosts

/-- **Replicas are on different hosts for every engine only if there is one replica.** For block 0
that is so for each engine by itself. -/
theorem distinctReplicas_iff {η : Type*} (hosts : List η) (uuid : Key) (blockid : UInt32)
    {replicationSize : ℕ} (hle : replicationSize ≤ hosts.length) :
    ((∀ draw, DistinctReplicas hosts draw uuid blockid replicationSize) ↔ replicationSize ≤ 1) ∧
      ∀ draw, DistinctReplicas hosts draw uuid 0 replicationSize ↔ replicationSize ≤ 1 := by
  refine ⟨⟨fun h ↦ ?_, fun h draw ↦ distinctReplicas_of_le_one hosts draw uuid blockid h⟩,
    fun draw ↦ ⟨fun h ↦ ?_, distinctReplicas_of_le_one hosts draw uuid 0⟩⟩
  · by_contra hsize
    -- an engine that always yields the first host
    have hpos : 0 < hosts.length := by omega
    exact not_distinctReplicas hosts (fun _ _ ↦ ⟨0, hpos⟩) uuid blockid (by omega) rfl (h _)
  · by_contra hsize
    refine not_distinctReplicas hosts draw uuid 0 (by omega) ?_ h
    rw [selectReplica_zero, selectReplica_zero]

/-- Two hosts, two replicas, block 0, and an engine that never yields the same twice in a row: both
replicas are on the second host. -/
theorem replicas_on_one_host :
    ¬DistinctReplicas ["a:7000", "b:7000"] (fun _ n ↦ if n % 2 = 0 then 1 else 0)
      (.replicate 32 0) 0 2 ∧
    replicaHost ["a:7000", "b:7000"] (fun _ n ↦ if n % 2 = 0 then 1 else 0) (.replicate 32 0) 0 0
      = some "b:7000" ∧
    replicaHost ["a:7000", "b:7000"] (fun _ n ↦ if n % 2 = 0 then 1 else 0) (.replicate 32 0) 0 1
      = some "b:7000" := by
  have hfirst : ∀ i, i < 2 → replicaHost ["a:7000", "b:7000"]
      (fun _ n ↦ if n % 2 = 0 then 1 else 0) (.replicate 32 0) 0 i = some "b:7000" := by
    decide +kernel
  refine ⟨fun h ↦ h 0 1 (by decide) (by decide) ?_, hfirst 0 (by decide), hfirst 1 (by decide)⟩
  rw [hfirst 0 (by decide), hfirst 1 (by decide)]

theorem distinctReplicas_iff_two_hosts :
    1 ≤ ["a:7000", "b:7000"].length ∧
      ∀ draw, DistinctReplicas ["a:7000", "b:7000"] draw (.replicate 32 0) 5 1 :=
  ⟨by decide, (distinctReplicas_iff ["a:7000", "b:7000"] (.replicate 32 0) 5
    (by decide : 1 ≤ ["a:7000", "b:7000"].length)).1.mpr le_rfl⟩

/-! ## How many draws are discarded

There are two multiplications, and if the second one does not overflow the first one does not. The
result is converted to an unsigned 64-bit number, so a negative one asks for nearly all draws there
are. -/

/-- Both products of `partition * (partition * replication_index)` are values of an `int`. -/
def NoOverflow (partition replicationIndex : ℕ) : Prop :=
  partition * replicationIndex < 2 ^ 31 ∧ partition * (partition * replicationIndex) < 2 ^ 31

private theorem noOverflow_iff {partition replicationIndex : ℕ} :
    NoOverflow partition replicationIndex ↔
      partition * (partition * replicationIndex) < 2 ^ 31 := by
  refine ⟨And.right, fun h ↦ ⟨?_, h⟩⟩
  rcases Nat.eq_zero_or_pos partition with rfl | hpos
  · rw [Nat.zero_mul]
    decide
  · exact (Nat.le_mul_of_pos_left _ hpos).trans_lt h

private theorem toNat_discarded {partition replicationIndex : ℕ}
    (h : partition * (partition * replicationIndex) < 2 ^ 31) :
    (discarded (Int32.ofNat partition) (Int32.ofNat replicationIndex)).toNat
      = partition * (partition * replicationIndex) := by
  rw [discarded, ← Int32.ofNat_mul, ← Int32.ofNat_mul,
    Int32.toInt64_ofNat' (by rw [Int32.toInt_maxValue]; omega), Int64.toUInt64_ofNat',
    UInt64.toNat_ofNat_of_lt' (by rw [UInt64.size]; omega)]

/-- **The draws for a replica.** With blocks of 4096 bytes, the products that `select_replica`
computes for a position do not overflow, and that many draws are discarded, exactly if the square of
the block times the index is below 2^31. -/
theorem draws_exact_iff (position : UInt32) (replicationIndex : ℕ) :
    (NoOverflow (position / 4096).toNat replicationIndex ∧
        (discarded (position / 4096).toInt32 (Int32.ofNat replicationIndex)).toNat
          = (position / 4096).toNat * ((position / 4096).toNat * replicationIndex)) ↔
      position.toNat / 4096 * (position.toNat / 4096 * replicationIndex) < 2 ^ 31 := by
  have hpartition : (position / 4096).toNat = position.toNat / 4096 := UInt32.toNat_div ..
  have hint : (position / 4096).toInt32 = Int32.ofNat (position / 4096).toNat := by
    rw [← UInt32.toInt32_ofNat', UInt32.ofNat_toNat]
  rw [hint, ← hpartition, noOverflow_iff]
  exact ⟨And.left, fun h ↦ ⟨h, toNat_discarded h⟩⟩

/-- The first replica of block 46341, which starts before byte 2^28 of its file. -/
theorem draws_overflow :
    ¬NoOverflow ((189812736 : UInt32) / 4096).toNat 1 ∧
      ((189812736 : UInt32) / 4096).toNat * (((189812736 : UInt32) / 4096).toNat * 1)
        = 2147488281 ∧
      (discarded ((189812736 : UInt32) / 4096).toInt32 (Int32.ofNat 1)).toNat
        = 18446744071562072601 := by
  refine ⟨?_, by decide, by decide⟩
  rw [noOverflow_iff]
  decide

end Slsfs.Datafunction
