import Mathlib.Data.List.Induction
import Mathlib.Data.List.Pairwise
import Slsfs.Ssbd.Frame

/-!
# The versions of writes

There are two functions that draw versions. `version.hpp` makes one from the second of the call,
shifted by a byte, and in that byte a counter of the calls of the same second. The counter is a
`char`. It wraps around after 256 calls, and where `char` is signed, from its 128th value on it is
negative, so that its sign bits cover the second. `draw_eq_iff` says exactly when two calls give the
same version, in the same process or in two, and `versions_nodup_iff` when all versions of one
process differ.

`storage_conf_ssbd_backend` does not call that function. It has a `version` of its own, which
`start_2pc_prepare` calls: the microseconds of the clock in units of 64, in 32 bits, so that the
versions come again after a little more than three days. `prepared_seen_iff` is what it means for
the servers: `have_pending_log` sees a write that is prepared after another one is committed unless
the two have drawn the same version, or the later one has drawn zero.
-/

namespace Slsfs.Datafunction

open LeveldbPack Ssbd

/-- The static variables of `version`. -/
structure VersionState where
  counter : UInt8
  lastgen : ℤ
  deriving DecidableEq

namespace VersionState

def init : VersionState := ⟨0, 0⟩

/-- What a call in the second `epoch` does to them. -/
def call (s : VersionState) (epoch : ℤ) : VersionState :=
  if epoch = s.lastgen then { s with counter := s.counter + 1 } else ⟨0, epoch⟩

end VersionState

/-- A `char` in an expression with a `std::uint32_t`. -/
def promote (charSigned : Bool) (c : UInt8) : UInt32 :=
  if charSigned then c.toInt8.toInt32.toUInt32 else c.toUInt32

def version (charSigned : Bool) (epoch : ℤ) (s : VersionState) : UInt32 × VersionState :=
  let s := s.call epoch
  ((UInt32.ofInt epoch <<< 8) ||| promote charSigned s.counter, s)

/-- The versions of calls in these seconds. -/
def versions (charSigned : Bool) : VersionState → List ℤ → List UInt32
  | _, [] => []
  | s, epoch :: epochs =>
    let (value, s) := version charSigned epoch s
    value :: versions charSigned s epochs

/-- The version of a call in the second `epoch` that comes after calls in `epochs`. -/
def draw (charSigned : Bool) (epochs : List ℤ) (epoch : ℤ) : UInt32 :=
  (version charSigned epoch (epochs.foldl VersionState.call .init)).1

/-- How many of the last elements of a list are `a`. -/
def streak (l : List ℤ) (a : ℤ) : ℕ := (l.reverse.takeWhile (· = a)).length

/-- How many calls in a row before this one were in the same second. The static initialization
counts as a call in the second zero. -/
def rank (epochs : List ℤ) (epoch : ℤ) : ℕ := streak (0 :: epochs) epoch

/-! ## The counter

It counts the calls that come in the same second, and starts anew when the second changes. So after
some calls it is the number of calls before in the run of equal seconds at the end. -/

private theorem streak_concat (l : List ℤ) (a b : ℤ) :
    streak (l ++ [b]) a = if b = a then streak l a + 1 else 0 := by
  rw [streak, List.reverse_append, List.reverse_singleton, List.singleton_append,
    List.takeWhile_cons]
  by_cases h : b = a
  · simp [h, streak]
  · simp [h]

private theorem streak_of_pairwise {l : List ℤ} {a : ℤ} (hmono : l.Pairwise (· ≤ ·))
    (hle : ∀ b ∈ l, b ≤ a) : streak l a = l.count a := by
  induction l using List.reverseRecOn with
  | nil => rfl
  | append_singleton l b ih =>
    rw [List.pairwise_append] at hmono
    have hlast : ∀ c ∈ l, c ≤ b := fun c hc ↦ hmono.2.2 c hc b List.mem_cons_self
    have hba := hle b (by simp)
    rw [streak_concat, List.count_append, List.count_singleton]
    by_cases h : b = a
    · subst h
      rw [if_pos rfl, ih hmono.1 hlast]
      simp
    · have hnone : l.count a = 0 := List.count_eq_zero.mpr fun hmem ↦ by
        have := hlast a hmem
        omega
      rw [if_neg h, hnone]
      simp [h]

private theorem foldl_call (epochs : List ℤ) (epoch : ℤ) :
    (epochs ++ [epoch]).foldl VersionState.call .init
      = ⟨UInt8.ofNat (rank epochs epoch), epoch⟩ := by
  induction epochs using List.reverseRecOn generalizing epoch with
  | nil =>
    change VersionState.call .init epoch = _
    by_cases h : (0 : ℤ) = epoch
    · subst h
      rfl
    · have hrank : rank [] epoch = 0 := by
        change streak ([] ++ [0]) epoch = 0
        rw [streak_concat, if_neg h]
      rw [VersionState.call, if_neg fun heq ↦ h heq.symm, hrank]
      rfl
  | append_singleton epochs last ih =>
    have hrank : rank (epochs ++ [last]) epoch
        = if last = epoch then rank epochs epoch + 1 else 0 :=
      streak_concat (0 :: epochs) epoch last
    rw [List.foldl_append, ih last, hrank]
    change VersionState.call _ epoch = _
    rw [VersionState.call]
    by_cases h : last = epoch
    · subst h
      rw [if_pos rfl, if_pos rfl, UInt8.ofNat_add]
      rfl
    · rw [if_neg fun heq ↦ h heq.symm, if_neg h]
      rfl

/-! ## The value

The second is shifted by eight bits and the counter is laid over it. A negative `char` becomes an
`int` with all its upper bits set, and those hide the second. -/

private theorem toNat_promote (charSigned : Bool) (c : UInt8) : (promote charSigned c).toNat
    = if charSigned = true ∧ 128 ≤ c.toNat then 2 ^ 8 * (2 ^ 24 - 1) + c.toNat else c.toNat := by
  cases charSigned with
  | false => rfl
  | true =>
    have h : ∀ c : Fin 256, (promote true (UInt8.ofFin c)).toNat
        = if 128 ≤ c.val then 2 ^ 8 * (2 ^ 24 - 1) + c.val else c.val := by
      decide +kernel
    have hc := h c.toFin
    simpa using hc

private theorem or_two_pow_sub_one {a k : ℕ} (h : a < 2 ^ k) : a ||| (2 ^ k - 1) = 2 ^ k - 1 := by
  refine Nat.eq_of_testBit_eq fun j ↦ ?_
  rw [Nat.testBit_or, Nat.testBit_two_pow_sub_one]
  by_cases hj : j < k
  · simp [hj]
  · have hlt : a < 2 ^ j := lt_of_lt_of_le h (Nat.pow_le_pow_right (by decide) (by omega))
    simp [hj, Nat.testBit_lt_two_pow hlt]

private theorem toNat_draw (charSigned : Bool) (epochs : List ℤ) (epoch : ℤ) :
    (draw charSigned epochs epoch).toNat
      = 2 ^ 8 * (if charSigned = true ∧ 128 ≤ rank epochs epoch % 256 then 2 ^ 24 - 1
          else (epoch % 2 ^ 24).toNat) + rank epochs epoch % 256 := by
  have hstate := foldl_call epochs epoch
  rw [List.foldl_append] at hstate
  change VersionState.call _ epoch = _ at hstate
  have hcounter : (UInt8.ofNat (rank epochs epoch)).toNat = rank epochs epoch % 256 :=
    UInt8.toNat_ofNat'
  have hshift : (UInt32.ofInt epoch <<< 8).toNat = 2 ^ 8 * (epoch % 2 ^ 24).toNat := by
    rw [UInt32.toNat_shiftLeft, UInt32.ofInt, UInt32.toNat_ofNat']
    change (_ <<< 8) % 2 ^ 32 = _
    rw [Nat.shiftLeft_eq]
    omega
  rw [draw, version]
  dsimp only
  rw [hstate, UInt32.toNat_or, hshift, toNat_promote, hcounter]
  have hlt : rank epochs epoch % 256 < 2 ^ 8 := Nat.mod_lt _ (by decide)
  split
  · have hsecond : (epoch % 2 ^ 24).toNat < 2 ^ 24 := by omega
    have hor : 2 ^ 8 * (epoch % 2 ^ 24).toNat ||| 2 ^ 8 * (2 ^ 24 - 1) = 2 ^ 8 * (2 ^ 24 - 1) := by
      rw [Nat.mul_comm, Nat.mul_comm (2 ^ 8) (2 ^ 24 - 1), ← Nat.shiftLeft_eq, ← Nat.shiftLeft_eq,
        ← Nat.shiftLeft_or_distrib, or_two_pow_sub_one hsecond]
    rw [Nat.two_pow_add_eq_or_of_lt hlt, ← Nat.or_assoc, hor]
  · rw [Nat.two_pow_add_eq_or_of_lt hlt]

/-! ## Equal versions

Two calls are told apart by their seconds and their counters, as far as these can be seen. Over a
whole history of calls this is a condition on the number of calls in one second. -/

/-- **When two calls give the same version**, in one process or in two: the numbers of calls before
them in their seconds agree modulo 256, and either the seconds agree modulo `2 ^ 24` or the counter
has become negative. -/
theorem draw_eq_iff (charSigned : Bool) (epochs epochs' : List ℤ) (epoch epoch' : ℤ) :
    draw charSigned epochs epoch = draw charSigned epochs' epoch' ↔
      rank epochs epoch % 256 = rank epochs' epoch' % 256 ∧
      (epoch % 2 ^ 24 = epoch' % 2 ^ 24 ∨
        charSigned = true ∧ 128 ≤ rank epochs epoch % 256) := by
  rw [← UInt32.toNat_inj, toNat_draw, toNat_draw]
  cases charSigned with
  | false =>
    simp only [Bool.false_eq_true, false_and, if_false, or_false]
    omega
  | true =>
    simp only [true_and]
    split <;> split <;> omega

private theorem length_versions (charSigned : Bool) (epochs : List ℤ) (s : VersionState) :
    (versions charSigned s epochs).length = epochs.length := by
  induction epochs generalizing s with
  | nil => rfl
  | cons epoch epochs ih => exact congrArg (· + 1) (ih _)

private theorem getElem?_versions (charSigned : Bool) (epochs : List ℤ) (s : VersionState) (i : ℕ) :
    (versions charSigned s epochs)[i]? = epochs[i]?.map fun epoch ↦
      (version charSigned epoch ((epochs.take i).foldl VersionState.call s)).1 := by
  induction epochs generalizing s i with
  | nil => rfl
  | cons epoch epochs ih =>
    cases i with
    | zero => rfl
    | succ i => exact ih _ i

/-- Of a clock that does not go back, the calls before one in its second are those with that
second. -/
theorem rank_take {epochs : List ℤ} (hmono : epochs.Pairwise (· ≤ ·))
    (hpos : ∀ epoch ∈ epochs, 0 < epoch) {i : ℕ} (hi : i < epochs.length) :
    rank (epochs.take i) epochs[i] = epochs.countBefore epochs[i] i := by
  have hepoch := hpos _ (List.getElem_mem hi)
  have hbefore : ∀ b ∈ epochs.take i, b ≤ epochs[i] := fun b hb ↦ by
    obtain ⟨j, hj, rfl⟩ := List.mem_take_iff_getElem.mp hb
    exact List.pairwise_iff_getElem.mp hmono j i _ hi (by omega)
  rw [rank, streak_of_pairwise, List.count_cons_of_ne (by omega), List.countBefore_eq_count_take]
  · exact List.pairwise_cons.mpr
      ⟨fun b hb ↦ (hpos b (List.mem_of_mem_take hb)).le, hmono.take⟩
  · intro b hb
    rcases List.mem_cons.mp hb with rfl | hb
    · exact hepoch.le
    · exact hbefore b hb

private theorem exists_rank {epochs : List ℤ} (hmono : epochs.Pairwise (· ≤ ·))
    (hpos : ∀ epoch ∈ epochs, 0 < epoch) {epoch : ℤ} {k : ℕ} (hk : k < epochs.count epoch) :
    ∃ i, ∃ h : i < epochs.length, epochs[i] = epoch ∧ rank (epochs.take i) epochs[i] = k := by
  have hlt := List.idxOfNth_lt_length_of_lt_count hk
  have hget : epochs[epochs.idxOfNth epoch k] = epoch := List.getElem_idxOfNth_eq
  refine ⟨_, hlt, hget, ?_⟩
  rw [rank_take hmono hpos hlt, hget, List.countBefore_idxOfNth_of_lt_count hk]

private theorem nodup_versions_iff_draw (charSigned : Bool) (epochs : List ℤ) :
    (versions charSigned .init epochs).Nodup ↔
      ∀ i j (hi : i < epochs.length) (hj : j < epochs.length),
        draw charSigned (epochs.take i) epochs[i] = draw charSigned (epochs.take j) epochs[j] →
          i = j := by
  have hvalue : ∀ i (hi : i < epochs.length), (versions charSigned .init epochs)[i]?
      = some (draw charSigned (epochs.take i) epochs[i]) := fun i hi ↦ by
    rw [getElem?_versions, List.getElem?_eq_getElem hi]
    rfl
  rw [List.nodup_iff_getElem?_ne_getElem?]
  constructor
  · intro h i j hi hj heq
    by_contra hne
    have hsame := (hvalue i hi).trans ((congrArg some heq).trans (hvalue j hj).symm)
    rcases Nat.lt_or_gt_of_ne hne with hlt | hlt
    · exact h i j hlt (by rw [length_versions]; exact hj) hsame
    · exact h j i hlt (by rw [length_versions]; exact hi) hsame.symm
  · intro h i j hlt hj hsame
    rw [length_versions] at hj
    rw [hvalue i (by omega), hvalue j hj, Option.some_inj] at hsame
    exact absurd (h i j (by omega) hj hsame) (by omega)

/-- **When all versions of a process differ.** On a clock that does not go back: at most 256 calls
in a second, no two seconds that agree modulo `2 ^ 24`, and where `char` is signed at most one
second with more than 128 calls. -/
theorem versions_nodup_iff (charSigned : Bool) (epochs : List ℤ)
    (hmono : epochs.Pairwise (· ≤ ·)) (hpos : ∀ epoch ∈ epochs, 0 < epoch) :
    (versions charSigned .init epochs).Nodup ↔
      (∀ epoch, epochs.count epoch ≤ 256) ∧
      (∀ epoch ∈ epochs, ∀ epoch' ∈ epochs, epoch % 2 ^ 24 = epoch' % 2 ^ 24 → epoch = epoch') ∧
      (charSigned = true → ∀ epoch epoch', 128 < epochs.count epoch → 128 < epochs.count epoch' →
        epoch = epoch') := by
  rw [nodup_versions_iff_draw]
  constructor
  · intro h
    -- Two calls with ranks `k` and `k'` of equal draws are one call.
    have hone : ∀ {epoch epoch'} (k k' : ℕ), k < epochs.count epoch →
        k' < epochs.count epoch' → k % 256 = k' % 256 →
        (epoch % 2 ^ 24 = epoch' % 2 ^ 24 ∨ charSigned = true ∧ 128 ≤ k % 256) →
        epoch = epoch' ∧ k = k' := by
      intro epoch epoch' k k' hk hk' hmod hsecond
      obtain ⟨i, hi, rfl, hrank⟩ := exists_rank hmono hpos hk
      obtain ⟨j, hj, rfl, hrank'⟩ := exists_rank hmono hpos hk'
      have hij := h i j hi hj ((draw_eq_iff ..).mpr (by rw [hrank, hrank']; exact ⟨hmod, hsecond⟩))
      subst hij
      exact ⟨rfl, hrank.symm.trans hrank'⟩
    refine ⟨fun epoch ↦ ?_, fun epoch hmem epoch' hmem' hmod ↦ ?_,
      fun hsigned epoch epoch' hmany hmany' ↦ ?_⟩
    · by_contra hmany
      have hsame : 0 = 256 :=
        (hone 0 256 (show 0 < epochs.count epoch by omega) (by omega) rfl (.inl rfl)).2
      omega
    · exact (hone 0 0 (List.count_pos_iff.mpr hmem) (List.count_pos_iff.mpr hmem')
        rfl (.inl hmod)).1
    · exact (hone 128 128 hmany hmany' rfl (.inr ⟨hsigned, le_rfl⟩)).1
  · rintro ⟨hcount, hseconds, hnegative⟩ i j hi hj heq
    obtain ⟨hmod, hsecond⟩ := (draw_eq_iff ..).mp heq
    rw [rank_take hmono hpos hi, rank_take hmono hpos hj] at hmod
    rw [rank_take hmono hpos hi] at hsecond
    have hlti : epochs.countBefore epochs[i] i < epochs.count epochs[i] :=
      List.countBefore_lt_count_getElem
    have hltj : epochs.countBefore epochs[j] j < epochs.count epochs[j] :=
      List.countBefore_lt_count_getElem
    have hcounti := hcount epochs[i]
    have hcountj := hcount epochs[j]
    have hsame : epochs[i] = epochs[j] := by
      rcases hsecond with hsecond | ⟨hsigned, hlarge⟩
      · exact hseconds _ (List.getElem_mem hi) _ (List.getElem_mem hj) hsecond
      · exact hnegative hsigned _ _ (by omega) (by omega)
    rw [← List.idxOfNth_countBefore_getElem (h := hi),
      ← List.idxOfNth_countBefore_getElem (h := hj)]
    rw [Nat.mod_eq_of_lt (by omega), Nat.mod_eq_of_lt (by omega)] at hmod
    rw [hmod, hsame]

/-- Two seconds with 129 calls each: the last ones have the same version. -/
theorem versions_repeat :
    ¬ (versions true .init (List.replicate 129 1 ++ List.replicate 129 2)).Nodup := by
  have hpos : ∀ epoch ∈ List.replicate 129 (1 : ℤ) ++ List.replicate 129 2, 0 < epoch := by
    intro epoch hmem
    rcases List.mem_append.mp hmem with h | h <;> rw [List.eq_of_mem_replicate h] <;> decide
  have hmono : (List.replicate 129 (1 : ℤ) ++ List.replicate 129 2).Pairwise (· ≤ ·) := by
    refine List.pairwise_append.mpr ⟨List.pairwise_replicate.mpr (.inr le_rfl),
      List.pairwise_replicate.mpr (.inr le_rfl), fun a ha b hb ↦ ?_⟩
    rw [List.eq_of_mem_replicate ha, List.eq_of_mem_replicate hb]
    decide
  have hcount : ∀ epoch, (List.replicate 129 (1 : ℤ) ++ List.replicate 129 2).count epoch
      = (if 1 = epoch then 129 else 0) + if 2 = epoch then 129 else 0 := fun epoch ↦ by
    simp only [List.count_append, List.count_replicate, beq_iff_eq]
  intro h
  have hsame := ((versions_nodup_iff true _ hmono hpos).mp h).2.2 rfl 1 2
    (by rw [hcount]; decide) (by rw [hcount]; decide)
  omega

/-! ## Pending writes

What equal versions do at a server. The version that `start_2pc_prepare` draws is `backendVersion`;
a write is prepared, executed, and another one is prepared: the second is seen to be pending exactly
if its version differs from that of the first and is not zero. -/

/-- What is left of a block by a prepare that is agreed to, its execute and a further prepare. -/
theorem havePending_second (blk : Block) (first : Packet) {second : Packet}
    (hsecond : second.header.type = .twoPcPrepare ∨ second.header.type = .twoPcPrepareQuick) :
    (((blk.create.record first).execute).handle second).create.havePending = true ↔
      second.header.version ≠ first.header.version ∧ second.header.version ≠ 0 := by
  have hfree : (blk.create.record first).execute.create.havePending = false := by
    simp [Block.execute, Block.create, Block.record, Block.havePending]
  rw [Block.handle_prepare _ hsecond, hfree, if_neg (by simp)]
  simp [Block.execute, Block.create, Block.record, Block.havePending]

private theorem handleAll_append (stray : ℕ → UInt8) (s : Server) (packs packs' : List Packet) :
    s.handleAll stray (packs ++ packs') = (s.handleAll stray packs).handleAll stray packs' :=
  List.foldl_append

private theorem block_handleAll_cons {id : BlockId} (stray : ℕ → UInt8) (s : Server) {pack : Packet}
    {others : List Packet} (hid : blockId pack = id) (h : ∀ p ∈ others, blockId p ≠ id) :
    (s.handleAll stray (pack :: others)).block id = (s.block id).handle pack := by
  subst hid
  refine (Server.block_handleAll_of_ne stray _ h).trans ?_
  rw [Server.block_handle, Function.update_self]

/-- `storage_conf_ssbd_backend::version`, at a time in microseconds. -/
def backendVersion (microseconds : UInt64) : UInt32 := (microseconds >>> 6).toUInt32

private theorem toNat_backendVersion (microseconds : UInt64) :
    (backendVersion microseconds).toNat = microseconds.toNat / 64 % 2 ^ 32 := by
  rw [backendVersion, UInt64.toNat_toUInt32, UInt64.toNat_shiftRight]
  change (microseconds.toNat >>> 6) % _ = _
  rw [Nat.shiftRight_eq_div_pow]

/-- **When a prepared write is seen.** A write is prepared on a block, where it is agreed to, and
committed, and then another one is prepared. Whatever happens to other blocks meanwhile, a full
prepare is now refused exactly if the clock readings of the two writes, in units of 64 microseconds,
differ modulo `2 ^ 32`, and the second one is not zero there. -/
theorem prepared_seen_iff (time time' : UInt64) (stray : ℕ → UInt8) (s : Server)
    (first commit second third : Packet) (others : Fin 3 → List Packet)
    (hfirst : first.header.type = .twoPcPrepare ∨ first.header.type = .twoPcPrepareQuick)
    (hagreed : (s.handle stray first).2.header.type = .twoPcPrepareAgree)
    (hcommit : commit.header.type = .twoPcCommitExecute)
    (hsecond : second.header.type = .twoPcPrepare ∨ second.header.type = .twoPcPrepareQuick)
    (hthird : third.header.type = .twoPcPrepare)
    (hids : ∀ pack ∈ [commit, second, third], blockId pack = blockId first)
    (hothers : ∀ i, ∀ pack ∈ others i, blockId pack ≠ blockId first)
    (hversion : first.header.version = backendVersion time)
    (hversion' : second.header.version = backendVersion time') :
    ((s.handleAll stray (first :: others 0 ++ commit :: others 1 ++ second :: others 2)).handle
        stray third).2.header.type = .twoPcPrepareAbort ↔
      time'.toNat / 64 % 2 ^ 32 ≠ time.toNat / 64 % 2 ^ 32 ∧ time'.toNat / 64 % 2 ^ 32 ≠ 0 := by
  have hcommitid := hids commit (by simp)
  have hsecondid := hids second (by simp)
  have hthirdid := hids third (by simp)
  have hrecorded : (s.block (blockId first)).handle first
      = (s.block (blockId first)).create.record first := by
    rw [Block.handle_prepare _ hfirst]
    refine if_neg fun hpending ↦ ?_
    rw [Server.handle_vote stray s first hfirst, if_pos hpending] at hagreed
    cases hagreed
  have hblock : (s.handleAll stray (first :: others 0 ++ commit :: others 1 ++
      second :: others 2)).block (blockId first)
        = (((s.block (blockId first)).create.record first).execute).handle second := by
    have hexecute : ∀ blk : Block, blk.handle commit = blk.execute := fun blk ↦ by
      rw [Block.handle, hcommit]
    rw [handleAll_append, handleAll_append, block_handleAll_cons stray _ hsecondid (hothers 2),
      block_handleAll_cons stray _ hcommitid (hothers 1),
      block_handleAll_cons stray s rfl (hothers 0), hrecorded, hexecute]
  rw [Server.handle_vote stray _ third (.inl hthird), hthirdid, hblock]
  have hpending := havePending_second (s.block (blockId first)) first hsecond
  rw [hversion, hversion', Ne, ← UInt32.toNat_inj, Ne, ← UInt32.toNat_inj, toNat_backendVersion,
    toNat_backendVersion, UInt32.toNat_zero] at hpending
  rw [Ne, Ne, ← hpending]
  cases (((s.block (blockId first)).create.record first).execute.handle second).create.havePending
    with
  | true => exact ⟨fun _ ↦ rfl, fun _ ↦ if_pos ⟨hthird, rfl⟩⟩
  | false =>
    rw [if_neg fun h ↦ Bool.false_ne_true h.2]
    exact ⟨fun h ↦ MsgT.noConfusion h, fun h ↦ absurd h Bool.false_ne_true⟩

/-- Two datafunctions write within 64 microseconds: the second write is not seen. -/
theorem prepared_unseen :
    ((Server.empty.handleAll (fun _ ↦ 0) [Server.onePacket .twoPcPrepare 15,
        Server.onePacket .twoPcCommitExecute 15, Server.onePacket .twoPcPrepare 15]).handle
      (fun _ ↦ 0) (Server.onePacket .twoPcPrepare 7)).2.header.type ≠ .twoPcPrepareAbort := by
  have hdraw : backendVersion 960 = 15 ∧ backendVersion 1023 = 15 := by decide
  intro h
  have hseen := (prepared_seen_iff 960 1023 (fun _ ↦ 0) Server.empty
    (Server.onePacket .twoPcPrepare 15) (Server.onePacket .twoPcCommitExecute 15)
    (Server.onePacket .twoPcPrepare 15) (Server.onePacket .twoPcPrepare 7) (fun _ ↦ [])
    (.inl rfl) (by decide +kernel) rfl (.inl rfl) rfl (by decide) (by simp) hdraw.1.symm
    hdraw.2.symm).mp h
  exact hseen.1 rfl

end Slsfs.Datafunction
