import Slsfs.LeveldbPack
import Mathlib.Logic.Function.Basic

/-!
# The persistent log of an ssbd server

`persistent-log.hpp`. For every block the log holds the version and the data of the last prepare
that was agreed to, and the version last committed. Versions are stored as decimal text and read
with `std::stoll`, whose exception handler repairs the entry.

That handler is kept in the model, so reading a version returns a log. It is also shown to be dead:
every value ever stored under a `-version` key is the text of a version, which the structure
records as a field, and `readVersion_snd` concludes that reading changes nothing.
-/

namespace Slsfs.Ssbd

open LeveldbPack

/-- A `leveldb::DB`, taken to be a correct key-value map. -/
abbrev Db := Buf → Option Buf

def Db.put (db : Db) (key value : Buf) : Db := Function.update db key (some value)

@[simp] theorem Db.put_self (db : Db) (key value : Buf) : db.put key value key = some value :=
  Function.update_self _ _ _

theorem Db.put_of_ne (db : Db) {key key' : Buf} (value : Buf) (h : key' ≠ key) :
    db.put key value key' = db key' :=
  Function.update_of_ne h _ _

/-- `persistent_log`, over the database `db_log_`. -/
structure PersistentLog where
  /-- The log database. -/
  db : Db
  /-- Whatever is stored under a version key is empty or the text of a version. -/
  versions : ∀ key value, db (key ++ ascii "-version") = some value →
    value = [] ∨ ∃ version : UInt32, value = decimal version.toNat

namespace PersistentLog

/-- The log of a new server. -/
def empty : PersistentLog where
  db _ := none
  versions _ _ h := by cases h

/-- `Put` of a version under `key + "-version"`. -/
def putVersion (log : PersistentLog) (key : Buf) (version : UInt32) : PersistentLog where
  db := log.db.put (key ++ ascii "-version") (decimal version.toNat)
  versions key' value h := by
    by_cases hkey : key' ++ ascii "-version" = key ++ ascii "-version"
    · rw [hkey, Db.put_self, Option.some_inj] at h
      exact Or.inr ⟨version, h.symm⟩
    · rw [Db.put_of_ne _ _ hkey] at h
      exact log.versions key' value h

theorem data_key_ne_version_key (key key' : Buf) :
    key ++ ascii "-version" ≠ key' ++ ascii "-data" := by
  intro h
  have hn : (ascii "-version").getLast? = some 110 := by decide
  have ha : (ascii "-data").getLast? = some 97 := by decide
  have hlast := congrArg List.getLast? h
  rw [List.getLast?_append, List.getLast?_append, hn, ha] at hlast
  cases hlast

/-- `Put` of a block under `key + "-data"`. -/
def putData (log : PersistentLog) (key value : Buf) : PersistentLog where
  db := log.db.put (key ++ ascii "-data") value
  versions key' value' h := by
    rw [Db.put_of_ne _ _ (data_key_ne_version_key key' key)] at h
    exact log.versions key' value' h

/-- The common body of the two version getters: the number under `key + "-version"`, with the
repair of an entry that cannot be converted. -/
def readVersion (log : PersistentLog) (key : Buf) : UInt32 × PersistentLog :=
  let value := (log.db (key ++ ascii "-version")).getD []
  if value = [] then (0, log)
  else
    match stoll value with
    | some version => (UInt32.ofInt version, log)
    | none => (0, log.putVersion key 0)

-- "-committed-version" is "-committed" followed by "-version", so both getters are `readVersion`.
def getCommittedVersion (log : PersistentLog) (key : Buf) : UInt32 × PersistentLog :=
  log.readVersion (key ++ ascii "-committed")

def putCommittedVersion (log : PersistentLog) (key : Buf) (version : UInt32) : PersistentLog :=
  log.putVersion (key ++ ascii "-committed") version

def putPendingPrepare (log : PersistentLog) (key value : Buf) (version : UInt32) :
    PersistentLog :=
  (log.putVersion key version).putData key value

def getPendingPrepareData (log : PersistentLog) (key : Buf) : Buf :=
  (log.db (key ++ ascii "-data")).getD []

def getPendingPrepareVersion (log : PersistentLog) (key : Buf) : UInt32 × PersistentLog :=
  log.readVersion key

/-- Makes the pending block the committed one. The version and the data are whatever the log holds
at this moment; nothing says which prepare wrote them. -/
def commitPendingPrepare (log : PersistentLog) (key : Buf) (saveDest : Db) :
    PersistentLog × Db :=
  let value := log.getPendingPrepareData key
  let (version, log) := log.getPendingPrepareVersion key
  (log.putCommittedVersion key version, saveDest.put key value)

def havePendingLog (log : PersistentLog) (key : Buf) : Bool × PersistentLog :=
  let (pending, log) := log.getPendingPrepareVersion key
  let (committed, log) := log.getCommittedVersion key
  if pending == committed then (false, log)
  else
    let (pending, log) := log.getPendingPrepareVersion key
    (!(pending == 0), log)

@[simp] theorem putVersion_db (log : PersistentLog) (key : Buf) (version : UInt32) :
    (log.putVersion key version).db
      = log.db.put (key ++ ascii "-version") (decimal version.toNat) := rfl

@[simp] theorem putData_db (log : PersistentLog) (key value : Buf) :
    (log.putData key value).db = log.db.put (key ++ ascii "-data") value := rfl

/-! ## Reading a version back

A version that was put is read back, whatever it is, and putting something under another key does
not change it. The handler of the exception is never reached. -/

/-- The exception handler of the version getters is never reached. -/
theorem readVersion_snd (log : PersistentLog) (key : Buf) : (log.readVersion key).2 = log := by
  rw [readVersion]
  cases hget : log.db (key ++ ascii "-version") with
  | none => simp
  | some value =>
    rcases log.versions key value hget with rfl | ⟨version, rfl⟩
    · simp
    · have hlt : version.toNat < 2 ^ 63 := by have := version.toNat_lt; omega
      simp [stoll_decimal hlt, decimal_ne_nil]

theorem readVersion_fst_of_put (log : PersistentLog) (key : Buf) (version : UInt32) :
    ((log.putVersion key version).readVersion key).1 = version := by
  have hlt : version.toNat < 2 ^ 63 := by have := version.toNat_lt; omega
  have hcast : UInt32.ofInt (version.toNat : ℤ) = version := by
    have hmod : ((version.toNat : ℤ) % 2 ^ 32).toNat = version.toNat := by
      have := version.toNat_lt
      omega
    rw [UInt32.ofInt, hmod, UInt32.ofNat_toNat]
  rw [readVersion]
  simp only [putVersion, Db.put_self, Option.getD_some, decimal_ne_nil, if_false,
    stoll_decimal hlt]
  exact hcast

theorem readVersion_fst_congr {log log' : PersistentLog} {key : Buf}
    (h : log'.db (key ++ ascii "-version") = log.db (key ++ ascii "-version")) :
    (log'.readVersion key).1 = (log.readVersion key).1 := by
  rw [readVersion, readVersion, h]
  split
  · rfl
  · split <;> rfl

theorem readVersion_putVersion_of_ne (log : PersistentLog) {key key' : Buf} (version : UInt32)
    (h : key' ≠ key) :
    ((log.putVersion key version).readVersion key').1 = (log.readVersion key').1 :=
  readVersion_fst_congr (Db.put_of_ne _ _ fun heq ↦ h (List.append_cancel_right heq))

theorem readVersion_putData (log : PersistentLog) (key key' value : Buf) :
    ((log.putData key value).readVersion key').1 = (log.readVersion key').1 :=
  readVersion_fst_congr (Db.put_of_ne _ _ (data_key_ne_version_key key' key))

/-! ## Reading the pending block back

The keys of versions and of data have different ends, so the two do not get in each other's way. -/

theorem getPendingPrepareData_putVersion (log : PersistentLog) (key key' : Buf)
    (version : UInt32) :
    (log.putVersion key version).getPendingPrepareData key' = log.getPendingPrepareData key' := by
  rw [getPendingPrepareData, putVersion_db, Db.put_of_ne _ _ (data_key_ne_version_key _ _).symm,
    getPendingPrepareData]

theorem getPendingPrepareData_putData (log : PersistentLog) (key value : Buf) :
    (log.putData key value).getPendingPrepareData key = value := by
  rw [getPendingPrepareData, putData_db, Db.put_self, Option.getD_some]

theorem getPendingPrepareData_putData_of_ne (log : PersistentLog) {key key' : Buf} (value : Buf)
    (h : key' ≠ key) :
    (log.putData key value).getPendingPrepareData key' = log.getPendingPrepareData key' := by
  rw [getPendingPrepareData, putData_db,
    Db.put_of_ne _ _ fun heq ↦ h (List.append_cancel_right heq), getPendingPrepareData]

end PersistentLog

end Slsfs.Ssbd
