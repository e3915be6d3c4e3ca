import Slsfs.Lib.Overlay
import Slsfs.Ssbd.PersistentLog

/-!
# The message handlers of an ssbd server

`ssbd/main.cpp`: a server owns the block database `db_` and the log `db_log_`, and answers one
packet for each packet it reads. Each handler is taken as one step.

Reading past the end of a stored block is undefined in the source. Here the bytes such a read
delivers are a parameter, `stray`, so that whatever is proved holds for any of them.
-/

namespace Slsfs.Ssbd

open LeveldbPack

/-- The state of a server: `db_` and `db_log_`. -/
structure Server where
  db : Db
  dbLog : PersistentLog

namespace Server

def empty : Server where
  db _ := none
  dbLog := .empty

/-- The new slice laid over the old block. The sum is computed in 32 bits; the size of a stored
value always fits, since leveldb itself keeps it in 32 bits. -/
def overlayBlock (old : Buf) (pack : Packet) : Buf :=
  let size := max ((pack.header.position.toNat + pack.header.datasize.toNat) % 2 ^ 32) old.length
  copyAt (resize 0 size old) pack.header.position.toNat pack.data

/-- `pack->header` with another message type, and no data. -/
def respond (pack : Packet) (type : MsgT) : Packet :=
  { header := { pack.header with type }, data := [] }

/-- The first `bind` of a prepare: a block that is not there is created empty, with an empty log. -/
def bindOrCreate (s : Server) (key : Buf) : Server :=
  match s.db key with
  | some _ => s
  | none =>
    { db := s.db.put key []
      dbLog := (s.dbLog.putCommittedVersion key 0).putPendingPrepare key [] 0 }

def startTwoPcPrepare (s : Server) (pack : Packet) : Server × Packet :=
  let key := pack.header.asString
  let s := s.bindOrCreate key
  match s.db key with
  | none => (s, respond pack .twoPcPrepareAgree)
  | some oldBlock =>
    let (pending, log) := s.dbLog.havePendingLog key
    -- the prepare that is pending stays, whoever it is from
    if pending then
      ({ s with dbLog := (log.getCommittedVersion key).2 }, respond pack .twoPcPrepareAbort)
    else
      let log := log.putPendingPrepare key (overlayBlock oldBlock pack) pack.header.version
      ({ s with dbLog := (log.getCommittedVersion key).2 }, respond pack .twoPcPrepareAgree)

def startTwoPcPrepareQuick (s : Server) (pack : Packet) : Server × Packet :=
  let key := pack.header.asString
  let s := s.bindOrCreate key
  match s.db key with
  | none => (s, respond pack .twoPcPrepareAgree)
  | some oldBlock =>
    -- nothing is compared here, so a pending prepare is overwritten
    let log := s.dbLog.putPendingPrepare key (overlayBlock oldBlock pack) pack.header.version
    ({ s with dbLog := (log.getCommittedVersion key).2 }, respond pack .twoPcPrepareAgree)

def startTwoPcCommitExecute (s : Server) (pack : Packet) : Server × Packet :=
  let (log, db) := s.dbLog.commitPendingPrepare pack.header.asString s.db
  ({ db, dbLog := log }, respond pack .twoPcCommitAck)

def startTwoPcCommitRollback (s : Server) (pack : Packet) : Server × Packet :=
  ({ s with dbLog := s.dbLog.putPendingPrepare pack.header.asString [] 0 },
    respond pack .twoPcCommitAck)

/-- The key of the replica of a block. -/
def replicaKey (h : PacketHeader) : Buf := h.asString ++ ascii "repl"

def startReplication (s : Server) (pack : Packet) : Server × Packet :=
  let key := replicaKey pack.header
  let oldBlock := (s.db key).getD []
  ({ s with db := s.db.put key (overlayBlock oldBlock pack) }, respond pack .ack)

/-- `rawblocks::read`, in `size_t` arithmetic; `none` if the copy leaves the block. -/
def rawblocksRead (buf : Buf) (logicPosition size : ℕ) : Option Buf :=
  let count := min (UInt64.ofNat buf.length - UInt64.ofNat logicPosition).toNat size
  if logicPosition + count ≤ buf.length then some ((buf.drop logicPosition).take count) else none

/-- The buffer of `start_db_read`, of `size` zeros into which the block is read. `stray` stands for
the bytes found by a copy that leaves the block. -/
def readBuffer (stray : ℕ → UInt8) (block : Buf) (position size : ℕ) : Buf :=
  (rawblocksRead block position size).elim ((List.range size).map stray) (resize 0 size)

def startDbRead (stray : ℕ → UInt8) (s : Server) (pack : Packet) : Packet :=
  match s.db pack.header.asString with
  | none => respond pack .err
  | some block =>
    { header := { pack.header with type := .ack }
      data := readBuffer stray block pack.header.position.toNat pack.header.datasize.toNat }

theorem readBuffer_length (stray : ℕ → UInt8) (block : Buf) (position size : ℕ) :
    (readBuffer stray block position size).length = size := by
  rw [readBuffer]
  cases rawblocksRead block position size with
  | none => rw [Option.elim_none, List.length_map, List.length_range]
  | some bytes => rw [Option.elim_some, length_resize]

theorem length_sub_toNat {block : Buf} {position : ℕ} (hlen : block.length < 2 ^ 64)
    (h : position ≤ block.length) :
    (UInt64.ofNat block.length - UInt64.ofNat position).toNat = block.length - position := by
  rw [UInt64.toNat_sub, UInt64.toNat_ofNat', UInt64.toNat_ofNat', Nat.mod_eq_of_lt hlen,
    Nat.mod_eq_of_lt (by omega : position < 2 ^ 64)]
  omega

/-- A read from inside the block, or from its end: the bytes that are there, and zeros for the
rest. -/
theorem getElem?_readBuffer (stray : ℕ → UInt8) {block : Buf} {position size i : ℕ}
    (hlen : block.length < 2 ^ 64) (h : position ≤ block.length) (hi : i < size) :
    (readBuffer stray block position size)[i]? = some (block[position + i]?.getD 0) := by
  have hread : rawblocksRead block position size
      = some ((block.drop position).take (min (block.length - position) size)) := by
    simp only [rawblocksRead, length_sub_toNat hlen h]
    rw [if_pos (by omega)]
  have hcount : ((block.drop position).take (min (block.length - position) size)).length
      = min (block.length - position) size := by
    rw [List.length_take, List.length_drop]
    omega
  rw [readBuffer, hread, Option.elim_some, getElem?_resize 0 (by omega), hcount]
  by_cases hin : position + i < block.length
  · rw [if_pos (by omega), List.getElem?_take_of_lt (by omega), List.getElem?_drop,
      List.getElem?_eq_getElem hin, Option.getD_some]
  · rw [if_neg (by omega), if_pos hi, List.getElem?_eq_none (by omega), Option.getD_none]

/-- Inside the block the buffer holds the bytes of the block. -/
theorem readBuffer_getElem? (stray : ℕ → UInt8) {block : Buf} {position size i : ℕ}
    (hlen : block.length < 2 ^ 64) (hi : i < size) (hblock : position + i < block.length) :
    (readBuffer stray block position size)[i]? = block[position + i]? := by
  rw [getElem?_readBuffer stray hlen (by omega) hi, List.getElem?_eq_getElem hblock,
    Option.getD_some]

/-- The dispatch of `start_read_header` on the message type. -/
def handle (stray : ℕ → UInt8) (s : Server) (pack : Packet) : Server × Packet :=
  match pack.header.type with
  | .twoPcPrepare => s.startTwoPcPrepare pack
  | .twoPcPrepareQuick => s.startTwoPcPrepareQuick pack
  | .twoPcCommitExecute => s.startTwoPcCommitExecute pack
  | .twoPcCommitRollback => s.startTwoPcCommitRollback pack
  | .replication => s.startReplication pack
  | .get => (s, s.startDbRead stray pack)
  | .err | .ack | .twoPcCommitAck | .twoPcPrepareAgree | .twoPcPrepareAbort =>
    (s, respond pack .err)

end Server

end Slsfs.Ssbd
