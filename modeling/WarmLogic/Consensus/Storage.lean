/-
# WarmLogic.Consensus.Storage — the write-ahead log of `consensus/storage.rs`.

`RaftStorage` is the three files of a node plus the worker thread: its command queue (the `mpsc` channel) and
the write offset it caches. `append_log`, `save_metadata` and `save_snapshot` only enqueue; `flush` is the
moment the worker has caught up. `truncate_log_suffix`, `recover_from_corruption`, `load_log` and
`verify_wal_integrity` go to the file directly, past the worker: they never touch `currentOffset`.

A record is `len:u32 crc:u32 bytes`, and a zero length ends the log, which is why a preallocated file of
zeros reads as the empty log. The three loops over the file take fuel; a turn consumes at least nine bytes,
so the file size is always enough (`loadLog`, `scanOffset` and `verifyWalIntegrity` start with it).
-/
import WarmLogic.Consensus.Types

namespace WarmLogic.Consensus

open WarmLogic.Lib

/-- What the engine can ask of the worker. -/
inductive StorageCommand where
  | append (entry : LogEntry)
  | saveMeta (term : UInt64) (votedFor : Option String) (peers : List String)
  | snapshot (snap : RaftSnapshot)

/-- The files as they are, with what the worker has in memory. A file of metadata or of a snapshot is replaced as a
whole. -/
structure RaftStorage where
  wal : ByteFile
  metaFile : Option RaftMetadata
  snapshotFile : Option RaftSnapshot
  queue : List StorageCommand
  currentOffset : Nat

/-- `16 * 1024 * 1024`, the preallocated length. -/
def walPrealloc : Nat := 16 * 1024 * 1024

/-- One record: the length (as `u32`), the checksum, the bytes. -/
def walRecord (env : Env) (bytes : List UInt8) : List UInt8 :=
  leBytes 4 bytes.length ++ (leBytes 4 (env.crc32 bytes).toNat ++ bytes)

namespace RaftStorage

/-! ## Opening -/

/-- The scan of `try_new`: jump from record to record and remember the position after the last one. -/
def scanLoop (f : ByteFile) : Nat → Nat → Nat → Nat
  | 0, _, offset => offset
  | fuel + 1, pos, offset =>
      match f.read pos 4 with
      | none => offset
      | some lenBuf =>
          let len := ofLeBytes lenBuf
          if len = 0 then offset
          else scanLoop f fuel (pos + 4 + (4 + len)) (pos + 4 + (4 + len))

/-- The offset the worker starts with. -/
def scanOffset (f : ByteFile) : Nat := scanLoop f (f.size + 1) 0 0

/-- `try_new`: preallocate a missing WAL, scan for the write offset, start a worker with an empty queue. -/
def tryNew (wal : Option ByteFile) (metaFile : Option RaftMetadata)
    (snapshotFile : Option RaftSnapshot) : RaftStorage :=
  let f := wal.getD (ByteFile.zeros walPrealloc)
  { wal := f
    metaFile := metaFile
    snapshotFile := snapshotFile
    queue := []
    currentOffset := scanOffset f }

/-! ## The worker -/

/-- One command, as the worker thread handles it. An entry that does not serialize is skipped. -/
def work (env : Env) (st : RaftStorage) : StorageCommand → RaftStorage
  | .append entry =>
      match env.codec.encode entry with
      | none => st
      | some bytes =>
          let rec' := walRecord env bytes
          { st with
            wal := st.wal.write st.currentOffset rec'
            currentOffset := st.currentOffset + rec'.length }
  | .saveMeta term votedFor peers =>
      { st with metaFile := some { currentTerm := term, votedFor := votedFor, peers := peers } }
  | .snapshot snap =>
      { st with snapshotFile := some (if env.zk then
          { snap with poseidonHash := env.snapshotPoseidon snap.data snap.lastIncludedIndex }
        else snap) }

/-- `flush`: every queued command has been handled. -/
def flush (env : Env) (st : RaftStorage) : RaftStorage :=
  st.queue.foldl (work env) { st with queue := [] }

/-- `append_log`: nothing is written yet, and nothing can fail. -/
def appendLog (st : RaftStorage) (entry : LogEntry) : RaftStorage :=
  { st with queue := st.queue ++ [.append entry] }

/-- `save_metadata`, behind everything that is queued already. -/
def saveMetadata (st : RaftStorage) (term : UInt64) (votedFor : Option String) (peers : List String) :
    RaftStorage :=
  { st with queue := st.queue ++ [.saveMeta term votedFor peers] }

/-- `save_snapshot`; the log is not touched. -/
def saveSnapshot (st : RaftStorage) (snap : RaftSnapshot) : RaftStorage :=
  { st with queue := st.queue ++ [.snapshot snap] }

/-- `load_metadata`: a missing file is term 0 without a vote. -/
def loadMetadata (st : RaftStorage) : UInt64 × Option String × List String :=
  match st.metaFile with
  | some m => (m.currentTerm, m.votedFor, m.peers)
  | none => (0, none, [])

/-! ## Reading the file -/

/-- `verify_wal_integrity`: the offset of the first record that fails, `none` when all pass. -/
def verifyLoop (env : Env) (f : ByteFile) : Nat → Nat → String → String → Option Nat
  | 0, _, _, _ => none
  | fuel + 1, pos, lastSha, lastPos =>
      match f.read pos 4 with
      | none => none
      | some lenBuf =>
          let len := ofLeBytes lenBuf
          if len = 0 then none
          else match f.read (pos + 4) 4 with
            | none => some pos
            | some crcBuf => match f.read (pos + 8) len with
              | none => some pos
              | some buf =>
                  if (env.crc32 buf).toNat ≠ ofLeBytes crcBuf then some pos
                  else match env.codec.decode buf with
                    | none => some pos
                    | some entry =>
                        if env.sha256 (toString entry.term ++ ":" ++ toString entry.index ++ ":"
                            ++ entry.data ++ ":" ++ lastSha) ≠ entry.cumulativeHash then some pos
                        -- the Poseidon link is only checked to make progress
                        else if entry.poseidonHash ≠ "" ∧ lastPos ≠ zeroHash
                            ∧ entry.poseidonHash = lastPos then some pos
                        else verifyLoop env f fuel (pos + 8 + len) entry.cumulativeHash
                          entry.poseidonHash

/-- The verification from the start of the file. -/
def verifyWalIntegrity (env : Env) (st : RaftStorage) : Option Nat :=
  verifyLoop env st.wal (st.wal.size + 1) 0 zeroHash zeroHash

/-- `recover_from_corruption`: the file is cut, or filled up with zeros, to the offset; the worker is not told. -/
def recoverFromCorruption (st : RaftStorage) (offset : Nat) : RaftStorage :=
  { st with wal := st.wal.setLen offset }

/-- `load_log`: read records to the first zero length or the end; one that does not decode is dropped. -/
def loadLoop (env : Env) (f : ByteFile) : Nat → Nat → List LogEntry
  | 0, _ => []
  | fuel + 1, pos =>
      match f.read pos 4 with
      | none => []
      | some lenBuf =>
          let len := ofLeBytes lenBuf
          if len = 0 then []
          else match f.read (pos + 4) 4 with
            | none => []
            | some _ => match f.read (pos + 8) len with
              -- the failed read ran to the end of the file, where the loop stops
              | none => []
              | some buf => match env.codec.decode buf with
                | some entry => entry :: loadLoop env f fuel (pos + 8 + len)
                | none => loadLoop env f fuel (pos + 8 + len)

/-- The entries of the file. -/
def loadLog (env : Env) (st : RaftStorage) : List LogEntry := loadLoop env st.wal (st.wal.size + 1) 0

/-- The rewrite of `truncate_log_suffix`: the kept records back to back from offset 0. -/
def rewrite (env : Env) (entries : List LogEntry) : ByteFile × Nat :=
  entries.foldl (fun (f : ByteFile × Nat) entry => match env.codec.encode entry with
    | none => f
    | some bytes =>
        (f.1.write f.2 (walRecord env bytes), f.2 + (walRecord env bytes).length))
    (ByteFile.zeros walPrealloc, 0)

/-- `truncate_log_suffix`: a fresh file with the kept records replaces the WAL; the worker keeps its
offset. -/
def truncateLogSuffix (env : Env) (st : RaftStorage) (firstIndexToKeep : Nat) : RaftStorage :=
  let logs := st.loadLog env
  if logs.length ≤ firstIndexToKeep then st
  else { st with wal := (rewrite env (logs.take firstIndexToKeep)).1 }

end RaftStorage

end WarmLogic.Consensus
