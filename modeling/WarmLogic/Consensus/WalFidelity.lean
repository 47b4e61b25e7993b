/-
# WarmLogic.Consensus.WalFidelity — the write-ahead log against an in-memory list.

The abstract log is a `List LogEntry`: appending appends, truncating takes a prefix, a boot that finds a
broken record takes the prefix before it (`WalOp.onList`). The file refines it as long as the worker's cached
offset is where the records end. Two operations move that end WITHOUT the worker: a truncation that drops
records rewrites the file, and a boot recovery shortens it after the scan. From then on, until the next boot
rescans, an append lands beyond a gap of zeros, and a zero length ends the log: the entry is lost.

The main result is exact: the file shows the list after every operation of a run if and only if no append
meets a stale offset and every appended entry fits the `u32` length field (`wal_fidelity_iff_appends_in_sync`).

Why a gap loses an entry: the record goes where the worker's offset is, past the end of the file, and the file system
fills what lies between with zeros. A reader that comes to the gap finds the length zero, which is how a log ends. The
record is on disk, intact, and is never reached; a boot that scans the file puts the offset back in front of it.

The refinement relation is `Shows`: the file holds the image of the list from offset 0, then zeros, and the offset is
at the end of the image or past a gap. A gap is at least one record wide, eight bytes and more, so no record that is
written behind it can begin where the log ends. Each operation has a lemma that says what becomes of the relation, and
one lemma says what an append behind a gap does: nothing that a reader can see.
-/
import Mathlib.Data.List.Induction
import WarmLogic.Consensus.Storage

namespace WarmLogic.Consensus

open WarmLogic.Lib

/-! ## Operations on the file and on the list -/

/-- The operations, each followed by a flush. A boot reopens the files, verifies, and recovers. -/
inductive WalOp where
  | append (entry : LogEntry)
  | truncate (firstIndexToKeep : Nat)
  | boot

/-- The operation on the storage. -/
def WalOp.onStorage (env : Env) (st : RaftStorage) : WalOp → RaftStorage
  | .append entry => (st.appendLog entry).flush env
  | .truncate k => (st.truncateLogSuffix env k).flush env
  | .boot =>
      let opened := RaftStorage.tryNew (some st.wal) st.metaFile st.snapshotFile
      match opened.verifyWalIntegrity env with
      | none => opened
      | some offset => opened.recoverFromCorruption offset

/-- The position of the first entry whose hash link is broken, as the boot verification checks it. -/
def firstBroken (env : Env) : List LogEntry → String → String → Option Nat
  | [], _, _ => none
  | e :: l, lastSha, lastPos =>
      if env.sha256 (toString e.term ++ ":" ++ toString e.index ++ ":" ++ e.data ++ ":" ++ lastSha)
          ≠ e.cumulativeHash then some 0
      else if e.poseidonHash ≠ "" ∧ lastPos ≠ zeroHash ∧ e.poseidonHash = lastPos then some 0
      else (firstBroken env l e.cumulativeHash e.poseidonHash).map (· + 1)

/-- The operation on the in-memory list. -/
def WalOp.onList (env : Env) (l : List LogEntry) : WalOp → List LogEntry
  | .append entry => l ++ [entry]
  | .truncate k => l.take k
  | .boot => match firstBroken env l zeroHash zeroHash with
    | none => l
    | some n => l.take n

/-- A fresh directory. -/
def freshStorage : RaftStorage := RaftStorage.tryNew none none none

/-- After every operation of `ops`, started with `st` and `l`, the file shows the list. -/
def Faithful (env : Env) (st : RaftStorage) (l : List LogEntry) (ops : List WalOp) : Prop :=
  ∀ k, ((ops.take k).foldl (WalOp.onStorage env) st).loadLog env = (ops.take k).foldl (WalOp.onList env) l

/-- The entry serializes, to fewer than 2^32 bytes. -/
def FitsRecord (env : Env) (e : LogEntry) : Prop := ∃ bytes, env.codec.encode e = some bytes ∧ bytes.length < 2 ^ 32

/-- **The condition.** `cut` says that records were dropped behind the worker since the last boot. No append happens
then, and every appended entry fits its length field. It is computed from the operations and the list alone, without
the file. -/
def AppendsInSync (env : Env) : List LogEntry → Bool → List WalOp → Prop
  | _, _, [] => True
  | l, cut, .append e :: ops => cut = false ∧ FitsRecord env e ∧ AppendsInSync env (l ++ [e]) false ops
  | l, cut, .truncate k :: ops => AppendsInSync env (l.take k) (cut || decide (k < l.length)) ops
  | l, _, .boot :: ops => match firstBroken env l zeroHash zeroHash with
    | none => AppendsInSync env l false ops
    | some n => AppendsInSync env (l.take n) true ops

/-! ## Records and images -/

/-- The record of an entry. -/
def recordOf (env : Env) (e : LogEntry) : List UInt8 :=
  match env.codec.encode e with
  | none => []
  | some bytes => walRecord env bytes

/-- The bytes a list of entries occupies from offset 0. -/
def image (env : Env) (l : List LogEntry) : List UInt8 := l.flatMap (recordOf env)

@[simp] theorem image_nil (env : Env) : image env [] = [] := rfl

@[simp] theorem image_cons (env : Env) (e : LogEntry) (l : List LogEntry) :
    image env (e :: l) = recordOf env e ++ image env l := rfl

/-- The records of two parts. -/
theorem image_append (env : Env) (l l' : List LogEntry) :
    image env (l ++ l') = image env l ++ image env l' := List.flatMap_append

/-- A record is eight bytes longer than its entry. -/
theorem length_walRecord (env : Env) (bytes : List UInt8) :
    (walRecord env bytes).length = 8 + bytes.length := by
  simp only [walRecord, List.length_append, length_leBytes]
  omega

/-- A fitting entry's record: a nonzero length word, its checksum, its bytes. -/
theorem FitsRecord.record (env : Env) {e : LogEntry} (h : FitsRecord env e) :
    ∃ bytes, env.codec.encode e = some bytes ∧ recordOf env e = walRecord env bytes ∧
      ofLeBytes (leBytes 4 bytes.length) = bytes.length ∧ 0 < bytes.length := by
  obtain ⟨bytes, he, hlt⟩ := h
  have hpos := env.codec.eight_le he
  exact ⟨bytes, he, by rw [recordOf, he], ofLeBytes_leBytes_of_lt (by simpa using hlt), by omega⟩

/-- So it has at least eight. -/
theorem FitsRecord.eight_le (env : Env) {e : LogEntry} (h : FitsRecord env e) :
    8 ≤ (recordOf env e).length := by
  obtain ⟨bytes, -, hrec, -, -⟩ := h.record env
  rw [hrec, length_walRecord]
  omega

/-- And a log has room for eight bytes an entry. -/
theorem length_le_image (env : Env) {l : List LogEntry} (h : ∀ e ∈ l, FitsRecord env e) :
    8 * l.length ≤ (image env l).length := by
  induction l with
  | nil => simp
  | cons e l ih =>
      have h8 := (h e (by simp)).eight_le env
      have := ih fun e' he' => h e' (List.mem_cons_of_mem e he')
      rw [image_cons, List.length_append, List.length_cons]
      omega

/-- The log ends at `off`: there the file stops or shows a zero length. -/
def EndsAt (f : ByteFile) (off : Nat) : Prop :=
  f.read off 4 = none ∨ ∃ bs, f.read off 4 = some bs ∧ ofLeBytes bs = 0

/-- A file that is zero from there on ends there. -/
theorem endsAt_of_zeroFrom {f : ByteFile} {off : Nat} (h : f.ZeroFrom off) : EndsAt f off :=
  ByteFile.read_of_zeros fun i _ => h (off + i) (by omega)

/-- What a file that holds a record at `pos` answers to the three reads of a turn. -/
theorem reads_of_holds {env : Env} {f : ByteFile} {pos : Nat} {bytes : List UInt8}
    (h : f.Holds pos (walRecord env bytes)) :
    f.read pos 4 = some (leBytes 4 bytes.length) ∧
      f.read (pos + 4) 4 = some (leBytes 4 (env.crc32 bytes).toNat) ∧
      f.read (pos + 8) bytes.length = some bytes := by
  rw [walRecord, ByteFile.holds_append, ByteFile.holds_append] at h
  obtain ⟨h1, h2, h3⟩ := h
  have r1 := h1.read
  have r2 := h2.read
  have r3 := h3.read
  simp only [length_leBytes] at r1 r2 r3
  exact ⟨r1, r2, r3⟩

/-! ## The three loops on an image -/

/-- **Loading reads the log back** from its records. -/
theorem loadLoop_image (env : Env) {f : ByteFile} {l : List LogEntry} (hfit : ∀ e ∈ l, FitsRecord env e) :
    ∀ {fuel pos : Nat}, l.length < fuel → f.Holds pos (image env l) →
      EndsAt f (pos + (image env l).length) → RaftStorage.loadLoop env f fuel pos = l := by
  induction l with
  | nil =>
      intro fuel pos hfuel _ hend
      obtain ⟨fuel, rfl⟩ := Nat.exists_eq_succ_of_ne_zero (show fuel ≠ 0 by simp at hfuel; omega)
      rw [image_nil, List.length_nil, Nat.add_zero] at hend
      rcases hend with hend | ⟨bs, hend, hz⟩
      · simp only [RaftStorage.loadLoop, hend]
      · simp only [RaftStorage.loadLoop, hend, hz, if_true]
  | cons e l ih =>
      intro fuel pos hfuel hholds hend
      obtain ⟨fuel, rfl⟩ := Nat.exists_eq_succ_of_ne_zero (show fuel ≠ 0 by simp at hfuel; omega)
      obtain ⟨bytes, he, hrec, hlen, hpos⟩ := (hfit e (by simp)).record env
      rw [image_cons, ByteFile.holds_append, hrec, length_walRecord] at hholds
      obtain ⟨r1, r2, r3⟩ := reads_of_holds hholds.1
      rw [image_cons, List.length_append, hrec, length_walRecord, ← Nat.add_assoc] at hend
      have hrest : RaftStorage.loadLoop env f fuel (pos + (8 + bytes.length)) = l :=
        ih (fun e' he' => hfit e' (List.mem_cons_of_mem e he')) (by simp at hfuel; omega) hholds.2 hend
      rw [← Nat.add_assoc] at hrest
      simp only [RaftStorage.loadLoop, r1, r2, hlen, r3, if_neg (show ¬ bytes.length = 0 by omega),
        env.codec.decode_eq_some.mpr he, hrest]

/-- The scan for the end stops behind them. -/
theorem scanLoop_image (env : Env) {f : ByteFile} {l : List LogEntry} (hfit : ∀ e ∈ l, FitsRecord env e) :
    ∀ {fuel pos : Nat}, l.length < fuel → f.Holds pos (image env l) →
      EndsAt f (pos + (image env l).length) →
      RaftStorage.scanLoop f fuel pos pos = pos + (image env l).length := by
  induction l with
  | nil =>
      intro fuel pos hfuel _ hend
      obtain ⟨fuel, rfl⟩ := Nat.exists_eq_succ_of_ne_zero (show fuel ≠ 0 by simp at hfuel; omega)
      rw [image_nil, List.length_nil, Nat.add_zero] at hend ⊢
      rcases hend with hend | ⟨bs, hend, hz⟩
      · simp only [RaftStorage.scanLoop, hend]
      · simp only [RaftStorage.scanLoop, hend, hz, if_true]
  | cons e l ih =>
      intro fuel pos hfuel hholds hend
      obtain ⟨fuel, rfl⟩ := Nat.exists_eq_succ_of_ne_zero (show fuel ≠ 0 by simp at hfuel; omega)
      obtain ⟨bytes, he, hrec, hlen, hpos⟩ := (hfit e (by simp)).record env
      rw [image_cons, ByteFile.holds_append, hrec, length_walRecord] at hholds
      obtain ⟨r1, r2, r3⟩ := reads_of_holds hholds.1
      rw [image_cons, List.length_append, hrec, length_walRecord, ← Nat.add_assoc] at hend
      have hrest : RaftStorage.scanLoop f fuel (pos + (8 + bytes.length)) (pos + (8 + bytes.length))
          = pos + (8 + bytes.length) + (image env l).length :=
        ih (fun e' he' => hfit e' (List.mem_cons_of_mem e he')) (by simp at hfuel; omega) hholds.2 hend
      have hjump : pos + 4 + (4 + bytes.length) = pos + (8 + bytes.length) := by omega
      simp only [RaftStorage.scanLoop, r1, hlen, if_neg (show ¬ bytes.length = 0 by omega), hjump, hrest]
      rw [image_cons, List.length_append, hrec, length_walRecord, Nat.add_assoc]

/-- One turn of the verification on a record whose length field tells its length: two link checks, then the rest. -/
theorem verifyLoop_record {env : Env} {f : ByteFile} {pos : Nat} {e : LogEntry} {bytes : List UInt8}
    (he : env.codec.encode e = some bytes) (hlen : ofLeBytes (leBytes 4 bytes.length) = bytes.length)
    (hpos : 0 < bytes.length) (h : f.Holds pos (walRecord env bytes)) (fuel : Nat) (lastSha lastPos : String) :
    RaftStorage.verifyLoop env f (fuel + 1) pos lastSha lastPos =
      if env.sha256 (toString e.term ++ ":" ++ toString e.index ++ ":" ++ e.data ++ ":" ++ lastSha)
          ≠ e.cumulativeHash then some pos
      else if e.poseidonHash ≠ "" ∧ lastPos ≠ zeroHash ∧ e.poseidonHash = lastPos then some pos
      else RaftStorage.verifyLoop env f fuel (pos + 8 + bytes.length) e.cumulativeHash e.poseidonHash := by
  obtain ⟨r1, r2, r3⟩ := reads_of_holds h
  have hcrc : ofLeBytes (leBytes 4 (env.crc32 bytes).toNat) = (env.crc32 bytes).toNat :=
    ofLeBytes_leBytes_of_lt (env.crc32 bytes).toNat_lt
  simp only [RaftStorage.verifyLoop, r1, r2, hlen, r3, if_neg (show ¬ bytes.length = 0 by omega),
    env.codec.decode_eq_some.mpr he, hcrc, ne_eq, not_true_eq_false, if_false]

/-- The check goes through them as it would through the log. -/
theorem verifyLoop_image (env : Env) {f : ByteFile} {l : List LogEntry} (hfit : ∀ e ∈ l, FitsRecord env e) :
    ∀ {fuel pos : Nat} {lastSha lastPos : String}, l.length < fuel → f.Holds pos (image env l) →
      EndsAt f (pos + (image env l).length) →
      RaftStorage.verifyLoop env f fuel pos lastSha lastPos
        = (firstBroken env l lastSha lastPos).map fun n => pos + (image env (l.take n)).length := by
  induction l with
  | nil =>
      intro fuel pos lastSha lastPos hfuel _ hend
      obtain ⟨fuel, rfl⟩ := Nat.exists_eq_succ_of_ne_zero (show fuel ≠ 0 by simp at hfuel; omega)
      rw [image_nil, List.length_nil, Nat.add_zero] at hend
      rcases hend with hend | ⟨bs, hend, hz⟩
      · simp only [RaftStorage.verifyLoop, hend, firstBroken, Option.map_none]
      · simp only [RaftStorage.verifyLoop, hend, hz, if_true, firstBroken, Option.map_none]
  | cons e l ih =>
      intro fuel pos lastSha lastPos hfuel hholds hend
      obtain ⟨fuel, rfl⟩ := Nat.exists_eq_succ_of_ne_zero (show fuel ≠ 0 by simp at hfuel; omega)
      obtain ⟨bytes, he, hrec, hlen, hpos⟩ := (hfit e (by simp)).record env
      rw [image_cons, ByteFile.holds_append, hrec, length_walRecord] at hholds
      rw [image_cons, List.length_append, hrec, length_walRecord, ← Nat.add_assoc] at hend
      have hrest : RaftStorage.verifyLoop env f fuel (pos + (8 + bytes.length)) e.cumulativeHash
            e.poseidonHash
          = (firstBroken env l e.cumulativeHash e.poseidonHash).map
              fun n => pos + (8 + bytes.length) + (image env (l.take n)).length :=
        ih (fun e' he' => hfit e' (List.mem_cons_of_mem e he')) (by simp at hfuel; omega) hholds.2 hend
      rw [← Nat.add_assoc] at hrest
      simp only [verifyLoop_record he hlen hpos hholds.1, hrest, firstBroken]
      -- the same two link checks on both sides; past them, the rest of the file
      split
      · simp
      · split
        · simp
        · cases firstBroken env l e.cumulativeHash e.poseidonHash with
          | none => rfl
          | some n =>
              simp only [Option.map_some, List.take_succ_cons, image_cons, List.length_append, hrec,
                length_walRecord]
              congr 1
              omega

/-- The first broken entry is one of them. -/
theorem firstBroken_lt {env : Env} {l : List LogEntry} :
    ∀ {lastSha lastPos : String} {n : Nat}, firstBroken env l lastSha lastPos = some n →
      n < l.length := by
  induction l with
  | nil => intro _ _ n h; cases h
  | cons e l ih =>
      intro lastSha lastPos n h
      rw [firstBroken] at h
      split at h
      · cases h; simp
      · split at h
        · cases h; simp
        · obtain ⟨m, hm, rfl⟩ := Option.map_eq_some_iff.mp h
          have := ih hm
          simp only [List.length_cons]
          omega

/-! ## The refinement relation -/

/-- **`Shows env st l cut`** — the file shows `l`, and the worker's offset is at its end, or (`cut`) beyond a gap in
which the file is zero. It holds of a fresh directory, since the preallocated zeros are an empty log; an append in
sync writes the next record exactly at the end of the image; a truncation writes a new file and leaves the offset
where it was. -/
structure Shows (env : Env) (st : RaftStorage) (l : List LogEntry) (cut : Bool) : Prop where
  idle : st.queue = []
  fits : ∀ e ∈ l, FitsRecord env e
  holds : st.wal.Holds 0 (image env l)
  zeros : st.wal.ZeroFrom (image env l).length
  offset : if cut then (image env l).length + 8 ≤ st.currentOffset
    else st.currentOffset = (image env l).length

/-- The fuel of the loops is enough. -/
theorem Shows.fuel {env : Env} {st : RaftStorage} {l : List LogEntry} {cut : Bool}
    (h : Shows env st l cut) : l.length < st.wal.size + 1 := by
  have h1 := length_le_image env h.fits
  have h2 := h.holds.1
  omega

/-- The file ends behind the records. -/
theorem Shows.endsAt {env : Env} {st : RaftStorage} {l : List LogEntry} {cut : Bool}
    (h : Shows env st l cut) : EndsAt st.wal (0 + (image env l).length) := by
  rw [Nat.zero_add]
  exact endsAt_of_zeroFrom h.zeros

/-- **What is loaded is the log that the file shows.** -/
theorem Shows.loadLog {env : Env} {st : RaftStorage} {l : List LogEntry} {cut : Bool}
    (h : Shows env st l cut) : st.loadLog env = l :=
  loadLoop_image env h.fits h.fuel h.holds h.endsAt

/-- A fresh directory shows the empty log. -/
theorem shows_fresh (env : Env) : Shows env freshStorage [] false where
  idle := rfl
  fits := by simp
  holds := by simp
  zeros := fun _ _ => rfl
  offset := by
    have hz : (ByteFile.zeros walPrealloc).ZeroFrom (0 + (image env []).length) := fun _ _ => rfl
    have hscan : RaftStorage.scanLoop (ByteFile.zeros walPrealloc) (walPrealloc + 1) 0 0
        = 0 + (image env []).length :=
      scanLoop_image env (by simp) (by simp) (by simp) (endsAt_of_zeroFrom hz)
    exact hscan

/-! ## One lemma per operation -/

/-- An empty queue can be emptied. -/
theorem queue_nil_eq {st : RaftStorage} (h : st.queue = []) : { st with queue := [] } = st := by
  rw [← h]

/-- And there is nothing to flush. -/
theorem flush_of_idle (env : Env) {st : RaftStorage} (h : st.queue = []) : st.flush env = st := by
  rw [RaftStorage.flush, h, List.foldl_nil, queue_nil_eq h]

/-- The effect of a flushed append on a caught-up storage: one record at the cached offset. -/
theorem append_eq {env : Env} {st : RaftStorage} (h : st.queue = []) {e : LogEntry}
    {bytes : List UInt8} (he : env.codec.encode e = some bytes) :
    WalOp.onStorage env st (.append e) = { st with
      wal := st.wal.write st.currentOffset (walRecord env bytes)
      currentOffset := st.currentOffset + (walRecord env bytes).length } := by
  simp only [WalOp.onStorage, RaftStorage.appendLog, RaftStorage.flush, h, List.nil_append,
    List.foldl_cons, List.foldl_nil, RaftStorage.work, he]

/-- **An append in sync** shows one entry more. -/
theorem Shows.append {env : Env} {st : RaftStorage} {l : List LogEntry} (h : Shows env st l false)
    {e : LogEntry} (he : FitsRecord env e) :
    Shows env (WalOp.onStorage env st (.append e)) (l ++ [e]) false := by
  obtain ⟨bytes, henc, hrec, -, -⟩ := he.record env
  have hoff : st.currentOffset = (image env l).length := h.offset
  have himg : image env (l ++ [e]) = image env l ++ walRecord env bytes := by
    rw [image_append, image_cons, image_nil, List.append_nil, hrec]
  rw [append_eq h.idle henc, hoff]
  refine ⟨h.idle, ?_, ?_, ?_, ?_⟩
  · intro e' he'
    rcases List.mem_append.mp he' with he' | he'
    · exact h.fits e' he'
    · rw [List.mem_singleton.mp he']; exact he
  · rw [himg, ByteFile.holds_append, Nat.zero_add]
    exact ⟨h.holds.write (by omega), ByteFile.holds_write _ _ _⟩
  · rw [himg, List.length_append]
    exact h.zeros.write (by omega)
  · rw [himg, List.length_append]
    rfl

/-- **An append behind a gap is lost**: the file still shows the old list. -/
theorem Shows.append_lost {env : Env} {st : RaftStorage} {l : List LogEntry} (h : Shows env st l true)
    (e : LogEntry) : (WalOp.onStorage env st (.append e)).loadLog env = l := by
  have hoff : (image env l).length + 8 ≤ st.currentOffset := h.offset
  cases henc : env.codec.encode e with
  | none =>
      have hskip : WalOp.onStorage env st (.append e) = st := by
        simp only [WalOp.onStorage, RaftStorage.appendLog, RaftStorage.flush, h.idle, List.nil_append,
          List.foldl_cons, List.foldl_nil, RaftStorage.work, henc]
        exact queue_nil_eq h.idle
      rw [hskip]
      exact h.loadLog
  | some bytes =>
      rw [append_eq h.idle henc, RaftStorage.loadLog]
      have hhold : (st.wal.write st.currentOffset (walRecord env bytes)).Holds 0 (image env l) :=
        h.holds.write (by omega)
      refine loadLoop_image env h.fits ?_ hhold ?_
      · have h1 := length_le_image env h.fits
        have h2 := hhold.1
        dsimp only
        omega
      · -- the four bytes after the image are below the write
        refine ByteFile.read_of_zeros fun i hi => ?_
        have hn : ¬ (st.currentOffset ≤ 0 + (image env l).length + i ∧
            0 + (image env l).length + i < st.currentOffset + (walRecord env bytes).length) := by omega
        simp only [ByteFile.write, if_neg hn]
        exact h.zeros _ (by omega)

/-- What `load_log` returns always fits a record. -/
theorem loadLoop_fits (env : Env) (f : ByteFile) : ∀ (fuel pos : Nat), ∀ e ∈ RaftStorage.loadLoop env f fuel pos,
    FitsRecord env e := by
  intro fuel
  induction fuel with
  | zero => intro pos e he; simp [RaftStorage.loadLoop] at he
  | succ fuel ih =>
      intro pos e he
      rw [RaftStorage.loadLoop] at he
      split at he
      · simp at he
      · rename_i lenBuf hlen
        dsimp only at he
        split at he
        · simp at he
        · split at he
          · simp at he
          · split at he
            · simp at he
            · rename_i buf hbuf
              split at he
              · rename_i entry hentry
                rcases List.mem_cons.mp he with rfl | he
                · refine ⟨buf, env.codec.decode_eq_some.mp hentry, ?_⟩
                  have hl : buf.length = ofLeBytes lenBuf := by
                    unfold ByteFile.read at hbuf
                    split at hbuf
                    · cases hbuf; simp
                    · cases hbuf
                  have h4 : lenBuf.length = 4 := by
                    unfold ByteFile.read at hlen
                    split at hlen
                    · cases hlen; simp
                    · cases hlen
                  have hlt := ofLeBytes_lt lenBuf
                  rw [h4] at hlt
                  rw [hl]
                  simpa using hlt
                · exact ih _ e he
              · exact ih _ e he

/-- A file that is written anew has the records and zeros behind. -/
theorem rewrite_spec (env : Env) {l : List LogEntry} (hfit : ∀ e ∈ l, FitsRecord env e) :
    (RaftStorage.rewrite env l).1.Holds 0 (image env l) ∧
      (RaftStorage.rewrite env l).1.ZeroFrom (image env l).length ∧
      (RaftStorage.rewrite env l).2 = (image env l).length := by
  induction l using List.reverseRecOn with
  | nil => exact ⟨by simp, fun _ _ => rfl, rfl⟩
  | append_singleton l e ih =>
      obtain ⟨hholds, hzeros, hpos⟩ := ih fun e' he' => hfit e' (List.mem_append_left _ he')
      obtain ⟨bytes, henc, hrec, -, -⟩ := (hfit e (by simp)).record env
      have himg : image env (l ++ [e]) = image env l ++ walRecord env bytes := by
        rw [image_append, image_cons, image_nil, List.append_nil, hrec]
      have hstep : RaftStorage.rewrite env (l ++ [e])
          = ((RaftStorage.rewrite env l).1.write (image env l).length (walRecord env bytes),
              (image env l).length + (walRecord env bytes).length) := by
        rw [← hpos]
        simp only [RaftStorage.rewrite, List.foldl_append, List.foldl_cons, List.foldl_nil, henc]
      rw [hstep, himg, List.length_append]
      refine ⟨?_, hzeros.write (by omega), rfl⟩
      rw [ByteFile.holds_append, Nat.zero_add]
      exact ⟨hholds.write (by omega), ByteFile.holds_write _ _ _⟩

/-- A dropped suffix of records leaves a gap of at least one record. -/
theorem image_take_add_eight_le (env : Env) {l : List LogEntry} (hfit : ∀ e ∈ l, FitsRecord env e) {k : Nat}
    (hk : k < l.length) : (image env (l.take k)).length + 8 ≤ (image env l).length := by
  have hsplit : image env l = image env (l.take k) ++ image env (l.drop k) := by
    rw [← image_append, List.take_append_drop]
  have h1 := length_le_image env (l := l.drop k) fun e he => hfit e (List.mem_of_mem_drop he)
  rw [List.length_drop] at h1
  rw [hsplit, List.length_append]
  omega

/-- **A truncation** shows the front of the log, with the offset where it was. -/
theorem Shows.truncate {env : Env} {st : RaftStorage} {l : List LogEntry} {cut : Bool}
    (h : Shows env st l cut) (k : Nat) :
    Shows env (WalOp.onStorage env st (.truncate k)) (l.take k) (cut || decide (k < l.length)) := by
  simp only [WalOp.onStorage, RaftStorage.truncateLogSuffix, h.loadLog]
  by_cases hk : l.length ≤ k
  · -- nothing to drop: the source returns before it touches the file
    rw [if_pos hk, flush_of_idle env h.idle, List.take_of_length_le hk,
      decide_eq_false (show ¬ k < l.length by omega), Bool.or_false]
    exact h
  · have hidle : { st with wal := (RaftStorage.rewrite env (l.take k)).1 }.queue = [] := h.idle
    rw [if_neg hk, flush_of_idle env hidle, decide_eq_true (show k < l.length by omega), Bool.or_true]
    have hfit : ∀ e ∈ l.take k, FitsRecord env e := fun e he => h.fits e (List.mem_of_mem_take he)
    obtain ⟨hholds, hzeros, -⟩ := rewrite_spec env hfit
    refine ⟨h.idle, hfit, hholds, hzeros, ?_⟩
    have hgap := image_take_add_eight_le env h.fits (show k < l.length by omega)
    have hoff := h.offset
    rw [if_pos rfl]
    split at hoff <;> dsimp only <;> omega

/-- **A boot** shows the log up to the first broken entry, in sync again where it was cut there. -/
theorem Shows.boot {env : Env} {st : RaftStorage} {l : List LogEntry} {cut : Bool}
    (h : Shows env st l cut) :
    match firstBroken env l zeroHash zeroHash with
    | none => Shows env (WalOp.onStorage env st .boot) l false
    | some n => Shows env (WalOp.onStorage env st .boot) (l.take n) true := by
  have hscan : RaftStorage.scanOffset st.wal = (image env l).length := by
    have := scanLoop_image env h.fits h.fuel h.holds h.endsAt
    rwa [Nat.zero_add] at this
  have hverify : RaftStorage.verifyWalIntegrity env
        (RaftStorage.tryNew (some st.wal) st.metaFile st.snapshotFile)
      = (firstBroken env l zeroHash zeroHash).map fun n => (image env (l.take n)).length := by
    have hloop : RaftStorage.verifyLoop env st.wal (st.wal.size + 1) 0 zeroHash zeroHash
        = (firstBroken env l zeroHash zeroHash).map fun n => 0 + (image env (l.take n)).length :=
      verifyLoop_image env h.fits h.fuel h.holds h.endsAt
    simp only [Nat.zero_add] at hloop
    exact hloop
  cases hb : firstBroken env l zeroHash zeroHash with
  | none =>
      rw [hb, Option.map_none] at hverify
      simp only [WalOp.onStorage, hverify]
      exact ⟨rfl, h.fits, h.holds, h.zeros, hscan⟩
  | some n =>
      rw [hb, Option.map_some] at hverify
      simp only [WalOp.onStorage, hverify]
      have hgap := image_take_add_eight_le env h.fits (firstBroken_lt hb)
      have hsplit : image env l = image env (l.take n) ++ image env (l.drop n) := by
        rw [← image_append, List.take_append_drop]
      have hholds := h.holds
      rw [hsplit, ByteFile.holds_append] at hholds
      refine ⟨rfl, fun e he => h.fits e (List.mem_of_mem_take he), hholds.1.setLen (by omega),
        ByteFile.zeroFrom_setLen _ _, ?_⟩
      show (image env (l.take n)).length + 8 ≤ RaftStorage.scanOffset st.wal
      rw [hscan]
      exact hgap

/-! ## The result -/

/-- One operation at a time: from a storage that shows `l`, faithfulness of a run is exactly the
condition. The induction is on the operations; the relation `Shows` carries it. -/
theorem faithful_iff (env : Env) : ∀ (ops : List WalOp) {st : RaftStorage} {l : List LogEntry}
    {cut : Bool}, Shows env st l cut → (Faithful env st l ops ↔ AppendsInSync env l cut ops) := by
  have hcons : ∀ {st : RaftStorage} {l : List LogEntry} {op : WalOp} {ops : List WalOp},
      Faithful env st l (op :: ops) ↔
        st.loadLog env = l ∧ Faithful env (op.onStorage env st) (op.onList env l) ops := by
    intro st l op ops
    constructor
    · intro h
      exact ⟨h 0, fun k => h (k + 1)⟩
    · rintro ⟨h0, h⟩ k
      cases k with
      | zero => exact h0
      | succ k => exact h k
  intro ops
  induction ops with
  | nil =>
      intro st l cut h
      exact ⟨fun _ => trivial, fun _ k => by rw [List.take_nil]; exact h.loadLog⟩
  | cons op ops ih =>
      intro st l cut h
      rw [hcons]
      cases op with
      | append e =>
          constructor
          · rintro ⟨-, hf⟩
            have hload : (WalOp.onStorage env st (.append e)).loadLog env = l ++ [e] := hf 0
            have hfit : FitsRecord env e :=
              loadLoop_fits _ _ _ _ e (by
                rw [RaftStorage.loadLog] at hload
                rw [hload]
                simp)
            cases cut with
            | false => exact ⟨rfl, hfit, (ih (h.append hfit)).mp hf⟩
            | true =>
                rw [h.append_lost e] at hload
                simp at hload
          · rintro ⟨rfl, hfit, hrest⟩
            exact ⟨h.loadLog, (ih (h.append hfit)).mpr hrest⟩
      | truncate k =>
          have hrest := ih (h.truncate k)
          exact ⟨fun hf => hrest.mp hf.2, fun hf => ⟨h.loadLog, hrest.mpr hf⟩⟩
      | boot =>
          have hboot := h.boot
          simp only [AppendsInSync, WalOp.onList]
          cases hb : firstBroken env l zeroHash zeroHash with
          | none =>
              rw [hb] at hboot
              dsimp only at hboot ⊢
              rw [ih hboot]
              exact ⟨fun hf => hf.2, fun hf => ⟨h.loadLog, hf⟩⟩
          | some n =>
              rw [hb] at hboot
              dsimp only at hboot ⊢
              rw [ih hboot]
              exact ⟨fun hf => hf.2, fun hf => ⟨h.loadLog, hf⟩⟩

/-- **The WAL is the list exactly when appends are in sync.** From a fresh directory, `load_log` returns the
in-memory list after every operation if and only if no append follows a dropped suffix without a boot in
between and every appended entry fits the length field. -/
theorem wal_fidelity_iff_appends_in_sync (env : Env) (ops : List WalOp) :
    Faithful env freshStorage [] ops ↔ AppendsInSync env [] false ops :=
  faithful_iff env ops (shows_fresh env)

/-- An entry with the given data and nothing else. -/
def plainEntry (data : String) : LogEntry :=
  { term := 1, data := data, signature := "", voterId := "", cumulativeHash := "", poseidonHash := "",
    zkProof := [], index := 0 }

/-- **The entry appended after a truncation is lost.** Two appends, a truncation to one entry, a third
append: the list is `[a, c]`, the file still shows `[a]`. -/
theorem wal_loses_append_after_truncation :
    ¬ ∀ (env : Env) (ops : List WalOp), (ops.foldl (WalOp.onStorage env) freshStorage).loadLog env
      = ops.foldl (WalOp.onList env) [] := by
  intro hall
  let env : Env :=
    { sha256 := id, crc32 := fun _ => 0, zk := false, poseidon := fun _ _ _ _ => zeroHash,
      snapshotPoseidon := fun _ _ => zeroHash, codec := Borsh.entryCodec, signRaw := fun _ _ => none,
      verifyRaw := fun _ _ _ => true, payloadText := fun _ => "", machineReply := fun _ => "" }
  have h := hall env [.append (plainEntry "a"), .append (plainEntry "b"), .truncate 1,
    .append (plainEntry "c")]
  revert h
  decide +kernel

end WarmLogic.Consensus
