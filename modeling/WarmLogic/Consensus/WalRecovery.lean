/-
# WarmLogic.Consensus.WalRecovery — the three scanners of the WAL on a file of any bytes, and recovery between them.

`try_new` jumps from length to length, `verify_wal_integrity` checks every record and its place in the hash chain,
`load_log` decodes what it can. They stop for different reasons, and on a broken file they stop at different places.
The record at a cursor says what all three agree on: it has a length, a right checksum and an entry that continues the
chain. `Records` strings such records together, from the start of the file and the initial hashes; there is one longest
string, the verifier reports its end as the offset, and on the file cut there the three scanners agree.

The three do not agree on every file. The scan of `try_new` follows the lengths and asks for nothing else, so it may
run past a record with a wrong checksum; `load_log` skips a record that does not decode and goes on behind it; and the
verifier stops at the first record that breaks the chain. A record in the sense of this module satisfies all of them,
so as long as records follow one another the three stand at the same position.

Nothing is assumed of the file: not that it was written by this program, nor that its length is a sum of records. The
fuel of each loop is the number of bytes, and a record takes nine of them at least, so no loop runs out of it
(`RecordAt.pos_lt`).
-/
import WarmLogic.Consensus.WalAcceptance

namespace WarmLogic.Consensus

open WarmLogic.Lib

/-! ## Records of a file -/

/-- Where the verifier stands: the position in the file and the two hashes the next entry refers to. -/
structure Cursor where
  pos : Nat
  lastSha : String
  lastPos : String

/-- The start of the file, with the initial hashes. -/
def Cursor.start : Cursor := ⟨0, zeroHash, zeroHash⟩

/-- **A record at `c`**, and the cursor behind it: the length is there and not zero, checksum and bytes are there and
fit, the bytes are an entry, and the entry continues the hash chain. -/
structure RecordAt (env : Env) (f : ByteFile) (c : Cursor) (entry : LogEntry) (next : Cursor) : Prop where
  bytes : ∃ lenBuf crcBuf buf, f.read c.pos 4 = some lenBuf ∧ ofLeBytes lenBuf ≠ 0 ∧
    f.read (c.pos + 4) 4 = some crcBuf ∧ f.read (c.pos + 8) (ofLeBytes lenBuf) = some buf ∧
    (env.crc32 buf).toNat = ofLeBytes crcBuf ∧ env.codec.decode buf = some entry ∧
    next.pos = c.pos + 8 + ofLeBytes lenBuf
  link : env.sha256 (linkText entry entry.index.toNat c.lastSha) = entry.cumulativeHash
  moves : ¬ Stuck c.lastPos entry
  lastSha : next.lastSha = entry.cumulativeHash
  lastPos : next.lastPos = entry.poseidonHash

/-- **The records from `c` on**, one behind the other, with their entries and the cursor behind the last. A cursor
carries the hashes as well as the position, so a string of records is a hash chain by construction. -/
inductive Records (env : Env) (f : ByteFile) : Cursor → List LogEntry → Cursor → Prop
  | nil (c : Cursor) : Records env f c [] c
  | cons {c next stop : Cursor} {entry : LogEntry} {entries : List LogEntry} :
      RecordAt env f c entry next → Records env f next entries stop → Records env f c (entry :: entries) stop

/-- Nothing more: no record stands at `c`. -/
def Stops (env : Env) (f : ByteFile) (c : Cursor) : Prop := ∀ entry next, ¬ RecordAt env f c entry next

variable {env : Env} {f : ByteFile} {c next stop : Cursor} {entry : LogEntry} {entries : List LogEntry}

theorem RecordAt.unique {entry' : LogEntry} {next' : Cursor} (h : RecordAt env f c entry next)
    (h' : RecordAt env f c entry' next') : entry = entry' ∧ next = next' := by
  obtain ⟨lenBuf, crcBuf, buf, hlen, -, -, hbuf, -, hentry, hpos⟩ := h.bytes
  obtain ⟨lenBuf', crcBuf', buf', hlen', -, -, hbuf', -, hentry', hpos'⟩ := h'.bytes
  rw [hlen] at hlen'
  cases hlen'
  rw [hbuf] at hbuf'
  cases hbuf'
  rw [hentry] at hentry'
  cases hentry'
  refine ⟨rfl, ?_⟩
  obtain ⟨pos, lastSha, lastPos⟩ := next
  obtain ⟨pos', lastSha', lastPos'⟩ := next'
  cases hpos.trans hpos'.symm
  cases h.lastSha.trans h'.lastSha.symm
  cases h.lastPos.trans h'.lastPos.symm
  rfl

/-- A record takes nine bytes at least. -/
theorem RecordAt.pos_lt (h : RecordAt env f c entry next) : c.pos + 9 ≤ next.pos := by
  obtain ⟨lenBuf, crcBuf, buf, -, hne, -, -, -, -, hpos⟩ := h.bytes
  omega

theorem RecordAt.pos_le_size (h : RecordAt env f c entry next) : next.pos ≤ f.size := by
  obtain ⟨lenBuf, crcBuf, buf, -, -, -, hbuf, -, -, hpos⟩ := h.bytes
  rw [hpos]
  exact ByteFile.le_size_of_read hbuf

theorem Records.pos_le (h : Records env f c entries stop) : c.pos ≤ stop.pos := by
  induction h with
  | nil c => exact Nat.le_refl _
  | cons hrec _ ih => exact le_trans (by have := hrec.pos_lt; omega) ih

theorem Records.stop_le_size (h : Records env f c entries stop) (hc : c.pos ≤ f.size) : stop.pos ≤ f.size := by
  induction h with
  | nil c => exact hc
  | cons hrec _ ih => exact ih hrec.pos_le_size

/-- **The longest string of records is one**: every other from the same cursor is a front part of one that stops. -/
theorem Records.prefix_of_stops {entries' : List LogEntry} {stop' : Cursor} (h : Records env f c entries stop)
    (hstops : Stops env f stop) (h' : Records env f c entries' stop') :
    entries' <+: entries ∧ stop'.pos ≤ stop.pos := by
  induction h generalizing entries' with
  | nil c =>
      cases h' with
      | nil => exact ⟨List.prefix_refl _, Nat.le_refl _⟩
      | cons hrec _ => exact absurd hrec (hstops _ _)
  | cons hrec hrest ih =>
      cases h' with
      | nil => exact ⟨List.nil_prefix, (Records.cons hrec hrest).pos_le⟩
      | cons hrec' hrest' =>
          obtain ⟨rfl, rfl⟩ := hrec.unique hrec'
          obtain ⟨hpre, hle⟩ := ih hstops hrest'
          exact ⟨(List.prefix_cons_inj _).mpr hpre, hle⟩

/-- At the end of the log no record stands. -/
theorem stops_of_endsAt (h : EndsAt f c.pos) : Stops env f c := by
  intro entry next hrec
  obtain ⟨lenBuf, crcBuf, buf, hlen, hne, -⟩ := hrec.bytes
  rcases h with hend | ⟨bs, hbs, hz⟩
  · rw [hend] at hlen
    cases hlen
  · rw [hbs] at hlen
    cases hlen
    exact hne hz

/-! ## One turn of each scanner -/

theorem RaftStorage.verifyLoop_of_endsAt (h : EndsAt f c.pos) (fuel : Nat) :
    RaftStorage.verifyLoop env f fuel c.pos c.lastSha c.lastPos = none := by
  cases fuel with
  | zero => rfl
  | succ fuel =>
      rcases h with hend | ⟨bs, hbs, hz⟩
      · simp only [RaftStorage.verifyLoop, hend]
      · simp only [RaftStorage.verifyLoop, hbs, hz, if_true]

theorem RaftStorage.verifyLoop_of_record (h : RecordAt env f c entry next) (fuel : Nat) :
    RaftStorage.verifyLoop env f (fuel + 1) c.pos c.lastSha c.lastPos =
      RaftStorage.verifyLoop env f fuel next.pos next.lastSha next.lastPos := by
  obtain ⟨lenBuf, crcBuf, buf, hlen, hne, hcrcBuf, hbuf, hcrc, hentry, hpos⟩ := h.bytes
  have hlink : env.sha256 (toString entry.term ++ ":" ++ toString entry.index ++ ":" ++ entry.data ++ ":" ++ c.lastSha) =
      entry.cumulativeHash := h.link
  have hmoves : ¬ (entry.poseidonHash ≠ "" ∧ c.lastPos ≠ zeroHash ∧ entry.poseidonHash = c.lastPos) := h.moves
  simp only [RaftStorage.verifyLoop, hlen, if_neg hne, hcrcBuf, hbuf, hcrc, hentry, hlink, if_neg hmoves, ne_eq,
    not_true_eq_false, if_false]
  rw [hpos, h.lastSha, h.lastPos]

/-- The verifier gives up where the log does not end and no record stands. -/
theorem RaftStorage.verifyLoop_of_broken (hend : ¬ EndsAt f c.pos) (hstops : Stops env f c) (fuel : Nat) :
    RaftStorage.verifyLoop env f (fuel + 1) c.pos c.lastSha c.lastPos = some c.pos := by
  cases hlen : f.read c.pos 4 with
  | none => exact absurd (.inl hlen) hend
  | some lenBuf =>
      by_cases hz : ofLeBytes lenBuf = 0
      · exact absurd (.inr ⟨lenBuf, hlen, hz⟩) hend
      simp only [RaftStorage.verifyLoop, hlen, if_neg hz]
      cases hcrcBuf : f.read (c.pos + 4) 4 with
      | none => rfl
      | some crcBuf =>
          cases hbuf : f.read (c.pos + 8) (ofLeBytes lenBuf) with
          | none => rfl
          | some buf =>
              dsimp only
              split
              · rfl
              rename_i hcrc
              cases hentry : env.codec.decode buf with
              | none => rfl
              | some entry =>
                  dsimp only
                  split
                  · rfl
                  rename_i hlink
                  split
                  · rfl
                  rename_i hmoves
                  -- everything fits, so a record does stand here
                  exact absurd
                    ⟨⟨lenBuf, crcBuf, buf, hlen, hz, hcrcBuf, hbuf, not_not.mp hcrc, hentry, rfl⟩, not_not.mp hlink,
                      hmoves, rfl, rfl⟩
                    (hstops entry ⟨c.pos + 8 + ofLeBytes lenBuf, entry.cumulativeHash, entry.poseidonHash⟩)

theorem RaftStorage.loadLoop_of_record (h : RecordAt env f c entry next) (fuel : Nat) :
    RaftStorage.loadLoop env f (fuel + 1) c.pos = entry :: RaftStorage.loadLoop env f fuel next.pos := by
  obtain ⟨lenBuf, crcBuf, buf, hlen, hne, hcrcBuf, hbuf, -, hentry, hpos⟩ := h.bytes
  simp only [RaftStorage.loadLoop, hlen, if_neg hne, hcrcBuf, hbuf, hentry, hpos]

theorem RaftStorage.scanLoop_of_record (h : RecordAt env f c entry next) (fuel : Nat) :
    RaftStorage.scanLoop f (fuel + 1) c.pos c.pos = RaftStorage.scanLoop f fuel next.pos next.pos := by
  obtain ⟨lenBuf, crcBuf, buf, hlen, hne, -, -, -, -, hpos⟩ := h.bytes
  have hjump : c.pos + 4 + (4 + ofLeBytes lenBuf) = next.pos := by omega
  simp only [RaftStorage.scanLoop, hlen, if_neg hne, hjump]

theorem RaftStorage.loadLoop_of_endsAt {pos : Nat} (h : EndsAt f pos) (fuel : Nat) :
    RaftStorage.loadLoop env f fuel pos = [] := by
  cases fuel with
  | zero => rfl
  | succ fuel =>
      rcases h with hend | ⟨bs, hbs, hz⟩
      · simp only [RaftStorage.loadLoop, hend]
      · simp only [RaftStorage.loadLoop, hbs, hz, if_true]

theorem RaftStorage.scanLoop_of_endsAt {pos : Nat} (h : EndsAt f pos) (fuel offset : Nat) :
    RaftStorage.scanLoop f fuel pos offset = offset := by
  cases fuel with
  | zero => rfl
  | succ fuel =>
      rcases h with hend | ⟨bs, hbs, hz⟩
      · simp only [RaftStorage.scanLoop, hend]
      · simp only [RaftStorage.scanLoop, hbs, hz, if_true]

/-! ## The scanners on a whole file -/

/-- **Records up to the end of the log**: verified, loaded and scanned alike. The fuel is counted in bytes: a turn
takes nine of them. -/
theorem Records.scanned (h : Records env f c entries stop) (hend : EndsAt f stop.pos) :
    ∀ fuel, f.size < c.pos + fuel →
      RaftStorage.verifyLoop env f fuel c.pos c.lastSha c.lastPos = none ∧
        RaftStorage.loadLoop env f fuel c.pos = entries ∧ RaftStorage.scanLoop f fuel c.pos c.pos = stop.pos := by
  induction h with
  | nil c =>
      intro fuel _
      exact ⟨RaftStorage.verifyLoop_of_endsAt hend fuel, RaftStorage.loadLoop_of_endsAt hend fuel,
        RaftStorage.scanLoop_of_endsAt hend fuel _⟩
  | cons hrec _ ih =>
      intro fuel hfuel
      have hlt := hrec.pos_lt
      have hle := hrec.pos_le_size
      obtain ⟨fuel, rfl⟩ := Nat.exists_eq_succ_of_ne_zero (show fuel ≠ 0 by omega)
      obtain ⟨hverify, hload, hscan⟩ := ih hend fuel (by omega)
      rw [Nat.succ_eq_add_one, RaftStorage.verifyLoop_of_record hrec, RaftStorage.loadLoop_of_record hrec,
        RaftStorage.scanLoop_of_record hrec, hload]
      exact ⟨hverify, rfl, hscan⟩

/-- **What the verifier has walked over**: records from its cursor to the end of the log, or to the offset it reports,
where none stands. -/
theorem RaftStorage.verifyLoop_records (env : Env) (f : ByteFile) :
    ∀ (fuel : Nat) (c : Cursor), f.size < c.pos + fuel →
      ∃ entries stop, Records env f c entries stop ∧ Stops env f stop ∧
        match RaftStorage.verifyLoop env f fuel c.pos c.lastSha c.lastPos with
        | none => EndsAt f stop.pos
        | some offset => stop.pos = offset := by
  intro fuel
  induction fuel with
  | zero =>
      intro c hfuel
      have hend : EndsAt f c.pos := .inl (by unfold ByteFile.read; exact if_neg (by omega))
      exact ⟨[], c, .nil c, stops_of_endsAt hend, hend⟩
  | succ fuel ih =>
      intro c hfuel
      by_cases hend : EndsAt f c.pos
      · refine ⟨[], c, .nil c, stops_of_endsAt hend, ?_⟩
        rw [RaftStorage.verifyLoop_of_endsAt hend]
        exact hend
      by_cases hrec : ∃ entry next, RecordAt env f c entry next
      · obtain ⟨entry, next, hrec⟩ := hrec
        have hlt := hrec.pos_lt
        obtain ⟨entries, stop, hrest, hstops, hmatch⟩ := ih next (by omega)
        refine ⟨entry :: entries, stop, .cons hrec hrest, hstops, ?_⟩
        rw [RaftStorage.verifyLoop_of_record hrec]
        exact hmatch
      · have hstops : Stops env f c := fun entry next h => hrec ⟨entry, next, h⟩
        refine ⟨[], c, .nil c, hstops, ?_⟩
        rw [RaftStorage.verifyLoop_of_broken hend hstops]

/-! ## Recovery -/

theorem RecordAt.setLen {n : Nat} (h : RecordAt env f c entry next) (hnext : next.pos ≤ n) (hn : n ≤ f.size) :
    RecordAt env (f.setLen n) c entry next := by
  obtain ⟨lenBuf, crcBuf, buf, hlen, hne, hcrcBuf, hbuf, hcrc, hentry, hpos⟩ := h.bytes
  refine ⟨⟨lenBuf, crcBuf, buf, ?_, hne, ?_, ?_, hcrc, hentry, hpos⟩, h.link, h.moves, h.lastSha, h.lastPos⟩
  · rw [ByteFile.read_setLen hn (by omega), hlen]
  · rw [ByteFile.read_setLen hn (by omega), hcrcBuf]
  · rw [ByteFile.read_setLen hn (by omega), hbuf]

theorem Records.setLen {n : Nat} (h : Records env f c entries stop) (hstop : stop.pos ≤ n) (hn : n ≤ f.size) :
    Records env (f.setLen n) c entries stop := by
  induction h with
  | nil c => exact .nil c
  | cons hrec hrest ih => exact .cons (hrec.setLen (le_trans hrest.pos_le hstop) hn) (ih hstop)

/-- A file ends where it was cut. -/
theorem endsAt_setLen (f : ByteFile) (n : Nat) : EndsAt (f.setLen n) n := by
  refine .inl ?_
  unfold ByteFile.read
  exact if_neg (by show ¬ n + 4 ≤ n; omega)

/-- **Recovery keeps the longest valid prefix.** If `verify_wal_integrity` reports an offset, the records up to it form
the longest valid chain of the file, and on the file cut there the verifier passes, `load_log` returns exactly their
entries and a reopened worker goes on at the offset. If it reports none, the records up to the end of the log are the
longest valid chain, and `load_log` returns the entries of all of them. -/
theorem recovery_keeps_longest_valid_prefix (env : Env) (st : RaftStorage) :
    (∀ offset, st.verifyWalIntegrity env = some offset →
      ∃ entries stop, Records env st.wal .start entries stop ∧ stop.pos = offset ∧
        (∀ entries' stop', Records env st.wal .start entries' stop' → entries' <+: entries ∧ stop'.pos ≤ offset) ∧
        (st.recoverFromCorruption offset).verifyWalIntegrity env = none ∧
        (st.recoverFromCorruption offset).loadLog env = entries ∧
        RaftStorage.scanOffset (st.recoverFromCorruption offset).wal = offset) ∧
    (st.verifyWalIntegrity env = none →
      ∃ stop, Records env st.wal .start (st.loadLog env) stop ∧ EndsAt st.wal stop.pos ∧
        (∀ entries' stop', Records env st.wal .start entries' stop' → entries' <+: st.loadLog env ∧ stop'.pos ≤ stop.pos) ∧
        RaftStorage.scanOffset st.wal = stop.pos) := by
  obtain ⟨entries, stop, hrecords, hstops, hmatch⟩ :=
    RaftStorage.verifyLoop_records env st.wal (st.wal.size + 1) .start (by simp [Cursor.start])
  have hlongest : ∀ entries' stop', Records env st.wal .start entries' stop' →
      entries' <+: entries ∧ stop'.pos ≤ stop.pos :=
    fun _ _ h' => hrecords.prefix_of_stops hstops h'
  constructor
  · intro offset hverify
    have hverify : RaftStorage.verifyLoop env st.wal (st.wal.size + 1) Cursor.start.pos Cursor.start.lastSha
        Cursor.start.lastPos = some offset := hverify
    rw [hverify] at hmatch
    obtain rfl : stop.pos = offset := hmatch
    have hsize : stop.pos ≤ st.wal.size := hrecords.stop_le_size (Nat.zero_le _)
    -- the chain up to the cut is untouched, and the file ends there
    obtain ⟨hpass, hload, hscan⟩ := (hrecords.setLen (Nat.le_refl _) hsize).scanned (endsAt_setLen st.wal stop.pos)
      (stop.pos + 1) (by show stop.pos < 0 + (stop.pos + 1); omega)
    exact ⟨entries, stop, hrecords, rfl, hlongest, hpass, hload, hscan⟩
  · intro hverify
    have hverify : RaftStorage.verifyLoop env st.wal (st.wal.size + 1) Cursor.start.pos Cursor.start.lastSha
        Cursor.start.lastPos = none := hverify
    rw [hverify] at hmatch
    obtain ⟨-, hload, hscan⟩ := hrecords.scanned hmatch (st.wal.size + 1)
      (by show st.wal.size < 0 + (st.wal.size + 1); omega)
    have hload : st.loadLog env = entries := hload
    rw [hload]
    exact ⟨stop, hrecords, hmatch, hlongest, hscan⟩

end WarmLogic.Consensus
