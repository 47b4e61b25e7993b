/-
# WarmLogic.Consensus.WalAcceptance — what a follower accepts against what the next boot accepts.

Two checkers of one hash chain. `handle_append_entries` hashes every received entry with its POSITION in the log,
`verify_wal_integrity` hashes every record with the entry's own `index` field, and no one compares the two. The boot
also refuses a Poseidon hash that repeats the one before it, which an AppendEntries of a build without `zk` never
looks at. The first part below says which logs, written to a WAL, pass the boot, for every log (an entry that does not
serialize is skipped, a record of a multiple of 2^32 bytes ends the log); the second compares that with what an
accepted payload satisfies already.

What the boot makes of a log is defined on the list (`BootPasses`): entry by entry, the text with the entry's own
index, and the Poseidon hash against the one before it. That the loop over the file computes the same is one half of
the work (`verifyLoop_written`); it includes the records that are too long for their length field, of which the field
keeps the remainder, so that the reader takes a front part of the bytes for an entry and, by the codec laws, decodes
nothing.

The other half compares the two checks on a payload that was accepted. Both hash the same text but for the index, so
on such a payload the boot asks exactly that the text with the entry's field and the text with its position have one
hash (`IndexAgrees`); `BootReady` is the same without a hash, for entries that name their positions.
-/
import WarmLogic.Consensus.Cluster
import WarmLogic.Consensus.RaftPersistence
import WarmLogic.Consensus.WalFidelity

namespace WarmLogic.Consensus

open WarmLogic.Lib

/-! ## Which logs pass the boot -/

/-- The text whose hash links an entry at `index` to the hash `last` before it. -/
def linkText (x : LogEntry) (index : Nat) (last : String) : String :=
  toString x.term ++ ":" ++ toString index ++ ":" ++ x.data ++ ":" ++ last

/-- The Poseidon hash is there, repeats the one before it, and that one is not the initial one. -/
def Stuck (lastPos : String) (x : LogEntry) : Prop :=
  x.poseidonHash ≠ "" ∧ lastPos ≠ zeroHash ∧ x.poseidonHash = lastPos

instance (lastPos : String) (x : LogEntry) : Decidable (Stuck lastPos x) :=
  inferInstanceAs (Decidable (_ ∧ _ ∧ _))

/-- **The logs that pass `verify_wal_integrity` once written.** The two hashes are those the next entry has to refer
to; an entry that does not serialize leaves no record and does not move them. -/
def BootPasses (env : Env) : List LogEntry → String → String → Prop
  | [], _, _ => True
  | x :: l, lastSha, lastPos => match env.codec.encode x with
    -- the worker skips it
    | none => BootPasses env l lastSha lastPos
    | some bytes =>
        -- its length field reads zero, which ends the log
        bytes.length % 2 ^ 32 = 0 ∨
          bytes.length < 2 ^ 32 ∧ env.sha256 (linkText x x.index.toNat lastSha) = x.cumulativeHash ∧
            ¬ Stuck lastPos x ∧ BootPasses env l x.cumulativeHash x.poseidonHash

/-- The WAL holds the records of `l` and nothing behind them, where the worker will go on. A command of the worker
keeps it: the next record is written at the offset, which is the end of the image. -/
structure Written (env : Env) (st : RaftStorage) (l : List LogEntry) : Prop where
  holds : st.wal.Holds 0 (image env l)
  zeros : st.wal.ZeroFrom (image env l).length
  offset : st.currentOffset = (image env l).length

/-- One record more. -/
theorem Written.append {env : Env} {st : RaftStorage} {l : List LogEntry} (h : Written env st l) (x : LogEntry) :
    Written env (RaftStorage.work env st (.append x)) (l ++ [x]) := by
  have himg : image env (l ++ [x]) = image env l ++ recordOf env x := by
    rw [image_append, image_cons, image_nil, List.append_nil]
  cases henc : env.codec.encode x with
  | none =>
      have hrec : recordOf env x = [] := by rw [recordOf, henc]
      have hwork : RaftStorage.work env st (.append x) = st := by simp only [RaftStorage.work, henc]
      rw [hrec, List.append_nil] at himg
      rw [hwork]
      exact ⟨himg ▸ h.holds, himg ▸ h.zeros, himg ▸ h.offset⟩
  | some bytes =>
      have hrec : recordOf env x = walRecord env bytes := by rw [recordOf, henc]
      have hwork : RaftStorage.work env st (.append x) = { st with
          wal := st.wal.write (image env l).length (walRecord env bytes)
          currentOffset := (image env l).length + (walRecord env bytes).length } := by
        simp only [RaftStorage.work, henc, h.offset]
      rw [hrec] at himg
      rw [hwork]
      refine ⟨?_, ?_, ?_⟩
      · rw [himg, ByteFile.holds_append, Nat.zero_add]
        exact ⟨h.holds.write (by omega), ByteFile.holds_write _ _ _⟩
      · rw [himg, List.length_append]
        exact h.zeros.write (by omega)
      · rw [himg, List.length_append]

/-- The WAL obtained by writing a log: every entry through `append_log`, in a fresh directory, and a flush. -/
def writeLog (env : Env) (log : List LogEntry) : RaftStorage :=
  (log.foldl RaftStorage.appendLog freshStorage).flush env

/-- A fresh file has none. -/
theorem written_fresh (env : Env) : Written env freshStorage [] :=
  ⟨(shows_fresh env).holds, (shows_fresh env).zeros, (shows_fresh env).offset⟩

/-- Whatever the worker handles, the WAL grows by the entries of the `Append` commands. -/
theorem Written.foldl {env : Env} {st : RaftStorage} {l : List LogEntry} (h : Written env st l)
    (cmds : List StorageCommand) :
    Written env (cmds.foldl (RaftStorage.work env) st) (l ++ appendsOf cmds) := by
  induction cmds generalizing st l with
  | nil =>
      rw [show appendsOf [] = [] from rfl, List.append_nil]
      exact h
  | cons cmd cmds ih =>
      rw [List.foldl_cons]
      cases cmd with
      | append x =>
          have hrest := ih (h.append x)
          rw [List.append_assoc] at hrest
          exact hrest
      | saveMeta term votedFor peers => exact ih ⟨h.holds, h.zeros, h.offset⟩
      | snapshot snap => exact ih ⟨h.holds, h.zeros, h.offset⟩

/-- A file that is written anew has those of its log. -/
theorem written_writeLog (env : Env) (log : List LogEntry) : Written env (writeLog env log) log := by
  have hqueue : log.foldl RaftStorage.appendLog freshStorage = freshStorage.enqueue (log.map .append) :=
    RaftStorage.foldl_appendLog log freshStorage
  have hloop := (written_fresh env).foldl (log.map .append)
  rw [appendsOf_map_append, List.nil_append] at hloop
  unfold writeLog RaftStorage.flush
  rw [hqueue]
  exact hloop

/-! ## The verification loop on a written WAL -/

/-- A proper front part of an encoding decodes to nothing. -/
theorem decode_take {env : Env} {x : LogEntry} {bytes : List UInt8} (h : env.codec.encode x = some bytes) {n : Nat}
    (hn : n < bytes.length) : env.codec.decode (bytes.take n) = none := by
  cases ht : env.codec.decode (bytes.take n) with
  | none => rfl
  | some y =>
      rw [← List.take_append_drop n bytes] at h
      have hdrop := env.codec.eq_nil_of_append (env.codec.decode_eq_some.mp ht) h
      have hlen := congrArg List.length hdrop
      rw [List.length_drop, List.length_nil] at hlen
      omega

/-- What a file that holds a record answers to a read of a front part of its bytes. -/
theorem read_take_of_holds {env : Env} {f : ByteFile} {pos : Nat} {bytes : List UInt8}
    (h : f.Holds pos (walRecord env bytes)) {n : Nat} (hn : n ≤ bytes.length) :
    f.read (pos + 8) n = some (bytes.take n) := by
  rw [walRecord, ByteFile.holds_append, ByteFile.holds_append] at h
  obtain ⟨-, -, h⟩ := h
  simp only [length_leBytes] at h
  have hsplit := h
  rw [← List.take_append_drop n bytes, ByteFile.holds_append] at hsplit
  have hread := hsplit.1.read
  rw [List.length_take_of_le hn] at hread
  exact hread

/-- A record longer than its length field can say: the field is cut to 32 bits, and the front part it announces does
not decode. -/
theorem verifyLoop_cut_length {env : Env} {f : ByteFile} {pos : Nat} {x : LogEntry} {bytes : List UInt8}
    (henc : env.codec.encode x = some bytes) (hz : bytes.length % 2 ^ 32 ≠ 0) (hlong : ¬ bytes.length < 2 ^ 32)
    (h : f.Holds pos (walRecord env bytes)) (fuel : Nat) (lastSha lastPos : String) :
    RaftStorage.verifyLoop env f (fuel + 1) pos lastSha lastPos = some pos := by
  obtain ⟨r1, r2, -⟩ := reads_of_holds h
  have hlen : ofLeBytes (leBytes 4 bytes.length) = bytes.length % 2 ^ 32 := by
    rw [ofLeBytes_leBytes]
    norm_num
  have hpre := decode_take henc (show bytes.length % 2 ^ 32 < bytes.length by
    have := Nat.mod_lt bytes.length (show 0 < 2 ^ 32 by decide)
    omega)
  have r3 := read_take_of_holds h (Nat.mod_le bytes.length (2 ^ 32))
  simp only [RaftStorage.verifyLoop, r1, r2, hlen, r3, if_neg hz, hpre]
  split <;> rfl

/-- The turn at one record passes exactly if the boot passes there and behind it. -/
theorem verifyLoop_bytes {env : Env} {f : ByteFile} {pos fuel : Nat} {x : LogEntry} {bytes : List UInt8}
    {lastSha lastPos : String} {Rest : Prop} (henc : env.codec.encode x = some bytes)
    (h : f.Holds pos (walRecord env bytes))
    (hrest : RaftStorage.verifyLoop env f fuel (pos + 8 + bytes.length) x.cumulativeHash x.poseidonHash = none ↔ Rest) :
    RaftStorage.verifyLoop env f (fuel + 1) pos lastSha lastPos = none ↔
      bytes.length % 2 ^ 32 = 0 ∨ bytes.length < 2 ^ 32 ∧
        env.sha256 (linkText x x.index.toNat lastSha) = x.cumulativeHash ∧ ¬ Stuck lastPos x ∧ Rest := by
  by_cases hz : bytes.length % 2 ^ 32 = 0
  · -- a zero length field
    have hlen : ofLeBytes (leBytes 4 bytes.length) = 0 := by
      rw [ofLeBytes_leBytes, ← hz]
      norm_num
    simp only [RaftStorage.verifyLoop, (reads_of_holds h).1, hlen, hz, if_true, true_or]
  · by_cases hlt : bytes.length < 2 ^ 32
    · have hpos : 0 < bytes.length := by
        rw [Nat.mod_eq_of_lt hlt] at hz
        omega
      have hturn : RaftStorage.verifyLoop env f (fuel + 1) pos lastSha lastPos =
          if env.sha256 (linkText x x.index.toNat lastSha) ≠ x.cumulativeHash then some pos
          else if Stuck lastPos x then some pos
          else RaftStorage.verifyLoop env f fuel (pos + 8 + bytes.length) x.cumulativeHash x.poseidonHash :=
        verifyLoop_record henc (ofLeBytes_leBytes_of_lt (by simpa using hlt)) hpos h fuel lastSha lastPos
      rw [hturn]
      by_cases hsha : env.sha256 (linkText x x.index.toNat lastSha) = x.cumulativeHash
      · by_cases hstuck : Stuck lastPos x
        · simp only [hsha, hstuck, ne_eq, not_true_eq_false, if_false, if_true, reduceCtorEq, hz, false_and,
            and_false, or_self]
        · simp only [hsha, hstuck, ne_eq, not_true_eq_false, if_false, hrest, hz, hlt, not_false_eq_true,
            true_and, false_or]
      · simp only [hsha, ne_eq, not_false_eq_true, if_true, reduceCtorEq, hz, false_and, and_false, or_self]
    · rw [verifyLoop_cut_length henc hz hlt h]
      simp only [reduceCtorEq, hz, hlt, false_and, or_self]

/-- **The verification passes exactly on the logs that pass the boot.** The image bounds the turns the loop takes: a
skipped entry has no bytes and takes no turn. -/
theorem verifyLoop_written (env : Env) {f : ByteFile} {l : List LogEntry} :
    ∀ {fuel pos : Nat} {lastSha lastPos : String}, (image env l).length < fuel → f.Holds pos (image env l) →
      EndsAt f (pos + (image env l).length) →
      (RaftStorage.verifyLoop env f fuel pos lastSha lastPos = none ↔ BootPasses env l lastSha lastPos) := by
  induction l with
  | nil =>
      intro fuel pos lastSha lastPos hfuel _ hend
      obtain ⟨fuel, rfl⟩ := Nat.exists_eq_succ_of_ne_zero (show fuel ≠ 0 by omega)
      rw [image_nil, List.length_nil, Nat.add_zero] at hend
      refine ⟨fun _ => trivial, fun _ => ?_⟩
      rcases hend with hend | ⟨bs, hend, hz⟩
      · simp only [RaftStorage.verifyLoop, hend]
      · simp only [RaftStorage.verifyLoop, hend, hz, if_true]
  | cons x l ih =>
      intro fuel pos lastSha lastPos hfuel hholds hend
      unfold BootPasses
      cases henc : env.codec.encode x with
      | none =>
          have himg : image env (x :: l) = image env l := by rw [image_cons, recordOf, henc, List.nil_append]
          rw [himg] at hfuel hholds hend
          exact ih hfuel hholds hend
      | some bytes =>
          have hrec : recordOf env x = walRecord env bytes := by rw [recordOf, henc]
          rw [image_cons, hrec] at hholds
          rw [image_cons, List.length_append, hrec, length_walRecord] at hfuel hend
          rw [ByteFile.holds_append, length_walRecord] at hholds
          obtain ⟨fuel, rfl⟩ := Nat.exists_eq_succ_of_ne_zero (show fuel ≠ 0 by omega)
          have hrest : RaftStorage.verifyLoop env f fuel (pos + (8 + bytes.length)) x.cumulativeHash
              x.poseidonHash = none ↔ BootPasses env l x.cumulativeHash x.poseidonHash :=
            ih (by omega) hholds.2 (by rw [Nat.add_assoc]; exact hend)
          rw [← Nat.add_assoc] at hrest
          exact verifyLoop_bytes henc hholds.1 hrest

/-- The check passes on the file as it does on the log. -/
theorem Written.verify_iff {env : Env} {st : RaftStorage} {l : List LogEntry} (h : Written env st l) :
    st.verifyWalIntegrity env = none ↔ BootPasses env l zeroHash zeroHash := by
  have hfuel : (image env l).length < st.wal.size + 1 := by
    have := h.holds.1
    omega
  have hend : EndsAt st.wal (0 + (image env l).length) := by
    rw [Nat.zero_add]
    exact endsAt_of_zeroFrom h.zeros
  exact verifyLoop_written env hfuel h.holds hend

/-! ## Logs whose entries fit -/

/-- The hashes the next entry of the chain refers to. -/
def tipHashes (sha pos : String) (l : List LogEntry) : String × String :=
  match l.getLast? with
  | none => (sha, pos)
  | some x => (x.cumulativeHash, x.poseidonHash)

/-- The hashes at the end of a log are those of its last entry. -/
theorem tipHashes_cons (sha pos : String) (x : LogEntry) (l : List LogEntry) :
    tipHashes sha pos (x :: l) = tipHashes x.cumulativeHash x.poseidonHash l := by
  unfold tipHashes
  rw [List.getLast?_cons]
  cases l.getLast? <;> rfl

/-- The link check of the boot at one entry. -/
theorem firstBroken_cons_eq_none {env : Env} {x : LogEntry} {l : List LogEntry} {sha pos : String} :
    firstBroken env (x :: l) sha pos = none ↔
      env.sha256 (linkText x x.index.toNat sha) = x.cumulativeHash ∧ ¬ Stuck pos x ∧
        firstBroken env l x.cumulativeHash x.poseidonHash = none := by
  have hturn : firstBroken env (x :: l) sha pos
      = if env.sha256 (linkText x x.index.toNat sha) ≠ x.cumulativeHash then some 0
        else if Stuck pos x then some 0
        else (firstBroken env l x.cumulativeHash x.poseidonHash).map (· + 1) := rfl
  rw [hturn]
  by_cases hsha : env.sha256 (linkText x x.index.toNat sha) = x.cumulativeHash
  · by_cases hstuck : Stuck pos x
    · simp [hsha, hstuck]
    · simp [hsha, hstuck]
  · simp [hsha]

/-- A chain of two parts is whole if both are, the second behind the tip of the first. -/
theorem firstBroken_append {env : Env} {l es : List LogEntry} {sha pos : String} :
    firstBroken env (l ++ es) sha pos = none ↔
      firstBroken env l sha pos = none ∧
        firstBroken env es (tipHashes sha pos l).1 (tipHashes sha pos l).2 = none := by
  induction l generalizing sha pos with
  | nil => exact ⟨fun h => ⟨rfl, h⟩, fun h => h.2⟩
  | cons x l ih =>
      rw [List.cons_append, firstBroken_cons_eq_none, firstBroken_cons_eq_none, ih, tipHashes_cons]
      simp only [and_assoc]

/-- What a boot checks of an entry that fits its record. -/
theorem bootPasses_cons_of_fits {env : Env} {x : LogEntry} (hfit : FitsRecord env x) {l : List LogEntry}
    {sha pos : String} :
    BootPasses env (x :: l) sha pos ↔
      env.sha256 (linkText x x.index.toNat sha) = x.cumulativeHash ∧ ¬ Stuck pos x ∧
        BootPasses env l x.cumulativeHash x.poseidonHash := by
  obtain ⟨bytes, henc, hlt⟩ := hfit
  have hpos := env.codec.eight_le henc
  have hz : ¬ bytes.length % 2 ^ 32 = 0 := by
    rw [Nat.mod_eq_of_lt hlt]
    omega
  rw [BootPasses, henc]
  dsimp only
  constructor
  · rintro (h | ⟨-, h⟩)
    · exact absurd h hz
    · exact h
  · exact fun h => .inr ⟨hlt, h⟩

/-- Behind entries that fit, the boot goes on with their last hashes. -/
theorem bootPasses_append {env : Env} {l es : List LogEntry} (hfit : ∀ x ∈ l, FitsRecord env x) {sha pos : String} :
    BootPasses env (l ++ es) sha pos ↔
      firstBroken env l sha pos = none ∧ BootPasses env es (tipHashes sha pos l).1 (tipHashes sha pos l).2 := by
  induction l generalizing sha pos with
  | nil => exact ⟨fun h => ⟨rfl, h⟩, fun h => h.2⟩
  | cons x l ih =>
      rw [List.cons_append, firstBroken_cons_eq_none, tipHashes_cons,
        bootPasses_cons_of_fits (hfit x List.mem_cons_self), ih fun y hy => hfit y (List.mem_cons_of_mem x hy)]
      simp only [and_assoc]

/-- What a file that verifies loads is a chain. -/
theorem firstBroken_loadLoop {env : Env} {f : ByteFile} {fuel pos : Nat} {sha posHash : String}
    (h : RaftStorage.verifyLoop env f fuel pos sha posHash = none) :
    firstBroken env (RaftStorage.loadLoop env f fuel pos) sha posHash = none := by
  induction fuel generalizing pos sha posHash with
  | zero => rfl
  | succ fuel ih =>
      cases hlen : f.read pos 4 with
      | none =>
          simp only [RaftStorage.loadLoop, hlen]
          rfl
      | some lenBuf =>
          by_cases hz : ofLeBytes lenBuf = 0
          · simp only [RaftStorage.loadLoop, hlen, hz, if_true]
            rfl
          · cases hcrc : f.read (pos + 4) 4 with
            | none => simp [RaftStorage.verifyLoop, hlen, hz, hcrc] at h
            | some crcBuf =>
                cases hbuf : f.read (pos + 8) (ofLeBytes lenBuf) with
                | none => simp [RaftStorage.verifyLoop, hlen, hz, hcrc, hbuf] at h
                | some buf =>
                    cases hx : env.codec.decode buf with
                    | none => simp [RaftStorage.verifyLoop, hlen, hz, hcrc, hbuf, hx] at h
                    | some x =>
                        simp only [RaftStorage.verifyLoop, hlen, hz, hcrc, hbuf, hx, if_false] at h
                        simp only [RaftStorage.loadLoop, hlen, hz, hcrc, hbuf, hx, if_false]
                        split at h
                        · cases h
                        · split at h
                          · cases h
                          · rename_i hsha
                            split at h
                            · cases h
                            · rename_i hstuck
                              exact firstBroken_cons_eq_none.mpr ⟨not_not.mp hsha, hstuck, ih h⟩

/-! ## What an accepted payload satisfies -/

/-- **The condition on a payload**, accepted behind a log whose last hashes are `lastSha` and `lastPos`: entry for
entry, the text with the `index` field and the text with the position have one hash, and the Poseidon hash moves
on. `sha` is the hash the acceptance starts from. -/
def IndexAgrees (env : Env) : Nat → String → String → String → List LogEntry → Prop
  | _, _, _, _, [] => True
  | index, sha, lastSha, lastPos, x :: es => match env.codec.encode x with
    | none => IndexAgrees env (index + 1) x.cumulativeHash lastSha lastPos es
    | some bytes =>
        bytes.length % 2 ^ 32 = 0 ∨
          bytes.length < 2 ^ 32 ∧
            env.sha256 (linkText x x.index.toNat lastSha) = env.sha256 (linkText x index sha) ∧ ¬ Stuck lastPos x ∧
              IndexAgrees env (index + 1) x.cumulativeHash x.cumulativeHash x.poseidonHash es

/-- The condition in the payload's own terms: every entry fits a record, its `index` field is its position, and no
Poseidon hash repeats the one before it. -/
def BootReady (env : Env) : Nat → String → List LogEntry → Prop
  | _, _, [] => True
  | index, lastPos, x :: es =>
      FitsRecord env x ∧ x.index.toNat = index ∧ ¬ Stuck lastPos x ∧ BootReady env (index + 1) x.poseidonHash es

instance (env : Env) (x : LogEntry) : Decidable (FitsRecord env x) :=
  match h : env.codec.encode x with
  | none => isFalse (by rintro ⟨bytes, hx, -⟩; rw [h] at hx; cases hx)
  | some bytes => decidable_of_iff (bytes.length < 2 ^ 32)
      ⟨fun hlt => ⟨bytes, h, hlt⟩, by rintro ⟨bytes', hx, hlt⟩; rw [h] at hx; cases hx; exact hlt⟩

instance decidableBootReady (env : Env) : ∀ index lastPos es, Decidable (BootReady env index lastPos es)
  | _, _, [] => isTrue trivial
  | index, _, x :: es =>
      have := decidableBootReady env (index + 1) x.poseidonHash es
      inferInstanceAs (Decidable (_ ∧ _ ∧ _ ∧ _))

/-- What the check of an append asks of its first entry. -/
theorem verifyChain_cons {env : Env} {index : Nat} {sha pos : String} {x : LogEntry} {es : List LogEntry}
    (h : RaftEngine.verifyChain env index sha pos (x :: es) = true) :
    x.cumulativeHash = env.sha256 (linkText x index sha) ∧
      ∃ pos', RaftEngine.verifyChain env (index + 1) x.cumulativeHash pos' es = true := by
  unfold RaftEngine.verifyChain at h
  dsimp only at h
  split at h
  · cases h
  · split at h
    · cases h
    · rename_i hsha
      have heq : x.cumulativeHash = env.sha256 (linkText x index sha) := not_not.mp hsha
      refine ⟨heq, (calculateEntryHashes env x.term index x.data sha pos).2, ?_⟩
      rw [heq]
      exact h

/-- On an accepted chain the boot compares exactly the two texts of each entry. -/
theorem bootPasses_iff_indexAgrees {env : Env} {es : List LogEntry} {index : Nat}
    {sha pos lastSha lastPos : String} (h : RaftEngine.verifyChain env index sha pos es = true) :
    BootPasses env es lastSha lastPos ↔ IndexAgrees env index sha lastSha lastPos es := by
  induction es generalizing index sha pos lastSha lastPos with
  | nil => exact Iff.rfl
  | cons x es ih =>
      obtain ⟨hsha, pos', hrest⟩ := verifyChain_cons h
      rw [BootPasses, IndexAgrees]
      cases env.codec.encode x with
      | none => exact ih hrest
      | some bytes =>
          dsimp only
          rw [← hsha, ih hrest]

/-- An accepted chain of entries that are ready for the boot is a chain for the boot. -/
theorem firstBroken_of_bootReady {env : Env} {es : List LogEntry} {index : Nat} {sha pos lastPos : String}
    (h : RaftEngine.verifyChain env index sha pos es = true) (hready : BootReady env index lastPos es) :
    firstBroken env es sha lastPos = none := by
  induction es generalizing index sha pos lastPos with
  | nil => rfl
  | cons x es ih =>
      obtain ⟨-, hidx, hstuck, hready⟩ := hready
      obtain ⟨hsha, pos', hrest⟩ := verifyChain_cons h
      refine firstBroken_cons_eq_none.mpr ⟨?_, hstuck, ih hrest hready⟩
      rw [hidx, hsha]

/-- Entries that a boot can read fit their records. -/
theorem BootReady.fits {env : Env} {es : List LogEntry} {index : Nat} {lastPos : String} (h : BootReady env index lastPos es) :
    ∀ x ∈ es, FitsRecord env x := by
  induction es generalizing index lastPos with
  | nil =>
      intro x hx
      cases hx
  | cons y es ih =>
      intro x hx
      rcases List.mem_cons.mp hx with rfl | hx
      · exact h.1
      · exact ih h.2.2.2 x hx

/-- The last hash of a chain that passes the boot is a digest or the initial one. -/
theorem tipHashes_ne_empty {env : Env} (hsha : ∀ t, env.sha256 t ≠ "") {l : List LogEntry} {sha pos : String}
    (hstart : sha ≠ "") (h : firstBroken env l sha pos = none) : (tipHashes sha pos l).1 ≠ "" := by
  induction l generalizing sha pos with
  | nil => exact hstart
  | cons x l ih =>
      obtain ⟨hx, -, hl⟩ := firstBroken_cons_eq_none.mp h
      rw [tipHashes_cons]
      refine ih ?_ hl
      rw [← hx]
      exact hsha _

namespace RaftEngine

variable {env : Env} {e e' : RaftEngine}

/-- No snapshot has been taken or loaded. -/
structure SnapshotFree (e : RaftEngine) : Prop where
  index : e.lastSnapshotIndex = -1
  cumHash : e.lastSnapshotCumHash = zeroHash
  posHash : e.lastSnapshotPosHash = zeroHash

/-- The WAL behind the engine, once flushed, holds its log and passes the verification. -/
def WalVerified (env : Env) (e : RaftEngine) : Prop :=
  ∃ s ∈ e.storage, (s.flush env).loadLog env = e.log ∧ (s.flush env).verifyWalIntegrity env = none

/-- A log that verifies is a whole chain of entries that fit. -/
theorem WalVerified.chain (h : WalVerified env e) :
    (∀ x ∈ e.log, FitsRecord env x) ∧ firstBroken env e.log zeroHash zeroHash = none := by
  obtain ⟨s, -, hload, hverify⟩ := h
  rw [← hload]
  exact ⟨loadLoop_fits _ _ _ _, firstBroken_loadLoop hverify⟩

/-- A success is reported only for a payload whose term, position and hash chain fit. -/
theorem accepted_of_success {term : UInt64} {leaderId : String} {prev : Int} {pt : UInt64} {es : List LogEntry}
    {lc : Int} {r : RaftRPC} {i : Int}
    (h : e.handleAppendEntries env term leaderId prev pt (some es) lc = some (e', some r))
    (hok : r.payload = .appendResponse true i) :
    ¬ term < e.currentTerm ∧ prevMatches e.log prev pt = some true ∧
      verifyChain env (prev + 1).toNat (e.chainStart prev).1 (e.chainStart prev).2 es = true := by
  unfold handleAppendEntries at h
  split at h
  · cases h
    cases hok
  · rename_i hterm
    unfold appendAsFollower at h
    dsimp only at h
    split at h
    · cases h
    · cases h
      cases hok
    · rename_i hmatch
      split at h
      · cases h
        cases hok
      · rename_i hchain
        refine ⟨hterm, hmatch, ?_⟩
        cases es with
        | nil => rfl
        | cons x xs =>
            simp only [List.isEmpty_cons, Bool.not_false, Bool.true_and, Bool.not_eq_true', Bool.not_eq_false]
              at hchain
            exact hchain

/-- The log an accepted payload leaves behind. -/
theorem log_of_success {term : UInt64} {leaderId : String} {prev : Int} {pt : UInt64} {es : List LogEntry}
    {lc : Int} {r : RaftRPC} {i : Int}
    (h : e.handleAppendEntries env term leaderId prev pt (some es) lc = some (e', some r))
    (hok : r.payload = .appendResponse true i) :
    e'.log = if es = [] then e.log else e.log.take (prev + 1).toNat ++ es := by
  have hacc := accepted_of_success h hok
  obtain ⟨cmds, hw, happ, -⟩ := wrote_handleAppendEntries h
  have htaken : e.taken env term prev pt (some es) = es := if_pos hacc
  rw [htaken] at hw happ
  rw [hw.log, happ]
  unfold cutFor
  by_cases hnil : es = []
  · rw [if_neg (by simp [hnil]), if_pos hnil, hnil, List.append_nil]
  · rw [if_neg hnil]
    by_cases hcut : (e.log.length : Int) > prev + 1
    · rw [if_pos ⟨hnil, hcut⟩]
      rfl
    · rw [if_neg fun hc => hcut hc.2, List.take_of_length_le (by omega)]

/-- The hashes behind the first `n` entries of the log, counted from the snapshot. -/
def tipAt (e : RaftEngine) (n : Nat) : String × String :=
  tipHashes e.lastSnapshotCumHash e.lastSnapshotPosHash (e.log.take n)

/-- The hash the acceptance starts from is the last one of the log it extends, unless that is the empty text. -/
theorem chainStart_eq_tipAt {prev : Int} {pt : UInt64} (hmatch : prevMatches e.log prev pt = some true)
    (hne : (e.tipAt (prev + 1).toNat).1 ≠ "") : (e.chainStart prev).1 = (e.tipAt (prev + 1).toNat).1 := by
  unfold prevMatches at hmatch
  split at hmatch
  · -- in front of the whole log
    rename_i hneg
    have hempty : e.tipAt (prev + 1).toNat = (e.lastSnapshotCumHash, e.lastSnapshotPosHash) := by
      rw [hneg]
      rfl
    rw [hempty] at hne ⊢
    unfold chainStart
    simp only [show ¬ (0 : Int) ≤ prev by omega, if_false, Option.map_none, Option.getD_none, if_neg hne]
  · split at hmatch
    · rename_i hlt
      split at hmatch
      · cases hmatch
      · rename_i hneg hpos
        obtain ⟨x, hx⟩ : ∃ x, e.log[prev.toNat]? = some x :=
          ⟨_, List.getElem?_eq_getElem (show prev.toNat < e.log.length by omega)⟩
        have htip : (e.tipAt (prev + 1).toNat).1 = x.cumulativeHash := by
          have hlast : (e.log.take (prev + 1).toNat).getLast? = some x := by
            rw [List.getLast?_take, if_neg (by omega), show (prev + 1).toNat - 1 = prev.toNat by omega, hx]
            rfl
          unfold tipAt tipHashes
          rw [hlast]
        rw [htip] at hne ⊢
        unfold chainStart
        simp only [show (0 : Int) ≤ prev by omega, if_true, hx, Option.map_some, Option.getD_some, if_neg hne]
    · cases hmatch

/-- Without a snapshot a tip is that of the front of the log. -/
theorem SnapshotFree.tipAt (h : e.SnapshotFree) (n : Nat) :
    e.tipAt n = tipHashes zeroHash zeroHash (e.log.take n) := by
  unfold RaftEngine.tipAt
  rw [h.cumHash, h.posHash]

/-- **When acceptance and boot agree.** On an engine without a snapshot whose WAL holds its log and passes the
verification, after an accepted AppendEntries the log, written to a WAL, passes again exactly when the payload's
index fields hash like its positions and its Poseidon hashes move on; index fields that ARE the positions are
enough. -/
theorem accepted_log_passes_iff (env : Env) {e e' : RaftEngine} (hfree : e.SnapshotFree) (hwal : WalVerified env e)
    {term : UInt64} {leaderId : String} {prev : Int} {pt : UInt64} {es : List LogEntry} {lc : Int} {r : RaftRPC}
    {i : Int} (hcall : e.handleAppendEntries env term leaderId prev pt (some es) lc = some (e', some r))
    (hok : r.payload = .appendResponse true i) :
    ((writeLog env e'.log).verifyWalIntegrity env = none ↔
        IndexAgrees env (prev + 1).toNat (e.chainStart prev).1 (e.tipAt (prev + 1).toNat).1
          (e.tipAt (prev + 1).toNat).2 es) ∧
      ((∀ t, env.sha256 t ≠ "") → BootReady env (prev + 1).toNat (e.tipAt (prev + 1).toNat).2 es →
        (writeLog env e'.log).verifyWalIntegrity env = none) := by
  obtain ⟨hfit, hchain⟩ := hwal.chain
  have htip := hfree.tipAt (prev + 1).toNat
  obtain ⟨-, hmatch, haccept⟩ := accepted_of_success hcall hok
  have hkept : (∀ x ∈ e.log.take (prev + 1).toNat, FitsRecord env x) ∧
      firstBroken env (e.log.take (prev + 1).toNat) zeroHash zeroHash = none := by
    refine ⟨fun x hx => hfit x (List.mem_of_mem_take hx), ?_⟩
    rw [← List.take_append_drop (prev + 1).toNat e.log, firstBroken_append] at hchain
    exact hchain.1
  -- with an empty payload the log is the old one, which passes
  have hpasses : (writeLog env e'.log).verifyWalIntegrity env = none ↔
      BootPasses env es (e.tipAt (prev + 1).toNat).1 (e.tipAt (prev + 1).toNat).2 := by
    rw [(written_writeLog env e'.log).verify_iff, log_of_success hcall hok, htip]
    by_cases hnil : es = []
    · rw [if_pos hnil, hnil]
      refine ⟨fun _ => trivial, fun _ => ?_⟩
      rw [← List.append_nil e.log]
      exact (bootPasses_append hfit).mpr ⟨hchain, trivial⟩
    · rw [if_neg hnil, bootPasses_append hkept.1]
      exact ⟨fun h => h.2, fun h => ⟨hkept.2, h⟩⟩
  refine ⟨hpasses.trans (bootPasses_iff_indexAgrees haccept), ?_⟩
  intro hsha hready
  have hne : (e.tipAt (prev + 1).toNat).1 ≠ "" := by
    rw [htip]
    exact tipHashes_ne_empty hsha (by decide) hkept.2
  rw [chainStart_eq_tipAt hmatch hne] at haccept
  rw [hpasses, ← List.append_nil es]
  exact (bootPasses_append hready.fits).mpr ⟨firstBroken_of_bootReady haccept hready, trivial⟩

/-- Its hashes are not empty. -/
theorem scriptEnv_sha256_ne (t : String) : scriptEnv.sha256 t ≠ "" := by
  intro ht
  have hlen := congrArg String.length ht
  simp [scriptEnv] at hlen

/-- A follower on a fresh directory. -/
def freshFollower : RaftEngine := new scriptEnv "b" ["a"] "" (some freshStorage) none

/-- An entry for position 0, with the given `index` field. -/
def firstEntry (index : UInt64) : LogEntry :=
  { term := 1, data := "LAND:1", signature := "", voterId := "a",
    cumulativeHash := "#1:0:LAND:1:" ++ zeroHash, poseidonHash := zeroHash, zkProof := [], index := index }

/-- A call that is answered with a success, and leaves an engine with `P`. -/
theorem exists_of_success {c : Option (RaftEngine × Option RaftRPC)} {i : Int} {P : RaftEngine → Prop}
    [∀ e, Decidable (P e)]
    (h : (c.any fun p => p.2.any fun r => decide (r.payload = .appendResponse true i ∧ P p.1)) = true) :
    ∃ e' r, c = some (e', some r) ∧ r.payload = .appendResponse true i ∧ P e' := by
  cases c with
  | none => cases h
  | some p =>
      obtain ⟨e', o⟩ := p
      cases o with
      | none => cases h
      | some r =>
          obtain ⟨hok, hp⟩ := of_decide_eq_true h
          exact ⟨e', r, rfl, hok, hp⟩

/-- It is loaded from a fresh directory. -/
theorem freshFollower_eq :
    freshFollower = (blank "b" ["a"] "" none).loaded freshStorage (freshStorage.loadLog scriptEnv) := by
  have hverify : freshStorage.verifyWalIntegrity scriptEnv = none := by decide +kernel
  exact boot_of_verified hverify (blank "b" ["a"] "" none)

/-- It has no snapshot. -/
theorem freshFollower_snapshotFree : freshFollower.SnapshotFree := by
  rw [freshFollower_eq]
  exact ⟨rfl, rfl, rfl⟩

/-- Its log, which is empty, verifies. -/
theorem freshFollower_walVerified : WalVerified scriptEnv freshFollower := by
  rw [freshFollower_eq]
  exact ⟨freshStorage, rfl, rfl, by decide +kernel⟩

/-- An entry that names its own position, chained to the one before it. -/
def chainedEntry (term index : UInt64) (data : String) (before : LogEntry) : LogEntry :=
  { term := term, data := data, signature := "", voterId := "a",
    cumulativeHash := "#" ++ toString term ++ ":" ++ toString index ++ ":" ++ data ++ ":" ++ before.cumulativeHash,
    poseidonHash := zeroHash, zkProof := [], index := index }

/-- The follower once it has stored two entries of term 1. -/
def keptFollower : RaftEngine :=
  ((freshFollower.handleAppendEntries scriptEnv 1 "a" (-1) 0
    (some [firstEntry 0, chainedEntry 1 1 "LAND:2" (firstEntry 0)]) (-1)).map (·.1)).getD freshFollower

/-- Two entries of a leader of term 2, the first of which replaces the second one of the follower. -/
def rivalEntries : List LogEntry :=
  [chainedEntry 2 1 "LAND:3" (firstEntry 0), chainedEntry 2 2 "LAND:4" (chainedEntry 2 1 "LAND:3" (firstEntry 0))]

/-- This one has none either. -/
theorem keptFollower_snapshotFree : keptFollower.SnapshotFree :=
  ⟨by decide +kernel, by decide +kernel, by decide +kernel⟩

/-- Its log verifies too. -/
theorem keptFollower_walVerified : WalVerified scriptEnv keptFollower := by
  unfold WalVerified
  decide +kernel

/-- A chain of two entries behind the first one of a kept log is accepted, cuts the rest of that log, and passes. -/
theorem accepted_log_passes_iff_kept : keptFollower.log.length = 2 ∧ ∃ e' r,
    keptFollower.handleAppendEntries scriptEnv 2 "c" 0 1 (some rivalEntries) (-1) = some (e', some r) ∧
    r.payload = .appendResponse true 2 ∧ e'.log = firstEntry 0 :: rivalEntries ∧
    (writeLog scriptEnv e'.log).verifyWalIntegrity scriptEnv = none := by
  obtain ⟨e', r, hcall, hok, hlog⟩ := exists_of_success
    (c := keptFollower.handleAppendEntries scriptEnv 2 "c" 0 1 (some rivalEntries) (-1)) (i := 2)
    (P := fun e => e.log = firstEntry 0 :: rivalEntries) (by decide +kernel)
  exact ⟨by decide +kernel, e', r, hcall, hok, hlog, (accepted_log_passes_iff scriptEnv keptFollower_snapshotFree
    keptFollower_walVerified hcall hok).2 scriptEnv_sha256_ne (by decide +kernel)⟩

/-- The same entry with another `index` field is accepted too, and the next boot cuts it off. -/
theorem accepted_log_fails_boot : ¬ ∀ (env : Env) (e e' : RaftEngine) (term : UInt64) (leaderId : String) (prev : Int)
    (pt : UInt64) (es : List LogEntry) (lc : Int) (r : RaftRPC) (i : Int), env.zk = false → e.SnapshotFree →
    WalVerified env e → e.handleAppendEntries env term leaderId prev pt (some es) lc = some (e', some r) →
    r.payload = .appendResponse true i → (writeLog env e'.log).verifyWalIntegrity env = none := by
  intro hall
  obtain ⟨e', r, hcall, hok, hfail⟩ := exists_of_success
    (c := freshFollower.handleAppendEntries scriptEnv 1 "a" (-1) 0 (some [firstEntry 7]) (-1)) (i := 0)
    (P := fun e => (writeLog scriptEnv e.log).verifyWalIntegrity scriptEnv ≠ none) (by decide +kernel)
  exact hfail (hall scriptEnv freshFollower e' 1 "a" (-1) 0 [firstEntry 7] (-1) r 0 rfl freshFollower_snapshotFree
    freshFollower_walVerified hcall hok)

end RaftEngine

end WarmLogic.Consensus
