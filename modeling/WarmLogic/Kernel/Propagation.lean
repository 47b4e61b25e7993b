/-
# WarmLogic.Kernel.Propagation — the delta sync of `kernel/ops/propagation.py`.

A codebase is a map from paths to texts; a text is the UTF-8 content of its file. `generate_manifest`, which is not
part of the sources, lists each path with the SHA-256 of its content and a root hash of that list; `commit_mutation`
puts one file in place, or fails. The network bridge is there, and what it is given arrives.

A response brings files and takes none away, and `on_receive_delta_response` passes over an empty path and an empty
content. So an exchange gives B the codebase of A exactly under `Transported`; and the root hash of the response is
recorded as synced as soon as one file was applied, so it is B's own exactly where the response was complete
(`recorded_iff`). On the side of the inputs: an answer to the request that B makes of its present codebase, by a node
whose whole difference is transported, is complete (`TransportingAnswer`).

An exchange is followed path by path: what A sends is what B does not have or has with another hash, what B applies is
the usable part of it, and the last file under a path decides (`getElem?_exchange`). Comparing this with A's content
at the path gives the conditions of `Transported`, one for each way to differ.
-/
import WarmLogic.Lib.MapSum
import WarmLogic.Lib.Run

namespace WarmLogic.Kernel.Propagation

open WarmLogic.Lib

/-! ## Codebases and messages -/

/-- Contents by path. -/
abbrev Codebase := Std.TreeMap String String

/-- The hash functions: hex SHA-256 of a content, and the root hash of a list of paths and hashes. -/
structure Env where
  sha256 : String → String
  rootHash : List (String × String) → String

/-- Paths with hashes, and the root hash over them. -/
structure Manifest where
  rootHash : String
  /-- `path` and `hash` of each file -/
  files : List (String × String)

/-- `generate_manifest`. -/
def generateManifest (env : Env) (codebase : Codebase) : Manifest :=
  let files := codebase.toList.map fun (path, content) => (path, env.sha256 content)
  { rootHash := env.rootHash files, files := files }

/-- What B asks for, with the hashes of its own files. -/
structure DeltaRequest where
  requesterId : String
  targetHash : String
  /-- the hashes of the requester, by path -/
  localFiles : Std.TreeMap String String

/-- A file of a response. -/
structure DeltaFile where
  path : String
  hash : String
  content : String
  deriving DecidableEq

/-- What A answers. -/
structure DeltaResponse where
  targetHash : String
  files : List DeltaFile
  totalFiles : Nat

/-- `SyncStatus`. -/
inductive SyncStatus where
  | requested
  | completed
  deriving DecidableEq

/-- `missing_files` is left out: it stays empty, and nothing reads it. -/
structure PendingSync where
  peerId : String
  status : SyncStatus

/-- `SovereignPropagator`, with its codebase. -/
structure SovereignPropagator where
  nodeId : String
  codebase : Codebase
  pendingSyncs : Std.TreeMap String PendingSync
  /-- a set of root hashes -/
  syncedHashes : List String

namespace SovereignPropagator

/-- `request_delta_from_node`, with the request it sends, if it sends one. -/
def requestDeltaFromNode (env : Env) (b : SovereignPropagator) (peerId remoteHash : String) :
    SovereignPropagator × Option DeltaRequest :=
  if b.syncedHashes.contains remoteHash then (b, none)
  else
    ({ b with pendingSyncs := b.pendingSyncs.insert remoteHash ⟨peerId, .requested⟩ },
      some
        { requesterId := b.nodeId
          targetHash := remoteHash
          localFiles := Std.TreeMap.ofList (generateManifest env b.codebase).files })

/-- `on_receive_delta_request`. -/
def onReceiveDeltaRequest (env : Env) (a : SovereignPropagator) (payload : DeltaRequest) : DeltaResponse :=
  let deltaFiles := a.codebase.toList.filterMap fun (path, content) =>
    let hash := env.sha256 content
    if payload.localFiles[path]? ≠ some hash then some ⟨path, hash, content⟩ else none
  { targetHash := payload.targetHash, files := deltaFiles, totalFiles := deltaFiles.length }

/-- A file of a response that the handler does not pass over: path and content are not empty, and the hash is right. -/
def usable (env : Env) (file : DeltaFile) : Bool :=
  file.path != "" && file.content != "" && env.sha256 file.content == file.hash

/-- The loop of `on_receive_delta_response` from the `i`-th file on: the codebase and how many files were applied;
`commits i` says whether `commit_mutation` succeeds. -/
def applyFiles (env : Env) (commits : Nat → Bool) : Nat → List DeltaFile → Codebase → Codebase × Nat
  | _, [], codebase => (codebase, 0)
  | i, file :: files, codebase =>
      if usable env file && commits i then
        let (codebase, appliedCount) := applyFiles env commits (i + 1) files (codebase.insert file.path file.content)
        (codebase, appliedCount + 1)
      else applyFiles env commits (i + 1) files codebase

/-- `on_receive_delta_response`, with the number it returns. -/
def onReceiveDeltaResponse (env : Env) (commits : Nat → Bool) (b : SovereignPropagator) (payload : DeltaResponse) :
    SovereignPropagator × Nat :=
  let (codebase, appliedCount) := applyFiles env commits 0 payload.files b.codebase
  if 0 < appliedCount then
    ({ b with
        codebase := codebase
        syncedHashes := payload.targetHash :: b.syncedHashes
        pendingSyncs := match b.pendingSyncs[payload.targetHash]? with
          | some pending => b.pendingSyncs.insert payload.targetHash { pending with status := .completed }
          | none => b.pendingSyncs }, appliedCount)
  else ({ b with codebase := codebase }, appliedCount)

/-- The root hash of the own codebase. -/
def ownRoot (env : Env) (b : SovereignPropagator) : String := (generateManifest env b.codebase).rootHash

end SovereignPropagator

open SovereignPropagator

/-! ## What a response does -/

/-- The files of a response that are applied. -/
def appliedFiles (env : Env) (commits : Nat → Bool) : Nat → List DeltaFile → List DeltaFile
  | _, [] => []
  | i, file :: files =>
      if usable env file && commits i then file :: appliedFiles env commits (i + 1) files
      else appliedFiles env commits (i + 1) files

/-- The loop applies the usable files, in order. -/
theorem applyFiles_eq (env : Env) (commits : Nat → Bool) (i : Nat) (files : List DeltaFile) (codebase : Codebase) :
    applyFiles env commits i files codebase =
      ((appliedFiles env commits i files).foldl (fun codebase file => codebase.insert file.path file.content) codebase,
        (appliedFiles env commits i files).length) := by
  induction files generalizing i codebase with
  | nil => rfl
  | cons file files ih =>
    rw [applyFiles, appliedFiles]
    split
    · rw [ih]
      rfl
    · exact ih _ _

/-- What the last of some files brings to a path. -/
def broughtTo (files : List DeltaFile) (path : String) : Option String :=
  (files.reverse.find? fun file => file.path = path).map (·.content)

/-- The codebase behind a response. -/
theorem codebase_onReceiveDeltaResponse (env : Env) (commits : Nat → Bool) (b : SovereignPropagator)
    (payload : DeltaResponse) (path : String) :
    (b.onReceiveDeltaResponse env commits payload).1.codebase[path]? =
      (broughtTo (appliedFiles env commits 0 payload.files) path).or b.codebase[path]? := by
  have hcodebase : (b.onReceiveDeltaResponse env commits payload).1.codebase =
      (appliedFiles env commits 0 payload.files).foldl (fun codebase file => codebase.insert file.path file.content)
        b.codebase := by
    unfold onReceiveDeltaResponse
    rw [applyFiles_eq]
    dsimp only
    split <;> rfl
  rw [hcodebase, getElem?_foldl_insert_last]
  rfl

/-- The recorded hashes behind a response. -/
theorem syncedHashes_onReceiveDeltaResponse (env : Env) (commits : Nat → Bool) (b : SovereignPropagator)
    (payload : DeltaResponse) :
    (b.onReceiveDeltaResponse env commits payload).1.syncedHashes =
      if appliedFiles env commits 0 payload.files = [] then b.syncedHashes else payload.targetHash :: b.syncedHashes := by
  unfold onReceiveDeltaResponse
  rw [applyFiles_eq]
  cases appliedFiles env commits 0 payload.files with
  | nil => rfl
  | cons file files => rfl

/-- Codebases with the same files have one root hash. -/
theorem rootHash_congr (env : Env) {m n : Codebase} (h : ∀ path : String, m[path]? = n[path]?) :
    (generateManifest env m).rootHash = (generateManifest env n).rootHash := by
  unfold generateManifest
  rw [toList_congr h]

/-! ## An exchange -/

/-- B asks A for the codebase with this root hash, A answers, and B takes the answer; `none` where B does not ask. -/
def exchange (env : Env) (a b : SovereignPropagator) (peerId remoteHash : String) : Option SovereignPropagator :=
  let (b, request) := b.requestDeltaFromNode env peerId remoteHash
  request.map fun request => (b.onReceiveDeltaResponse env (fun _ => true) (a.onReceiveDeltaRequest env request)).1

/-- **When an exchange transports the whole difference**: B has no path that A lacks, and each file of A is at B
already, or is sent (its hash is not B's at this path) and not passed over (neither its path nor its content is empty). -/
structure Transported (env : Env) (a b : Codebase) : Prop where
  kept : ∀ path ∈ b, path ∈ a
  brought : ∀ path content, a[path]? = some content →
    b[path]? = some content ∨
      (b[path]?.map env.sha256 ≠ some (env.sha256 content) ∧ path ≠ "" ∧ content ≠ "")

/-- `Transported`, file by file. -/
theorem transported_iff (env : Env) (a b : Codebase) :
    Transported env a b ↔ (∀ file ∈ b.toList, file.1 ∈ a) ∧ ∀ file ∈ a.toList,
      b[file.1]? = some file.2 ∨ (b[file.1]?.map env.sha256 ≠ some (env.sha256 file.2) ∧ file.1 ≠ "" ∧ file.2 ≠ "") := by
  constructor
  · intro h
    refine ⟨fun file hfile => h.kept file.1 ?_, fun file hfile => h.brought file.1 file.2 ?_⟩
    · rw [Std.TreeMap.mem_iff_isSome_getElem?, Std.TreeMap.mem_toList_iff_getElem?_eq_some.mp hfile]
      rfl
    · exact Std.TreeMap.mem_toList_iff_getElem?_eq_some.mp hfile
  · rintro ⟨hkept, hbrought⟩
    refine ⟨fun path hpath => ?_, fun path content hin => ?_⟩
    · obtain ⟨content, hb⟩ := Option.isSome_iff_exists.mp (Std.TreeMap.mem_iff_isSome_getElem?.mp hpath)
      exact hkept (path, content) (Std.TreeMap.mem_toList_iff_getElem?_eq_some.mpr hb)
    · exact hbrought (path, content) (Std.TreeMap.mem_toList_iff_getElem?_eq_some.mpr hin)

instance (env : Env) (a b : Codebase) : Decidable (Transported env a b) :=
  decidable_of_iff _ (transported_iff env a b).symm

/-- The dict that a request carries. -/
theorem getElem?_localFiles (env : Env) (codebase : Codebase) (path : String) :
    (Std.TreeMap.ofList (generateManifest env codebase).files)[path]? = codebase[path]?.map env.sha256 := by
  have hdistinct : (generateManifest env codebase).files.Pairwise fun x y => ¬ compare x.1 y.1 = .eq :=
    List.pairwise_map.mpr codebase.distinct_keys_toList
  cases h : codebase[path]? with
  | some content =>
    have hmem : (path, env.sha256 content) ∈ (generateManifest env codebase).files :=
      List.mem_map.mpr ⟨(path, content), Std.TreeMap.mem_toList_iff_getElem?_eq_some.mpr h, rfl⟩
    exact Std.TreeMap.getElem?_ofList_of_mem Std.ReflCmp.compare_self hdistinct hmem
  | none =>
    refine Std.TreeMap.getElem?_ofList_of_contains_eq_false ?_
    refine Bool.eq_false_iff.mpr fun hcontains => ?_
    obtain ⟨p, hp, hpath⟩ := List.mem_map.mp (List.contains_iff_mem.mp hcontains)
    obtain ⟨q, hq, rfl⟩ := List.mem_map.mp hp
    have hsome := Std.TreeMap.mem_toList_iff_getElem?_eq_some.mp hq
    rw [show q.1 = path from hpath, h] at hsome
    cases hsome

/-- Where no commit fails, all of them. -/
theorem appliedFiles_all (env : Env) (i : Nat) (files : List DeltaFile) :
    appliedFiles env (fun _ => true) i files = files.filter (usable env) := by
  induction files generalizing i with
  | nil => rfl
  | cons file files ih =>
    rw [appliedFiles, ih, Bool.and_true, List.filter_cons]

/-- Files that agree on each path bring what one of them has there. -/
theorem broughtTo_eq_some_iff {files : List DeltaFile}
    (h : ∀ f ∈ files, ∀ g ∈ files, f.path = g.path → f.content = g.content) (path content : String) :
    broughtTo files path = some content ↔ ∃ f ∈ files, f.path = path ∧ f.content = content := by
  unfold broughtTo
  rw [Option.map_eq_some_iff]
  constructor
  · rintro ⟨f, hf, hcontent⟩
    have hpath : f.path = path := by simpa using List.find?_some hf
    exact ⟨f, List.mem_reverse.mp (List.mem_of_find?_eq_some hf), hpath, hcontent⟩
  · rintro ⟨f, hf, hpath, hcontent⟩
    have hsome : (files.reverse.find? fun file => file.path = path).isSome :=
      List.find?_isSome.mpr ⟨f, List.mem_reverse.mpr hf, decide_eq_true hpath⟩
    obtain ⟨g, hg⟩ := Option.isSome_iff_exists.mp hsome
    have hgmem := List.mem_reverse.mp (List.mem_of_find?_eq_some hg)
    have hgpath : g.path = path := by simpa using List.find?_some hg
    exact ⟨g, hg, (h g hgmem f hf (hgpath.trans hpath.symm)).trans hcontent⟩

/-- The files of an answer that the requester applies. -/
theorem mem_usable_answer (env : Env) (a b : SovereignPropagator) (requesterId targetHash : String) (file : DeltaFile) :
    file ∈ (a.onReceiveDeltaRequest env
        ⟨requesterId, targetHash, Std.TreeMap.ofList (generateManifest env b.codebase).files⟩).files.filter (usable env) ↔
      a.codebase[file.path]? = some file.content ∧ file.hash = env.sha256 file.content ∧
        b.codebase[file.path]?.map env.sha256 ≠ some (env.sha256 file.content) ∧ file.path ≠ "" ∧ file.content ≠ "" := by
  rw [List.mem_filter]
  show file ∈ a.codebase.toList.filterMap _ ∧ _ ↔ _
  rw [List.mem_filterMap]
  constructor
  · rintro ⟨⟨⟨path, content⟩, hmem, hsent⟩, huse⟩
    dsimp only at hsent
    split at hsent
    · next hne =>
      cases hsent
      rw [getElem?_localFiles] at hne
      simp only [usable, Bool.and_eq_true, bne_iff_ne, beq_iff_eq] at huse
      exact ⟨Std.TreeMap.mem_toList_iff_getElem?_eq_some.mp hmem, rfl, hne, huse.1⟩
    · cases hsent
  · rintro ⟨hmem, hhash, hne, hpath, hcontent⟩
    refine ⟨⟨(file.path, file.content), Std.TreeMap.mem_toList_iff_getElem?_eq_some.mpr hmem, ?_⟩, ?_⟩
    · rw [← getElem?_localFiles] at hne
      dsimp only
      rw [if_pos hne, ← hhash]
    · simp [usable, hpath, hcontent, hhash]

/-- What an answer brings to a path. -/
theorem broughtTo_answer (env : Env) (a b : SovereignPropagator) (requesterId targetHash path content : String) :
    broughtTo ((a.onReceiveDeltaRequest env
        ⟨requesterId, targetHash, Std.TreeMap.ofList (generateManifest env b.codebase).files⟩).files.filter (usable env))
        path = some content ↔
      a.codebase[path]? = some content ∧ b.codebase[path]?.map env.sha256 ≠ some (env.sha256 content) ∧ path ≠ "" ∧
        content ≠ "" := by
  have hmem := mem_usable_answer env a b requesterId targetHash
  generalize List.filter (usable env) _ = files at hmem ⊢
  have hagree : ∀ f ∈ files, ∀ g ∈ files, f.path = g.path → f.content = g.content := by
    intro f hf g hg hpath
    have hf' := ((hmem f).mp hf).1
    rw [hpath, ((hmem g).mp hg).1] at hf'
    exact (Option.some.inj hf').symm
  rw [broughtTo_eq_some_iff hagree]
  constructor
  · rintro ⟨f, hf, rfl, rfl⟩
    obtain ⟨hin, -, hrest⟩ := (hmem f).mp hf
    exact ⟨hin, hrest⟩
  · rintro ⟨hin, hrest⟩
    exact ⟨⟨path, env.sha256 content, content⟩, (hmem _).mpr ⟨hin, rfl, hrest⟩, rfl, rfl⟩

/-- **The codebase behind an exchange**, path by path. -/
theorem getElem?_exchange {env : Env} {a b b' : SovereignPropagator} {peerId remoteHash : String}
    (h : exchange env a b peerId remoteHash = some b') (path content : String) :
    b'.codebase[path]? = some content ↔
      (a.codebase[path]? = some content ∧ b.codebase[path]?.map env.sha256 ≠ some (env.sha256 content) ∧ path ≠ "" ∧
          content ≠ "") ∨
        ((∀ sent, a.codebase[path]? = some sent → b.codebase[path]?.map env.sha256 ≠ some (env.sha256 sent) → path ≠ "" →
          sent = "") ∧ b.codebase[path]? = some content) := by
  unfold exchange requestDeltaFromNode at h
  by_cases hsynced : b.syncedHashes.contains remoteHash = true
  · rw [if_pos hsynced] at h
    cases h
  · rw [if_neg hsynced] at h
    cases h
    rw [codebase_onReceiveDeltaResponse, appliedFiles_all]
    have hbrought := broughtTo_answer env a b b.nodeId remoteHash path
    show (broughtTo _ path).or b.codebase[path]? = some content ↔ _
    generalize broughtTo _ path = brought at hbrought ⊢
    cases brought with
    | some c =>
      obtain ⟨hin, hne, hp, hc⟩ := (hbrought c).mp rfl
      rw [Option.some_or]
      constructor
      · rintro ⟨⟩
        exact .inl ⟨hin, hne, hp, hc⟩
      · rintro (⟨hin', -⟩ | ⟨hnone, -⟩)
        · exact hin.symm.trans hin'
        · exact absurd (hnone c hin hne hp) hc
    | none =>
      have hnone : ∀ sent, a.codebase[path]? = some sent →
          b.codebase[path]?.map env.sha256 ≠ some (env.sha256 sent) → path ≠ "" → sent = "" := by
        intro sent hin hne hp
        by_contra hsent
        cases (hbrought sent).mpr ⟨hin, hne, hp, hsent⟩
      rw [Option.none_or]
      constructor
      · exact fun hb => .inr ⟨hnone, hb⟩
      · rintro (hin | ⟨-, hb⟩)
        · cases (hbrought content).mpr hin
        · exact hb

/-- **An exchange converges exactly where the whole difference is transported.** -/
theorem exchange_converges_iff {env : Env} {a b b' : SovereignPropagator} {peerId remoteHash : String}
    (h : exchange env a b peerId remoteHash = some b') :
    (∀ path : String, b'.codebase[path]? = a.codebase[path]?) ↔ Transported env a.codebase b.codebase := by
  have hafter := getElem?_exchange h
  constructor
  · intro hsame
    refine ⟨fun path hpath => ?_, fun path content hin => ?_⟩
    · obtain ⟨content, hb⟩ := Option.isSome_iff_exists.mp (Std.TreeMap.mem_iff_isSome_getElem?.mp hpath)
      by_contra hno
      have hnone : a.codebase[path]? = none := Std.TreeMap.getElem?_eq_none hno
      have hnotSent : ∀ sent, a.codebase[path]? = some sent → b.codebase[path]?.map env.sha256 ≠ some (env.sha256 sent) →
          path ≠ "" → sent = "" := fun sent hsent => absurd (hnone.symm.trans hsent) (Option.some_ne_none sent).symm
      have hkept := (hafter path content).mpr (.inr ⟨hnotSent, hb⟩)
      rw [hsame path, hnone] at hkept
      cases hkept
    · rcases (hafter path content).mp ((hsame path).trans hin) with ⟨-, hne, hp, hc⟩ | ⟨-, hb⟩
      · exact .inr ⟨hne, hp, hc⟩
      · exact .inl hb
  · intro htrans path
    cases hin : a.codebase[path]? with
    | none =>
      refine Option.eq_none_iff_forall_ne_some.mpr fun content hb' => ?_
      rcases (hafter path content).mp hb' with ⟨hin', -⟩ | ⟨-, hb⟩
      · rw [hin] at hin'
        cases hin'
      · have hmem := htrans.kept path (Std.TreeMap.mem_iff_isSome_getElem?.mpr (by rw [hb]; rfl))
        rw [Std.TreeMap.mem_iff_isSome_getElem?, hin] at hmem
        cases hmem
    | some content =>
      refine (hafter path content).mpr ?_
      rcases htrans.brought path content hin with hb | hsent
      · refine .inr ⟨fun sent hsent hne _ => ?_, hb⟩
        rw [hin] at hsent
        cases hsent
        rw [hb] at hne
        exact absurd rfl hne
      · exact .inl ⟨hin, hsent⟩

/-! ## Runs -/

/-- What happens to a node. -/
inductive SyncOp where
  | requestDeltaFromNode (peerId remoteHash : String)
  | onReceiveDeltaRequest (payload : DeltaRequest)
  | onReceiveDeltaResponse (commits : Nat → Bool) (payload : DeltaResponse)
  /-- the codebase changes by itself -/
  | change (codebase : Codebase)

/-- The node behind it. -/
def SyncOp.step (env : Env) (b : SovereignPropagator) : SyncOp → SovereignPropagator
  | .requestDeltaFromNode peerId remoteHash => (b.requestDeltaFromNode env peerId remoteHash).1
  | .onReceiveDeltaRequest _ => b
  | .onReceiveDeltaResponse commits payload => (b.onReceiveDeltaResponse env commits payload).1
  | .change codebase => { b with codebase := codebase }

/-- A node that has recorded nothing, under its handlers and changes of its codebase. -/
def propagatorRuns (env : Env) : System SovereignPropagator SyncOp where
  init b := b.syncedHashes = []
  step op b := some (op.step env b)

/-- **When a response is complete**: it is passed over as a whole, or its root hash was recorded before, or it brings B
to a codebase with this root hash, which at each path has what the last applied file brings there, and elsewhere what B
has. -/
def CompleteResponse (env : Env) (op : SyncOp) (b : SovereignPropagator) : Prop :=
  ∀ commits payload, op = .onReceiveDeltaResponse commits payload →
    appliedFiles env commits 0 payload.files = [] ∨ payload.targetHash ∈ b.syncedHashes ∨
      ∃ m : Codebase, (generateManifest env m).rootHash = payload.targetHash ∧
        ∀ path : String, m[path]? = (broughtTo (appliedFiles env commits 0 payload.files) path).or b.codebase[path]?

/-- **The step lemma, exactly**: a step records no root hash but its own if and only if the response was complete. -/
theorem recorded_iff (env : Env) (op : SyncOp) (b : SovereignPropagator) :
    (∀ hash ∈ (op.step env b).syncedHashes, hash ∉ b.syncedHashes → (op.step env b).ownRoot env = hash) ↔
      CompleteResponse env op b := by
  cases op with
  | requestDeltaFromNode peerId remoteHash =>
    have hsame : ((SyncOp.requestDeltaFromNode peerId remoteHash).step env b).syncedHashes = b.syncedHashes := by
      show (b.requestDeltaFromNode env peerId remoteHash).1.syncedHashes = b.syncedHashes
      unfold requestDeltaFromNode
      split <;> rfl
    rw [hsame]
    exact iff_of_true (fun hash hin hout => absurd hin hout) fun commits payload heq => by cases heq
  | onReceiveDeltaRequest payload =>
    exact iff_of_true (fun hash hin hout => absurd hin hout) fun commits payload heq => by cases heq
  | change codebase =>
    exact iff_of_true (fun hash hin hout => absurd hin hout) fun commits payload heq => by cases heq
  | onReceiveDeltaResponse commits payload =>
    show (∀ hash ∈ (b.onReceiveDeltaResponse env commits payload).1.syncedHashes, _) ↔ _
    rw [syncedHashes_onReceiveDeltaResponse]
    have hafter := codebase_onReceiveDeltaResponse env commits b payload
    constructor
    · rintro hrecorded _ _ ⟨⟩
      by_cases hnil : appliedFiles env commits 0 payload.files = []
      · exact .inl hnil
      · by_cases hold : payload.targetHash ∈ b.syncedHashes
        · exact .inr (.inl hold)
        · rw [if_neg hnil] at hrecorded
          exact .inr (.inr ⟨_, hrecorded _ List.mem_cons_self hold, hafter⟩)
    · intro hcomplete hash hin hout
      rcases hcomplete commits payload rfl with hnil | hold | ⟨m, hroot, hm⟩
      · rw [if_pos hnil] at hin
        exact absurd hin hout
      · refine absurd ?_ hout
        split at hin
        · exact hin
        · rcases List.mem_cons.mp hin with rfl | hin
          · exact hold
          · exact hin
      · split at hin
        · exact absurd hin hout
        · rcases List.mem_cons.mp hin with rfl | hin
          · rw [← hroot]
            exact rootHash_congr env fun path => (hafter path).trans (hm path).symm
          · exact absurd hin hout

/-- An answer to a request for the root hash of A, which transports the whole difference, is complete. -/
theorem complete_of_transported {env : Env} {a b : SovereignPropagator} (h : Transported env a.codebase b.codebase)
    {peerId : String} {request : DeltaRequest}
    (hrequest : (b.requestDeltaFromNode env peerId (a.ownRoot env)).2 = some request) :
    CompleteResponse env (.onReceiveDeltaResponse (fun _ => true) (a.onReceiveDeltaRequest env request))
      (b.requestDeltaFromNode env peerId (a.ownRoot env)).1 := by
  rintro _ _ ⟨⟩
  have hexchange : exchange env a b peerId (a.ownRoot env) =
      some (((b.requestDeltaFromNode env peerId (a.ownRoot env)).1.onReceiveDeltaResponse env (fun _ => true)
        (a.onReceiveDeltaRequest env request)).1) := by
    unfold exchange
    rw [← Option.map_some (f := fun request => ((b.requestDeltaFromNode env peerId (a.ownRoot env)).1.onReceiveDeltaResponse
      env (fun _ => true) (a.onReceiveDeltaRequest env request)).1), ← hrequest]
  have htarget : request.targetHash = a.ownRoot env := by
    unfold requestDeltaFromNode at hrequest
    split at hrequest
    · cases hrequest
    · cases hrequest
      rfl
  refine .inr (.inr ⟨a.codebase, htarget.symm, fun path => ?_⟩)
  rw [← codebase_onReceiveDeltaResponse]
  exact ((exchange_converges_iff hexchange).mpr h path).symm

/-- **The responses that transport everything**: every commit succeeds, and the response is the answer of some node to
the request for its root hash that B makes of its present codebase, whose difference is transported in full. -/
def TransportingAnswer (env : Env) (op : SyncOp) (b : SovereignPropagator) : Prop :=
  ∀ commits payload, op = .onReceiveDeltaResponse commits payload →
    (∀ i, commits i = true) ∧ ∃ (a : SovereignPropagator) (requesterId : String),
      Transported env a.codebase b.codebase ∧ payload = a.onReceiveDeltaRequest env
        ⟨requesterId, a.ownRoot env, Std.TreeMap.ofList (generateManifest env b.codebase).files⟩

/-- Such a response is complete. -/
theorem TransportingAnswer.complete {env : Env} {op : SyncOp} {b : SovereignPropagator}
    (h : TransportingAnswer env op b) : CompleteResponse env op b := by
  rintro commits payload rfl
  obtain ⟨hcommits, a, requesterId, htransported, rfl⟩ := h _ _ rfl
  obtain rfl : commits = fun _ => true := funext hcommits
  by_cases hold : b.syncedHashes.contains (a.ownRoot env) = true
  · exact .inr (.inl (List.contains_iff_mem.mp hold))
  · -- B has not recorded the root hash, so this is the answer of an exchange
    have hasked : b.requestDeltaFromNode env "" (a.ownRoot env) =
        ({ b with pendingSyncs := b.pendingSyncs.insert (a.ownRoot env) ⟨"", .requested⟩ },
          some ⟨b.nodeId, a.ownRoot env, Std.TreeMap.ofList (generateManifest env b.codebase).files⟩) := by
      rw [requestDeltaFromNode, if_neg hold]
    have hcomplete := complete_of_transported htransported (congrArg Prod.snd hasked)
    rw [hasked] at hcomplete
    exact hcomplete _ _ rfl

/-- **Delta sync.** An exchange gives B the codebase of A exactly where it transports the whole difference; in every
run whose responses are complete, a root hash is recorded only when it is the node's own; and so it is in every run
whose responses are the answers of nodes that transport their whole difference. -/
theorem delta_sync_iff (env : Env) :
    (∀ (a b b' : SovereignPropagator) (peerId remoteHash : String), exchange env a b peerId remoteHash = some b' →
      ((∀ path : String, b'.codebase[path]? = a.codebase[path]?) ↔ Transported env a.codebase b.codebase)) ∧
    (∀ (last before : SovereignPropagator) (past : List SovereignPropagator),
      (propagatorRuns env).Run (CompleteResponse env) (last :: before :: past) →
        ∀ hash ∈ last.syncedHashes, hash ∉ before.syncedHashes → last.ownRoot env = hash) ∧
    ∀ (last before : SovereignPropagator) (past : List SovereignPropagator),
      (propagatorRuns env).Run (TransportingAnswer env) (last :: before :: past) →
        ∀ hash ∈ last.syncedHashes, hash ∉ before.syncedHashes → last.ownRoot env = hash := by
  have hruns (last before : SovereignPropagator) (past : List SovereignPropagator)
      (hrun : (propagatorRuns env).Run (CompleteResponse env) (last :: before :: past)) :
      ∀ hash ∈ last.syncedHashes, hash ∉ before.syncedHashes → last.ownRoot env = hash := by
    cases hrun with
    | @step _ _ _ op hrun hok hstep =>
      cases hstep
      exact (recorded_iff env op before).mpr hok
  exact ⟨fun a b b' peerId remoteHash h => exchange_converges_iff h, hruns,
    fun last before past hrun => hruns last before past (hrun.mono fun _ _ h => h.complete)⟩

/-! ## Two nodes -/

/-- Hashes that are texts themselves. -/
def plainEnv : Env where
  sha256 content := content
  rootHash files := String.join (files.map fun file => file.1 ++ ":" ++ file.2 ++ "\n")

def nodeWith (nodeId : String) (codebase : Codebase) : SovereignPropagator := ⟨nodeId, codebase, ∅, []⟩

/-- A node with one file, and an empty file beside it. -/
def withEmptyFile : SovereignPropagator := nodeWith "A" (((∅ : Codebase).insert "a.py" "x").insert "b/__init__.py" "")

/-- A has three files. -/
def threeFiles : SovereignPropagator :=
  nodeWith "A" ((((∅ : Codebase).insert "a.py" "x").insert "b.py" "new").insert "c.py" "z")

/-- B has the first of them as it is and another content of the second. -/
def twoFiles : SovereignPropagator := nodeWith "B" (((∅ : Codebase).insert "a.py" "x").insert "b.py" "old")

/-- The answer to the request of B. -/
def threeFilesAnswer : DeltaResponse :=
  threeFiles.onReceiveDeltaRequest plainEnv
    ⟨"B", threeFiles.ownRoot plainEnv, Std.TreeMap.ofList (generateManifest plainEnv twoFiles.codebase).files⟩

/-- B behind its request. -/
def twoFilesAsked : SovereignPropagator :=
  (twoFiles.requestDeltaFromNode plainEnv "A" (threeFiles.ownRoot plainEnv)).1

/-- B behind the answer. -/
def threeFilesSynced : SovereignPropagator :=
  (twoFilesAsked.onReceiveDeltaResponse plainEnv (fun _ => true) threeFilesAnswer).1

/-- One file is kept, one changed and one added: B gets the codebase of A, and the root hash that it records is its
own. -/
theorem three_files_synced :
    threeFilesAnswer.files.map (·.path) = ["b.py", "c.py"] ∧
    (∀ path : String, threeFilesSynced.codebase[path]? = threeFiles.codebase[path]?) ∧
    threeFilesSynced.syncedHashes = [threeFiles.ownRoot plainEnv] ∧
    ∀ hash ∈ threeFilesSynced.syncedHashes, hash ∉ twoFilesAsked.syncedHashes →
      threeFilesSynced.ownRoot plainEnv = hash := by
  have htransported : Transported plainEnv threeFiles.codebase twoFiles.codebase := by decide +kernel
  have hexchange : exchange plainEnv threeFiles twoFiles "A" (threeFiles.ownRoot plainEnv) = some threeFilesSynced := rfl
  refine ⟨by decide +kernel, ((delta_sync_iff plainEnv).1 _ _ _ _ _ hexchange).mpr htransported, by decide +kernel, ?_⟩
  have hasked : (propagatorRuns plainEnv).Run (TransportingAnswer plainEnv) [twoFilesAsked, twoFiles] :=
    .step (a := .requestDeltaFromNode "A" (threeFiles.ownRoot plainEnv)) (.init rfl) (by rintro _ _ ⟨⟩) rfl
  have hanswer : TransportingAnswer plainEnv (.onReceiveDeltaResponse (fun _ => true) threeFilesAnswer)
      twoFilesAsked := by
    rintro _ _ ⟨⟩
    exact ⟨fun _ => rfl, threeFiles, "B", htransported, rfl⟩
  exact (delta_sync_iff plainEnv).2.2 threeFilesSynced twoFilesAsked _ (.step hasked hanswer rfl)

/-- **An empty file is lost**, and the root hash that is recorded is not B's own. -/
theorem empty_file_lost :
    ∃ b', exchange plainEnv withEmptyFile (nodeWith "B" ∅) "A" (withEmptyFile.ownRoot plainEnv) = some b' ∧
      b'.codebase["b/__init__.py"]? = none ∧ withEmptyFile.codebase["b/__init__.py"]? = some "" ∧
        withEmptyFile.ownRoot plainEnv ∈ b'.syncedHashes ∧ b'.ownRoot plainEnv ≠ withEmptyFile.ownRoot plainEnv :=
  ⟨_, rfl, by decide +kernel, by decide +kernel, by decide +kernel, by decide +kernel⟩

end WarmLogic.Kernel.Propagation
