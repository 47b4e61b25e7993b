/-
# WarmLogic.Mesh.DiscoveryAgent — the iterative lookup of `dht.rs`, over whole searches.

The agent keeps a shortlist of the nodes it has heard of, sorted by their distance to the target and cut off at sixty;
it hands out up to three of them at a time to be asked, and takes in what they answer. The ghost record beside it says
which nodes it ever heard of and which it handed out.

The list is cut off after every single node, yet it is as good as one that was sorted once: in a search where no node
fails it holds the sixty nearest of everything heard (`finished_reports_nearest`), so what a finished search reports are the
twenty nearest, each of them queried. In every search no node is handed out twice.

Two things make that delicate. A node that is already in the list is skipped, but one that was cut off is taken in
again when it is named again; it then falls off once more, because the list has only become nearer in the meantime.
And a node that fails is removed from the list and not remembered, except among the queried ones; so it comes back
with the next answer that names it, is never asked again, and takes a place from which another may have been cut off.
That is why the result is about searches without failures, while `search_sound` is about all of them.

The sizes of arguments are checked before anything is done with them, with the messages of `ffi_limits.rs`. Only
`add_response` checks peer by peer inside its loop: the peers before one that is too large have been added when it
fails (`addPeers`), and the model returns the agent beside the error for that reason.
-/
import WarmLogic.Mesh.KademliaTable
import Mathlib.Data.Finset.Basic
import Mathlib.Data.Finset.Dedup
import Mathlib.Data.Finset.Lattice.Lemmas

namespace WarmLogic.Mesh.Kademlia

open WarmLogic.Lib

/-! ## The limits of `ffi_limits.rs` -/

/-- The limits are those of the module `ffi_limits`: a megabyte of text, sixteen of bytes, and a hundred thousand
elements. -/
def maxStringLen : Nat := 1048576

/-- `MAX_BYTES_LEN`. -/
def maxBytesLen : Nat := 16777216

/-- `MAX_ARRAY_LEN`. -/
def maxArrayLen : Nat := 100000

/-- `validate_string`: the length is that of the encoded text, in bytes. -/
def validateString (s context : String) : Except String Unit :=
  if maxStringLen < s.utf8ByteSize then
    .error ("FFI input too large: " ++ context ++ " (" ++ toString s.utf8ByteSize ++ " bytes > " ++
      toString maxStringLen ++ " max)")
  else .ok ()

/-- `validate_bytes`, with the number of bytes and the limit in the message. -/
def validateBytes (b : List UInt8) (context : String) : Except String Unit :=
  if maxBytesLen < b.length then
    .error ("FFI input too large: " ++ context ++ " (" ++ toString b.length ++ " bytes > " ++ toString maxBytesLen ++
      " max)")
  else .ok ()

/-- `validate_array_len`, which sees the length only: the elements have checks of their own. -/
def validateArrayLen (len : Nat) (context : String) : Except String Unit :=
  if maxArrayLen < len then
    .error ("FFI array too large: " ++ context ++ " (" ++ toString len ++ " elements > " ++ toString maxArrayLen ++
      " max)")
  else .ok ()

/-- The checks on one peer of a list, under the name of the call that takes it. -/
def validatePeer (context : String) (peer : Contact) : Except String Unit :=
  (validateBytes peer.id (context ++ "peer_id")).bind fun _ => validateString peer.address (context ++ "peer_addr")

/-! ## The agent -/

/-- The agent of `dht.rs`. The sets are hash sets in the source; nothing depends on their order. -/
structure RustyDiscoveryAgent where
  targetId : List UInt8
  shortlist : List Contact
  queried : Finset (List UInt8)
  activeQueries : Finset (List UInt8)
  kParam : Nat
  alpha : Nat

namespace RustyDiscoveryAgent

/-- `add_contact`: the target itself and a node that is already in the list are skipped. The sort is stable, and the
cut comes after every single node. -/
def addContact (agent : RustyDiscoveryAgent) (contact : Contact) : RustyDiscoveryAgent :=
  if contact.id = agent.targetId then agent
  else if agent.shortlist.any fun c => c.id = contact.id then agent
  else
    { agent with
      shortlist := ((agent.shortlist ++ [contact]).mergeSort fun a b =>
        decide (a.xorDistance agent.targetId ≤ b.xorDistance agent.targetId)).take (agent.kParam * 3) }

/-- The agent that `new` adds the initial peers to. -/
def fresh (targetId : List UInt8) : RustyDiscoveryAgent where
  targetId := targetId
  shortlist := []
  queried := ∅
  activeQueries := ∅
  kParam := Kademlia.kParam
  alpha := 3

/-- `new`: all peers are checked before the first is added, in contrast to `add_response`. -/
def new (targetId : List UInt8) (initialPeers : List Contact) : Except String RustyDiscoveryAgent :=
  (validateBytes targetId "RustyDiscoveryAgent:target_id").bind fun _ =>
    (validateArrayLen initialPeers.length "RustyDiscoveryAgent:initial_peers").bind fun _ =>
      (initialPeers.forM (validatePeer "RustyDiscoveryAgent:")).bind fun _ =>
        .ok (initialPeers.foldl addContact (fresh targetId))

/-- The loop of `add_response`: the peers before one that is too large have been added when it fails. -/
def addPeers (agent : RustyDiscoveryAgent) : List Contact → RustyDiscoveryAgent × Except String Unit
  | [] => (agent, .ok ())
  | peer :: peers =>
      match validatePeer "RustyDiscoveryAgent.add_response:" peer with
      | .error e => (agent, .error e)
      | .ok () => (agent.addContact peer).addPeers peers

/-- `add_response`: a list that is too long is refused as a whole. -/
def addResponse (agent : RustyDiscoveryAgent) (peers : List Contact) : RustyDiscoveryAgent × Except String Unit :=
  match validateArrayLen peers.length "RustyDiscoveryAgent.add_response:peers" with
  | .error e => (agent, .error e)
  | .ok () => agent.addPeers peers

/-- `mark_queried`: the node is no longer active. Nothing asks whether it ever was. -/
def markQueried (agent : RustyDiscoveryAgent) (nodeId : List UInt8) : RustyDiscoveryAgent × Except String Unit :=
  match validateBytes nodeId "RustyDiscoveryAgent.mark_queried:node_id" with
  | .error e => (agent, .error e)
  | .ok () =>
      ({ agent with queried := insert nodeId agent.queried, activeQueries := agent.activeQueries.erase nodeId }, .ok ())

/-- `mark_failed`: a failed node counts as queried, and leaves the list. -/
def markFailed (agent : RustyDiscoveryAgent) (nodeId : List UInt8) : RustyDiscoveryAgent × Except String Unit :=
  match validateBytes nodeId "RustyDiscoveryAgent.mark_failed:node_id" with
  | .error e => (agent, .error e)
  | .ok () =>
      ({ agent with
          queried := insert nodeId agent.queried
          activeQueries := agent.activeQueries.erase nodeId
          shortlist := agent.shortlist.eraseP fun c => c.id = nodeId }, .ok ())

/-- The loop of `get_next_peers`, with the batch and the active queries it leaves. -/
def nextPeers (alpha : Nat) (queried : Finset (List UInt8)) :
    List Contact → Nat → Finset (List UInt8) → List Contact × Finset (List UInt8)
  | [], _, active => ([], active)
  | contact :: shortlist, count, active =>
      if alpha ≤ count then ([], active)
      else if contact.id ∉ queried ∧ contact.id ∉ active then
        let (batch, active) := nextPeers alpha queried shortlist (count + 1) (insert contact.id active)
        (contact :: batch, active)
      else nextPeers alpha queried shortlist count active

/-- `get_next_peers`: at most `alpha` nodes of the list that are neither queried nor active, nearest first; they are
active from then on. -/
def getNextPeers (agent : RustyDiscoveryAgent) : RustyDiscoveryAgent × List Contact :=
  let (batch, active) := nextPeers agent.alpha agent.queried agent.shortlist 0 agent.activeQueries
  ({ agent with activeQueries := active }, batch)

/-- `is_finished`: nobody is being asked, and the first twenty of the list have all been queried. -/
def isFinished (agent : RustyDiscoveryAgent) : Bool :=
  if agent.activeQueries = ∅ then
    (agent.shortlist.take (min agent.shortlist.length agent.kParam)).all fun c => decide (c.id ∈ agent.queried)
  else false

/-- `get_k_closest`: the front of the list. It does not ask whether the search is finished. -/
def getKClosest (agent : RustyDiscoveryAgent) : List Contact := agent.shortlist.take agent.kParam

end RustyDiscoveryAgent

/-! ## A search -/

/-- The agent, the nodes it ever heard of, and those it handed out to be asked, newest first. -/
structure Search where
  agent : RustyDiscoveryAgent
  learned : Set (List UInt8)
  asked : List (List UInt8)

/-- The calls of a search, in any order and with any arguments: nothing makes a caller report only nodes that it was
given. -/
inductive SearchOp where
  | addResponse (peers : List Contact)
  | markQueried (nodeId : List UInt8)
  | markFailed (nodeId : List UInt8)
  | getNextPeers

/-- A peer that passes the checks of `add_response`. -/
def fits (peer : Contact) : Bool := decide (peer.id.length ≤ maxBytesLen ∧ peer.address.utf8ByteSize ≤ maxStringLen)

/-- The peers of a response that are added: those before the first that is too large, and none of a list too long. -/
def accepted (peers : List Contact) : List Contact :=
  if maxArrayLen < peers.length then []
  else peers.takeWhile fits

/-- What a list of peers tells the node of: everyone but the target. -/
def heard (targetId : List UInt8) (peers : List Contact) : Set (List UInt8) :=
  {id | id ∈ peers.map Contact.id ∧ id ≠ targetId}

/-- One call, with the ghost record kept beside it. A call that fails has the effect it had before it failed. -/
def SearchOp.run (s : Search) : SearchOp → Search
  | .addResponse peers =>
      { s with agent := (s.agent.addResponse peers).1, learned := s.learned ∪ heard s.agent.targetId (accepted peers) }
  | .markQueried nodeId => { s with agent := (s.agent.markQueried nodeId).1 }
  | .markFailed nodeId => { s with agent := (s.agent.markFailed nodeId).1 }
  | .getNextPeers =>
      { s with agent := s.agent.getNextPeers.1, asked := (s.agent.getNextPeers.2.map Contact.id).reverse ++ s.asked }

/-- A search starts at an agent that `new` returned, and no call is ever refused. -/
def searchSystem : System Search SearchOp where
  init s := ∃ targetId peers, RustyDiscoveryAgent.new targetId peers = .ok s.agent ∧
    s.learned = heard targetId peers ∧ s.asked = []
  step op s := some (op.run s)

/-! ## One contact more -/

namespace RustyDiscoveryAgent

variable {agent : RustyDiscoveryAgent} {contact : Contact} {all : Set (List UInt8)}

/-- The ids of the list, nearest first. -/
def ids (agent : RustyDiscoveryAgent) : List (List UInt8) := agent.shortlist.map Contact.id

/-- Taking contacts in touches the shortlist only. -/
theorem addContact_eq (agent : RustyDiscoveryAgent) (contact : Contact) :
    ∃ shortlist, agent.addContact contact = { agent with shortlist := shortlist } := by
  unfold addContact
  split
  · exact ⟨agent.shortlist, rfl⟩
  · split
    · exact ⟨agent.shortlist, rfl⟩
    · exact ⟨_, rfl⟩

/-- Taking peers in changes the list alone. -/
theorem foldl_addContact_eq (agent : RustyDiscoveryAgent) (peers : List Contact) :
    ∃ shortlist, peers.foldl addContact agent = { agent with shortlist := shortlist } := by
  induction peers generalizing agent with
  | nil => exact ⟨agent.shortlist, rfl⟩
  | cons peer peers ih =>
      obtain ⟨first, hfirst⟩ := addContact_eq agent peer
      obtain ⟨rest, hrest⟩ := ih (agent.addContact peer)
      refine ⟨rest, ?_⟩
      rw [List.foldl_cons, hrest, hfirst]

/-- A new id is put behind the others, and all are sorted and cut. -/
theorem addContact_ids (htarget : contact.id ≠ agent.targetId) (hnew : contact.id ∉ agent.ids) :
    (agent.addContact contact).ids
      = ((agent.ids ++ [contact.id]).mergeSort (nearer agent.targetId)).take (agent.kParam * 3) := by
  have hany : ¬(agent.shortlist.any fun c => c.id = contact.id) = true := by
    intro hany
    obtain ⟨c, hc, hid⟩ := any_id_iff.mp hany
    exact hnew (List.mem_map.mpr ⟨c, hc, hid⟩)
  unfold addContact
  rw [if_neg htarget, if_neg hany]
  show List.map Contact.id (List.take _ _) = _
  have hsort := List.map_mergeSort (l := agent.shortlist ++ [contact]) (f := Contact.id)
    (r := fun a b => decide (a.xorDistance agent.targetId ≤ b.xorDistance agent.targetId))
    (s := nearer agent.targetId) fun a _ b _ => rfl
  rw [List.map_take, hsort, List.map_append, List.map_singleton]
  rfl

/-- So the list has the nearest of one more. -/
theorem addContact_nearest (contact : Contact)
    (h : Nearest (nearer agent.targetId) (agent.kParam * 3) agent.ids all) :
    Nearest (nearer agent.targetId) (agent.kParam * 3) (agent.addContact contact).ids
      (all ∪ heard agent.targetId [contact]) := by
  by_cases htarget : contact.id = agent.targetId
  · have hheard : heard agent.targetId [contact] = ∅ := by
      apply Set.eq_empty_of_forall_notMem
      rintro id ⟨hid, hne⟩
      exact hne ((List.mem_singleton.mp hid).trans htarget)
    rw [hheard, Set.union_empty]
    unfold addContact
    rwa [if_pos htarget]
  · have hheard : heard agent.targetId [contact] = {contact.id} := by
      ext id
      constructor
      · exact fun hid => List.mem_singleton.mp hid.1
      · rintro rfl
        exact ⟨List.mem_singleton.mpr rfl, htarget⟩
    rw [hheard, Set.union_singleton]
    by_cases hknown : contact.id ∈ agent.ids
    · obtain ⟨c, hc, hid⟩ := List.mem_map.mp hknown
      rw [Set.insert_eq_of_mem (h.sub _ hknown)]
      unfold addContact
      rwa [if_neg htarget, if_pos (any_id_iff.mpr ⟨c, hc, hid⟩)]
    · rw [addContact_ids htarget hknown]
      exact h.insert (nearer_trans _) (nearer_total _) hknown

/-- The first peer, and then the others. -/
theorem heard_cons (targetId : List UInt8) (peer : Contact) (peers : List Contact) :
    heard targetId (peer :: peers) = heard targetId [peer] ∪ heard targetId peers := by
  ext id
  simp only [heard, List.map_cons, List.map_nil, List.mem_cons, List.not_mem_nil, or_false, Set.mem_ofPred_eq,
    Set.mem_union]
  constructor
  · rintro ⟨hid | hid, hne⟩
    · exact .inl ⟨hid, hne⟩
    · exact .inr ⟨hid, hne⟩
  · rintro (⟨hid, hne⟩ | ⟨hid, hne⟩)
    · exact ⟨.inl hid, hne⟩
    · exact ⟨.inr hid, hne⟩

/-- However often the list was cut off on the way, it holds the nearest of all that was taken in. -/
theorem foldl_addContact_nearest (agent : RustyDiscoveryAgent) (peers : List Contact)
    (h : Nearest (nearer agent.targetId) (agent.kParam * 3) agent.ids all) :
    Nearest (nearer agent.targetId) (agent.kParam * 3) (peers.foldl addContact agent).ids
      (all ∪ heard agent.targetId peers) := by
  induction peers generalizing agent all with
  | nil =>
      have hnil : heard agent.targetId [] = ∅ := Set.eq_empty_of_forall_notMem fun id hid => List.not_mem_nil hid.1
      rw [hnil, Set.union_empty]
      exact h
  | cons peer peers ih =>
      obtain ⟨shortlist, hfirst⟩ := addContact_eq agent peer
      have hstep := addContact_nearest peer h
      have hrest := ih (agent.addContact peer) (by rw [hfirst] at hstep ⊢; exact hstep)
      rw [hfirst] at hrest
      rw [List.foldl_cons, heard_cons, ← Set.union_assoc, hfirst]
      exact hrest

/-- Whom the list has was there or was taken in. -/
theorem mem_foldl_addContact {c : Contact} (agent : RustyDiscoveryAgent) (peers : List Contact)
    (hc : c ∈ (peers.foldl addContact agent).shortlist) : c ∈ agent.shortlist ++ peers := by
  induction peers generalizing agent with
  | nil => exact List.mem_append_left [] hc
  | cons peer peers ih =>
      have hstep : (agent.addContact peer).shortlist ⊆ agent.shortlist ++ [peer] := by
        unfold addContact
        split
        · exact List.subset_append_left _ _
        · split
          · exact List.subset_append_left _ _
          · exact fun x hx => List.mem_mergeSort.mp (List.mem_of_mem_take hx)
      rcases List.mem_append.mp (ih (agent.addContact peer) hc) with hold | hnew
      · have := hstep hold
        simp only [List.mem_append, List.mem_cons] at this ⊢
        tauto
      · exact List.mem_append_right _ (List.mem_cons_of_mem peer hnew)

/-- Ids that are equally far are the same. -/
theorem zipWith_xor_cancel {a b target : List UInt8} (ha : a.length ≤ target.length) (hb : b.length ≤ target.length)
    (h : List.zipWith (· ^^^ ·) a target = List.zipWith (· ^^^ ·) b target) : a = b := by
  have hlen : a.length = b.length := by
    have := congrArg List.length h
    rw [List.length_zipWith, List.length_zipWith] at this
    omega
  refine List.ext_getElem hlen fun i hi hi' => ?_
  have hxor : (List.zipWith (· ^^^ ·) a target)[i]? = (List.zipWith (· ^^^ ·) b target)[i]? := by rw [h]
  rw [List.getElem?_zipWith, List.getElem?_zipWith, List.getElem?_eq_getElem hi, List.getElem?_eq_getElem hi',
    List.getElem?_eq_getElem (Nat.lt_of_lt_of_le hi ha)] at hxor
  exact (UInt8.xor_left_inj _).mp (Option.some.inj hxor)

/-- No two ids that are at most as long as the target are equally far from it. -/
theorem nearer_antisymm {target a b : List UInt8} (ha : a.length ≤ target.length) (hb : b.length ≤ target.length)
    (hab : nearer target a b = true) (hba : nearer target b a = true) : a = b :=
  zipWith_xor_cancel ha hb (List.le_antisymm (of_decide_eq_true hab) (of_decide_eq_true hba))

/-- The ids that the list is chosen from when these peers are taken in. -/
def known (agent : RustyDiscoveryAgent) (peers : List Contact) : List (List UInt8) :=
  agent.ids ++ (peers.map Contact.id).filter fun id => id ≠ agent.targetId

/-- `kept` is what ranking all of them at once gives. The ids are no longer than the target, so no two of them are equally
far, and the contacts differ in nothing else. -/
structure Ranked (agent : RustyDiscoveryAgent) (peers kept : List Contact) : Prop where
  old : agent.ids.IsChain (fun a b => nearer agent.targetId b a = false) ∧ agent.ids.length ≤ agent.kParam * 3
  short : ∀ id ∈ agent.known peers, id.length ≤ agent.targetId.length
  first : (kept.map Contact.id).IsChain (fun a b => nearer agent.targetId b a = false) ∧
    (kept.map Contact.id).length ≤ agent.kParam * 3
  among : ∀ id ∈ kept.map Contact.id, id ∈ agent.known peers
  rest : ∀ id ∈ agent.known peers, id ∉ kept.map Contact.id →
    (kept.map Contact.id).length = agent.kParam * 3 ∧ ∀ a ∈ kept.map Contact.id, nearer agent.targetId a id = true
  same : ∀ c ∈ agent.shortlist ++ peers ++ kept, c.address = "" ∧ c.port = 0

/-- Ids are compared byte by byte. -/
theorem lawfulBEq_ids : LawfulBEq (List UInt8) := inferInstance

instance (agent : RustyDiscoveryAgent) (peers kept : List Contact) : Decidable (agent.Ranked peers kept) :=
  haveI := lawfulBEq_ids
  decidable_of_iff
    ((agent.ids.IsChain (fun a b => nearer agent.targetId b a = false) ∧ agent.ids.length ≤ agent.kParam * 3) ∧
      (∀ id ∈ agent.known peers, id.length ≤ agent.targetId.length) ∧
      ((kept.map Contact.id).IsChain (fun a b => nearer agent.targetId b a = false) ∧
        (kept.map Contact.id).length ≤ agent.kParam * 3) ∧
      (∀ id ∈ kept.map Contact.id, id ∈ agent.known peers) ∧
      (∀ id ∈ agent.known peers, id ∉ kept.map Contact.id → (kept.map Contact.id).length = agent.kParam * 3 ∧
        ∀ a ∈ kept.map Contact.id, nearer agent.targetId a id = true) ∧
      ∀ c ∈ agent.shortlist ++ peers ++ kept, c.address = "" ∧ c.port = 0)
    ⟨fun ⟨hold, hshort, hfirst, hamong, hrest, hsame⟩ => ⟨hold, hshort, hfirst, hamong, hrest, hsame⟩,
      fun ⟨hold, hshort, hfirst, hamong, hrest, hsame⟩ => ⟨hold, hshort, hfirst, hamong, hrest, hsame⟩⟩

/-- Contacts without an address are told apart by their ids. -/
theorem eq_of_map_id {l l' : List Contact} (hids : l.map Contact.id = l'.map Contact.id)
    (hsame : ∀ c ∈ l ++ l', c.address = "" ∧ c.port = 0) : l = l' := by
  have hlen : l.length = l'.length := by simpa using congrArg List.length hids
  refine List.ext_getElem hlen fun i hi hi' => ?_
  have hid : (l.map Contact.id)[i]? = (l'.map Contact.id)[i]? := by rw [hids]
  rw [List.getElem?_map, List.getElem?_map, List.getElem?_eq_getElem hi, List.getElem?_eq_getElem hi'] at hid
  obtain ⟨haddress, hport⟩ := hsame _ (List.mem_append_left _ (List.getElem_mem hi))
  obtain ⟨haddress', hport'⟩ := hsame _ (List.mem_append_right _ (List.getElem_mem hi'))
  generalize l[i] = c at *
  generalize l'[i] = d at *
  obtain ⟨id, address, port⟩ := c
  obtain ⟨id', address', port'⟩ := d
  obtain rfl : id = id' := Option.some.inj hid
  obtain rfl : address = address' := haddress.trans haddress'.symm
  obtain rfl : port = port' := hport.trans hport'.symm
  rfl

/-- Both ways leave the same ids, since the nearest of a set are determined when no two are equally far. -/
theorem Ranked.ids_foldl_addContact {agent : RustyDiscoveryAgent} {peers kept : List Contact}
    (h : agent.Ranked peers kept) : (peers.foldl addContact agent).ids = kept.map Contact.id := by
  have hsorted := Nearest.sorted_of_chain (nearer_trans agent.targetId) (nearer_total agent.targetId) h.old.1
  have hold : Nearest (nearer agent.targetId) (agent.kParam * 3) agent.ids {id | id ∈ agent.ids} :=
    ⟨hsorted.1, hsorted.2, fun _ hid => hid, h.old.2, fun _ hid hout => absurd hid hout⟩
  have hnearest := foldl_addContact_nearest agent peers hold
  have hunion : {id | id ∈ agent.ids} ∪ heard agent.targetId peers = {id | id ∈ agent.known peers} := by
    ext id
    simp only [heard, known, Set.mem_union, Set.mem_ofPred_eq, List.mem_append, List.mem_filter, decide_eq_true_iff]
  rw [hunion] at hnearest
  have hascending := Nearest.sorted_of_chain (nearer_trans agent.targetId) (nearer_total agent.targetId) h.first.1
  have hfirst : Nearest (nearer agent.targetId) (agent.kParam * 3) (kept.map Contact.id)
      {id | id ∈ agent.known peers} := ⟨hascending.1, hascending.2, h.among, h.first.2, h.rest⟩
  exact hnearest.unique (fun a ha b hb => nearer_antisymm (h.short a ha) (h.short b hb)) hfirst

/-- Taking in peer after peer gives what ranking all of them at once gives. -/
theorem Ranked.foldl_addContact {agent : RustyDiscoveryAgent} {peers kept : List Contact} (h : agent.Ranked peers kept) :
    peers.foldl addContact agent = { agent with shortlist := kept } := by
  have hlist : (peers.foldl addContact agent).shortlist = kept := by
    refine eq_of_map_id h.ids_foldl_addContact fun c hc => h.same c ?_
    rcases List.mem_append.mp hc with hleft | hright
    · exact List.mem_append_left _ (mem_foldl_addContact agent peers hleft)
    · exact List.mem_append_right _ hright
  obtain ⟨shortlist, heq⟩ := foldl_addContact_eq agent peers
  rw [heq] at hlist ⊢
  exact congrArg (fun l => { agent with shortlist := l }) hlist

/-- When the check of some bytes passes. -/
theorem validateBytes_ok (b : List UInt8) (context : String) :
    validateBytes b context = .ok () ↔ b.length ≤ maxBytesLen := by
  unfold validateBytes
  split
  · next h => exact ⟨fun he => (by cases he), fun hle => absurd h (Nat.not_lt.mpr hle)⟩
  · next h => exact ⟨fun _ => Nat.not_lt.mp h, fun _ => rfl⟩

/-- And that of a text. -/
theorem validateString_ok (s context : String) :
    validateString s context = .ok () ↔ s.utf8ByteSize ≤ maxStringLen := by
  unfold validateString
  split
  · next h => exact ⟨fun he => (by cases he), fun hle => absurd h (Nat.not_lt.mpr hle)⟩
  · next h => exact ⟨fun _ => Nat.not_lt.mp h, fun _ => rfl⟩

/-- A peer passes if its parts fit. -/
theorem validatePeer_ok (context : String) (peer : Contact) :
    validatePeer context peer = .ok () ↔ fits peer = true := by
  unfold validatePeer fits
  rw [decide_eq_true_iff, ← validateBytes_ok peer.id (context ++ "peer_id"),
    ← validateString_ok peer.address (context ++ "peer_addr")]
  cases validateBytes peer.id (context ++ "peer_id") with
  | error e => exact ⟨fun he => (by cases he), fun he => (by cases he.1)⟩
  | ok u => exact ⟨fun he => ⟨rfl, he⟩, fun he => he.2⟩

/-- Peers are taken in up to the first that does not fit. -/
theorem addPeers_fst (agent : RustyDiscoveryAgent) (peers : List Contact) :
    (agent.addPeers peers).1 = (peers.takeWhile fits).foldl addContact agent := by
  induction peers generalizing agent with
  | nil => rfl
  | cons peer peers ih =>
      unfold addPeers
      cases hvalid : validatePeer "RustyDiscoveryAgent.add_response:" peer with
      | error e =>
          have hbad : ¬fits peer = true := by
            rw [← validatePeer_ok "RustyDiscoveryAgent.add_response:", hvalid]
            exact fun h => by cases h
          rw [List.takeWhile_cons_of_neg hbad]
          rfl
      | ok u =>
          rw [List.takeWhile_cons_of_pos ((validatePeer_ok _ peer).mp hvalid), List.foldl_cons]
          exact ih (agent.addContact peer)

/-- A response adds the peers it accepts, whether or not it fails. -/
theorem addResponse_fst (agent : RustyDiscoveryAgent) (peers : List Contact) :
    (agent.addResponse peers).1 = (accepted peers).foldl addContact agent := by
  unfold addResponse validateArrayLen accepted
  split
  · next h =>
      split at h
      · next hlong => rw [if_pos hlong]; rfl
      · cases h
  · next h =>
      split at h
      · cases h
      · next hshort =>
          rw [if_neg hshort]
          exact addPeers_fst agent peers

/-- A call on an id that is too large changes nothing. -/
theorem markQueried_fst (agent : RustyDiscoveryAgent) (nodeId : List UInt8) :
    (agent.markQueried nodeId).1 = agent ∨
      (agent.markQueried nodeId).1 =
        { agent with queried := insert nodeId agent.queried, activeQueries := agent.activeQueries.erase nodeId } := by
  unfold markQueried
  split
  · exact .inl rfl
  · exact .inr rfl

/-- A node that failed is taken off the list, or nothing changes. -/
theorem markFailed_fst (agent : RustyDiscoveryAgent) (nodeId : List UInt8) :
    (agent.markFailed nodeId).1 = agent ∨
      (agent.markFailed nodeId).1 =
        { agent with
          queried := insert nodeId agent.queried
          activeQueries := agent.activeQueries.erase nodeId
          shortlist := agent.shortlist.eraseP fun c => c.id = nodeId } := by
  unfold markFailed
  split
  · exact .inl rfl
  · exact .inr rfl

/-! ## A batch -/

section Batch

variable (alpha : Nat) (queried : Finset (List UInt8))

/-- What `get_next_peers` hands out was neither queried nor active, comes from the list, and is active from then on. -/
theorem mem_nextPeers (shortlist : List Contact) (count : Nat) (active : Finset (List UInt8)) :
    (∀ c ∈ (nextPeers alpha queried shortlist count active).1,
        c ∈ shortlist ∧ c.id ∉ queried ∧ c.id ∉ active) ∧
      ∀ id, id ∈ (nextPeers alpha queried shortlist count active).2 ↔
        id ∈ active ∨ id ∈ (nextPeers alpha queried shortlist count active).1.map Contact.id := by
  induction shortlist generalizing count active with
  | nil =>
      refine ⟨fun c hc => absurd hc List.not_mem_nil, fun id => ?_⟩
      simp [nextPeers]
  | cons contact shortlist ih =>
      unfold nextPeers
      split
      · refine ⟨fun c hc => absurd hc List.not_mem_nil, fun id => ?_⟩
        simp
      · split
        · next hfree =>
            obtain ⟨hbatch, hactive⟩ := ih (count + 1) (insert contact.id active)
            refine ⟨fun c hc => ?_, fun id => ?_⟩
            · rcases List.mem_cons.mp hc with rfl | hc
              · exact ⟨List.mem_cons_self, hfree⟩
              · obtain ⟨hmem, hq, ha⟩ := hbatch c hc
                exact ⟨List.mem_cons_of_mem contact hmem, hq, fun h => ha (Finset.mem_insert_of_mem h)⟩
            · rw [List.map_cons, List.mem_cons]
              refine (hactive id).trans ?_
              rw [Finset.mem_insert]
              tauto
        · obtain ⟨hbatch, hactive⟩ := ih count active
          exact ⟨fun c hc => ⟨List.mem_cons_of_mem contact (hbatch c hc).1, (hbatch c hc).2⟩, hactive⟩

/-- Nobody stands twice in a batch: who is taken is active when the loop comes to the next. -/
theorem nodup_nextPeers (shortlist : List Contact) (count : Nat) (active : Finset (List UInt8)) :
    ((nextPeers alpha queried shortlist count active).1.map Contact.id).Nodup := by
  induction shortlist generalizing count active with
  | nil => exact List.nodup_nil
  | cons contact shortlist ih =>
      unfold nextPeers
      split
      · exact List.nodup_nil
      · split
        · show (contact.id :: (nextPeers alpha queried shortlist (count + 1) (insert contact.id active)).1.map
            Contact.id).Nodup
          refine List.nodup_cons.mpr ⟨fun hid => ?_, ih (count + 1) (insert contact.id active)⟩
          obtain ⟨c, hc, hid⟩ := List.mem_map.mp hid
          have hfree := ((mem_nextPeers alpha queried shortlist (count + 1) (insert contact.id active)).1 c hc).2.2
          exact hfree (hid ▸ Finset.mem_insert_self contact.id active)
        · exact ih count active

/-- An empty batch means that there was nobody left to ask. -/
theorem nextPeers_eq_nil {alpha : Nat} {queried : Finset (List UInt8)} {shortlist : List Contact} {active : Finset (List UInt8)} (halpha : 0 < alpha)
    (h : (nextPeers alpha queried shortlist 0 active).1 = []) :
    ∀ c ∈ shortlist, c.id ∈ queried ∨ c.id ∈ active := by
  induction shortlist with
  | nil => exact fun c hc => absurd hc List.not_mem_nil
  | cons contact shortlist ih =>
      unfold nextPeers at h
      rw [if_neg (Nat.not_le.mpr halpha)] at h
      split at h
      · cases h
      · next hbusy =>
          intro c hc
          rcases List.mem_cons.mp hc with rfl | hc
          · tauto
          · exact ih h c hc

end Batch

end RustyDiscoveryAgent

/-! ## Whole searches -/

/-- **What holds at every point of a search.** The list is always the ranking of its own members (`list`): each call
sorts and cuts, or removes one. A node is handed out only when it is neither queried nor active, and becomes active
with that (`asked`); from then on it is one of the two for ever, because only `mark_queried` and `mark_failed` end its
activity and both make it queried. So nobody is handed out a second time (`once`). -/
structure SearchInv (s : Search) : Prop where
  limits : s.agent.kParam = kParam ∧ s.agent.alpha = 3
  list : Nearest (nearer s.agent.targetId) (kParam * 3) s.agent.ids {id | id ∈ s.agent.ids}
  known : ∀ id ∈ s.agent.ids, id ∈ s.learned
  target : s.agent.targetId ∉ s.learned
  asked : ∀ id ∈ s.asked, id ∈ s.learned ∧ (id ∈ s.agent.queried ∨ id ∈ s.agent.activeQueries)
  once : s.asked.Nodup

/-- The target itself is not counted. -/
theorem target_not_mem_heard (targetId : List UInt8) (peers : List Contact) : targetId ∉ heard targetId peers :=
  fun h => h.2 rfl

/-- A new search takes its peers in. -/
theorem new_eq {targetId : List UInt8} {peers : List Contact} {agent : RustyDiscoveryAgent}
    (h : RustyDiscoveryAgent.new targetId peers = .ok agent) :
    agent = peers.foldl RustyDiscoveryAgent.addContact (.fresh targetId) := by
  unfold RustyDiscoveryAgent.new at h
  cases hbytes : validateBytes targetId "RustyDiscoveryAgent:target_id" with
  | error e => rw [hbytes] at h; cases h
  | ok u =>
      cases hlen : validateArrayLen peers.length "RustyDiscoveryAgent:initial_peers" with
      | error e => rw [hbytes, hlen] at h; cases h
      | ok u =>
          cases hpeers : peers.forM (validatePeer "RustyDiscoveryAgent:") with
          | error e => rw [hbytes, hlen, hpeers] at h; cases h
          | ok u =>
              rw [hbytes, hlen, hpeers] at h
              exact (Except.ok.inj h).symm

/-- At the start the list holds the nearest of the initial peers. -/
theorem init_nearest {s : Search} (h : searchSystem.init s) :
    Nearest (nearer s.agent.targetId) (kParam * 3) s.agent.ids s.learned ∧ SearchInv s := by
  obtain ⟨targetId, peers, hnew, hlearned, hasked⟩ := h
  have hagent := new_eq hnew
  have hempty : Nearest (nearer targetId) (kParam * 3) (RustyDiscoveryAgent.fresh targetId).ids ∅ := Nearest.empty _ _
  have hnearest := RustyDiscoveryAgent.foldl_addContact_nearest (.fresh targetId) peers hempty
  obtain ⟨shortlist, hshort⟩ := (RustyDiscoveryAgent.fresh targetId).foldl_addContact_eq peers
  rw [Set.empty_union, ← hagent, show (RustyDiscoveryAgent.fresh targetId).targetId = targetId from rfl,
    ← hlearned] at hnearest
  rw [hshort] at hagent
  have htarget : s.agent.targetId = targetId := by rw [hagent]; rfl
  have hlist : Nearest (nearer s.agent.targetId) (kParam * 3) s.agent.ids s.learned := htarget ▸ hnearest
  refine ⟨hlist, ?_⟩
  exact
    { limits := by rw [hagent]; exact ⟨rfl, rfl⟩
      list := hlist.of_sublist (List.Sublist.refl _)
      known := hlist.sub
      target := by rw [hlearned, htarget]; exact target_not_mem_heard targetId peers
      asked := fun id hid => by rw [hasked] at hid; exact absurd hid List.not_mem_nil
      once := hasked ▸ List.nodup_nil }

/-- No node is marked as failed. -/
def NoFailure (op : SearchOp) (_ : Search) : Prop := ∀ nodeId, op ≠ .markFailed nodeId

section Step

variable {s : Search}

/-- An answer tells of more peers, of which the list keeps the nearest. -/
theorem SearchInv.addResponse (h : SearchInv s) (peers : List Contact) :
    SearchInv (SearchOp.run s (.addResponse peers)) := by
  obtain ⟨shortlist, heq⟩ := s.agent.foldl_addContact_eq (accepted peers)
  have hagent : (s.agent.addResponse peers).1 = { s.agent with shortlist := shortlist } :=
    (s.agent.addResponse_fst peers).trans heq
  have hlist := h.list
  rw [← h.limits.1] at hlist
  have hgrown := RustyDiscoveryAgent.foldl_addContact_nearest s.agent (accepted peers) hlist
  rw [heq, h.limits.1] at hgrown
  have hids : (SearchOp.run s (.addResponse peers)).agent = { s.agent with shortlist := shortlist } := hagent
  refine ⟨hids ▸ h.limits, ?_, ?_, ?_, fun id hid => ?_, h.once⟩
  · rw [hids]
    exact hgrown.of_sublist (List.Sublist.refl _)
  · intro id hid
    rw [hids] at hid
    rcases hgrown.sub id hid with hold | hnew
    · exact .inl (h.known id hold)
    · exact .inr hnew
  · rw [hids]
    rintro (hold | hnew)
    · exact h.target hold
    · exact target_not_mem_heard _ _ hnew
  · rw [hids]
    exact ⟨.inl (h.asked id hid).1, (h.asked id hid).2⟩

/-- A node that was queried is active no more. -/
theorem SearchInv.markQueried (h : SearchInv s) (nodeId : List UInt8) :
    SearchInv (SearchOp.run s (.markQueried nodeId)) := by
  show SearchInv { s with agent := (s.agent.markQueried nodeId).1 }
  rcases s.agent.markQueried_fst nodeId with hsame | hmarked
  · rw [hsame]
    exact h
  · rw [hmarked]
    refine ⟨h.limits, h.list, h.known, h.target, fun id hid => ⟨(h.asked id hid).1, ?_⟩, h.once⟩
    -- who stops being active is queried
    show id ∈ insert nodeId s.agent.queried ∨ id ∈ s.agent.activeQueries.erase nodeId
    rw [Finset.mem_insert, Finset.mem_erase]
    have := (h.asked id hid).2
    tauto

/-- A node that failed leaves the list, and is queried. -/
theorem SearchInv.markFailed (h : SearchInv s) (nodeId : List UInt8) :
    SearchInv (SearchOp.run s (.markFailed nodeId)) := by
  show SearchInv { s with agent := (s.agent.markFailed nodeId).1 }
  rcases s.agent.markFailed_fst nodeId with hsame | hmarked
  · rw [hsame]
    exact h
  · have hsub : ((s.agent.shortlist.eraseP fun c => c.id = nodeId).map Contact.id).Sublist s.agent.ids :=
      List.eraseP_sublist.map Contact.id
    rw [hmarked]
    refine ⟨h.limits, h.list.of_sublist hsub, fun id hid => h.known id (hsub.subset hid), h.target,
      fun id hid => ⟨(h.asked id hid).1, ?_⟩, h.once⟩
    show id ∈ insert nodeId s.agent.queried ∨ id ∈ s.agent.activeQueries.erase nodeId
    rw [Finset.mem_insert, Finset.mem_erase]
    have := (h.asked id hid).2
    tauto

/-- Whoever is handed out was neither queried nor active. -/
theorem SearchInv.getNextPeers (h : SearchInv s) : SearchInv (SearchOp.run s .getNextPeers) := by
  have hmem := RustyDiscoveryAgent.mem_nextPeers s.agent.alpha s.agent.queried s.agent.shortlist 0 s.agent.activeQueries
  have hnodup := RustyDiscoveryAgent.nodup_nextPeers s.agent.alpha s.agent.queried s.agent.shortlist 0 s.agent.activeQueries
  refine ⟨h.limits, h.list, h.known, h.target, fun id hid => ?_, ?_⟩
  · rcases List.mem_append.mp hid with hnew | hold
    · have hbatch := List.mem_reverse.mp hnew
      obtain ⟨c, hc, rfl⟩ := List.mem_map.mp hbatch
      exact ⟨h.known c.id (List.mem_map_of_mem (hmem.1 c hc).1), .inr ((hmem.2 c.id).mpr (.inr hbatch))⟩
    · refine ⟨(h.asked id hold).1, (h.asked id hold).2.imp_right fun hactive => ?_⟩
      exact (hmem.2 id).mpr (.inl hactive)
  · -- who was asked before is queried or active, and the loop passes over those
    refine (List.nodup_reverse.mpr hnodup).append h.once fun id hnew hold => ?_
    obtain ⟨c, hc, rfl⟩ := List.mem_map.mp (List.mem_reverse.mp hnew)
    obtain ⟨-, hqueried, hactive⟩ := hmem.1 c hc
    exact (h.asked c.id hold).2.elim hqueried hactive

/-- **The step lemma.** -/
theorem SearchInv.run (h : SearchInv s) (op : SearchOp) : SearchInv (op.run s) := by
  cases op with
  | addResponse peers => exact h.addResponse peers
  | markQueried nodeId => exact h.markQueried nodeId
  | markFailed nodeId => exact h.markFailed nodeId
  | getNextPeers => exact h.getNextPeers

/-- Where no node fails, a step keeps the list the nearest of everything heard. -/
theorem nearest_run {op : SearchOp} (hinv : SearchInv s) (hok : NoFailure op s)
    (h : Nearest (nearer s.agent.targetId) (kParam * 3) s.agent.ids s.learned) :
    Nearest (nearer (op.run s).agent.targetId) (kParam * 3) (op.run s).agent.ids (op.run s).learned := by
  cases op with
  | addResponse peers =>
      obtain ⟨shortlist, heq⟩ := s.agent.foldl_addContact_eq (accepted peers)
      have hagent : (SearchOp.run s (.addResponse peers)).agent = { s.agent with shortlist := shortlist } :=
        (s.agent.addResponse_fst peers).trans heq
      rw [← hinv.limits.1] at h
      have hgrown := RustyDiscoveryAgent.foldl_addContact_nearest s.agent (accepted peers) h
      rw [heq, hinv.limits.1] at hgrown
      rw [hagent]
      exact hgrown
  | markQueried nodeId =>
      show Nearest (nearer (s.agent.markQueried nodeId).1.targetId) _ (s.agent.markQueried nodeId).1.ids s.learned
      rcases s.agent.markQueried_fst nodeId with hsame | hmarked
      · rw [hsame]
        exact h
      · rw [hmarked]
        exact h
  | markFailed nodeId => exact absurd rfl (hok nodeId)
  | getNextPeers => exact h

end Step

/-- **In every search** the list stays sorted, without repetition, no longer than sixty and free of the target; no
node is handed out twice; and a search that has nobody left to ask and waits for nobody is finished. All of this is
`SearchInv`, which each call keeps. -/
theorem search_sound {s : Search} (h : searchSystem.Reachable (fun _ _ => True) s) :
    SearchInv s ∧
      (s.agent.activeQueries = ∅ → s.agent.getNextPeers.2 = [] → s.agent.isFinished = true) := by
  have hinv : SearchInv s := by
    refine h.invariant (fun s hs => (init_nearest hs).2) ?_
    intro s op s' hinv _ hstep
    obtain rfl := Option.some.inj hstep
    exact hinv.run op
  refine ⟨hinv, fun hidle hnobody => ?_⟩
  have hall := RustyDiscoveryAgent.nextPeers_eq_nil (by rw [hinv.limits.2]; decide) hnobody
  unfold RustyDiscoveryAgent.isFinished
  rw [if_pos hidle, List.all_eq_true]
  intro c hc
  have hdone := hall c (List.mem_of_mem_take hc)
  rw [hidle] at hdone
  exact decide_eq_true (hdone.resolve_right (Finset.notMem_empty c.id))

/-- **A finished search without failures reports the twenty nearest** of all the nodes it ever heard of, and has
queried each of them. Whom the list lost was cut off behind sixty nearer ones, and a finished search has queried the
first twenty. -/
theorem finished_reports_nearest {s : Search} (h : searchSystem.Reachable NoFailure s)
    (hfinished : s.agent.isFinished = true) :
    Nearest (nearer s.agent.targetId) kParam (s.agent.getKClosest.map Contact.id) s.learned ∧
      ∀ c ∈ s.agent.getKClosest, c.id ∈ s.agent.queried := by
  have hboth : SearchInv s ∧ Nearest (nearer s.agent.targetId) (kParam * 3) s.agent.ids s.learned := by
    refine h.invariant
      (P := fun s => SearchInv s ∧ Nearest (nearer s.agent.targetId) (kParam * 3) s.agent.ids s.learned)
      (fun s hs => (init_nearest hs).symm) ?_
    rintro s op s' ⟨hinv, hlist⟩ hok hstep
    obtain rfl := Option.some.inj hstep
    exact ⟨hinv.run op, nearest_run hinv hok hlist⟩
  obtain ⟨hinv, hlist⟩ := hboth
  constructor
  · show Nearest _ kParam ((s.agent.shortlist.take s.agent.kParam).map Contact.id) s.learned
    rw [hinv.limits.1, List.map_take]
    exact hlist.take (by decide)
  · intro c hc
    unfold RustyDiscoveryAgent.isFinished at hfinished
    split at hfinished
    · rw [List.all_eq_true] at hfinished
      have htake : s.agent.shortlist.take (min s.agent.shortlist.length s.agent.kParam) = s.agent.getKClosest := by
        show _ = s.agent.shortlist.take s.agent.kParam
        rw [Nat.min_comm, ← List.take_take, List.take_length]
      exact of_decide_eq_true (hfinished c (htake ▸ hc))
    · cases hfinished

/-- So many contacts with consecutive ids of one byte. -/
def peersFrom (first count : Nat) : List Contact := (List.range count).map fun i => ⟨[UInt8.ofNat (first + i)], "", 0⟩

/-- An agent that looks for `[0]`. -/
def looking (shortlist : List Contact) (queried activeQueries : Finset (List UInt8)) : RustyDiscoveryAgent :=
  { RustyDiscoveryAgent.fresh [0] with shortlist := shortlist, queried := queried, activeQueries := activeQueries }

/-- An answer to a search that has this list. -/
theorem looking_addResponse {shortlist peers kept : List Contact} {queried activeQueries : Finset (List UInt8)}
    (haccepted : accepted peers = peers) (h : (looking shortlist queried activeQueries).Ranked peers kept) :
    ((looking shortlist queried activeQueries).addResponse peers).1 = looking kept queried activeQueries := by
  rw [RustyDiscoveryAgent.addResponse_fst, haccepted]
  exact h.foldl_addContact

/-- A search at its start, with the target `[0]`. -/
def knowing (peers : List Contact) : Search where
  agent := peers.foldl RustyDiscoveryAgent.addContact (.fresh [0])
  learned := heard [0] peers
  asked := []

/-- It is a start of the runs. -/
theorem knowing_init {peers : List Contact} (h : RustyDiscoveryAgent.new [0] peers = .ok (knowing peers).agent) :
    searchSystem.init (knowing peers) := ⟨[0], peers, h, rfl, rfl⟩

/-- Calls are a run. -/
theorem reachable_foldl {ok : SearchOp → Search → Prop} {s : Search} (hs : searchSystem.init s) (ops : List SearchOp)
    (hok : ∀ op ∈ ops, ∀ t, ok op t) : searchSystem.Reachable ok (ops.foldl SearchOp.run s) := by
  have key : ∀ t, searchSystem.Reachable ok t → searchSystem.Reachable ok (ops.foldl SearchOp.run t) := by
    induction ops with
    | nil => exact fun t ht => ht
    | cons op ops ih =>
        rintro t ⟨past, hrun⟩
        exact ih (fun op hop => hok op (List.mem_cons_of_mem _ hop)) _
          ⟨_, .step hrun (hok op List.mem_cons_self t) rfl⟩
  exact key s ⟨[], .init hs⟩

/-- The node knows four and asks three. One answers, one fails and is named again by another, and one fails late. -/
def quarrel : List SearchOp :=
  [.getNextPeers, .addResponse (peersFrom 8 4), .markQueried [10], .markFailed [11], .getNextPeers,
    .addResponse (peersFrom 11 1), .markQueried [8], .markFailed [12], .markQueried [9], .markQueried [13]]

/-- Where it ends: nobody is asked, and there is nobody to ask. -/
theorem quarrel_agent : (quarrel.foldl SearchOp.run (knowing (peersFrom 10 4))).agent.activeQueries = ∅ ∧
    (quarrel.foldl SearchOp.run (knowing (peersFrom 10 4))).agent.getNextPeers.2 = [] := by
  have hstart : (knowing (peersFrom 10 4)).agent = looking (peersFrom 10 4) ∅ ∅ :=
    RustyDiscoveryAgent.Ranked.foldl_addContact (by decide +kernel)
  have hasked : (looking (peersFrom 10 4) ∅ ∅).getNextPeers.1 = looking (peersFrom 10 4) ∅ {[12], [11], [10]} := by rfl
  have hfirst : ((looking (peersFrom 10 4) ∅ {[12], [11], [10]}).addResponse (peersFrom 8 4)).1
      = looking (peersFrom 8 6) ∅ {[12], [11], [10]} := looking_addResponse (by decide +kernel) (by decide +kernel)
  have hfailed : (((looking (peersFrom 8 6) ∅ {[12], [11], [10]}).markQueried [10]).1.markFailed [11]).1.getNextPeers.1
      = looking (peersFrom 8 3 ++ peersFrom 12 2) {[11], [10]} {[13], [9], [8], [12]} := by rfl
  have hagain : ((looking (peersFrom 8 3 ++ peersFrom 12 2) {[11], [10]} {[13], [9], [8], [12]}).addResponse
      (peersFrom 11 1)).1 = looking (peersFrom 8 6) {[11], [10]} {[13], [9], [8], [12]} :=
    looking_addResponse (by decide +kernel) (by decide +kernel)
  have hagent : (quarrel.foldl SearchOp.run (knowing (peersFrom 10 4))).agent
      = (((((looking (peersFrom 8 6) {[11], [10]} {[13], [9], [8], [12]}).markQueried [8]).1.markFailed [12]).1.markQueried
          [9]).1.markQueried [13]).1 := by
    rw [← hagain, ← hfailed, ← hfirst, ← hasked, ← hstart]
    rfl
  rw [hagent]
  decide +kernel

/-- One answers, two fail, of whom one is named again by another, and in the end there is nobody left to ask. -/
theorem search_sound_quarrel : SearchInv (quarrel.foldl SearchOp.run (knowing (peersFrom 10 4))) ∧
    (quarrel.foldl SearchOp.run (knowing (peersFrom 10 4))).agent.isFinished = true := by
  have hinit : searchSystem.init (knowing (peersFrom 10 4)) := knowing_init (by rfl)
  have hsound := search_sound (reachable_foldl hinit quarrel fun _ _ _ => trivial)
  exact ⟨hsound.1, hsound.2 quarrel_agent.1 quarrel_agent.2⟩

/-- Three of seven are asked, and two of them answer, with thirty-four and with twenty-eight nodes, some of them known and
one of them the target. -/
def answers : List SearchOp :=
  [.getNextPeers, .addResponse (peersFrom 26 34), .markQueried [58], .addResponse (peersFrom 0 28), .markQueried [59],
    .markQueried [60]]

/-- Three more are asked and answer with nobody new. -/
def round (first : Nat) : List SearchOp := .getNextPeers :: (peersFrom first 3).map fun c => .markQueried c.id

/-- A node is reported as failed. -/
def SearchOp.reportsFailure : SearchOp → Bool
  | .markFailed _ => true
  | _ => false

/-- Seven of them. -/
def rounds : List SearchOp := (List.range 7).flatMap fun i => round (1 + 3 * i)

/-- Where the answers lead. -/
theorem answers_agent : (answers.foldl SearchOp.run (knowing (peersFrom 58 7))).agent
    = looking (peersFrom 1 60) {[60], [59], [58]} ∅ := by
  have hstart : (knowing (peersFrom 58 7)).agent = looking (peersFrom 58 7) ∅ ∅ :=
    RustyDiscoveryAgent.Ranked.foldl_addContact (by decide +kernel)
  have hasked : (looking (peersFrom 58 7) ∅ ∅).getNextPeers.1
      = looking (peersFrom 58 7) ∅ {[60], [59], [58]} := by rfl
  have hfirst : ((looking (peersFrom 58 7) ∅ {[60], [59], [58]}).addResponse (peersFrom 26 34)).1
      = looking (peersFrom 26 39) ∅ {[60], [59], [58]} := looking_addResponse (by decide +kernel) (by decide +kernel)
  have hmarked : ((looking (peersFrom 26 39) ∅ {[60], [59], [58]}).markQueried [58]).1
      = looking (peersFrom 26 39) {[58]} {[60], [59]} := by rfl
  have hsecond : ((looking (peersFrom 26 39) {[58]} {[60], [59]}).addResponse (peersFrom 0 28)).1
      = looking (peersFrom 1 60) {[58]} {[60], [59]} := looking_addResponse (by decide +kernel) (by decide +kernel)
  have hdone : (((looking (peersFrom 1 60) {[58]} {[60], [59]}).markQueried [59]).1.markQueried [60]).1
      = looking (peersFrom 1 60) {[60], [59], [58]} ∅ := by rfl
  rw [← hdone, ← hsecond, ← hmarked, ← hfirst, ← hasked, ← hstart]
  rfl

/-- Sixty-four nodes are heard of, sixty are kept, and the nearest of them are asked in seven rounds. -/
def wideSearch : Search := rounds.foldl SearchOp.run (answers.foldl SearchOp.run (knowing (peersFrom 58 7)))

/-- Where the search ends. -/
theorem wideSearch_agent : wideSearch.agent.isFinished = true ∧ wideSearch.agent.getKClosest = peersFrom 1 20 := by
  have hafter : answers.foldl SearchOp.run (knowing (peersFrom 58 7))
      = ⟨looking (peersFrom 1 60) {[60], [59], [58]} ∅,
          (answers.foldl SearchOp.run (knowing (peersFrom 58 7))).learned,
          (answers.foldl SearchOp.run (knowing (peersFrom 58 7))).asked⟩ := by
    rw [← answers_agent]
  unfold wideSearch
  rw [hafter]
  decide +kernel

/-- Of the sixty peers it heard of, it returns the twenty nearest. -/
theorem finished_reports_nearest_wide :
    Nearest (nearer wideSearch.agent.targetId) kParam (wideSearch.agent.getKClosest.map Contact.id)
        wideSearch.learned ∧
      (∀ c ∈ wideSearch.agent.getKClosest, c.id ∈ wideSearch.agent.queried) ∧
      wideSearch.agent.getKClosest = peersFrom 1 20 := by
  have hnone : ∀ op ∈ answers ++ rounds, op.reportsFailure = false := by decide +kernel
  have hinit : searchSystem.init (knowing (peersFrom 58 7)) := knowing_init (by rfl)
  have hreach : searchSystem.Reachable NoFailure wideSearch := by
    unfold wideSearch
    rw [← List.foldl_append]
    refine reachable_foldl hinit _ fun op hop _ nodeId heq => ?_
    have := hnone op hop
    rw [heq] at this
    cases this
  rw [← and_assoc]
  exact ⟨finished_reports_nearest hreach wideSearch_agent.1, wideSearch_agent.2⟩

end WarmLogic.Mesh.Kademlia
