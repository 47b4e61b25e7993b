/-
# WarmLogic.Consensus.RaftQuorum — when do the quorums of an installed member list intersect?

`has_quorum` asks for MORE than `peers.len().div_ceil(2)` votes, and counts the own vote next to the peers'
votes: the right majority as long as the node is not one of its own `peers`. A `CONF:` entry names ALL
members, and finalising it makes that list `peers` on each of them, so a member's own vote counts twice. Half
of the list is then enough, and two complementary halves are two disjoint quorums.

The condition is on the list alone: the members can be split, with repetitions counted, into two halves (`Halvable`).
A list that can be has two disjoint quorums, whatever the rest of the system does; and of one that cannot, any two
quorums share a member, whoever counts them. For a list without repetitions the first means that its length is even
(`halvable_iff_even`).

While a second list is pending, `has_quorum` asks for both; the theorem is about the time after.
-/
import Mathlib.Algebra.Group.Even
import WarmLogic.Lib.Majority
import WarmLogic.Consensus.Raft

namespace WarmLogic.Consensus

open WarmLogic.Lib

namespace RaftEngine

/-- The list `L` is installed on the node: it is the peer list, no reconfiguration is pending, and the node
is one of the members. -/
structure Installed (L : List String) (e : RaftEngine) : Prop where
  peers_eq : e.peers = L
  pending_eq : e.pendingPeers = none
  self_mem : e.nodeId ∈ L

/-- Any two quorums of members, each taken by a member that voted for itself, share a member. -/
def QuorumsIntersect (L : List String) : Prop :=
  ∀ a b : RaftEngine, Installed L a → Installed L b →
    ∀ Va Vb : Finset String, (∀ v ∈ Va, v ∈ L) → (∀ v ∈ Vb, v ∈ L) →
      a.nodeId ∈ Va → b.nodeId ∈ Vb → a.hasQuorum Va → b.hasQuorum Vb → ∃ v, v ∈ Va ∧ v ∈ Vb

/-- Some set of names takes exactly half of the positions of the nonempty list. -/
def Halvable (L : List String) : Prop :=
  L ≠ [] ∧ ∃ S : Finset String, 2 * L.countP (· ∈ S) = L.length

/-- **The threshold on an installed list.** With the own vote counted twice, half of the positions, rounded
up, is a quorum. -/
theorem hasQuorum_of_installed {L : List String} {e : RaftEngine} (he : Installed L e)
    {V : Finset String} (hself : e.nodeId ∈ V) :
    e.hasQuorum V ↔ L.length ≤ 2 * L.countP (· ∈ V) := by
  simp only [hasQuorum, he.pending_eq, listQuorum, he.peers_eq, if_pos hself, decide_eq_true_eq]
  omega

/-- Two disjoint quorums split the list into halves. -/
theorem halvable_of_disjoint {L : List String} {Va Vb : Finset String} (hne : L ≠ [])
    (ha : L.length ≤ 2 * L.countP (· ∈ Va)) (hb : L.length ≤ 2 * L.countP (· ∈ Vb))
    (hdisj : ∀ v, v ∈ Va → v ∉ Vb) : Halvable L := by
  have hle : L.countP (· ∈ Va) + L.countP (· ∈ Vb) ≤ L.length := by
    apply countP_add_countP_le_length
    intro x _ hxa hxb
    exact hdisj x (of_decide_eq_true hxa) (of_decide_eq_true hxb)
  refine ⟨hne, Va, ?_⟩
  omega

/-- A half holds a member, and so does what it leaves out. -/
theorem exists_mem_of_half {L : List String} {S : Finset String} (hne : L ≠ [])
    (hS : 2 * L.countP (· ∈ S) = L.length) : (∃ a ∈ L, a ∈ S) ∧ ∃ b ∈ L, b ∉ S := by
  have hpos : 0 < L.length := List.length_pos_iff.mpr hne
  have hnot := countP_add_countP_not (fun x => decide (x ∈ S)) L
  constructor
  · obtain ⟨a, ha, haS⟩ := List.countP_pos_iff.mp (show 0 < L.countP (· ∈ S) by omega)
    exact ⟨a, ha, of_decide_eq_true haS⟩
  · obtain ⟨b, hb, hbS⟩ := List.countP_pos_iff.mp
      (show 0 < L.countP (fun x => !decide (x ∈ S)) by omega)
    exact ⟨b, hb, by simpa using hbS⟩

/-- A fresh node with the list installed. -/
theorem installed_blank {L : List String} {a : String} (ha : a ∈ L) :
    Installed L (blank a L "" none) :=
  ⟨rfl, rfl, ha⟩

/-- The two halves of a list, each seen by one of its own members, are disjoint quorums. -/
theorem not_quorumsIntersect_of_halvable {L : List String} (h : Halvable L) : ¬ QuorumsIntersect L := by
  obtain ⟨hne, S, hS⟩ := h
  obtain ⟨⟨a, haL, haS⟩, b, hbL, hbS⟩ := exists_mem_of_half hne hS
  intro hint
  have hcount : ∀ (P : String → Bool), L.countP (· ∈ (L.filter P).toFinset) = L.countP P := by
    intro P
    apply List.countP_congr
    intro x hx
    simp [hx]
  have hcomp := countP_add_countP_not (fun x => decide (x ∈ S)) L
  -- the quorum at `a` is the half itself, the one at `b` everything else
  obtain ⟨v, hva, hvb⟩ := hint (blank a L "" none) (blank b L "" none) (installed_blank haL)
    (installed_blank hbL) (L.filter fun x => decide (x ∈ S)).toFinset
    (L.filter fun x => !decide (x ∈ S)).toFinset
    (fun v hv => (List.mem_filter.mp (List.mem_toFinset.mp hv)).1)
    (fun v hv => (List.mem_filter.mp (List.mem_toFinset.mp hv)).1)
    (by simpa [blank] using ⟨haL, haS⟩) (by simpa [blank] using ⟨hbL, hbS⟩)
    ((hasQuorum_of_installed (installed_blank haL) (by simpa [blank] using ⟨haL, haS⟩)).mpr
      (by rw [hcount]; omega))
    ((hasQuorum_of_installed (installed_blank hbL) (by simpa [blank] using ⟨hbL, hbS⟩)).mpr
      (by rw [hcount]; omega))
  have h1 := (List.mem_filter.mp (List.mem_toFinset.mp hva)).2
  have h2 := (List.mem_filter.mp (List.mem_toFinset.mp hvb)).2
  simp only [h1] at h2
  exact absurd h2 (by decide)

/-- **Quorum intersection under reconfiguration, exactly.** For every list, a fortiori for every one a `CONF:`
entry carries: once it is installed on its members, its quorums intersect if and only if it cannot be
halved. -/
theorem quorumsIntersect_iff_not_halvable (L : List String) : QuorumsIntersect L ↔ ¬ Halvable L := by
  constructor
  · intro hint hhalf
    exact not_quorumsIntersect_of_halvable hhalf hint
  · intro hno a b ha hb Va Vb _ _ hsa hsb hqa hqb
    rw [hasQuorum_of_installed ha hsa] at hqa
    rw [hasQuorum_of_installed hb hsb] at hqb
    by_contra hdisj
    apply hno
    apply halvable_of_disjoint (List.ne_nil_of_mem ha.self_mem) hqa hqb
    intro v hva hvb
    exact hdisj ⟨v, hva, hvb⟩

/-- Two members reconfigured to `a,b`: each is a quorum of its own. -/
theorem disjoint_quorums_of_two_members :
    ¬ ∀ data L, confPeers data = some L → QuorumsIntersect L := by
  intro h
  have hint := h "CONF:a,b" ["a", "b"] (by decide +kernel)
  have hq := hint (blank "a" ["a", "b"] "" none) (blank "b" ["a", "b"] "" none)
    (installed_blank (by decide)) (installed_blank (by decide)) {"a"} {"b"}
  revert hq
  decide

/-- A list without repetitions can be halved exactly when its length is even and not zero. -/
theorem halvable_iff_even {L : List String} (hnd : L.Nodup) :
    Halvable L ↔ L ≠ [] ∧ Even L.length := by
  constructor
  · rintro ⟨hne, S, hS⟩
    exact ⟨hne, L.countP (· ∈ S), by omega⟩
  · rintro ⟨hne, k, hk⟩
    refine ⟨hne, (L.take k).toFinset, ?_⟩
    -- the first half of the positions: in front every name counts, behind none does
    have hfront : (L.take k).countP (· ∈ (L.take k).toFinset) = (L.take k).length := by
      rw [List.countP_eq_length]
      intro x hx
      simpa using hx
    have hback : (L.drop k).countP (· ∈ (L.take k).toFinset) = 0 := by
      rw [List.countP_eq_zero]
      intro x hx hmem
      have hdisj := List.disjoint_take_drop hnd (le_refl k)
      exact hdisj (by simpa using hmem) hx
    have hsplit : L.countP (· ∈ (L.take k).toFinset)
        = (L.take k).countP (· ∈ (L.take k).toFinset)
          + (L.drop k).countP (· ∈ (L.take k).toFinset) := by
      rw [← List.countP_append, List.take_append_drop]
    rw [hsplit, hfront, hback, List.length_take]
    omega

end RaftEngine

end WarmLogic.Consensus
