/-
# WarmLogic.Lib.PairTree — pairing up a list until one is left, and the tree that this builds.

`reduce f` replaces a list by `f` of its neighbours until at most one element is left; where the number is odd, the
last element is its own neighbour. Done with the tree constructor on leaves it yields the shape of the computation, a
perfect binary tree, and every other `reduce` is a fold over that tree (`map_reduce`). The list is found again in the
tree: element `i` stands where the binary digits of `i` lead (`sub_reduce`).

`reduceBack f` is the variant that takes its pairs from the END of the list and carries an odd first element over as it
is. Its trees are not perfect, but their shape depends on the number of elements only (`map_reduceBack`), and the list
is determined by the tree and its length (`reduceBack_injective`).

Facts about what a reduction loses or keeps are proved along its rounds, by `reduce_induction` or
`reduce_of_pairWith`; facts about where an element ends up are facts of the tree. An application reads its own loop as
a `reduce` and moves to the tree by `map_reduce`.
-/
import Mathlib.Algebra.GroupWithZero.Nat
import Mathlib.Data.Nat.Log
import Mathlib.Data.List.Nodup

namespace WarmLogic.Lib

variable {α β γ : Type}

/-! ## Pairing up -/

/-- Each element with its right neighbour, the last with itself where it has none. -/
def pairWith (f : α → α → β) : List α → List β
  | [] => []
  | [a] => [f a a]
  | a :: b :: rest => f a b :: pairWith f rest

/-- Half as many, rounded up. -/
@[simp] theorem length_pairWith (f : α → α → β) (l : List α) : (pairWith f l).length = (l.length + 1) / 2 := by
  fun_induction pairWith f l with
  | case1 => simp
  | case2 a => simp
  | case3 a b rest ih =>
      simp only [List.length_cons, ih]
      omega

/-- Pairing commutes with a map that respects the pairing. -/
theorem map_pairWith (g : β → γ) (f : α → α → β) (l : List α) :
    (pairWith f l).map g = pairWith (fun a b => g (f a b)) l := by
  fun_induction pairWith f l with
  | case1 => rfl
  | case2 a => rfl
  | case3 a b rest ih => simp only [List.map_cons, ih, pairWith]

theorem pairWith_map (f : β → β → γ) (g : α → β) (l : List α) :
    pairWith f (l.map g) = pairWith (fun a b => f (g a) (g b)) l := by
  fun_induction pairWith (fun a b => f (g a) (g b)) l with
  | case1 => rfl
  | case2 a => rfl
  | case3 a b rest ih => simp only [List.map_cons, ih, pairWith]

/-- Where the neighbour of position `i` stands, in a list of `n`: beside it, or there where it has none. -/
def partner (n i : Nat) : Nat :=
  let j := if i % 2 = 1 then i - 1 else i + 1
  if j < n then j else i

/-- What stands at `i / 2` after pairing has two sides; the element at `i` is one of them, its neighbour the other. -/
theorem getElem?_pairWith {f : α → α → β} {l : List α} {i : Nat} (hi : i < l.length) :
    ∃ a b, (pairWith f l)[i / 2]? = some (f a b) ∧ l[i]? = some (if i % 2 = 1 then b else a) ∧
      l[partner l.length i]? = some (if i % 2 = 1 then a else b) := by
  fun_induction pairWith f l generalizing i with
  | case1 => exact absurd hi (Nat.not_lt_zero i)
  | case2 a =>
      have hz : i = 0 := by
        simp only [List.length_cons, List.length_nil] at hi
        omega
      subst hz
      exact ⟨a, a, rfl, rfl, rfl⟩
  | case3 a b rest ih =>
      match i, hi with
      | 0, _ => exact ⟨a, b, rfl, rfl, by simp [partner]⟩
      | 1, _ => exact ⟨a, b, rfl, rfl, by simp [partner]⟩
      | i + 2, hi =>
          obtain ⟨x, y, hx, hy, hpart⟩ := ih (i := i) (by simpa using hi)
          have hmod : (i + 2) % 2 = i % 2 := by omega
          have hshift : partner (rest.length + 1 + 1) (i + 2) = partner rest.length i + 2 := by
            unfold partner
            rw [hmod]
            dsimp only
            split_ifs <;> omega
          refine ⟨x, y, ?_, ?_, ?_⟩
          · rw [show (i + 2) / 2 = i / 2 + 1 by omega, List.getElem?_cons_succ, hx]
          · rw [List.getElem?_cons_succ, List.getElem?_cons_succ, hy, hmod]
          · rw [List.length_cons, List.length_cons, hshift, List.getElem?_cons_succ, List.getElem?_cons_succ, hpart, hmod]

/-- What stands in the paired list is made of two elements. -/
theorem mem_pairWith {f : α → α → β} {l : List α} {c : β} (h : c ∈ pairWith f l) :
    ∃ a ∈ l, ∃ b ∈ l, c = f a b := by
  fun_induction pairWith f l with
  | case1 => exact absurd h List.not_mem_nil
  | case2 a => exact ⟨a, List.mem_cons_self, a, List.mem_cons_self, List.mem_singleton.mp h⟩
  | case3 a b rest ih =>
      rcases List.mem_cons.mp h with rfl | h
      · exact ⟨a, by simp, b, by simp, rfl⟩
      · obtain ⟨x, hx, y, hy, heq⟩ := ih h
        exact ⟨x, by simp [hx], y, by simp [hy], heq⟩

/-- Pairs with distinct left sides are distinct. -/
theorem nodup_pairWith {f : α → α → β} (hf : ∀ a b c d, f a b = f c d → a = c) {l : List α} (h : l.Nodup) :
    (pairWith f l).Nodup := by
  fun_induction pairWith f l with
  | case1 => exact List.nodup_nil
  | case2 a => simp
  | case3 a b rest ih =>
      obtain ⟨ha, hrest⟩ := List.nodup_cons.mp h
      refine List.nodup_cons.mpr ⟨fun hmem => ?_, ih (List.nodup_cons.mp hrest).2⟩
      obtain ⟨x, hx, y, -, heq⟩ := mem_pairWith hmem
      exact ha (List.mem_cons_of_mem b (hf a b x y heq ▸ hx))

/-- Where pairing can be undone, the pairs and the length give the list. -/
theorem pairWith_injective {f : α → α → β} {S : α → Prop}
    (hf : ∀ a b c d, S a → S b → S c → S d → f a b = f c d → a = c ∧ b = d) {l l' : List α} (hl : ∀ a ∈ l, S a)
    (hl' : ∀ a ∈ l', S a) (hlen : l.length = l'.length) (h : pairWith f l = pairWith f l') : l = l' := by
  fun_induction pairWith f l generalizing l' with
  | case1 => exact (List.length_eq_zero_iff.mp hlen.symm).symm
  | case2 a =>
      obtain ⟨a', rfl⟩ := List.length_eq_one_iff.mp hlen.symm
      have ha := hl a List.mem_cons_self
      have ha' := hl' a' List.mem_cons_self
      rw [(hf a a a' a' ha ha ha' ha' (List.singleton_inj.mp h)).1]
  | case3 a b rest ih =>
      match l', hlen with
      | a' :: b' :: rest', hlen =>
          simp only [List.mem_cons, forall_eq_or_imp] at hl hl'
          obtain ⟨hpair, hmore⟩ := List.cons.inj h
          obtain ⟨rfl, rfl⟩ := hf a b a' b' hl.1 hl.2.1 hl'.1 hl'.2.1 hpair
          rw [ih hl.2.2 hl'.2.2 (by simpa using hlen) hmore]

/-- Pair up while more than one element is left. -/
def reduce (f : α → α → α) (l : List α) : List α := if 1 < l.length then reduce f (pairWith f l) else l
termination_by l.length
decreasing_by
  rw [length_pairWith]
  omega

/-- **The induction rule of the loop**: what holds of lists of at most one element, and of a list when it holds of the
paired one, holds of every list. -/
theorem reduce_induction {f : α → α → α} {P : List α → Prop} (done : ∀ l, l.length ≤ 1 → P l)
    (pair : ∀ l, 1 < l.length → P (pairWith f l) → P l) (l : List α) : P l := by
  induction hn : l.length using Nat.strong_induction_on generalizing l with
  | _ n ih =>
      rcases Nat.lt_or_ge 1 l.length with hlt | hle
      · refine pair l hlt (ih _ ?_ _ rfl)
        rw [length_pairWith]
        omega
      · exact done l hle

/-- At most one element is left as it is. -/
theorem reduce_of_le {f : α → α → α} {l : List α} (h : l.length ≤ 1) : reduce f l = l := by
  rw [reduce, if_neg (Nat.not_lt.mpr h)]

/-- More are paired. -/
theorem reduce_of_lt {f : α → α → α} {l : List α} (h : 1 < l.length) : reduce f l = reduce f (pairWith f l) := by
  rw [reduce, if_pos h]

/-- **Every reduction is a fold of any other that maps onto it.** -/
theorem map_reduce {f : α → α → α} {f' : β → β → β} {g : α → β} (hom : ∀ a b, g (f a b) = f' (g a) (g b))
    (l : List α) : (reduce f l).map g = reduce f' (l.map g) := by
  induction l using reduce_induction (f := f) with
  | done l h => rw [reduce_of_le h, reduce_of_le (by rwa [List.length_map])]
  | pair l h ih =>
      have h' : 1 < (l.map g).length := by rwa [List.length_map]
      rw [reduce_of_lt h, ih, reduce_of_lt h', map_pairWith, pairWith_map]
      simp only [hom]

/-- One is left, if there was one. -/
theorem length_reduce {f : α → α → α} {l : List α} (h : l ≠ []) : (reduce f l).length = 1 := by
  induction l using reduce_induction (f := f) with
  | done l hle =>
      rw [reduce_of_le hle]
      have := List.length_pos_of_ne_nil h
      omega
  | pair l hlt ih =>
      rw [reduce_of_lt hlt]
      apply ih
      intro hnil
      have := congrArg List.length hnil
      rw [length_pairWith, List.length_nil] at this
      omega

/-- The one that is left. -/
theorem reduce_eq_singleton (f : α → α → α) {l : List α} (h : l ≠ []) : ∃ a, reduce f l = [a] :=
  List.length_eq_one_iff.mp (length_reduce h)

/-- What holds of a list and is kept by pairing holds at the end. -/
theorem reduce_of_pairWith {f : α → α → α} {P : List α → Prop} (hpair : ∀ l, 1 < l.length → P l → P (pairWith f l))
    {l : List α} (h : P l) : P (reduce f l) := by
  induction l using reduce_induction (f := f) with
  | done l hle => rwa [reduce_of_le hle]
  | pair l hlt ih =>
      rw [reduce_of_lt hlt]
      exact ih (hpair l hlt h)

/-- Where pairing can be undone, what is left in the end and the length give the list. -/
theorem reduce_injectiveOn {f : α → α → α} {S : α → Prop} (hclosed : ∀ a b, S (f a b))
    (hf : ∀ a b c d, S a → S b → S c → S d → f a b = f c d → a = c ∧ b = d) {l l' : List α} (hl : ∀ a ∈ l, S a)
    (hl' : ∀ a ∈ l', S a) (hlen : l.length = l'.length) (h : reduce f l = reduce f l') : l = l' := by
  have hpairs : ∀ l : List α, ∀ a ∈ pairWith f l, S a := by
    intro l a ha
    obtain ⟨x, -, y, -, rfl⟩ := mem_pairWith ha
    exact hclosed x y
  induction l using reduce_induction (f := f) generalizing l' with
  | done l hle => rwa [reduce_of_le hle, reduce_of_le (hlen ▸ hle)] at h
  | pair l hlt ih =>
      have hlt' : 1 < l'.length := by rwa [← hlen]
      rw [reduce_of_lt hlt, reduce_of_lt hlt'] at h
      refine pairWith_injective hf hl hl' hlen (ih (hpairs l) (hpairs l') ?_ h)
      rw [length_pairWith, length_pairWith, hlen]

/-- Halving, rounded up, takes one off the binary logarithm. -/
theorem clog_half {n : Nat} (h : 1 < n) : Nat.clog 2 n = Nat.clog 2 ((n + 1) / 2) + 1 :=
  Nat.clog_of_two_le Nat.one_lt_two h

/-! ## The tree -/

/-- A binary tree with its data at the leaves. -/
inductive PairTree (α : Type) where
  | leaf (a : α)
  | node (l r : PairTree α)
  deriving DecidableEq

namespace PairTree

/-- All leaves are `d` steps below the root. -/
inductive Perfect : Nat → PairTree α → Prop
  | leaf (a : α) : Perfect 0 (.leaf a)
  | node {d : Nat} {l r : PairTree α} : Perfect d l → Perfect d r → Perfect (d + 1) (.node l r)

/-- Every leaf has the property. -/
def All (p : α → Prop) : PairTree α → Prop
  | .leaf a => p a
  | .node l r => All p l ∧ All p r

/-- One side of a node. -/
def child (right : Bool) : PairTree α → PairTree α
  | .leaf a => .leaf a
  | .node l r => if right then r else l

/-- The subtree `k` steps below the root at position `i`, counted from the left. -/
def sub (t : PairTree α) : Nat → Nat → PairTree α
  | 0, _ => t
  | k + 1, i => (t.sub k (i / 2)).child (i % 2 == 1)

/-- The sides of a perfect tree are perfect. -/
theorem Perfect.child {d : Nat} {t : PairTree α} (h : Perfect (d + 1) t) (right : Bool) :
    Perfect d (t.child right) := by
  cases h with
  | node hl hr => cases right <;> assumption

/-- And so is what is below them. -/
theorem Perfect.sub {d k : Nat} {t : PairTree α} (h : Perfect (d + k) t) (i : Nat) : Perfect d (t.sub k i) := by
  induction k generalizing d i with
  | zero => exact h
  | succ k ih =>
      have hup : Perfect (d + 1) (t.sub k (i / 2)) := ih (by rwa [Nat.add_assoc, Nat.add_comm 1 k]) (i / 2)
      exact hup.child _

/-- A leaf has depth 0. -/
theorem Perfect.eq_zero {d : Nat} {a : α} (h : Perfect d (.leaf a)) : d = 0 := by
  cases h with
  | leaf _ => rfl

/-- A node has more. -/
theorem Perfect.pos {d : Nat} {l r : PairTree α} (h : Perfect d (.node l r)) : 0 < d := by
  cases h with
  | node _ _ => exact Nat.succ_pos _

/-- A property of all leaves is one of the leaves of a side. -/
theorem All.child {p : α → Prop} {t : PairTree α} (h : t.All p) (right : Bool) : (t.child right).All p := by
  cases t with
  | leaf a => exact h
  | node l r =>
      cases right with
      | false => exact h.1
      | true => exact h.2

/-- And of those below. -/
theorem All.sub {p : α → Prop} {t : PairTree α} (h : t.All p) (k i : Nat) : (t.sub k i).All p := by
  induction k generalizing i with
  | zero => exact h
  | succ k ih => exact (ih (i / 2)).child _

/-! ## The tree of a list -/

/-- Reducing keeps trees perfect, and each round adds a level. -/
theorem perfect_reduce {d : Nat} {l : List (PairTree α)} (h : ∀ t ∈ l, Perfect d t) :
    ∀ t ∈ reduce .node l, Perfect (d + Nat.clog 2 l.length) t := by
  induction l using reduce_induction (f := PairTree.node) generalizing d with
  | done l hle =>
      rw [reduce_of_le hle, Nat.clog_of_right_le_one hle]
      exact h
  | pair l hlt ih =>
      have hpair : ∀ t ∈ pairWith PairTree.node l, Perfect (d + 1) t := by
        intro t ht
        obtain ⟨a, ha, b, hb, rfl⟩ := mem_pairWith ht
        exact .node (h a ha) (h b hb)
      have hnext := ih hpair
      rw [length_pairWith, Nat.add_assoc, Nat.add_comm 1, ← clog_half hlt] at hnext
      rw [reduce_of_lt hlt]
      exact hnext

/-- No leaf is new. -/
theorem all_reduce {p : α → Prop} {l : List (PairTree α)} (h : ∀ t ∈ l, t.All p) :
    ∀ t ∈ reduce .node l, t.All p := by
  induction l using reduce_induction (f := PairTree.node) with
  | done l hle =>
      rw [reduce_of_le hle]
      exact h
  | pair l hlt ih =>
      rw [reduce_of_lt hlt]
      apply ih
      intro t ht
      obtain ⟨a, ha, b, hb, rfl⟩ := mem_pairWith ht
      exact ⟨h a ha, h b hb⟩

/-- **Element `i` of the list is the subtree at position `i`**, as far down as there were rounds. -/
theorem sub_reduce {l : List (PairTree α)} {t : PairTree α} (h : reduce .node l = [t]) {i : Nat}
    (hi : i < l.length) : l[i]? = some (t.sub (Nat.clog 2 l.length) i) := by
  induction l using reduce_induction (f := PairTree.node) generalizing i with
  | done l hle =>
      rw [reduce_of_le hle] at h
      subst h
      have hz : i = 0 := by
        simp only [List.length_cons, List.length_nil] at hi
        omega
      subst hz
      rfl
  | pair l hlt ih =>
      rw [reduce_of_lt hlt] at h
      obtain ⟨a, b, hab, hget, -⟩ := getElem?_pairWith (f := PairTree.node) hi
      have hup := ih h (i := i / 2) (by rw [length_pairWith]; omega)
      rw [hab, length_pairWith] at hup
      rw [hget, clog_half hlt, sub, ← Option.some.inj hup]
      by_cases hbit : i % 2 = 1 <;> simp [child, hbit]

/-- Two lists of one length with the same tree are the same list. -/
theorem reduce_injective {l l' : List (PairTree α)} (hlen : l.length = l'.length)
    (h : reduce .node l = reduce .node l') : l = l' := by
  apply List.ext_getElem?
  intro i
  rcases Nat.lt_or_ge i l.length with hi | hi
  · have hne : l ≠ [] := List.ne_nil_of_length_pos (Nat.zero_lt_of_lt hi)
    obtain ⟨t, ht⟩ := reduce_eq_singleton PairTree.node hne
    rw [sub_reduce ht hi, sub_reduce (h.symm.trans ht) (hlen ▸ hi), hlen]
  · rw [List.getElem?_eq_none hi, List.getElem?_eq_none (hlen ▸ hi)]

end PairTree

/-! ## Pairing up from the back -/

/-- The pairs of a list that is given last element first; an odd first element is carried over. -/
def pairBack (f : α → α → α) : List α → List α
  | [] => []
  | [a] => [a]
  | b :: a :: rest => f a b :: pairBack f rest

/-- Half as many, rounded up. -/
theorem length_pairBack (f : α → α → α) (l : List α) : (pairBack f l).length = (l.length + 1) / 2 := by
  fun_induction pairBack f l with
  | case1 => simp
  | case2 a => simp
  | case3 b a rest ih =>
      simp only [List.length_cons, ih]
      omega

/-- Pairing commutes with a map that respects the pairing. -/
theorem map_pairBack {f : α → α → α} {f' : β → β → β} {g : α → β} (hom : ∀ a b, g (f a b) = f' (g a) (g b))
    (l : List α) : (pairBack f l).map g = pairBack f' (l.map g) := by
  fun_induction pairBack f l with
  | case1 => rfl
  | case2 a => rfl
  | case3 b a rest ih => simp only [List.map_cons, ih, pairBack, hom]

/-- With a pairing that can be undone, the pairs and the length give the list. -/
theorem pairBack_injective {f : α → α → α} (hf : ∀ a b c d, f a b = f c d → a = c ∧ b = d) {l l' : List α}
    (hlen : l.length = l'.length) (h : pairBack f l = pairBack f l') : l = l' := by
  fun_induction pairBack f l generalizing l' with
  | case1 => exact (List.length_eq_zero_iff.mp hlen.symm).symm
  | case2 a =>
      obtain ⟨c, rfl⟩ := List.length_eq_one_iff.mp hlen.symm
      exact h
  | case3 b a rest ih =>
      match l', hlen with
      | d :: c :: rest', hlen =>
          obtain ⟨hhead, htail⟩ := List.cons.inj h
          obtain ⟨rfl, rfl⟩ := hf a b c d hhead
          rw [ih (by simpa using hlen) htail]

/-- Level by level until one is left; nothing comes of nothing. -/
def reduceBack (f : α → α → α) : List α → Option α
  | [] => none
  | [a] => some a
  | a :: b :: rest => reduceBack f (pairBack f (a :: b :: rest).reverse)
termination_by l => l.length
decreasing_by
  rw [length_pairBack, List.length_reverse]
  simp only [List.length_cons]
  omega

/-- Something is left if there was something. -/
theorem reduceBack_eq_some (f : α → α → α) {l : List α} (h : l ≠ []) : ∃ a, reduceBack f l = some a := by
  fun_induction reduceBack f l with
  | case1 => exact absurd rfl h
  | case2 a => exact ⟨a, rfl⟩
  | case3 a b rest ih =>
      apply ih
      apply List.ne_nil_of_length_pos
      rw [length_pairBack, List.length_reverse, List.length_cons]
      omega

/-- **Every such reduction is a fold of any other that maps onto it.** -/
theorem map_reduceBack {f : α → α → α} {f' : β → β → β} {g : α → β} (hom : ∀ a b, g (f a b) = f' (g a) (g b))
    (l : List α) : (reduceBack f l).map g = reduceBack f' (l.map g) := by
  fun_induction reduceBack f l with
  | case1 => simp [reduceBack]
  | case2 a => simp [reduceBack]
  | case3 a b rest ih =>
      rw [ih, map_pairBack hom, List.map_reverse, List.map_cons, List.map_cons, reduceBack]

/-- **Where pairing can be undone, the result and the length give the list.** -/
theorem reduceBack_injective {f : α → α → α} (hf : ∀ a b c d, f a b = f c d → a = c ∧ b = d) {l l' : List α}
    (hlen : l.length = l'.length) (h : reduceBack f l = reduceBack f l') : l = l' := by
  fun_induction reduceBack f l generalizing l' with
  | case1 => exact (List.length_eq_zero_iff.mp hlen.symm).symm
  | case2 a =>
      obtain ⟨c, rfl⟩ := List.length_eq_one_iff.mp hlen.symm
      simpa [reduceBack] using h
  | case3 a b rest ih =>
      match l', hlen with
      | c :: d :: rest', hlen =>
          rw [reduceBack] at h
          have hpairs := ih (by rw [length_pairBack, length_pairBack, List.length_reverse, List.length_reverse, hlen]) h
          exact List.reverse_inj.mp (pairBack_injective hf (by simpa using hlen) hpairs)

/-- A pairing that adds sizes up ends with the size of all. -/
theorem reduceBack_add {l : List Nat} (h : l ≠ []) : reduceBack (· + ·) l = some l.sum := by
  have hpair : ∀ l : List Nat, (pairBack (· + ·) l).sum = l.sum := by
    intro l
    fun_induction pairBack (· + ·) l with
    | case1 => rfl
    | case2 a => rfl
    | case3 b a rest ih =>
        simp only [List.sum_cons, ih]
        omega
  fun_induction reduceBack (· + ·) l with
  | case1 => exact absurd rfl h
  | case2 a => simp
  | case3 a b rest ih =>
      rw [ih, hpair, List.sum_reverse]
      apply List.ne_nil_of_length_pos
      rw [length_pairBack, List.length_reverse, List.length_cons]
      omega

/-! ### The first element

The levels are built from the back, so every other level stands in reverse order, and there the first element of the
list is on the right side of its pair. -/

/-- Of two, the left one. -/
def leftOf (a _ : α) : α := a

/-- No element is new. -/
theorem mem_pairBack_leftOf {l : List α} {x : α} (h : x ∈ pairBack leftOf l) : x ∈ l := by
  fun_induction pairBack leftOf l with
  | case1 => exact h
  | case2 a => exact h
  | case3 b a rest ih =>
      rcases List.mem_cons.mp h with rfl | h
      · exact List.mem_cons_of_mem b List.mem_cons_self
      · exact List.mem_cons_of_mem b (List.mem_cons_of_mem a (ih h))

/-- The last element stays the last: it is the left one of its pair, or carried over. -/
theorem getLast?_pairBack_leftOf (l : List α) : (pairBack leftOf l).getLast? = l.getLast? := by
  fun_induction pairBack leftOf l with
  | case1 => rfl
  | case2 a => rfl
  | case3 b a rest ih =>
      rw [List.getLast?_cons, ih, List.getLast?_cons, List.getLast?_cons]
      rfl

/-- What is left was there. -/
theorem mem_of_reduceBack_leftOf {l : List α} {x : α} (h : reduceBack leftOf l = some x) : x ∈ l := by
  fun_induction reduceBack leftOf l with
  | case1 => cases h
  | case2 a =>
      cases h
      exact List.mem_cons_self
  | case3 a b rest ih => exact List.mem_reverse.mp (mem_pairBack_leftOf (ih h))

/-- From two elements on, the last one does not come out at the left. -/
theorem reduceBack_leftOf_ne_last {l : List α} (hnodup : l.Nodup) (hlen : 2 ≤ l.length) {x : α}
    (hlast : l.getLast? = some x) : reduceBack leftOf l ≠ some x := by
  intro h
  have hrev : l.reverse.head? = some x := by rwa [List.head?_reverse]
  cases hl : l.reverse with
  | nil =>
      rw [hl] at hrev
      cases hrev
  | cons y rest =>
      rw [hl] at hrev
      cases hrev
      cases rest with
      | nil =>
          have hone := congrArg List.length hl
          rw [List.length_reverse, List.length_singleton] at hone
          omega
      | cons z rest =>
          have hsplit : reduceBack leftOf l = reduceBack leftOf (z :: pairBack leftOf rest) := by
            match l, hlen with
            | a :: b :: more, _ => rw [reduceBack, hl, pairBack, leftOf]
          rw [hsplit] at h
          have hmem : x ∈ z :: rest := by
            rcases List.mem_cons.mp (mem_of_reduceBack_leftOf h) with rfl | hmem
            · exact List.mem_cons_self
            · exact List.mem_cons_of_mem z (mem_pairBack_leftOf hmem)
          have hapart : (x :: z :: rest).Nodup := hl ▸ List.nodup_reverse.mpr hnodup
          exact (List.nodup_cons.mp hapart).1 hmem

/-- Distinct elements stay distinct. -/
theorem nodup_pairBack_leftOf {l : List α} (h : l.Nodup) : (pairBack leftOf l).Nodup := by
  fun_induction pairBack leftOf l with
  | case1 => exact h
  | case2 a => exact h
  | case3 b a rest ih =>
      obtain ⟨-, hrest⟩ := List.nodup_cons.mp h
      obtain ⟨ha, hrest⟩ := List.nodup_cons.mp hrest
      exact List.nodup_cons.mpr ⟨fun hmem => ha (mem_pairBack_leftOf hmem), ih hrest⟩

/-- **From three elements on, the first one does not come out at the left.** -/
theorem reduceBack_leftOf_ne_head {l : List α} (hnodup : l.Nodup) (hlen : 3 ≤ l.length) :
    reduceBack leftOf l ≠ l.head? := by
  match l, hlen with
  | a :: b :: rest, hlen =>
      rw [reduceBack, List.head?_cons]
      apply reduceBack_leftOf_ne_last (nodup_pairBack_leftOf (List.nodup_reverse.mpr hnodup))
      · rw [length_pairBack, List.length_reverse]
        omega
      · rw [getLast?_pairBack_leftOf, List.getLast?_reverse, List.head?_cons]

namespace PairTree

/-- The tree without its data. -/
def shape : PairTree α → PairTree Unit
  | .leaf _ => .leaf ()
  | .node l r => .node l.shape r.shape

/-- The shape depends on the number of elements only. -/
theorem shape_reduceBack (l : List α) :
    (reduceBack .node (l.map .leaf)).map shape = reduceBack .node (List.replicate l.length (.leaf ())) := by
  rw [map_reduceBack (fun _ _ => rfl), List.map_map]
  congr 1
  induction l with
  | nil => rfl
  | cons a l ih => rw [List.map_cons, ih, List.length_cons, List.replicate_succ]; rfl

/-- The number of leaves. -/
def size : PairTree α → Nat
  | .leaf _ => 1
  | .node l r => l.size + r.size

/-- No element is lost on the way up. -/
theorem size_reduceBack {l : List α} (h : l ≠ []) : (reduceBack .node (l.map .leaf)).map size = some l.length := by
  have hones : (l.map PairTree.leaf).map size = List.replicate l.length 1 := by
    rw [List.map_map]
    exact List.eq_replicate_iff.mpr ⟨List.length_map _, by simp [size]⟩
  have hne : List.replicate l.length 1 ≠ [] := by simpa using h
  rw [map_reduceBack (fun _ _ => rfl), hones, reduceBack_add hne, List.sum_replicate_nat, Nat.mul_one]

/-- No leaf is new. -/
theorem all_reduceBack {p : α → Prop} {l : List (PairTree α)} {t : PairTree α} (h : ∀ t ∈ l, t.All p)
    (ht : reduceBack .node l = some t) : t.All p := by
  have hpair : ∀ l : List (PairTree α), (∀ t ∈ l, t.All p) → ∀ t ∈ pairBack .node l, t.All p := by
    intro l
    fun_induction pairBack PairTree.node l with
    | case1 => exact fun h => h
    | case2 a => exact fun h => h
    | case3 b a rest ih =>
        intro h t ht
        rcases List.mem_cons.mp ht with rfl | ht
        · exact ⟨h a (List.mem_cons_of_mem b List.mem_cons_self), h b List.mem_cons_self⟩
        · exact ih (fun t ht => h t (List.mem_cons_of_mem b (List.mem_cons_of_mem a ht))) t ht
  fun_induction reduceBack PairTree.node l with
  | case1 => cases ht
  | case2 a => exact Option.some.inj ht ▸ h a List.mem_cons_self
  | case3 a b rest ih => exact ih (hpair _ fun t ht => h t (List.mem_reverse.mp ht)) ht

end PairTree

end WarmLogic.Lib
