/-
# WarmLogic.Federation.KeepBoth — what the strategy that keeps both versions leaves, and when the order matters.

Under `KeepBoth` an entry takes the place of its key only if it is causally after what stands there. A concurrent
one is filed under a key made of its own key and four bytes of its hash; one that is before, or has the same clock,
is dropped. Whether an entry is filed depends on what it meets, so the order of arrival decides not only who holds
the key but also which entries exist at all.

`orderFree_iff` is about one key: the orders agree exactly when the entries after the first holder form a causal
chain with one last entry, and no entry concurrent with that holder is before one of the chain.
For whole states the keys must not get in each other's way: `FiledApart.converges` asks this of the entries that are
really filed, the converse `FreshConflictKeys.chained` of all conflict keys, for else a filing may leave no trace.

Why one key is settled by chains: the holder only moves on to entries after it, so once the first holder `h` is fixed,
what is after `h` must end with one entry whatever the order, and that is a chain with a last one. Whether an entry is
filed depends on the holder it meets; in a chain it clashes with a later holder exactly if it clashed with `h`
(`Chained.clashes_iff`), which is where the condition on the entries concurrent with `h` enters.
-/
import WarmLogic.Federation.LastWriter

namespace WarmLogic.Federation

open WarmLogic.Lib WarmLogic.Lib.Selection

/-! ## One key -/

/-- The remote entry takes the place: it is free, or held by an entry that is causally before. -/
def Supersedes : Option StateEntry → StateEntry → Prop
  | none, _ => True
  | some l, entry => l.clock.happensBefore entry.clock = true

instance : ∀ (o : Option StateEntry) (entry : StateEntry), Decidable (Supersedes o entry)
  | none, _ => .isTrue trivial
  | some l, entry => inferInstanceAs (Decidable (l.clock.happensBefore entry.clock = true))

/-- The remote entry is concurrent with the one that holds the place. -/
def Clashes : Option StateEntry → StateEntry → Prop
  | none, _ => False
  | some l, entry => compareClocks l.clock entry.clock = .concurrent

instance : ∀ (o : Option StateEntry) (entry : StateEntry), Decidable (Clashes o entry)
  | none, _ => .isFalse id
  | some l, entry => inferInstanceAs (Decidable (compareClocks l.clock entry.clock = .concurrent))

/-- The entries filed aside while a list of entries for one key comes in. -/
def filed (o : Option StateEntry) : List StateEntry → List StateEntry
  | [] => []
  | x :: xs => (if Clashes o x then [x] else []) ++ filed (challenge Supersedes o x) xs

variable {o : Option StateEntry} {x : StateEntry} {l : List StateEntry}

/-- No entry is after itself. -/
theorem not_supersedes_self (entry : StateEntry) : ¬ Supersedes (some entry) entry :=
  VectorClock.happensBefore_irrefl _

/-- What takes the place of an entry takes the place of what that one replaced. -/
theorem Supersedes.trans {y : StateEntry} (hx : Supersedes o x) (hy : Supersedes (some x) y) : Supersedes o y := by
  cases o with
  | none => trivial
  | some l => exact VectorClock.happensBefore_trans hx hy

/-- An entry that clashes does not take the place. -/
theorem Clashes.not_supersedes (h : Clashes o x) : ¬ Supersedes o x := by
  cases o with
  | none => exact absurd h id
  | some l => exact (compareClocks_eq_concurrent.mp h).2.1

/-- Two parts of a list: the second meets the holder that the first leaves. -/
theorem filed_append (o : Option StateEntry) (l l' : List StateEntry) :
    filed o (l ++ l') = filed o l ++ filed (select Supersedes o l) l' := by
  induction l generalizing o with
  | nil => rfl
  | cons x l ih =>
      show _ ++ filed (challenge Supersedes o x) (l ++ l') = _
      rw [ih, ← List.append_assoc]
      rfl

/-- The first entry is filed if it clashes; the others meet the holder it leaves. -/
theorem mem_filed_cons {y : StateEntry} {ys : List StateEntry} :
    x ∈ filed o (y :: ys) ↔ (y = x ∧ Clashes o y) ∨ x ∈ filed (challenge Supersedes o y) ys := by
  show x ∈ (if Clashes o y then [y] else []) ++ filed (challenge Supersedes o y) ys ↔ _
  rw [List.mem_append]
  refine or_congr_left ?_
  split
  · rename_i hclash
    rw [List.mem_singleton, and_iff_left hclash]
    exact eq_comm
  · rename_i hclash
    exact iff_of_false List.not_mem_nil fun h => hclash h.2

/-- Only what comes in is filed. -/
theorem mem_of_mem_filed (h : x ∈ filed o l) : x ∈ l := by
  induction l generalizing o with
  | nil => exact h
  | cons y l ih =>
      rcases mem_filed_cons.mp h with ⟨rfl, -⟩ | h
      · exact List.mem_cons_self
      · exact List.mem_cons_of_mem y (ih h)

/-- An entry that comes once is filed exactly if it clashes with what it meets. -/
theorem mem_filed_iff (before after : List StateEntry) (hnodup : (before ++ x :: after).Nodup) :
    x ∈ filed o (before ++ x :: after) ↔ Clashes (select Supersedes o before) x := by
  obtain ⟨-, hrest, hdisj⟩ := List.nodup_append.mp hnodup
  have hbefore : x ∉ filed o before := fun h => hdisj x (mem_of_mem_filed h) x List.mem_cons_self rfl
  have hafter : x ∉ filed (challenge Supersedes (select Supersedes o before) x) after :=
    fun h => (List.nodup_cons.mp hrest).1 (mem_of_mem_filed h)
  rw [filed_append, List.mem_append, mem_filed_cons]
  constructor
  · rintro (h | ⟨-, h⟩ | h)
    · exact absurd h hbefore
    · exact h
    · exact absurd h hafter
  · intro h
    exact .inr (.inl ⟨rfl, h⟩)

/-! ## When the order does not matter for one key -/

/-- Every order of the entries in `T` leaves the same holder and files the same entries. -/
def OrderFree (o : Option StateEntry) (T : Finset StateEntry) : Prop :=
  ∀ l l', OrderOf T l → OrderOf T l' →
    select Supersedes o l = select Supersedes o l' ∧ ∀ x, x ∈ filed o l ↔ x ∈ filed o l'

/-- The entries of `T` after the holder form a causal chain with one last entry (or there are none), and none that
clashes with the holder is before one of them. -/
structure Chained (o : Option StateEntry) (T : Finset StateEntry) : Prop where
  last : (∀ u ∈ T, ¬ Supersedes o u) ∨
    ∃ w ∈ T, Supersedes o w ∧ ∀ u ∈ T, Supersedes o u → u ≠ w → u.clock.happensBefore w.clock = true
  chain : ∀ u ∈ T, ∀ v ∈ T, Supersedes o u → Supersedes o v → compareClocks u.clock v.clock ≠ .concurrent
  apart : ∀ x ∈ T, ∀ u ∈ T, Clashes o x → Supersedes o u → ¬ x.clock.happensBefore u.clock = true

variable {T : Finset StateEntry}

/-- Whoever can come to hold the place after the first holder is after it. -/
theorem Succession.supersedes {o o' : Option StateEntry} {xs : List StateEntry}
    (hs : Succession Supersedes o xs o') : ∀ x ∈ xs, Supersedes o x := by
  induction hs with
  | nil o => exact fun _ h => absurd h List.not_mem_nil
  | cons hb _ ih =>
      rw [List.forall_mem_cons]
      exact ⟨hb, fun y hy => hb.trans (ih y hy)⟩

/-- In a chain the holder is the last entry in the end, or the first one throughout. -/
theorem Chained.settles (h : Chained o T) : Settles Supersedes o T := by
  rcases h.last with hnone | ⟨w, hw, hwafter, hlast⟩
  · exact .inl hnone
  · refine .inr ⟨w, hw, fun x hx hbx => ?_, fun xs o' hs _ hxs => ?_⟩
    · have hne : x ≠ w := by
        rintro rfl
        exact not_supersedes_self x hbx
      exact VectorClock.happensBefore_asymm hbx (hlast x hx (hwafter.trans hbx) hne)
    · rcases hs.end_cases with ⟨-, rfl⟩ | ⟨x, hx, rfl⟩
      · exact hwafter
      · exact hlast x (hxs x hx).1 (Succession.supersedes hs x hx) (hxs x hx).2

/-- In a chain an entry clashes with a later holder exactly if it clashes with the first one. -/
theorem Chained.clashes_iff (h : Chained o T) {u : StateEntry} (hu : u ∈ T) (hx : x ∈ T) (huafter : Supersedes o u) :
    Clashes (some u) x ↔ Clashes o x := by
  constructor
  · intro hclash
    obtain ⟨hne, hux, hxu⟩ := compareClocks_eq_concurrent.mp hclash
    have hnot : ¬ Supersedes o x := fun hxafter => h.chain u hu x hx huafter hxafter hclash
    cases o with
    | none => exact absurd trivial hnot
    | some a =>
        refine compareClocks_eq_concurrent.mpr ⟨fun heq => hxu ?_, hnot, fun hxa => hxu ?_⟩
        · rw [← heq]
          exact huafter
        · exact VectorClock.happensBefore_trans hxa huafter
  · intro hclash
    cases o with
    | none => exact absurd hclash id
    | some a =>
        have hnot : ¬ a.clock.happensBefore x.clock = true := hclash.not_supersedes
        refine compareClocks_eq_concurrent.mpr ⟨fun heq => hnot ?_, fun hux => hnot ?_, h.apart x hx u hu hclash huafter⟩
        · rw [← heq]
          exact huafter
        · exact VectorClock.happensBefore_trans huafter hux

/-- So what came in before does not decide whether an entry clashes. -/
theorem Chained.clashes_select (h : Chained o T) {before : List StateEntry} (hbefore : ∀ y ∈ before, y ∈ T)
    (hx : x ∈ T) : Clashes (select Supersedes o before) x ↔ Clashes o x := by
  obtain ⟨xs, hsub, hs⟩ := exists_succession Supersedes o before
  rcases hs.end_cases with ⟨-, hend⟩ | ⟨u, hu, hend⟩
  · rw [hend]
  · rw [hend]
    exact h.clashes_iff (hbefore u (hsub.subset hu)) hx (Succession.supersedes hs u hu)

/-- In a chain exactly the entries that clash with the first holder are filed, in every order. -/
theorem Chained.mem_filed (h : Chained o T) (hl : OrderOf T l) : x ∈ filed o l ↔ x ∈ T ∧ Clashes o x := by
  by_cases hx : x ∈ l
  · have hxT : x ∈ T := hl.mem_iff.mp hx
    obtain ⟨before, after, rfl⟩ := List.append_of_mem hx
    rw [mem_filed_iff before after hl.nodup, and_iff_right hxT]
    exact h.clashes_select (fun y hy => hl.mem_iff.mp (List.mem_append_left _ hy)) hxT
  · exact iff_of_false (fun hf => hx (mem_of_mem_filed hf)) fun hT => hx (hl.mem_iff.mpr hT.1)

/-- **In a chain the order does not matter**: the holder is the last entry, and the filed ones are those that clash
with the first. -/
theorem Chained.orderFree (h : Chained o T) : OrderFree o T := by
  intro l l' hl hl'
  exact ⟨h.settles.agree l l' hl hl', fun x => (h.mem_filed hl).trans (h.mem_filed hl').symm⟩

/-- An entry that comes first is filed exactly if it clashes with the first holder. -/
theorem OrderFree.mem_filed (h : OrderFree o T) (hl : OrderOf T l) (hx : x ∈ T) : x ∈ filed o l ↔ Clashes o x := by
  obtain ⟨rest, horder⟩ := OrderOf.exists_append [x] (List.nodup_singleton x) (by simpa using hx)
  rw [(h l _ hl horder).2 x]
  exact mem_filed_iff [] rest horder.nodup

/-- An entry that comes second meets the first one, if that took the place. -/
theorem OrderFree.clashes_second (h : OrderFree o T) {u : StateEntry} (hu : u ∈ T) (hx : x ∈ T) (hne : u ≠ x)
    (huafter : Supersedes o u) : Clashes (some u) x ↔ Clashes o x := by
  obtain ⟨rest, horder⟩ := OrderOf.exists_pair hu hx hne
  rw [← h.mem_filed horder hx]
  have hiff := mem_filed_iff (o := o) [u] rest horder.nodup
  rw [show select Supersedes o [u] = some u from select_cons_of_beats huafter] at hiff
  exact hiff.symm

/-- **Order does not matter for a key exactly when its entries are chained.** -/
theorem orderFree_iff : OrderFree o T ↔ Chained o T := by
  refine ⟨fun h => ⟨?_, ?_, ?_⟩, Chained.orderFree⟩
  · rcases (agree_iff not_supersedes_self).mp fun l l' hl hl' => (h l l' hl hl').1 with hnone | ⟨w, hwins⟩
    · exact .inl hnone
    · refine .inr ⟨w, hwins.mem, hwins.beatsAll [] o (.nil o) List.nodup_nil (by simp), fun u hu huafter hne => ?_⟩
      exact hwins.beatsAll [u] (some u) (.cons huafter (.nil _)) (List.nodup_singleton u) (by simpa using ⟨hu, hne⟩)
  · intro u hu v hv huafter hvafter hconc
    have hne : u ≠ v := by
      rintro rfl
      exact (compareClocks_eq_concurrent.mp hconc).1 rfl
    exact ((h.clashes_second hu hv hne huafter).mp hconc).not_supersedes hvafter
  · intro x hx u hu hclash huafter hbefore
    have hne : u ≠ x := by
      rintro rfl
      exact hclash.not_supersedes huafter
    have hsecond : Clashes (some u) x := (h.clashes_second hu hx hne huafter).mpr hclash
    exact (compareClocks_eq_concurrent.mp hsecond).2.2 hbefore

/-! ## Whole states -/

variable {state : StateMap}

/-- A remote entry under `KeepBoth`: filed if it clashes, stored if it supersedes, dropped otherwise. -/
theorem applied_keepBoth (state : StateMap) (entry : StateEntry) :
    applied .keepBoth state entry =
      if Clashes (state.lookup entry.key) entry then state.insert entry.conflictKey entry.renamed
      else if Supersedes (state.lookup entry.key) entry then state.insert entry.key entry
      else state := by
  unfold applied
  cases state.lookup entry.key with
  | none => rfl
  | some l =>
      have hbefore : Supersedes (some l) entry ↔ compareClocks l.clock entry.clock = .before :=
        compareClocks_eq_before.symm
      have hclash : Clashes (some l) entry ↔ compareClocks l.clock entry.clock = .concurrent := Iff.rfl
      simp only [hbefore, hclash]
      cases compareClocks l.clock entry.clock with
      | before => rfl
      | after => rfl
      | equal => rfl
      | concurrent => rfl

/-- A key under which the entry is not filed: only an entry for it matters. -/
theorem lookup_applied_keepBoth {entry : StateEntry} {k : String}
    (hk : Clashes (state.lookup entry.key) entry → entry.conflictKey ≠ k) :
    (applied .keepBoth state entry).lookup k =
      if entry.key = k then challenge Supersedes (state.lookup k) entry else state.lookup k := by
  rw [applied_keepBoth]
  split
  · rename_i hclash
    rw [Finmap.lookup_insert_of_ne _ (hk hclash).symm]
    split
    · rename_i hkey
      rw [← hkey, challenge, if_neg hclash.not_supersedes]
    · rfl
  · split
    · rename_i hsup
      rw [lookup_insert_key]
      split
      · rename_i hkey
        rw [← hkey, challenge, if_pos hsup]
      · rfl
    · rename_i hsup
      split
      · rename_i hkey
        rw [← hkey, challenge, if_neg hsup]
      · rfl

/-- A key that is not the key of the entry: only the filing matters. -/
theorem lookup_applied_conflictKey {entry : StateEntry} {k : String} (hk : entry.key ≠ k) :
    (applied .keepBoth state entry).lookup k =
      if entry.conflictKey = k ∧ Clashes (state.lookup entry.key) entry then some entry.renamed
      else state.lookup k := by
  rw [applied_keepBoth]
  by_cases hclash : Clashes (state.lookup entry.key) entry
  · rw [if_pos hclash]
    by_cases hkey : entry.conflictKey = k
    · rw [if_pos ⟨hkey, hclash⟩, ← hkey, Finmap.lookup_insert]
    · rw [if_neg fun h => hkey h.1, Finmap.lookup_insert_of_ne _ (Ne.symm hkey)]
  · have hnot : ¬ (entry.conflictKey = k ∧ Clashes (state.lookup entry.key) entry) := fun h => hclash h.2
    rw [if_neg hclash, if_neg hnot]
    split
    · rw [Finmap.lookup_insert_of_ne _ hk.symm]
    · rfl

/-- What a key holds that is nobody's conflict key. -/
theorem lookup_foldl_keepBoth {entries : List StateEntry} {k : String} (hk : ∀ e ∈ entries, e.conflictKey ≠ k) :
    (entries.foldl (applied .keepBoth) state).lookup k =
      select Supersedes (state.lookup k) (entries.filter fun entry => entry.key = k) := by
  induction entries generalizing state with
  | nil => rfl
  | cons entry entries ih =>
      obtain ⟨hentry, hentries⟩ := List.forall_mem_cons.mp hk
      rw [List.foldl_cons, ih hentries, lookup_applied_keepBoth fun _ => hentry]
      by_cases hkey : entry.key = k
      · rw [if_pos hkey, List.filter_cons, if_pos (decide_eq_true hkey)]
        rfl
      · rw [if_neg hkey, List.filter_cons, if_neg (by simpa using hkey)]

/-- What the conflict key of `x` holds, where it is nobody else's: `x`, if it was filed. -/
theorem lookup_foldl_conflictKey {entries : List StateEntry} (hkeys : ∀ e ∈ entries, e.key ≠ x.conflictKey)
    (honly : ∀ e ∈ entries, e.conflictKey = x.conflictKey → e = x)
    (hfree : ∀ e ∈ entries, e.conflictKey ≠ x.key) :
    (entries.foldl (applied .keepBoth) state).lookup x.conflictKey =
      if x ∈ filed (state.lookup x.key) (entries.filter fun entry => entry.key = x.key) then some x.renamed
      else state.lookup x.conflictKey := by
  induction entries generalizing state with
  | nil => rfl
  | cons entry entries ih =>
      obtain ⟨hkey, hkeys⟩ := List.forall_mem_cons.mp hkeys
      obtain ⟨hone, honly⟩ := List.forall_mem_cons.mp honly
      obtain ⟨hfree₁, hfree⟩ := List.forall_mem_cons.mp hfree
      rw [List.foldl_cons, ih hkeys honly hfree, lookup_applied_keepBoth fun _ => hfree₁, lookup_applied_conflictKey hkey]
      by_cases hsame : entry.key = x.key
      · -- an entry for the key of `x`: it is `x`, or its filing goes elsewhere
        rw [if_pos hsame, List.filter_cons, if_pos (decide_eq_true hsame), hsame, if_congr mem_filed_cons rfl rfl]
        by_cases hfiled : x ∈ filed (challenge Supersedes (state.lookup x.key) entry)
            (entries.filter fun entry => decide (entry.key = x.key))
        · rw [if_pos hfiled, if_pos (.inr hfiled)]
        · rw [if_neg hfiled]
          by_cases hclash : entry.conflictKey = x.conflictKey ∧ Clashes (state.lookup x.key) entry
          · rw [if_pos hclash, if_pos (.inl ⟨hone hclash.1, hclash.2⟩), hone hclash.1]
          · rw [if_neg hclash, if_neg]
            rintro (⟨rfl, h⟩ | h)
            · exact hclash ⟨rfl, h⟩
            · exact hfiled h
      · -- an entry for another key is not `x`
        have hx : ¬ (entry.conflictKey = x.conflictKey ∧ Clashes (state.lookup entry.key) entry) :=
          fun h => hsame (by rw [hone h.1])
        have hskip : ¬ decide (entry.key = x.key) = true := by simpa using hsame
        rw [if_neg hsame, if_neg hx, List.filter_cons, if_neg hskip]

/-- The conflict keys of the entries of `S` collide with nothing: not with each other, with a key of `S` or with a
key in use. -/
structure FreshConflictKeys (state : StateMap) (S : Finset StateEntry) : Prop where
  distinct : ∀ x ∈ S, ∀ y ∈ S, x.conflictKey = y.conflictKey → x = y
  unused : ∀ x ∈ S, ∀ y ∈ S, x.conflictKey ≠ y.key
  absent : ∀ x ∈ S, x.conflictKey ∉ state

variable {S : Finset StateEntry}

/-- What the conflict key of `x` holds after an order of `S`. -/
theorem FreshConflictKeys.lookup_order (hf : FreshConflictKeys state S) (hx : x ∈ S) (hl : OrderOf S l) :
    (l.foldl (applied .keepBoth) state).lookup x.conflictKey =
      if x ∈ filed (state.lookup x.key) (l.filter fun entry => entry.key = x.key) then some x.renamed else none := by
  have hnone : state.lookup x.conflictKey = none := Finmap.lookup_eq_none.mpr (hf.absent x hx)
  rw [lookup_foldl_conflictKey, hnone]
  · exact fun e he => (hf.unused x hx e (hl.mem_iff.mp he)).symm
  · exact fun e he => hf.distinct e (hl.mem_iff.mp he) x hx
  · exact fun e he => hf.unused e (hl.mem_iff.mp he) x hx

/-- **Where `KeepBoth` converges the entries of every key are chained**, if conflict keys collide with nothing. -/
theorem FreshConflictKeys.chained (hf : FreshConflictKeys state S) (hconv : Converges .keepBoth state S) (k : String) :
    Chained (state.lookup k) (forKey S k) := by
  refine orderFree_iff.mp fun l l' hl hl' => ?_
  obtain ⟨m, hm, hml⟩ := exists_order_forKey hl
  obtain ⟨m', hm', hml'⟩ := exists_order_forKey hl'
  have heq := hconv m m' hm hm'
  refine ⟨?_, fun x => ?_⟩
  · by_cases hnone : ∃ y ∈ S, y.key = k
    · obtain ⟨y, hy, rfl⟩ := hnone
      have hk : ∀ {m : List StateEntry}, OrderOf S m → ∀ e ∈ m, e.conflictKey ≠ y.key :=
        fun hm e he => hf.unused e (hm.mem_iff.mp he) y hy
      have hlook := congrArg (Finmap.lookup y.key) heq
      rw [lookup_foldl_keepBoth (hk hm), lookup_foldl_keepBoth (hk hm'), hml, hml'] at hlook
      exact hlook
    · -- no entry for this key
      have hnil : ∀ {l : List StateEntry}, OrderOf (forKey S k) l → l = [] := by
        intro l hl
        refine List.eq_nil_iff_forall_not_mem.mpr fun y hy => hnone ⟨y, ?_⟩
        exact Finset.mem_filter.mp (hl.mem_iff.mp hy)
      rw [hnil hl, hnil hl']
  · by_cases hx : x ∈ forKey S k
    · obtain ⟨hxS, rfl⟩ := Finset.mem_filter.mp hx
      have hlook := congrArg (Finmap.lookup x.conflictKey) heq
      rw [hf.lookup_order hxS hm, hf.lookup_order hxS hm', hml, hml'] at hlook
      by_cases hfiled : x ∈ filed (state.lookup x.key) l
      · by_cases hfiled' : x ∈ filed (state.lookup x.key) l'
        · exact iff_of_true hfiled hfiled'
        · rw [if_pos hfiled, if_neg hfiled'] at hlook
          cases hlook
      · by_cases hfiled' : x ∈ filed (state.lookup x.key) l'
        · rw [if_neg hfiled, if_pos hfiled'] at hlook
          cases hlook
        · exact iff_of_false hfiled hfiled'
    · exact iff_of_false (fun h => hx (hl.mem_iff.mp (mem_of_mem_filed h)))
        fun h => hx (hl'.mem_iff.mp (mem_of_mem_filed h))

/-- The entries that clash with the holder of their key have conflict keys of their own, under which no entry of `S`
comes in. -/
structure FiledApart (state : StateMap) (S : Finset StateEntry) : Prop where
  distinct : ∀ x ∈ S, ∀ y ∈ S, Clashes (state.lookup x.key) x → Clashes (state.lookup y.key) y →
    x.conflictKey = y.conflictKey → x = y
  unused : ∀ x ∈ S, ∀ y ∈ S, Clashes (state.lookup x.key) x → x.conflictKey ≠ y.key

/-- With chained keys and filings that go apart the state after any entries of `S` is known: what clashed with the
first holder is filed, and under every other key stands the selection among its entries. -/
theorem FiledApart.lookup_foldl (hap : FiledApart state S) (hch : ∀ k, Chained (state.lookup k) (forKey S k))
    {entries : List StateEntry} (hS : ∀ e ∈ entries, e ∈ S) :
    (∀ x ∈ entries, Clashes (state.lookup x.key) x →
      (entries.foldl (applied .keepBoth) state).lookup x.conflictKey = some x.renamed) ∧
    ∀ k, (∀ x ∈ entries, Clashes (state.lookup x.key) x → x.conflictKey ≠ k) →
      (entries.foldl (applied .keepBoth) state).lookup k =
        select Supersedes (state.lookup k) (entries.filter fun entry => entry.key = k) := by
  induction entries using List.reverseRecOn with
  | nil => exact ⟨fun _ hx => absurd hx List.not_mem_nil, fun _ _ => rfl⟩
  | append_singleton entries entry ih =>
      have hbefore : ∀ e ∈ entries, e ∈ S := fun e he => hS e (List.mem_append_left _ he)
      have hentry : entry ∈ S := hS entry (List.mem_append_right _ (List.mem_singleton_self entry))
      obtain ⟨hfiled, hheld⟩ := ih hbefore
      have hplace := hheld entry.key fun x hx hclash => hap.unused x (hbefore x hx) entry hentry hclash
      -- whether the entry clashes was decided by the first holder
      have hclash : Clashes ((entries.foldl (applied .keepBoth) state).lookup entry.key) entry ↔
          Clashes (state.lookup entry.key) entry := by
        rw [hplace]
        refine (hch entry.key).clashes_select (fun y hy => ?_) (Finset.mem_filter.mpr ⟨hentry, rfl⟩)
        obtain ⟨hy, hkey⟩ := List.mem_filter.mp hy
        exact Finset.mem_filter.mpr ⟨hbefore y hy, of_decide_eq_true hkey⟩
      rw [List.foldl_append]
      refine ⟨fun x hx hxclash => ?_, fun k hk => ?_⟩
      · show (applied .keepBoth (entries.foldl (applied .keepBoth) state) entry).lookup x.conflictKey = _
        have hkey : entry.key ≠ x.conflictKey := (hap.unused x (hS x hx) entry hentry hxclash).symm
        rw [lookup_applied_conflictKey hkey]
        split
        · rename_i h
          rw [hap.distinct entry hentry x (hS x hx) (hclash.mp h.2) hxclash h.1]
        · rename_i h
          rcases List.mem_append.mp hx with hx | hx
          · exact hfiled x hx hxclash
          · rw [List.mem_singleton.mp hx] at hxclash h
            exact absurd ⟨rfl, hclash.mpr hxclash⟩ h
      · show (applied .keepBoth (entries.foldl (applied .keepBoth) state) entry).lookup k = _
        obtain ⟨hkbefore, hkentry⟩ := List.forall_mem_append.mp hk
        rw [lookup_applied_keepBoth fun h => hkentry entry (List.mem_singleton_self entry) (hclash.mp h),
          hheld k hkbefore, List.filter_append, select_append, List.filter_singleton]
        by_cases hkey : entry.key = k
        · simp only [hkey, decide_true, if_true]
          rfl
        · simp only [hkey, decide_false, if_false]
          rfl

/-- **`KeepBoth` converges where the entries of every key are chained** and what is filed goes apart. -/
theorem FiledApart.converges (hap : FiledApart state S) (hch : ∀ k, Chained (state.lookup k) (forKey S k)) :
    Converges .keepBoth state S := by
  intro l l' hl hl'
  obtain ⟨hfiled, hheld⟩ := hap.lookup_foldl hch fun e he => hl.mem_iff.mp he
  obtain ⟨hfiled', hheld'⟩ := hap.lookup_foldl hch fun e he => hl'.mem_iff.mp he
  refine Finmap.ext_lookup fun k => ?_
  by_cases hconflict : ∃ x ∈ S, Clashes (state.lookup x.key) x ∧ x.conflictKey = k
  · obtain ⟨x, hx, hclash, rfl⟩ := hconflict
    rw [hfiled x (hl.mem_iff.mpr hx) hclash, hfiled' x (hl'.mem_iff.mpr hx) hclash]
  · have hnot : ∀ x ∈ S, Clashes (state.lookup x.key) x → x.conflictKey ≠ k :=
      fun x hx hclash heq => hconflict ⟨x, hx, hclash, heq⟩
    rw [hheld k fun x hx => hnot x (hl.mem_iff.mp hx), hheld' k fun x hx => hnot x (hl'.mem_iff.mp hx)]
    exact (hch k).settles.agree _ _ (hl.filter _) (hl'.filter _)

end WarmLogic.Federation
