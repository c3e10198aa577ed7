import Mathlib.Data.Finset.Card
import Mathlib.Data.Finset.Powerset
import Mathlib.Order.Lattice.Nat
import Mathlib.Data.List.Nodup
import Mathlib.Algebra.BigOperators.Group.List.Basic
import Mathlib.Algebra.GroupWithZero.Nat
import Mathlib.Order.Bounds.Basic

/-!
How many entries of a list a bounded set of keys can cover. The optimum over
all sets is reached greedily: take the keys of largest multiplicity. Ties are
left open by the ranking relation, so nothing here depends on their order.
-/

namespace Coverage

variable {β : Type*} [DecidableEq β]

def coverage (keys : Finset β) (l : List β) : Nat := l.countP (· ∈ keys)

/-- The largest coverage of `l` by at most `k` keys. -/
def best (k : Nat) (l : List β) : Nat :=
  (l.toFinset.powerset.filter (·.card ≤ k)).sup fun keys => coverage keys l

/-- A list of the keys of `l` with their multiplicities, most frequent first. -/
structure Ranking (l : List β) (ranked : List (β × Nat)) : Prop where
  nodup : (ranked.map Prod.fst).Nodup
  mem_keys : ∀ b, b ∈ ranked.map Prod.fst ↔ b ∈ l
  counts : ∀ p ∈ ranked, p.2 = l.count p.1
  descending : ranked.Pairwise fun p q => q.2 ≤ p.2

theorem coverage_le_length (keys : Finset β) (l : List β) : coverage keys l ≤ l.length :=
  List.countP_le_length

theorem coverage_perm (keys : Finset β) {l l' : List β} (h : l.Perm l') :
    coverage keys l = coverage keys l' := h.countP_eq _

theorem coverage_inter (keys : Finset β) (l : List β) :
    coverage (keys ∩ l.toFinset) l = coverage keys l := by
  apply List.countP_congr
  intro b hb
  simp [hb]

/-- The number `best` computes is a maximum over every set of at most `k` keys. -/
theorem best_isGreatest (k : Nat) (l : List β) :
    IsGreatest {m | ∃ keys : Finset β, keys.card ≤ k ∧ m = coverage keys l} (best k l) := by
  constructor
  · have nonempty : (l.toFinset.powerset.filter (·.card ≤ k)).Nonempty :=
      ⟨∅, by simp⟩
    obtain ⟨keys, hmem, heq⟩ := Finset.exists_mem_eq_sup _ nonempty fun keys => coverage keys l
    exact ⟨keys, (Finset.mem_filter.mp hmem).2, heq⟩
  · rintro m ⟨keys, hcard, rfl⟩
    rw [← coverage_inter]
    apply Finset.le_sup (f := fun keys => coverage keys l)
    rw [Finset.mem_filter, Finset.mem_powerset]
    exact ⟨Finset.inter_subset_right,
      (Finset.card_le_card Finset.inter_subset_left).trans hcard⟩

theorem best_perm (k : Nat) {l l' : List β} (h : l.Perm l') : best k l = best k l' := by
  unfold best
  rw [List.toFinset_eq_of_perm l l' h]
  exact Finset.sup_congr rfl fun keys _ => coverage_perm keys h

theorem best_le_length (k : Nat) (l : List β) : best k l ≤ l.length :=
  Finset.sup_le fun keys _ => coverage_le_length keys l

/-- With as many keys as the list has, every entry is covered. -/
theorem best_eq_length {k : Nat} {l : List β} (h : l.toFinset.card ≤ k) : best k l = l.length := by
  have covered : coverage l.toFinset l = l.length :=
    List.countP_eq_length.mpr fun b hb => by simpa using hb
  exact le_antisymm (best_le_length k l) ((best_isGreatest k l).2 ⟨l.toFinset, h, covered.symm⟩)

theorem best_replicate {k : Nat} (hk : 0 < k) (n : Nat) (b : β) :
    best k (List.replicate n b) = n := by
  have few : (List.replicate n b).toFinset.card ≤ 1 := by
    cases n with
    | zero => simp
    | succ n => rw [List.toFinset_replicate_of_ne_zero n.succ_ne_zero, Finset.card_singleton]
  rw [best_eq_length (few.trans hk), List.length_replicate]

theorem sum_indicator {keys : List β} (nodup : keys.Nodup) (a : β) :
    (keys.map fun b => if a == b then 1 else 0).sum = if a ∈ keys then 1 else 0 := by
  induction keys with
  | nil => rfl
  | cons b keys ih =>
      rw [List.nodup_cons] at nodup
      rw [List.map_cons, List.sum_cons, ih nodup.2]
      by_cases h : a = b
      · subst h; simp [nodup.1]
      · simp [h]

theorem coverage_toFinset {keys : List β} (nodup : keys.Nodup) (l : List β) :
    coverage keys.toFinset l = (keys.map fun b => l.count b).sum := by
  induction l with
  | nil => simp [coverage]
  | cons a l ih =>
      unfold coverage at ih ⊢
      simp only [List.mem_toFinset] at ih ⊢
      simp only [List.countP_cons, List.count_cons, List.sum_map_add, ih,
        sum_indicator nodup, decide_eq_true_eq]

/-- The exchange argument on lists: of a descending list, the first `k` entries
have the largest sum among all sublists of at most `k` entries. -/
theorem sum_le_sum_take {ranks sub : List Nat} (descending : ranks.Pairwise fun a b => b ≤ a)
    (h : sub.Sublist ranks) {k : Nat} (hk : sub.length ≤ k) : sub.sum ≤ (ranks.take k).sum := by
  induction h generalizing k with
  | slnil => simp
  | @cons sub ranks a h ih =>
      rw [List.pairwise_cons] at descending
      cases k with
      | zero => simp [List.length_eq_zero_iff.mp (Nat.le_zero.mp hk)]
      | succ k =>
          -- the entry in place `k` of the tail is exchanged for the head
          have exchange : (ranks.take (k + 1)).sum ≤ a + (ranks.take k).sum := by
            rw [List.take_add_one, List.sum_append, Nat.add_comm]
            apply Nat.add_le_add_right
            cases hget : ranks[k]? with
            | none => simp
            | some b => simpa using descending.1 b (List.mem_of_getElem? hget)
          simpa using (ih descending.2 hk).trans exchange
  | @cons_cons sub ranks a h ih =>
      rw [List.pairwise_cons] at descending
      cases k with
      | zero => simp at hk
      | succ k => simpa using ih descending.2 (by simpa using hk)

namespace Ranking

variable {l : List β} {ranked : List (β × Nat)}

theorem sum_counts_eq_coverage (r : Ranking l ranked) {sub : List (β × Nat)}
    (h : sub.Sublist ranked) :
    (sub.map Prod.snd).sum = coverage (sub.map Prod.fst).toFinset l := by
  rw [coverage_toFinset (r.nodup.sublist (h.map _)), List.map_map]
  congr 1
  exact List.map_congr_left fun p hp => r.counts p (h.subset hp)

/-- Greedy choice is optimal: the first `k` keys of any ranking cover as much as
any set of at most `k` keys. -/
theorem sum_take_eq_best (r : Ranking l ranked) (k : Nat) :
    ((ranked.take k).map Prod.snd).sum = best k l := by
  apply IsGreatest.unique (s := {m | ∃ keys : Finset β, keys.card ≤ k ∧ m = coverage keys l})
  · constructor
    · refine ⟨((ranked.take k).map Prod.fst).toFinset, ?_,
        r.sum_counts_eq_coverage (List.take_sublist k ranked)⟩
      refine (List.toFinset_card_le _).trans ?_
      simp
    · rintro m ⟨keys, hcard, rfl⟩
      -- only the chosen keys that occur in `l` matter, and those are a sublist of the ranking
      let chosen := ranked.filter fun p => p.1 ∈ keys
      have sub : chosen.Sublist ranked := List.filter_sublist
      have covered : coverage keys l = (chosen.map Prod.snd).sum := by
        rw [r.sum_counts_eq_coverage sub]
        apply List.countP_congr
        intro b hb
        obtain ⟨p, hp, rfl⟩ := List.mem_map.mp ((r.mem_keys b).mpr hb)
        simp only [decide_eq_true_eq, List.mem_toFinset, List.mem_map]
        constructor
        · exact fun hk => ⟨p, List.mem_filter.mpr ⟨hp, by simpa using hk⟩, rfl⟩
        · rintro ⟨q, hq, he⟩
          have := (List.mem_filter.mp hq).2
          rw [← he]
          simpa using this
      have few : (chosen.map Prod.snd).length ≤ k := by
        rw [List.length_map, ← List.length_map (f := Prod.fst)]
        have nodup := r.nodup.sublist (sub.map Prod.fst)
        rw [← List.toFinset_card_of_nodup nodup]
        refine (Finset.card_le_card ?_).trans hcard
        intro b hb
        obtain ⟨p, hp, rfl⟩ := List.mem_map.mp (List.mem_toFinset.mp hb)
        simpa using (List.mem_filter.mp hp).2
      rw [covered, List.map_take]
      refine sum_le_sum_take ?_ (sub.map _) few
      rw [List.pairwise_map]
      exact r.descending
  · exact best_isGreatest k l

theorem length_eq (r : Ranking l ranked) : ranked.length = l.toFinset.card := by
  rw [← List.length_map (f := Prod.fst), ← List.toFinset_card_of_nodup r.nodup]
  congr 1
  ext b
  simpa using r.mem_keys b

end Ranking

end Coverage
