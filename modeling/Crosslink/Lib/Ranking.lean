import Mathlib.Data.List.Sort
import Mathlib.Tactic

/-!
# Lists that are sorted now and then

Entries `0, 1, 2, …` join a list one after the other and gain weight as time goes on: `count k` of them have joined
after `k` steps, and `weight k i` is the weight of entry `i` then. Every time a group of steps is over the list is
sorted by weight, the heaviest first, with entries of the same weight left in their order. Whether the outcome depends
on how the steps are grouped is decided by the entries that end with the same weight: the one that joined later must
never have been ahead of the one that joined earlier.
-/

namespace Ranking

open List

variable {α : Type} {l : List α} {a b : α}

theorem pair_sublist_of_mem (ha : a ∈ l) (hb : b ∈ l) (hne : a ≠ b) : [a, b] <+ l ∨ [b, a] <+ l := by
  obtain ⟨l₁, l₂, rfl⟩ := List.append_of_mem ha
  have hb : b ∈ l₁ ∨ b ∈ l₂ := by simpa [hne.symm] using hb
  rcases hb with hb | hb
  · exact .inr ((List.singleton_sublist.mpr hb).append (List.singleton_sublist.mpr List.mem_cons_self))
  · exact .inl ((((List.singleton_sublist.mpr hb).cons_cons a)).trans (List.sublist_append_right l₁ _))

theorem not_pair_sublist_swap (hl : l.Nodup) (h : [a, b] <+ l) : ¬ [b, a] <+ l := by
  induction l with
  | nil => cases h
  | cons x l ih =>
    obtain ⟨hx, hl⟩ := List.nodup_cons.mp hl
    intro h'
    cases h with
    | cons _ h =>
      cases h' with
      | cons _ h' => exact ih hl h h'
      | cons_cons _ h' => exact hx (h.subset (by simp))
    | cons_cons _ h =>
      cases h' with
      | cons _ h' => exact hx (h'.subset (by simp))
      | cons_cons _ h' => exact hx (by simpa using h)

def rank (w : ℕ → ℕ) (l : List ℕ) : List ℕ := l.insertionSort fun i j => w j ≤ w i

theorem rank_perm (w : ℕ → ℕ) (l : List ℕ) : (rank w l).Perm l := List.perm_insertionSort _ l

theorem pairwise_rank (w : ℕ → ℕ) (l : List ℕ) : (rank w l).Pairwise fun i j => w j ≤ w i := List.pairwise_insertionSort _ l

theorem pair_sublist_rank {l : List ℕ} (hw : w j ≤ w i) (h : [i, j] <+ l) : [i, j] <+ rank w l :=
  List.pair_sublist_insertionSort hw h

theorem eq_rank {l m : List ℕ} (hm : m.Nodup) (hperm : l.Perm m) (hsorted : l.Pairwise fun i j => w j ≤ w i)
    (hties : ∀ i j, [i, j] <+ m → w i = w j → [i, j] <+ l) : l = rank w m := by
  have hl : l.Nodup := hperm.nodup_iff.mpr hm
  -- the heavier entry is first, and of two entries of the same weight the one that is first in `m`
  have hstrict {k : List ℕ} (hk : k.Perm m) (hsort : k.Pairwise fun i j => w j ≤ w i)
      (hkties : ∀ i j, [i, j] <+ m → w i = w j → [i, j] <+ k) :
      k.Pairwise fun i j => w j < w i ∨ (w i = w j ∧ [i, j] <+ m) := by
    have hnodup : k.Nodup := hk.nodup_iff.mpr hm
    refine List.pairwise_iff_forall_sublist.mpr fun {i j} hij => ?_
    rcases (List.pairwise_iff_forall_sublist.mp hsort hij).lt_or_eq with hlt | heq
    · exact .inl hlt
    refine .inr ⟨heq.symm, ?_⟩
    have hne : i ≠ j := List.pairwise_iff_forall_sublist.mp hnodup hij
    have hi : i ∈ m := hk.subset (hij.subset (by simp))
    have hj : j ∈ m := hk.subset (hij.subset (by simp))
    exact (pair_sublist_of_mem hi hj hne).resolve_right fun hji => not_pair_sublist_swap hnodup hij (hkties j i hji heq)
  refine (hperm.trans (rank_perm w m).symm).eq_of_pairwise (fun i j _ _ hij hji => ?_) (hstrict hperm hsorted hties)
    (hstrict (rank_perm w m) (pairwise_rank w m) fun i j hij heq => pair_sublist_rank heq.ge hij)
  rcases hij with hlt | ⟨heq, hij⟩
  · rcases hji with hlt' | ⟨heq', -⟩
    · exact absurd hlt hlt'.not_gt
    · exact absurd heq' hlt.ne
  · rcases hji with hlt' | ⟨-, hji⟩
    · exact absurd heq hlt'.ne
    · exact absurd hji (not_pair_sublist_swap hm hij)

/-! ### Groups of steps -/

section Groups

variable (count : ℕ → ℕ) (weight : ℕ → ℕ → ℕ)

/-- The list after groups of steps of the given sizes, from `l` after `k` steps. -/
def regroup : ℕ → List ℕ → List ℕ → List ℕ
  | _, l, [] => l
  | k, l, 0 :: sizes => regroup k l sizes
  | k, l, (size + 1) :: sizes =>
    regroup (k + (size + 1)) (rank (weight (k + (size + 1)))
      (l ++ List.range' (count k) (count (k + (size + 1)) - count k))) sizes

/-- Of two entries with the same weight after `n` steps, the later one was never ahead. -/
def NeverAhead (n : ℕ) : Prop :=
  ∀ j < count n, ∀ i < j, weight n i = weight n j → ∀ k ≤ n, j < count k → weight k j ≤ weight k i

instance (n : ℕ) : Decidable (NeverAhead count weight n) := by
  unfold NeverAhead
  infer_instance

/-- The list holds the entries that have joined, and ties that last are in the order of joining. -/
structure InOrder (n k : ℕ) (l : List ℕ) : Prop where
  perm : l.Perm (List.range (count k))
  sorted : l.Pairwise fun i j => weight k j ≤ weight k i
  ties : ∀ i j, i < j → j < count k → weight n i = weight n j → [i, j] <+ l

variable {count : ℕ → ℕ} {weight : ℕ → ℕ → ℕ} {n k : ℕ} {l : List ℕ}

theorem range_append_range' (hcount : Monotone count) (size : ℕ) :
    List.range (count k) ++ List.range' (count k) (count (k + size) - count k) = List.range (count (k + size)) := by
  have hle : count k ≤ count (k + size) := hcount (by omega)
  have happend := @List.range'_append_1 0 (count k) (count (k + size) - count k)
  rwa [Nat.zero_add, Nat.add_sub_cancel' hle, ← List.range_eq_range', ← List.range_eq_range'] at happend

theorem pair_sublist_of_lt (hl : l.Pairwise (· < ·)) (hi : i ∈ l) (hj : j ∈ l) (hij : i < j) : [i, j] <+ l :=
  (pair_sublist_of_mem hi hj hij.ne).resolve_right fun hji =>
    absurd (List.pairwise_iff_forall_sublist.mp hl hji) hij.not_gt

theorem lt_of_pair_sublist_range (h : [i, j] <+ List.range m) : i < j ∧ j < m :=
  ⟨List.pairwise_iff_forall_sublist.mp List.pairwise_lt_range h, List.mem_range.mp (h.subset (by simp))⟩

theorem perm_append_range' (hcount : Monotone count) (hl : l.Perm (List.range (count k))) (size : ℕ) :
    (l ++ List.range' (count k) (count (k + size) - count k)).Perm (List.range (count (k + size))) := by
  rw [← range_append_range' hcount]
  exact hl.append_right _

theorem regroup_perm (hcount : Monotone count) (hl : l.Perm (List.range (count k))) (hsizes : k + sizes.sum = n) :
    (regroup count weight k l sizes).Perm (List.range (count n)) := by
  induction sizes generalizing k l with
  | nil =>
    obtain rfl : k = n := hsizes
    exact hl
  | cons size sizes ih =>
    rw [List.sum_cons] at hsizes
    cases size with
    | zero => exact ih hl (by omega)
    | succ size => exact ih ((rank_perm _ _).trans (perm_append_range' hcount hl _)) (by omega)

theorem regroup_whole (hzero : count 0 = 0) (n : ℕ) :
    regroup count weight 0 [] [n] = rank (weight n) (List.range (count n)) := by
  cases n with
  | zero =>
    rw [hzero]
    rfl
  | succ n => simp only [regroup, Nat.zero_add, List.nil_append, hzero, Nat.sub_zero, List.range_eq_range']

theorem InOrder.step (hcount : Monotone count) (hahead : NeverAhead count weight n) (h : InOrder count weight n k l) {size : ℕ}
    (hsize : k + size ≤ n) : InOrder count weight n (k + size) (rank (weight (k + size))
      (l ++ List.range' (count k) (count (k + size) - count k))) := by
  refine ⟨(rank_perm _ _).trans (perm_append_range' hcount h.perm size), pairwise_rank _ _, fun i j hij hj heq => ?_⟩
  refine pair_sublist_rank (hahead j (hj.trans_le (hcount hsize)) i hij heq _ hsize hj) ?_
  have hjoined {i : ℕ} (hi : count k ≤ i) (hlt : i < count (k + size)) :
      i ∈ List.range' (count k) (count (k + size) - count k) := by
    rw [List.mem_range'_1]
    omega
  by_cases hjk : j < count k
  · exact (h.ties i j hij hjk heq).trans (List.sublist_append_left _ _)
  · by_cases hik : i < count k
    · have hi : i ∈ l := h.perm.mem_iff.mpr (List.mem_range.mpr hik)
      exact (List.singleton_sublist.mpr hi).append (List.singleton_sublist.mpr (hjoined (by omega) hj))
    · refine (pair_sublist_of_lt (List.pairwise_lt_range' _) ?_ ?_ hij).trans (List.sublist_append_right _ _)
      exacts [hjoined (by omega) (by omega), hjoined (by omega) hj]

theorem InOrder.regroup (hcount : Monotone count) (hahead : NeverAhead count weight n) (h : InOrder count weight n k l)
    {sizes : List ℕ} (hsizes : k + sizes.sum = n) : regroup count weight k l sizes = rank (weight n) (List.range (count n)) := by
  induction sizes generalizing k l with
  | nil =>
    obtain rfl : k = n := hsizes
    refine eq_rank List.nodup_range h.perm h.sorted fun i j hij heq => ?_
    obtain ⟨hlt, hj⟩ := lt_of_pair_sublist_range hij
    exact h.ties i j hlt hj heq
  | cons size sizes ih =>
    rw [List.sum_cons] at hsizes
    cases size with
    | zero => exact ih h (by omega)
    | succ size => exact ih (h.step hcount hahead (by omega)) (by omega)

theorem regroup_eq_iff (hcount : Monotone count) (hzero : count 0 = 0) :
    (∀ sizes : List ℕ, sizes.sum = n → regroup count weight 0 [] sizes = rank (weight n) (List.range (count n))) ↔
      NeverAhead count weight n := by
  constructor
  · intro h j _ i hij heq k hk hj
    by_contra hlt
    have hlt : weight k i < weight k j := not_le.mp hlt
    obtain ⟨k', rfl⟩ : ∃ k', k = k' + 1 := Nat.exists_eq_succ_of_ne_zero (by rintro rfl; omega)
    obtain ⟨m, rfl⟩ : ∃ m, n = k' + 1 + (m + 1) := by
      have hne : n ≠ k' + 1 := by
        rintro rfl
        omega
      exact ⟨n - (k' + 1) - 1, by omega⟩
    have hlists := h [k' + 1, m + 1] (by simp)
    simp only [regroup, Nat.zero_add, List.nil_append, hzero, Nat.sub_zero, ← List.range_eq_range'] at hlists
    -- sorting after the first group puts `j` before `i`, where the tie at the end leaves it
    have hmem {i : ℕ} (hi : i < count (k' + 1)) : i ∈ rank (weight (k' + 1)) (List.range (count (k' + 1))) :=
      (rank_perm _ _).mem_iff.mpr (List.mem_range.mpr hi)
    have hji : [j, i] <+ rank (weight (k' + 1)) (List.range (count (k' + 1))) :=
      (pair_sublist_of_mem (hmem hj) (hmem (hij.trans hj)) hij.ne').resolve_right fun hsub =>
        absurd (List.pairwise_iff_forall_sublist.mp (pairwise_rank _ _) hsub) (not_le.mpr hlt)
    have hgrouped := pair_sublist_rank (w := weight (k' + 1 + (m + 1))) heq.le (hji.trans (List.sublist_append_left _
      (List.range' (count (k' + 1)) (count (k' + 1 + (m + 1)) - count (k' + 1)))))
    have hjn : j < count (k' + 1 + (m + 1)) := hj.trans_le (hcount (by omega))
    have hwhole : [i, j] <+ rank (weight (k' + 1 + (m + 1))) (List.range (count (k' + 1 + (m + 1)))) :=
      pair_sublist_rank heq.ge (pair_sublist_of_lt List.pairwise_lt_range (List.mem_range.mpr (hij.trans hjn))
        (List.mem_range.mpr hjn) hij)
    rw [hlists] at hgrouped
    exact not_pair_sublist_swap ((rank_perm _ _).nodup_iff.mpr List.nodup_range) hwhole hgrouped
  · intro hahead sizes hsizes
    refine InOrder.regroup hcount hahead ⟨by simp [hzero], List.Pairwise.nil, fun i j _ hj => ?_⟩ (by omega)
    omega

end Groups

end Ranking
