import Mathlib.Data.List.TakeWhile
import Mathlib.Tactic

/-!
# Searching a sorted list

`binarySearchBy` is what a binary search returns on a list sorted by the comparison: the position of
a match, or the position at which a new element keeps the list sorted. `partitionPoint` is the number
of leading elements that satisfy a predicate.
-/

namespace Search

open List

variable {α κ : Type}

/-- Where a search ends: on a match, or where the element would be inserted. -/
inductive Place where
  | found (i : ℕ)
  | vacant (i : ℕ)
  deriving DecidableEq

def binarySearchBy (cmp : α → Ordering) (l : List α) : Place :=
  match l.findIdx? fun a => cmp a == .eq with
  | some i => .found i
  | none => .vacant (l.takeWhile fun a => cmp a == .lt).length

def partitionPoint (p : α → Bool) (l : List α) : ℕ := (l.takeWhile p).length

theorem partitionPoint_le (h : l[i]? = some a) (hp : p a = false) :
    partitionPoint p l ≤ i := by
  unfold partitionPoint
  induction l generalizing i with
  | nil => cases h
  | cons b l ih =>
    rw [takeWhile_cons]
    split
    · rename_i hb
      cases i with
      | zero =>
        cases h
        rw [hb] at hp
        cases hp
      | succ i => exact Nat.succ_le_succ (ih h)
    · exact Nat.zero_le i

theorem of_lt_partitionPoint (h : l[i]? = some a) (hi : i < partitionPoint p l) : p a = true := by
  unfold partitionPoint at hi
  have hmem : (l.takeWhile p)[i]? = some a := by
    rw [← h, ← takeWhile_append_dropWhile (p := p) (l := l), getElem?_append_left hi,
      takeWhile_append_dropWhile]
  exact mem_takeWhile_imp (mem_of_getElem? hmem)

theorem partitionPoint_eq_iff (h : l[i]? = some a) :
    partitionPoint p l = i ↔ (∀ j < i, ∀ b, l[j]? = some b → p b = true) ∧ ¬ p a = true := by
  unfold partitionPoint
  induction l generalizing i with
  | nil => cases h
  | cons b l ih =>
    rw [takeWhile_cons]
    cases i with
    | zero =>
      obtain rfl : b = a := by simpa using h
      by_cases hb : p b = true <;> simp [hb]
    | succ i =>
      by_cases hb : p b = true
      · rw [if_pos hb, length_cons, Nat.add_right_cancel_iff, ih h]
        refine and_congr_left fun _ => ⟨fun hall j hj c hc => ?_, fun hall j hj => hall (j + 1) (by omega)⟩
        cases j with
        | zero =>
          obtain rfl : b = c := by simpa using hc
          exact hb
        | succ j => exact hall j (by omega) c hc
      · rw [if_neg hb]
        constructor
        · intro hnil
          cases hnil
        · intro hall
          exact absurd (hall.1 0 (Nat.succ_pos i) b rfl) hb

theorem binarySearchBy_found {cmp : α → Ordering} (h : binarySearchBy cmp l = .found i) :
    ∃ a, l[i]? = some a ∧ cmp a = .eq := by
  unfold binarySearchBy at h
  split at h
  · rename_i j hj
    cases h
    obtain ⟨hlt, hp, -⟩ := findIdx?_eq_some_iff_getElem.mp hj
    exact ⟨l[i], by simp [hlt], by simpa using hp⟩
  · cases h

theorem binarySearchBy_vacant {cmp : α → Ordering} (h : binarySearchBy cmp l = .vacant i) :
    i = (l.takeWhile fun a => cmp a == .lt).length ∧ ∀ a ∈ l, cmp a ≠ .eq := by
  unfold binarySearchBy at h
  split at h
  · cases h
  · rename_i hnone
    cases h
    refine ⟨rfl, fun a ha heq => ?_⟩
    have := findIdx?_eq_none_iff.mp hnone a ha
    simp [heq] at this

theorem insertIdx_length_append (pre post : List α) (x : α) : (pre ++ post).insertIdx pre.length x = pre ++ x :: post := by
  induction pre with
  | nil => rfl
  | cons a pre ih => rw [cons_append, length_cons, insertIdx_succ_cons, ih, cons_append]

theorem insertIdx_takeWhile (l : List α) (x : α) :
    l.insertIdx (l.takeWhile p).length x = l.takeWhile p ++ x :: l.dropWhile p := by
  rw [← insertIdx_length_append, takeWhile_append_dropWhile]

theorem pairwise_insertIdx [IsTrans α r] {cmp : α → Ordering} (hl : l.Pairwise r) (hlt : ∀ a ∈ l, cmp a = .lt → r a x)
    (hgt : ∀ a ∈ l, cmp a = .gt → r x a) (h : binarySearchBy cmp l = .vacant i) :
    (l.insertIdx i x).Pairwise r := by
  obtain ⟨rfl, hne⟩ := binarySearchBy_vacant h
  set p : α → Bool := fun a => cmp a == .lt
  have hsplit : l.takeWhile p ++ l.dropWhile p = l := takeWhile_append_dropWhile
  have hbefore : ∀ a ∈ l.takeWhile p, r a x := fun a ha => by
    have hp := mem_takeWhile_imp ha
    exact hlt a (takeWhile_subset _ ha) (by simpa [p] using hp)
  rw [insertIdx_takeWhile]
  rw [← hsplit, pairwise_append] at hl
  obtain ⟨hpre, hpost, hcross⟩ := hl
  have hafter : ∀ b ∈ l.dropWhile p, r x b := by
    cases hd : l.dropWhile p with
    | nil => simp
    | cons y ys =>
      have hy : y ∈ l := dropWhile_subset p (by simp [hd])
      have hyp : p y = false := by
        have := head_dropWhile_not p (by simp [hd] : l.dropWhile p ≠ [])
        simpa [hd] using this
      have hxy : r x y := by
        refine hgt y hy ?_
        cases hc : cmp y with
        | lt => simp [p, hc] at hyp
        | eq => exact absurd hc (hne y hy)
        | gt => rfl
      rw [hd, pairwise_cons] at hpost
      intro b hb
      rcases mem_cons.mp hb with rfl | hb
      · exact hxy
      · exact IsTrans.trans _ _ _ hxy (hpost.1 b hb)
  rw [pairwise_append]
  refine ⟨hpre, pairwise_cons.mpr ⟨hafter, hpost⟩, fun a ha b hb => ?_⟩
  rcases mem_cons.mp hb with rfl | hb
  · exact hbefore a ha
  · exact hcross a ha b hb

end Search
