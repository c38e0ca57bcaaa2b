import Crosslink.Lib.Fallible

/-!
# Buffers filled from both ends

A buffer of fixed size takes entries of two kinds, one from the front and one from the end, so that neither has to
be moved while it fills up. Closing the gap afterwards moves entries of the second kind from the end of the buffer to
the front of the gap, until the gap is full or all of them have been moved. A single entry is removed in the same way:
the last one takes its place.
-/

namespace TwoEnded

open Fallible List

variable {α : Type} {n : ℕ} {blank : α} {front back : List α}

/-- The first kind from the front, the second from the end, and blanks between them. -/
def buffer (n : ℕ) (blank : α) (front back : List α) : List α :=
  front ++ (List.replicate (n - (front.length + back.length)) blank ++ back.reverse)

theorem buffer_length (h : front.length + back.length ≤ n) : (buffer n blank front back).length = n := by
  simp only [buffer, List.length_append, List.length_replicate, List.length_reverse]
  omega

theorem replicate_sub (h : k < m) :
    List.replicate (m - k) blank = blank :: List.replicate (m - (k + 1)) blank := by
  rw [← List.replicate_succ]
  congr 1
  omega

theorem set_front (h : front.length + back.length < n) (a : α) :
    (buffer n blank front back).set front.length a = buffer n blank (front ++ [a]) back := by
  have hgap : n - ((front ++ [a]).length + back.length) = n - (front.length + back.length + 1) := by
    rw [List.length_append, List.length_singleton]
    omega
  rw [buffer, buffer, hgap, replicate_sub h, List.set_append_right _ _ le_rfl, Nat.sub_self]
  simp

theorem set_back (h : front.length + back.length < n) (a : α) :
    (buffer n blank front back).set (n - (back.length + 1)) a = buffer n blank front (back ++ [a]) := by
  have hgap : n - (front.length + (back ++ [a]).length) = n - (front.length + back.length + 1) := by
    rw [List.length_append, List.length_singleton]
    omega
  have hlast : List.replicate (n - (front.length + back.length)) blank =
      List.replicate (n - (front.length + back.length + 1)) blank ++ [blank] := by
    rw [← List.replicate_succ']
    congr 1
    omega
  rw [buffer, buffer, hgap, hlast, List.set_append_right _ _ (by omega), List.append_assoc,
    List.set_append_right _ _ (by rw [List.length_replicate]; omega), List.length_replicate]
  have hzero : n - (back.length + 1) - front.length - (n - (front.length + back.length + 1)) = 0 := by omega
  rw [hzero]
  simp

/-! ### Closing the gap -/

def moveIn (used : ℕ) (buf : List α) (i : ℕ) : Except Panic (List α) := do
  let a ← getIdx buf (buf.length - 1 - i)
  setIdx buf (used + i) a

theorem moveIn_eq (front : List α) (hj : j < (back.take j).length + mid.length) : ∃ mid',
    moveIn front.length (front ++ (back.take j ++ (mid ++ back.reverse))) j =
      .ok (front ++ (back.take (j + 1) ++ (mid' ++ back.reverse))) ∧
        (back.take (j + 1)).length + mid'.length = (back.take j).length + mid.length := by
  have hsize : (front ++ (back.take j ++ (mid ++ back.reverse))).length =
      front.length + ((back.take j).length + (mid.length + back.length)) := by
    simp only [List.length_append, List.length_reverse]
  have hset : ∀ a, setIdx (front ++ (back.take j ++ (mid ++ back.reverse))) (front.length + j) a =
      .ok (front ++ (back.take j ++ (mid ++ back.reverse)).set j a) := by
    intro a
    rw [setIdx_ok (by omega), List.set_append_right _ _ (by omega), Nat.add_sub_cancel_left]
  unfold moveIn
  by_cases hlt : j < back.length
  · -- the next entry goes to the first place of what is left of the gap
    have hlen : (back.take j).length = j := by
      rw [List.length_take]
      omega
    have hentry : (front ++ (back.take j ++ (mid ++ back.reverse)))[
        (front ++ (back.take j ++ (mid ++ back.reverse))).length - 1 - j]? = some back[j] := by
      rw [hsize, List.getElem?_append_right (by omega), List.getElem?_append_right (by omega),
        List.getElem?_append_right (by omega), List.getElem?_reverse (by omega), ← List.getElem?_eq_getElem]
      congr 1
      omega
    cases mid with
    | nil =>
      rw [List.length_nil] at hj
      omega
    | cons x mid =>
      refine ⟨mid, ?_, ?_⟩
      · rw [getIdx_ok hentry, ok_bind, hset, List.set_append_right _ _ (by omega), hlen, Nat.sub_self,
          ← List.take_append_getElem hlt, List.append_assoc]
        rfl
      · rw [List.length_take, List.length_take, List.length_cons]
        omega
  · have hall : ∀ i, back.length ≤ i → back.take i = back := fun i => List.take_of_length_le
    rw [hall j (by omega)] at hj hsize hset ⊢
    rw [hall (j + 1) (by omega)]
    obtain ⟨a, ha⟩ : ∃ a, (front ++ (back ++ (mid ++ back.reverse)))[
        (front ++ (back ++ (mid ++ back.reverse))).length - 1 - j]? = some a :=
      ⟨_, List.getElem?_eq_getElem (by omega)⟩
    refine ⟨mid.set (j - back.length) a, ?_, by rw [List.length_set]⟩
    rw [getIdx_ok ha, ok_bind, hset, List.set_append_right _ _ (by omega), List.set_append_left _ _ (by omega)]

theorem foldlM_moveIn (blank : α) (hj : j ≤ n - (front.length + back.length)) :
    ∃ mid, (List.range j).foldlM (moveIn front.length) (buffer n blank front back) =
      .ok (front ++ (back.take j ++ (mid ++ back.reverse))) ∧
        (back.take j).length + mid.length = n - (front.length + back.length) := by
  induction j with
  | zero => exact ⟨List.replicate (n - (front.length + back.length)) blank, rfl, by simp⟩
  | succ j ih =>
    obtain ⟨mid, hfold, hlen⟩ := ih (by omega)
    obtain ⟨mid', hmove, hlen'⟩ := moveIn_eq front (by omega : j < (back.take j).length + mid.length)
    refine ⟨mid', ?_, by omega⟩
    rw [List.range_succ]
    exact foldlM_append_eq_ok.mpr ⟨_, hfold, foldlM_cons_eq_ok.mpr ⟨_, hmove, rfl⟩⟩

theorem closeGap (blank : α) (h : front.length + back.length ≤ n) : ∃ buf back',
    (List.range (n - (front.length + back.length))).foldlM (moveIn front.length) (buffer n blank front back) = .ok buf ∧
      buf.length = n ∧ buf.take (front.length + back.length) = front ++ back' ∧ back'.Perm back := by
  obtain ⟨mid, hfold, hlen⟩ := foldlM_moveIn blank (le_refl (n - (front.length + back.length)))
  rw [List.length_take] at hlen
  have hsize : (front ++ (back.take (n - (front.length + back.length)) ++ (mid ++ back.reverse))).length = n := by
    simp only [List.length_append, List.length_take, List.length_reverse]
    omega
  by_cases hle : back.length ≤ n - (front.length + back.length)
  · refine ⟨_, back, hfold, hsize, ?_, List.Perm.refl back⟩
    rw [List.take_of_length_le hle, ← List.append_assoc, List.take_left']
    rw [List.length_append]
  · -- the gap was too small for all of them: the others stay where they are
    have hmid : mid = [] := List.eq_nil_of_length_eq_zero (by omega)
    refine ⟨_, back.take (n - (front.length + back.length)) ++ (back.drop (n - (front.length + back.length))).reverse,
      hfold, hsize, ?_, ?_⟩
    · rw [hmid, List.nil_append, ← List.append_assoc, ← List.append_assoc, List.take_append, List.take_of_length_le,
        List.take_reverse]
      · congr 3
        simp only [List.length_append, List.length_take]
        omega
      · simp only [List.length_append, List.length_take]
        omega
    · refine ((List.reverse_perm _).append_left _).trans ?_
      rw [List.take_append_drop]

/-! ### Removing one entry -/

def swapRemove (l : List α) (i : ℕ) : List α :=
  match l.getLast? with
  | none => l
  | some a => (l.set i a).dropLast

theorem swapRemove_perm (h : l[i]? = some a) : (a :: swapRemove l i).Perm l := by
  obtain ⟨hi, rfl⟩ := List.getElem?_eq_some_iff.mp h
  obtain ⟨init, last, rfl⟩ := List.eq_nil_or_concat' l |>.resolve_left (List.ne_nil_of_length_pos (by omega))
  simp only [swapRemove, List.getLast?_concat]
  rcases Nat.lt_or_ge i init.length with hlt | hge
  · rw [List.getElem_append_left hlt, List.set_append_left _ _ hlt, List.dropLast_concat]
    calc init[i] :: init.set i last
      _ ~ init[i] :: last :: init.eraseIdx i := (List.set_perm_cons_eraseIdx hlt last).cons _
      _ ~ last :: init[i] :: init.eraseIdx i := .swap ..
      _ ~ last :: init := (List.getElem_cons_eraseIdx_perm hlt).cons _
      _ ~ init ++ [last] := (List.perm_append_singleton ..).symm
  · obtain rfl : i = init.length := by
      rw [List.length_append, List.length_singleton] at hi
      omega
    simpa using (List.perm_append_singleton last init).symm

end TwoEnded
