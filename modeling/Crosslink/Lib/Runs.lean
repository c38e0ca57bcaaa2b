import Mathlib.Data.List.Chain
import Mathlib.Order.Basic
import Mathlib.Tactic.Common

/-!
# Runs

A run is a list whose entries have consecutive keys. The key of an entry then tells its position, so a range of keys is
a stretch of the list, and two runs can be compared entry by entry over the keys they have in common.
-/

namespace Runs

variable {α : Type} {key : α → ℕ} {l : List α} {a x : α} {i n : ℕ}

def Consecutive (key : α → ℕ) (l : List α) : Prop := l.IsChain fun a b => key b = key a + 1

theorem Consecutive.key_eq (h : Consecutive key l) (hfirst : l.head? = some a) (hx : l[i]? = some x) :
    key x = key a + i := by
  induction i generalizing x with
  | zero =>
    rw [← List.head?_eq_getElem?, hfirst] at hx
    exact Option.some.inj hx ▸ rfl
  | succ i ih =>
    obtain ⟨hi, rfl⟩ := List.getElem?_eq_some_iff.mp hx
    rw [List.isChain_iff_getElem.mp h i hi, ih (List.getElem?_eq_getElem (by omega)), Nat.add_assoc]

theorem Consecutive.getElem? (h : Consecutive key l) (hfirst : l.head? = some a) (hx : x ∈ l) :
    key a ≤ key x ∧ l[key x - key a]? = some x := by
  obtain ⟨i, hi⟩ := List.mem_iff_getElem?.mp hx
  have hkey := h.key_eq hfirst hi
  exact ⟨by omega, by rwa [hkey, Nat.add_sub_cancel_left]⟩

theorem Consecutive.key_lt (h : Consecutive key l) (hfirst : l.head? = some a) (hx : x ∈ l) :
    key x < key a + l.length := by
  obtain ⟨hle, hget⟩ := h.getElem? hfirst hx
  have := (List.getElem?_eq_some_iff.mp hget).1
  omega

theorem Consecutive.key_last (h : Consecutive key l) (hfirst : l.head? = some a) (hx : l.getLast? = some x) :
    key x + 1 = key a + l.length := by
  have hpos : 0 < l.length := List.length_pos_of_mem (List.mem_of_getLast? hx)
  rw [List.getLast?_eq_getElem?] at hx
  have := h.key_eq hfirst hx
  omega

theorem Consecutive.key_le_last (h : Consecutive key l) (hlast : l.getLast? = some last) (hx : x ∈ l) :
    key x ≤ key last := by
  obtain ⟨a, hfirst⟩ : ∃ a, l.head? = some a := Option.isSome_iff_exists.mp (List.isSome_head?.mpr (List.ne_nil_of_mem hx))
  have := h.key_lt hfirst hx
  have := h.key_last hfirst hlast
  omega

/-! ### Agreement -/

section Agreement

variable [DecidableEq α] {as bs : List α} {k : ℕ}

def agreeLen : List α → List α → ℕ
  | a :: as, b :: bs => if a = b then agreeLen as bs + 1 else 0
  | _, _ => 0

theorem lt_agreeLen_iff : k < agreeLen as bs ↔ k < as.length ∧ ∀ j ≤ k, as[j]? = bs[j]? := by
  induction as, bs using agreeLen.induct generalizing k with
  | case1 a as bs ih =>
    rw [agreeLen, if_pos rfl]
    cases k with
    | zero => simp
    | succ k =>
      rw [Nat.succ_lt_succ_iff, ih, List.length_cons, Nat.succ_lt_succ_iff]
      refine and_congr_right fun _ => ⟨fun h j hj => ?_, fun h j hj => h (j + 1) (Nat.succ_le_succ hj)⟩
      cases j with
      | zero => rfl
      | succ j => exact h j (Nat.le_of_succ_le_succ hj)
  | case2 a as b bs hne =>
    rw [agreeLen, if_neg hne]
    refine ⟨fun h => absurd h (Nat.not_lt_zero k), fun h => absurd (h.2 0 (Nat.zero_le k)) ?_⟩
    simpa using hne
  | case3 as bs hcons =>
    have hzero : agreeLen as bs = 0 := by
      rw [agreeLen]
      exact hcons
    rw [hzero]
    refine ⟨fun h => absurd h (Nat.not_lt_zero k), fun ⟨hlt, h⟩ => ?_⟩
    match as, bs with
    | [], _ => exact absurd hlt (Nat.not_lt_zero k)
    | a :: as, [] => exact absurd (h 0 (Nat.zero_le k)) (by simp)
    | a :: as, b :: bs => exact absurd rfl (hcons a as b bs rfl)

/-- Where agreement at a position brings agreement at the position before, the lists agree up to the last position at
which they agree. -/
theorem lt_agreeLen_of_down (hdown : ∀ j, j + 1 < as.length → as[j + 1]? = bs[j + 1]? → as[j]? = bs[j]?) :
    k < agreeLen as bs ↔ k < as.length ∧ as[k]? = bs[k]? := by
  rw [lt_agreeLen_iff]
  refine and_congr_right fun hlt => ⟨fun h => h k le_rfl, fun h j hj => ?_⟩
  induction k with
  | zero => exact (Nat.le_zero.mp hj) ▸ h
  | succ k ih =>
    rcases Nat.lt_or_eq_of_le hj with hj | rfl
    · exact ih (by omega) (hdown k hlt h) (by omega)
    · exact h

end Agreement

end Runs
