import Mathlib.Data.List.Pairwise
import Mathlib.Tactic

/-!
# Lists of half-open ranges

`Covers rs p` says that the position `p` lies in one of the ranges `(start, end)` of `rs`. Ranges that are `Separated`
are not empty, sorted, disjoint and not adjacent, so that they are the maximal stretches of what they cover: a covered
stretch lies in one range, and what is covered determines the ranges.
-/

namespace Intervals

def Covers (rs : List (ℕ × ℕ)) (p : ℕ) : Prop := ∃ r ∈ rs, r.1 ≤ p ∧ p < r.2

structure Separated (rs : List (ℕ × ℕ)) : Prop where
  nonempty : ∀ r ∈ rs, r.1 < r.2
  apart : rs.Pairwise fun r r' => r.2 < r'.1

theorem not_covers_nil (p : ℕ) : ¬ Covers [] p := by
  rintro ⟨r, hr, -⟩
  cases hr

theorem covers_cons :
    Covers (r :: rs) p ↔ (r.1 ≤ p ∧ p < r.2) ∨ Covers rs p := by
  simp [Covers]

theorem covers_append : Covers (rs ++ rs') p ↔ Covers rs p ∨ Covers rs' p := by
  simp only [Covers, List.mem_append, or_and_right, exists_or]

variable {rs : List (ℕ × ℕ)} {r r' : ℕ × ℕ} {a b n p : ℕ}

theorem Separated.eq_or_gap (h : Separated rs) (hr : r ∈ rs) (hr' : r' ∈ rs) : r = r' ∨ r.2 < r'.1 ∨ r'.2 < r.1 := by
  by_cases heq : r = r'
  · exact .inl heq
  · have hgap : rs.Pairwise fun r r' => r.2 < r'.1 ∨ r'.2 < r.1 := h.apart.imp fun hlt => .inl hlt
    have : Std.Symm fun r r' : ℕ × ℕ => r.2 < r'.1 ∨ r'.2 < r.1 := ⟨fun _ _ => Or.symm⟩
    exact .inr (hgap.forall hr hr' heq)

theorem Separated.block (h : Separated rs) (hab : a < b) (hcovers : ∀ p, a ≤ p → p < b → Covers rs p) :
    ∃ r ∈ rs, r.1 ≤ a ∧ b ≤ r.2 := by
  obtain ⟨r, hr, hstart, hend⟩ := hcovers a le_rfl hab
  refine ⟨r, hr, hstart, ?_⟩
  by_contra hshort
  obtain ⟨r', hr', hstart', hend'⟩ := hcovers r.2 (by omega) (by omega)
  have hsize := h.nonempty r' hr'
  rcases h.eq_or_gap hr hr' with rfl | hgap | hgap
  · omega
  · omega
  · omega

theorem Separated.eq_singleton_iff (h : Separated rs) (hn : 0 < n) (hbound : ∀ r ∈ rs, r.2 ≤ n) :
    rs = [(0, n)] ↔ ∀ p < n, Covers rs p := by
  constructor
  · rintro rfl p hp
    exact ⟨(0, n), by simp, Nat.zero_le p, hp⟩
  intro hcovers
  obtain ⟨r, hr, hstart, hend⟩ := h.block hn fun p _ hp => hcovers p hp
  have hwhole : ∀ r' ∈ rs, r' = (0, n) := by
    intro r' hr'
    have hsize := h.nonempty r' hr'
    have hbound' := hbound r' hr'
    have hboundr := hbound r hr
    rcases h.eq_or_gap hr hr' with rfl | hgap | hgap
    · exact Prod.ext (by dsimp only; omega) (by dsimp only; omega)
    · omega
    · omega
  -- two ranges in the list would have a gap between them
  match rs, h.apart with
  | [], _ => cases hr
  | [r₁], _ => rw [hwhole r₁ (by simp)]
  | r₁ :: r₂ :: _, hapart =>
    have hlt := (List.pairwise_cons.mp hapart).1 r₂ (by simp)
    rw [hwhole r₁ (by simp), hwhole r₂ (by simp)] at hlt
    exact absurd hlt (by simp)

end Intervals
