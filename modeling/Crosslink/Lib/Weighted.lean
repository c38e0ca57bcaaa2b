import Mathlib.Algebra.BigOperators.Intervals
import Mathlib.Algebra.Order.BigOperators.Group.Finset
import Mathlib.Tactic

/-!
# Weighted sets

The weight of a finite set of members is the sum of their weights. Two sets inside a universe share
at least the excess of their weights over the universe's, and changing what one member contributes to
a sum moves the sum by that member's difference only.
-/

namespace Weighted

variable {ι : Type} [DecidableEq ι]

theorem sum_add_sum_le_inter {w : ι → ℕ} (hS : S ⊆ U) (hT : T ⊆ U) :
    ∑ i ∈ S, w i + ∑ i ∈ T, w i ≤ ∑ i ∈ S ∩ T, w i + ∑ i ∈ U, w i := by
  have hunion : ∑ i ∈ S ∪ T, w i ≤ ∑ i ∈ U, w i :=
    Finset.sum_le_sum_of_subset (Finset.union_subset hS hT)
  have hboth : ∑ i ∈ S ∪ T, w i + ∑ i ∈ S ∩ T, w i = ∑ i ∈ S, w i + ∑ i ∈ T, w i :=
    Finset.sum_union_inter
  omega

theorem sum_eq_off_one {f g : ι → ℕ} (hk : k ∈ U) (hfg : ∀ i ∈ U, i ≠ k → g i = f i) :
    f k + ∑ i ∈ U, g i = g k + ∑ i ∈ U, f i := by
  have hg := Finset.add_sum_erase U g hk
  have hf := Finset.add_sum_erase U f hk
  have hrest : ∑ i ∈ U.erase k, g i = ∑ i ∈ U.erase k, f i :=
    Finset.sum_congr rfl fun i hi => hfg i (Finset.mem_of_mem_erase hi) (Finset.ne_of_mem_erase hi)
  omega

omit [DecidableEq ι] in
theorem sum_ite_le {w : ι → ℕ} {U : Finset ι} (p : ι → Prop) [DecidablePred p] :
    ∑ i ∈ U, (if p i then w i else 0) ≤ ∑ i ∈ U, w i :=
  Finset.sum_le_sum fun i _ => by split <;> omega

end Weighted
