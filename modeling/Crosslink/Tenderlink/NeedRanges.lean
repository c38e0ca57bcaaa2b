import Mathlib.Data.List.Basic
import Mathlib.Tactic

/-!
# Ranges of missing items

The status part of a packet tells a peer which proposal chunks and votes are still missing. The scan behind it
joins missing items into half-open ranges: one item that is there does not end a range, two in a row do.
`Scanned` is the invariant of the loop, with the range in the making as the last element of the list.
-/

namespace Crosslink.Tenderlink

open List

/-- The variables of the loop. -/
structure NeedScan where
  rngs : List (ℕ × ℕ)
  /-- Consecutive fills. -/
  filledC : ℕ
  rng : ℕ × ℕ

namespace NeedScan

variable {f : ℕ → Bool} {i n : ℕ} {s : NeedScan}

def start : NeedScan := ⟨[], 0, (0, 0)⟩

/-- One turn of the loop, for index `i`. -/
def step (f : ℕ → Bool) (s : NeedScan) (i : ℕ) : NeedScan :=
  if f i then { s with filledC := 0, rng := (s.rng.1, i + 1) }
  else if s.rng.1 = s.rng.2 then { s with rng := (i + 1, i + 1) }
  else if 1 < s.filledC + 1 then ⟨s.rngs ++ [s.rng], 0, (i + 1, i + 1)⟩
  else { s with filledC := s.filledC + 1 }

def flush (s : NeedScan) : List (ℕ × ℕ) := if s.rng.1 ≠ s.rng.2 then s.rngs ++ [s.rng] else s.rngs

end NeedScan

def genMostlyEmptyRngs (n : ℕ) (f : ℕ → Bool) : List (ℕ × ℕ) := ((List.range n).foldl (NeedScan.step f) .start).flush

/-! ### The invariant of the scan -/

/-- The range begins and ends with an index that satisfies `f`, and no two in a row inside it fail `f`. -/
structure MostlyEmpty (f : ℕ → Bool) (r : ℕ × ℕ) : Prop where
  lt : r.1 < r.2
  first : f r.1 = true
  last : f (r.2 - 1) = true
  sparse : ∀ i, r.1 ≤ i → i + 1 < r.2 → f i = true ∨ f (i + 1) = true

namespace NeedScan

variable {f : ℕ → Bool} {i n : ℕ} {s : NeedScan}

/-- The range in the making: none yet, or one that ended at most one index before `i`. -/
def Pending (f : ℕ → Bool) (i : ℕ) (s : NeedScan) : Prop :=
  (s.rng = (i, i) ∧ s.filledC = 0) ∨
    (MostlyEmpty f s.rng ∧ s.rng.2 + s.filledC = i ∧ s.filledC ≤ 1)

structure Scanned (f : ℕ → Bool) (i : ℕ) (s : NeedScan) : Prop where
  closed : ∀ r ∈ s.rngs, MostlyEmpty f r
  apart : (s.rngs ++ [s.rng]).Pairwise fun r r' => r.2 + 2 ≤ r'.1
  pending : Pending f i s
  covered : ∀ j < i, f j = true → ∃ r ∈ s.rngs ++ [s.rng], r.1 ≤ j ∧ j < r.2

theorem Scanned.start (f : ℕ → Bool) : Scanned f 0 .start :=
  ⟨nofun, pairwise_singleton _ _, .inl ⟨rfl, rfl⟩, nofun⟩

theorem apart_of_le {r r' : ℕ × ℕ} (h : (l ++ [r]).Pairwise fun r r' => r.2 + 2 ≤ r'.1) (hle : r.1 ≤ r'.1) :
    (l ++ [r']).Pairwise fun r r' => r.2 + 2 ≤ r'.1 := by
  obtain ⟨hl, -, hr⟩ := pairwise_append.mp h
  refine pairwise_append.mpr ⟨hl, pairwise_singleton _ _, fun x hx y hy => ?_⟩
  obtain rfl := mem_singleton.mp hy
  have := hr x hx r (mem_singleton.mpr rfl)
  omega

theorem Pending.hit (h : Pending f i s) (hf : f i = true) : MostlyEmpty f (s.rng.1, i + 1) := by
  obtain ⟨hrng, -⟩ | ⟨hr, hend, hle⟩ := h
  · rw [hrng]
    exact ⟨Nat.lt_succ_self i, hf, hf, fun j hj hj' => by simp only at hj hj'; omega⟩
  · have hlt := hr.lt
    refine ⟨by simp only; omega, hr.first, hf, fun j hj hj' => ?_⟩
    simp only at hj hj'
    by_cases hin : j + 1 < s.rng.2
    · exact hr.sparse j hj hin
    · -- only the last index of the range, and the one filled item behind it, can be next to the end
      rcases Nat.lt_or_ge j s.rng.2 with hlast | hgap
      · obtain rfl : j = s.rng.2 - 1 := by omega
        exact .inl hr.last
      · obtain rfl : j + 1 = i := by omega
        exact .inr hf

theorem Scanned.step (h : Scanned f i s) : Scanned f (i + 1) (s.step f i) := by
  have hpending := h.pending
  have hstart : s.rng.1 ≤ i := by
    obtain ⟨hrng, -⟩ | ⟨hr, hend, -⟩ := hpending
    · rw [hrng]
    · have := hr.lt
      omega
  unfold NeedScan.step
  split_ifs with hf hempty hfull
  · -- a missing item extends the pending range
    refine ⟨h.closed, apart_of_le h.apart le_rfl, .inr ⟨h.pending.hit hf, rfl, Nat.zero_le 1⟩, fun j hj hfj => ?_⟩
    simp only [mem_append, mem_singleton]
    by_cases hji : j = i
    · exact ⟨_, .inr rfl, by subst hji; exact hstart, hj⟩
    · obtain ⟨r, hr, hin⟩ := h.covered j (by omega) hfj
      rcases mem_append.mp hr with hr | hr
      · exact ⟨r, .inl hr, hin⟩
      · obtain rfl := mem_singleton.mp hr
        exact ⟨_, .inr rfl, hin.1, hj⟩
  · -- no range has begun: its start moves on
    obtain ⟨hrng, hzero⟩ | ⟨hr, -⟩ := hpending
    swap
    · exact absurd hempty hr.lt.ne
    refine ⟨h.closed, apart_of_le h.apart (by simp only; omega), .inl ⟨rfl, hzero⟩, fun j hj hfj => ?_⟩
    have hji : j ≠ i := fun heq => hf (heq ▸ hfj)
    obtain ⟨r, hr, hin⟩ := h.covered j (by omega) hfj
    rcases mem_append.mp hr with hr | hr
    · exact ⟨r, mem_append_left _ hr, hin⟩
    · obtain rfl := mem_singleton.mp hr
      rw [hrng] at hin
      exact absurd (hin.1.trans_lt hin.2) (lt_irrefl _)
  · -- the second fill in a row closes the range
    obtain ⟨hrng, -⟩ | ⟨hr, hend, hle⟩ := hpending
    · exact absurd (by rw [hrng]) hempty
    have hmem : ∀ r ∈ s.rngs ++ [s.rng], MostlyEmpty f r := by
      intro r hr'
      rcases mem_append.mp hr' with hr' | hr'
      · exact h.closed r hr'
      · rwa [mem_singleton.mp hr']
    refine ⟨hmem, pairwise_append.mpr ⟨h.apart, pairwise_singleton _ _, fun x hx y hy => ?_⟩,
      .inl ⟨rfl, rfl⟩, fun j hj hfj => ?_⟩
    · obtain rfl := mem_singleton.mp hy
      rcases mem_append.mp hx with hx' | hx'
      · have := (pairwise_append.mp h.apart).2.2 x hx' s.rng (mem_singleton.mpr rfl)
        simp only
        omega
      · obtain rfl := mem_singleton.mp hx'
        simp only
        omega
    · have hji : j ≠ i := fun heq => hf (heq ▸ hfj)
      obtain ⟨r, hr, hin⟩ := h.covered j (by omega) hfj
      exact ⟨r, mem_append_left _ hr, hin⟩
  · -- the first fill is let through
    obtain ⟨hrng, -⟩ | ⟨hr, hend, hle⟩ := hpending
    · exact absurd (by rw [hrng]) hempty
    refine ⟨h.closed, h.apart, .inr ⟨hr, by simp only; omega, by simp only; omega⟩, fun j hj hfj => ?_⟩
    have hji : j ≠ i := fun heq => hf (heq ▸ hfj)
    exact h.covered j (by omega) hfj

theorem Scanned.run (f : ℕ → Bool) (n : ℕ) : Scanned f n ((List.range n).foldl (NeedScan.step f) .start) := by
  induction n with
  | zero => exact .start f
  | succ n ih =>
    rw [range_succ, foldl_append]
    exact ih.step

theorem Scanned.flush (h : Scanned f n s) :
    (∀ r ∈ s.flush, MostlyEmpty f r ∧ r.2 ≤ n) ∧ s.flush.Pairwise (fun r r' => r.2 + 2 ≤ r'.1) ∧
      ∀ j < n, f j = true → ∃ r ∈ s.flush, r.1 ≤ j ∧ j < r.2 := by
  have hpending := h.pending
  have hbound : ∀ r ∈ s.rngs, r.2 ≤ n := by
    intro r hr
    have hapart := (pairwise_append.mp h.apart).2.2 r hr s.rng (mem_singleton.mpr rfl)
    obtain ⟨hrng, -⟩ | ⟨hlast, hend, -⟩ := hpending
    · rw [hrng] at hapart
      simp only at hapart
      omega
    · have := hlast.lt
      omega
  unfold NeedScan.flush
  split_ifs with hempty
  · obtain ⟨hrng, -⟩ | ⟨hlast, hend, -⟩ := hpending
    · exact absurd (by rw [hrng]) hempty
    refine ⟨fun r hr => ?_, h.apart, h.covered⟩
    rcases mem_append.mp hr with hr | hr
    · exact ⟨h.closed r hr, hbound r hr⟩
    · obtain rfl := mem_singleton.mp hr
      exact ⟨hlast, by omega⟩
  · refine ⟨fun r hr => ⟨h.closed r hr, hbound r hr⟩, (pairwise_append.mp h.apart).1, fun j hj hfj => ?_⟩
    obtain ⟨r, hr, hin⟩ := h.covered j hj hfj
    rcases mem_append.mp hr with hr | hr
    · exact ⟨r, hr, hin⟩
    · obtain rfl := mem_singleton.mp hr
      exact absurd (hin.1.trans_lt hin.2) (by simp only [not_not] at hempty; omega)

end NeedScan

/-! ### The ranges of a status -/

/-- The indices between two ranges: two at least, and all of them fail `f`. -/
def Separated (f : ℕ → Bool) (r r' : ℕ × ℕ) : Prop :=
  r.2 + 2 ≤ r'.1 ∧ ∀ i, r.2 ≤ i → i < r'.1 → f i = false

theorem eq_of_mem_ranges {l : List (ℕ × ℕ)} (hapart : l.Pairwise fun r r' => r.2 + 2 ≤ r'.1) (hr : r ∈ l)
    (hr' : r' ∈ l) (hin : r.1 ≤ i ∧ i < r.2) (hin' : r'.1 ≤ i ∧ i < r'.2) : r' = r := by
  obtain ⟨a, ha, rfl⟩ := getElem_of_mem hr
  obtain ⟨b, hb, rfl⟩ := getElem_of_mem hr'
  rcases lt_trichotomy a b with hlt | rfl | hlt
  · have := pairwise_iff_getElem.mp hapart a b ha hb hlt
    omega
  · rfl
  · have := pairwise_iff_getElem.mp hapart b a hb ha hlt
    omega

theorem genMostlyEmptyRngs_scanned (n : ℕ) (f : ℕ → Bool) :
    (∀ r ∈ genMostlyEmptyRngs n f, MostlyEmpty f r ∧ r.2 ≤ n) ∧
      (genMostlyEmptyRngs n f).Pairwise (fun r r' => r.2 + 2 ≤ r'.1) ∧
      ∀ i < n, f i = true → ∃ r ∈ genMostlyEmptyRngs n f, r.1 ≤ i ∧ i < r.2 :=
  (NeedScan.Scanned.run f n).flush

theorem genMostlyEmptyRngs_spec (n : ℕ) (f : ℕ → Bool) :
    (∀ r ∈ genMostlyEmptyRngs n f, MostlyEmpty f r ∧ r.2 ≤ n) ∧
      (genMostlyEmptyRngs n f).Pairwise (fun r r' => r.2 ≤ r'.1) ∧
      (∀ i < n, f i = true → ∃! r, r ∈ genMostlyEmptyRngs n f ∧ r.1 ≤ i ∧ i < r.2) ∧
      (genMostlyEmptyRngs n f).IsChain (Separated f) := by
  obtain ⟨hranges, hapart, hcovered⟩ := genMostlyEmptyRngs_scanned n f
  refine ⟨hranges, hapart.imp fun h => by omega, fun i hi hf => ?_, ?_⟩
  · obtain ⟨r, hr, hin⟩ := hcovered i hi hf
    exact ⟨r, ⟨hr, hin⟩, fun r' hr' => eq_of_mem_ranges hapart hr hr'.1 hin hr'.2⟩
  · refine isChain_iff_forall_rel_of_append_cons_cons.mpr fun r r' before after hsplit => ?_
    have hr' := hranges r' (by simp [hsplit])
    rw [hsplit, pairwise_append, pairwise_cons, pairwise_cons] at hapart
    obtain ⟨-, ⟨hr, hrest, -⟩, hbefore⟩ := hapart
    refine ⟨hr r' (by simp), fun i hi hi' => ?_⟩
    -- an index with `f` between them would be in a range before `r`, in one of the two, or behind `r'`
    by_contra hf
    obtain ⟨x, hx, hin⟩ := hcovered i (by have := hr'.1.lt; have := hr'.2; omega) (by simpa using hf)
    rw [hsplit, mem_append, mem_cons, mem_cons] at hx
    rcases hx with hx | rfl | rfl | hx
    · have := hbefore x hx r (by simp)
      have := (hranges r (by simp [hsplit])).1.lt
      omega
    · omega
    · omega
    · have := hrest x hx
      have := hr'.1.lt
      omega

example : genMostlyEmptyRngs 8 (fun i => [false, true, true, false, false, true, true, false].getD i false) =
    [(1, 3), (5, 7)] := by
  decide

end Crosslink.Tenderlink
