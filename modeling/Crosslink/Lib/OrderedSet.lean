import Mathlib.Data.List.Forall2
import Mathlib.Data.List.Perm.Subperm

/-!
# Ordered sets whose comparison may fail

A small set that is kept as an ascending list and searched from its low end, where comparing two elements may fail. A
set that never holds equal elements grows by every element that is inserted (`insert_perm`), and nothing can be removed
from it (`remove_eq`).
-/

namespace OrderedSet

open Except List

variable {ε α : Type} (cmp : α → α → Except ε Ordering)

def insert (x : α) : List α → Except ε (List α)
  | [] => .ok [x]
  | y :: ys => do
    match ← cmp x y with
    | .gt => return y :: (← insert x ys)
    | .eq => return y :: ys
    | .lt => return x :: y :: ys

def remove (x : α) : List α → Except ε (List α)
  | [] => .ok []
  | y :: ys => do
    match ← cmp x y with
    | .gt => return y :: (← remove x ys)
    | .eq => return ys
    | .lt => return y :: ys

def retain (p : α → Except ε Bool) : List α → Except ε (List α)
  | [] => .ok []
  | y :: ys => do
    let keep ← p y
    let ys ← retain p ys
    return if keep then y :: ys else ys

variable {cmp} {x : α} {ys zs : List α}

theorem retain_eq {p : α → Except ε Bool} (hp : ∀ y b, p y = .ok b → b = q y) (h : retain p ys = .ok zs) :
    zs = ys.filter q ∧ ∀ y ∈ ys, p y = .ok (q y) := by
  induction ys generalizing zs with
  | nil => exact ⟨(ok.inj h).symm, nofun⟩
  | cons y ys ih =>
    unfold retain at h
    cases hy : p y with
    | error e =>
      rw [hy] at h
      cases h
    | ok keep =>
      cases hrest : retain p ys with
      | error e =>
        simp only [bind, bind, hy, hrest] at h
        cases h
      | ok rest =>
        simp only [bind, bind, hy, hrest] at h
        obtain ⟨hfilter, hall⟩ := ih hrest
        have hkeep := hp y keep hy
        rw [← ok.inj h, hfilter, hkeep, filter_cons]
        exact ⟨rfl, forall_mem_cons.mpr ⟨hkeep ▸ hy, hall⟩⟩

theorem insert_split (hne : ∀ y, cmp x y ≠ .ok .eq) (h : insert cmp x ys = .ok zs) : ∃ low high,
    ys = low ++ high ∧ zs = low ++ x :: high ∧ (∀ y ∈ low, cmp x y = .ok .gt) ∧
      ∀ y, high.head? = some y → cmp x y = .ok .lt := by
  induction ys generalizing zs with
  | nil => exact ⟨[], [], rfl, (ok.inj h).symm, nofun, nofun⟩
  | cons y ys ih =>
    unfold insert at h
    cases hcmp : cmp x y with
    | error e =>
      rw [hcmp] at h
      cases h
    | ok o =>
      rw [hcmp] at h
      cases o with
      | lt => exact ⟨[], y :: ys, rfl, (ok.inj h).symm, nofun, fun z hz => Option.some.inj hz ▸ hcmp⟩
      | eq => exact absurd hcmp (hne y)
      | gt =>
        cases hrest : insert cmp x ys with
        | error e =>
          simp only [bind, bind, hrest] at h
          cases h
        | ok rest =>
          simp only [bind, bind, hrest] at h
          obtain rfl := ok.inj h
          obtain ⟨low, high, rfl, rfl, hlow, hhigh⟩ := ih hrest
          exact ⟨y :: low, high, rfl, rfl, forall_mem_cons.mpr ⟨hcmp, hlow⟩, hhigh⟩

theorem insert_perm (hne : ∀ y, cmp x y ≠ .ok .eq) (h : insert cmp x ys = .ok zs) : zs.Perm (x :: ys) := by
  obtain ⟨low, high, rfl, rfl, -⟩ := insert_split hne h
  exact perm_middle

theorem remove_eq (hne : ∀ y, cmp x y ≠ .ok .eq) (h : remove cmp x ys = .ok zs) : zs = ys := by
  induction ys generalizing zs with
  | nil => exact (ok.inj h).symm
  | cons y ys ih =>
    unfold remove at h
    cases hcmp : cmp x y with
    | error e =>
      rw [hcmp] at h
      cases h
    | ok o =>
      rw [hcmp] at h
      cases o with
      | lt => exact (ok.inj h).symm
      | eq => exact absurd hcmp (hne y)
      | gt =>
        cases hrest : remove cmp x ys with
        | error e =>
          simp only [bind, bind, hrest] at h
          cases h
        | ok rest =>
          simp only [bind, bind, hrest] at h
          rw [← ok.inj h, ih hrest]

theorem insert_ascending (hne : ∀ y, cmp x y ≠ .ok .eq) (hswap : ∀ y, cmp x y = .ok .gt → cmp y x = .ok .lt)
    (htrans : ∀ y z, cmp x y = .ok .lt → cmp y z = .ok .lt → cmp x z = .ok .lt)
    (hys : ys.Pairwise fun a b => cmp a b = .ok .lt) (h : insert cmp x ys = .ok zs) :
    zs.Pairwise fun a b => cmp a b = .ok .lt := by
  obtain ⟨low, high, rfl, rfl, hlow, hhigh⟩ := insert_split hne h
  obtain ⟨hlow', hhigh', hcross⟩ := pairwise_append.mp hys
  have habove : ∀ z ∈ high, cmp x z = .ok .lt := by
    cases high with
    | nil => exact nofun
    | cons y high =>
      intro z hz
      rcases mem_cons.mp hz with rfl | hz
      · exact hhigh z rfl
      · exact htrans y z (hhigh y rfl) ((pairwise_cons.mp hhigh').1 z hz)
  refine pairwise_append.mpr ⟨hlow', pairwise_cons.mpr ⟨habove, hhigh'⟩, fun y hy z hz => ?_⟩
  rcases mem_cons.mp hz with rfl | hz
  · exact hswap y (hlow y hy)
  · exact hcross y hy z hz

/-! ### Elements that are replaced one by one -/

variable {β : Type} {R : α → β → Prop} {l : List α} {l' : List β}

theorem exists_of_mem_right (h : List.Forall₂ R l l') (hb : b ∈ l') : ∃ a ∈ l, R a b := by
  induction h with
  | nil => cases hb
  | @cons a b' l l' hR h ih =>
    rcases mem_cons.mp hb with rfl | hb
    · exact ⟨a, mem_cons_self, hR⟩
    · obtain ⟨a, ha, hR⟩ := ih hb
      exact ⟨a, mem_cons_of_mem _ ha, hR⟩

theorem pairwise_of_forall₂ (h : List.Forall₂ R l l') (hl : l.Pairwise P)
    (hPQ : ∀ {a b a' b'}, a ∈ l → b ∈ l → P a b → R a a' → R b b' → Q a' b') : l'.Pairwise Q := by
  induction h with
  | nil => exact List.Pairwise.nil
  | @cons a a' l l' hR h ih =>
    obtain ⟨ha, hl⟩ := pairwise_cons.mp hl
    refine pairwise_cons.mpr ⟨fun b' hb' => ?_, ih hl fun ha hb =>
      hPQ (mem_cons_of_mem _ ha) (mem_cons_of_mem _ hb)⟩
    obtain ⟨b, hb, hRb⟩ := exists_of_mem_right h hb'
    exact hPQ mem_cons_self (mem_cons_of_mem _ hb) (ha b hb) hR hRb

end OrderedSet
