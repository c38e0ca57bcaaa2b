import Crosslink.Tenderlink.Thresholds

/-!
# Counting votes

The six counts of a round record are sums of stakes over the members whose slots satisfy a predicate,
one per `CountKind`. `tally` is that sum. Recounting computes it without overflow, and recording a vote
moves the incremental counts to the tally of the new slots.
-/

namespace Crosslink.Tenderlink

open Fallible ConsensusCounts List

/-! ### The six counts as one family -/

inductive CountKind where
  | any
  | prevote
  | nilPrevote
  | yesPrevote
  | precommit
  | yesPrecommit
  deriving DecidableEq

def VoteSlots.hasVote (isPrecommit : Bool) (v : VoteSlots) : Prop := (v.get isPrecommit).2 ≠ TMSig.nil

def VoteSlots.isYes (isPrecommit : Bool) (v : VoteSlots) : Prop :=
  v.hasVote isPrecommit ∧ (v.get isPrecommit).1 ≠ ValueId.nil

instance (isPrecommit : Bool) : DecidablePred (VoteSlots.hasVote isPrecommit) := fun v =>
  inferInstanceAs (Decidable ((v.get isPrecommit).2 ≠ TMSig.nil))

instance (isPrecommit : Bool) : DecidablePred (VoteSlots.isYes isPrecommit) := fun v =>
  inferInstanceAs (Decidable (v.hasVote isPrecommit ∧ (v.get isPrecommit).1 ≠ ValueId.nil))

def CountKind.counts : CountKind → VoteSlots → Prop
  | .any, v => v.hasVote false ∨ v.hasVote true
  | .prevote, v => v.hasVote false
  | .nilPrevote, v => v.hasVote false ∧ v.prevote.1 = ValueId.nil
  | .yesPrevote, v => v.isYes false
  | .precommit, v => v.hasVote true
  | .yesPrecommit, v => v.isYes true

instance : (k : CountKind) → DecidablePred k.counts
  | .any => fun v => inferInstanceAs (Decidable (v.hasVote false ∨ v.hasVote true))
  | .prevote => fun v => inferInstanceAs (Decidable (v.hasVote false))
  | .nilPrevote => fun v => inferInstanceAs (Decidable (v.hasVote false ∧ v.prevote.1 = ValueId.nil))
  | .yesPrevote => fun v => inferInstanceAs (Decidable (v.isYes false))
  | .precommit => fun v => inferInstanceAs (Decidable (v.hasVote true))
  | .yesPrecommit => fun v => inferInstanceAs (Decidable (v.isYes true))

namespace ConsensusCounts

def get (c : ConsensusCounts) : CountKind → ℕ
  | .any => c.anys
  | .prevote => c.prevotes
  | .nilPrevote => c.nilPrevotes
  | .yesPrevote => c.yesPrevotes
  | .precommit => c.precommits
  | .yesPrecommit => c.yesPrecommits

def ofFn (f : CountKind → ℕ) : ConsensusCounts :=
  ⟨f .any, f .prevote, f .nilPrevote, f .yesPrevote, f .precommit, f .yesPrecommit⟩

@[simp] theorem get_ofFn (f : CountKind → ℕ) (k : CountKind) : (ofFn f).get k = f k := by
  cases k <;> rfl

theorem ext_get {a b : ConsensusCounts} (h : ∀ k, a.get k = b.get k) : a = b := by
  cases a
  cases b
  rw [mk.injEq]
  exact ⟨h .any, h .prevote, h .nilPrevote, h .yesPrevote, h .precommit, h .yesPrecommit⟩

@[simp] theorem zero_get (k : CountKind) : zero.get k = 0 := by cases k <;> rfl

theorem ofSlots_get (v : VoteSlots) (stake : ℕ) (k : CountKind) :
    (ofSlots v stake).get k = if k.counts v then stake else 0 := by
  cases k <;> rfl

theorem zipWithM_ok (h : ∀ k, op (a.get k) (b.get k) = .ok (c.get k)) : zipWithM op a b = .ok c := by
  have h₁ : op a.anys b.anys = .ok c.anys := h .any
  have h₂ : op a.prevotes b.prevotes = .ok c.prevotes := h .prevote
  have h₃ : op a.nilPrevotes b.nilPrevotes = .ok c.nilPrevotes := h .nilPrevote
  have h₄ : op a.yesPrevotes b.yesPrevotes = .ok c.yesPrevotes := h .yesPrevote
  have h₅ : op a.precommits b.precommits = .ok c.precommits := h .precommit
  have h₆ : op a.yesPrecommits b.yesPrecommits = .ok c.yesPrecommits := h .yesPrecommit
  simp only [zipWithM, h₁, h₂, h₃, h₄, h₅, h₆, ok_bind]
  rfl

theorem add_ok {a b c : ConsensusCounts} (hc : ∀ k, c.get k = a.get k + b.get k) (hlt : ∀ k, c.get k < 2 ^ 64) :
    a.add P b = .ok c :=
  zipWithM_ok fun k => by
    have := hlt k
    rw [hc k] at this ⊢
    exact addU_ok this

theorem sub_ok {a b c : ConsensusCounts} (hc : ∀ k, c.get k + b.get k = a.get k) :
    a.sub P b = .ok c :=
  zipWithM_ok fun k => by
    rw [subU_ok (by have := hc k; omega), ← hc k, Nat.add_sub_cancel]

end ConsensusCounts

/-! ### The tally of a list of slots -/

section Tally

variable (roster : List SortedRosterMember)

def slotAt (slots : List VoteSlots) (i : ℕ) : VoteSlots := slots.getD i VoteSlots.nil

/-- Stake of the members whose slots satisfy `p`. -/
def stakeWhere (p : VoteSlots → Prop) [DecidablePred p] (slots : List VoteSlots) : ℕ :=
  ∑ i ∈ Finset.range slots.length, if p (slotAt slots i) then stakeAt roster i else 0

def tally (slots : List VoteSlots) : ConsensusCounts :=
  ConsensusCounts.ofFn fun k => stakeWhere roster k.counts slots

variable {roster}

theorem slotAt_of_getElem? (h : slots[i]? = some v) :
    slotAt slots i = v := by
  simp [slotAt, getD_eq_getElem?_getD, h]

theorem stakeWhere_le (p : VoteSlots → Prop) [DecidablePred p] (slots : List VoteSlots) :
    stakeWhere roster p slots ≤ stakeBefore roster slots.length := by
  rw [stakeBefore_eq_sum]
  exact Weighted.sum_ite_le fun i => p (slotAt slots i)

theorem stakeWhere_eq_stakeOf (p : VoteSlots → Prop) [DecidablePred p] (slots : List VoteSlots) :
    stakeWhere roster p slots =
      stakeOf roster ((Finset.range slots.length).filter fun i => p (slotAt slots i)) := by
  rw [stakeWhere, stakeOf, Finset.sum_filter]

theorem stakeWhere_append (p : VoteSlots → Prop) [DecidablePred p] (slots : List VoteSlots) (v : VoteSlots) :
    stakeWhere roster p (slots ++ [v]) =
      stakeWhere roster p slots + if p v then stakeAt roster slots.length else 0 := by
  unfold stakeWhere
  rw [length_append, length_singleton, Finset.sum_range_succ]
  congr 1
  · refine Finset.sum_congr rfl fun i hi => ?_
    have hlt := Finset.mem_range.mp hi
    simp only [slotAt, getD_eq_getElem?_getD, getElem?_append_left hlt]
  · simp [slotAt]

theorem stakeWhere_set (p : VoteSlots → Prop) [DecidablePred p] (new : VoteSlots) (h : slots[i]? = some old) :
    (if p old then stakeAt roster i else 0) + stakeWhere roster p (slots.set i new) =
      (if p new then stakeAt roster i else 0) + stakeWhere roster p slots := by
  obtain ⟨hi, -⟩ := List.getElem?_eq_some_iff.mp h
  have hnew : slotAt (slots.set i new) i = new := slotAt_of_getElem? (by simp [hi])
  have hoff : ∀ j ∈ Finset.range slots.length, j ≠ i →
      (if p (slotAt (slots.set i new) j) then stakeAt roster j else 0) =
        if p (slotAt slots j) then stakeAt roster j else 0 := fun j _ hj => by
    simp only [slotAt, getD_eq_getElem?_getD, getElem?_set_ne (Ne.symm hj)]
  have := Weighted.sum_eq_off_one (Finset.mem_range.mpr hi) hoff
  simp only [hnew, slotAt_of_getElem? h] at this
  simpa only [stakeWhere, length_set] using this

theorem tally_set (new : VoteSlots) (h : slots[i]? = some old) (k : CountKind) :
    (ConsensusCounts.ofSlots old (stakeAt roster i)).get k + (tally roster (slots.set i new)).get k =
      (ConsensusCounts.ofSlots new (stakeAt roster i)).get k + (tally roster slots).get k := by
  simp only [tally, ConsensusCounts.get_ofFn, ConsensusCounts.ofSlots_get]
  exact stakeWhere_set k.counts new h

theorem tally_get_lt (R : SortedRoster) (slots : List VoteSlots) (k : CountKind) :
    (tally R.members slots).get k < 2 ^ 64 := by
  rw [tally, ConsensusCounts.get_ofFn]
  exact lt_of_le_of_lt (stakeWhere_le _ _) (R.stakeBefore_lt _)

theorem recountFrom_eq (P : Params) (R : SortedRoster) (done rest : List VoteSlots)
    (hlen : done.length + rest.length ≤ R.members.length) :
    recountFrom P R.members done.length (tally R.members done) rest = .ok (tally R.members (done ++ rest)) := by
  induction rest generalizing done with
  | nil => simp [recountFrom]
  | cons v rest ih =>
    have hlt : done.length < R.members.length := by simp only [length_cons] at hlen; omega
    have hmem : R.members[done.length]? = some R.members[done.length] := by simp [hlt]
    have hadd : (tally R.members done).add P (ofSlots v R.members[done.length].stake) =
        .ok (tally R.members (done ++ [v])) := by
      refine ConsensusCounts.add_ok (fun k => ?_) fun k => ?_
      · rw [tally, tally, ConsensusCounts.get_ofFn, ConsensusCounts.get_ofFn, stakeWhere_append,
          ConsensusCounts.ofSlots_get, stakeAt_of_getElem? hmem]
      · exact tally_get_lt R _ k
    rw [recountFrom, getIdx_ok hmem, ok_bind, hadd, ok_bind]
    have := ih (done ++ [v]) (by simp only [length_append, length_cons] at hlen ⊢; simp; omega)
    rw [append_assoc] at this
    simpa using this

theorem recount_eq (P : Params) (R : SortedRoster) (hlen : slots.length ≤ R.members.length) :
    recount P R.members slots = .ok (tally R.members slots) := by
  have h := recountFrom_eq P R [] slots (by simpa using hlen)
  have hzero : tally R.members [] = zero :=
    ext_get fun k => by simp [tally, stakeWhere]
  rw [length_nil, hzero] at h
  exact h

end Tally

/-! ### Filling a slot -/

/-- A vote may enter a slot: the slot is empty, or holds the same vote. -/
def VoteSlots.accepts (v : VoteSlots) (isPrecommit : Bool) (x : ValSig) : Prop :=
  (v.get isPrecommit).2 = TMSig.nil ∨ x = v.get isPrecommit

@[simp] theorem VoteSlots.get_set_self (v : VoteSlots) (isPrecommit : Bool) (x : ValSig) :
    (v.set isPrecommit x).get isPrecommit = x := by
  cases isPrecommit <;> rfl

theorem VoteSlots.get_set_of_ne (v : VoteSlots) (h : k' ≠ k) (x : ValSig) :
    (v.set k x).get k' = v.get k' := by
  cases k <;> cases k' <;> first | rfl | exact absurd rfl h

theorem CountKind.counts_mono (h : v.accepts isPrecommit x) (k : CountKind) (hk : k.counts v) :
    k.counts (v.set isPrecommit x) := by
  obtain ⟨⟨a, b⟩, c, d⟩ := v
  rcases h with h | h
  · cases isPrecommit <;> cases k <;>
      simp_all [CountKind.counts, VoteSlots.hasVote, VoteSlots.isYes, VoteSlots.get, VoteSlots.set]
  · cases isPrecommit <;> (subst h; exact hk)

theorem ofSlots_le_of_accepts (h : v.accepts isPrecommit x) (stake : ℕ) (k : CountKind) :
    (ConsensusCounts.ofSlots v stake).get k ≤ (ConsensusCounts.ofSlots (v.set isPrecommit x) stake).get k := by
  rw [ofSlots_get, ofSlots_get]
  have hmono := CountKind.counts_mono h k
  split_ifs with h₁ h₂
  · omega
  · exact absurd (hmono h₁) h₂
  · omega
  · omega

end Crosslink.Tenderlink
