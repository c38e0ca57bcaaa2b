import Crosslink.Bft.Service

/-!
# The canonical order of a roster

The stakes of the finalizers come out of a hash map, in any order. Every node has to arrive at the same
roster: the members are sorted by stake and then by key, so the sorted list is determined by the set of
members, and so are the running sums, as long as the total stake fits in 64 bits.
-/

namespace Crosslink.Bft

open Codec Fallible Tenderlink List

variable {P : ServiceParams} {vals vals' : List RosterMember} {roster ms : List SortedRosterMember} {checks : Bool}

/-- The members in decreasing order of stake and key, each with the exact sum of the stakes up to it. -/
structure Canonical (vals : List RosterMember) (roster : List SortedRosterMember) : Prop where
  perm : (roster.map fun m => (m.pubKey, m.stake)).Perm (vals.map fun v => (v.pubKey, v.votingPower))
  sorted : roster.Pairwise fun a b => sortKey b < sortKey a
  sums : ∀ i m, roster[i]? = some m → m.cumulativeStake = stakeBefore roster (i + 1)

/-! ### The sorted members -/

theorem sortKey_inj (h : sortKey a = sortKey b) : a.pubKey = b.pubKey ∧ a.stake = b.stake := by
  have hpair : (a.stake, a.pubKey.bytes.toList.map UInt8.toNat) = (b.stake, b.pubKey.bytes.toList.map UInt8.toNat) :=
    toLex.injective h
  obtain ⟨hstake, hkey⟩ := Prod.mk.inj hpair
  have hbytes := map_injective_iff.mpr (fun _ _ => UInt8.toNat_inj.mp) hkey
  exact ⟨congrArg PubKeyID.mk (List.Vector.toList_injective hbytes), hstake⟩

theorem sortedMembers_perm (vals : List RosterMember) :
    (sortedMembers vals).Perm (vals.map fun v => ⟨v.pubKey, v.votingPower, 0⟩) :=
  perm_insertionSort _ _

theorem sortedMembers_eq_of_perm (h : vals'.Perm vals) : sortedMembers vals' = sortedMembers vals := by
  have hperm : (sortedMembers vals').Perm (sortedMembers vals) :=
    (sortedMembers_perm vals').trans ((h.map _).trans (sortedMembers_perm vals).symm)
  refine hperm.eq_of_pairwise ?_ (sortedMembers_pairwise vals') (sortedMembers_pairwise vals)
  intro a b ha hb hba hab
  obtain ⟨hkey, hstake⟩ := sortKey_inj (le_antisymm hab hba)
  -- the running sums are still zero on both sides
  obtain ⟨va, -, rfl⟩ := mem_map.mp ((sortedMembers_perm vals').mem_iff.mp ha)
  obtain ⟨vb, -, rfl⟩ := mem_map.mp ((sortedMembers_perm vals).mem_iff.mp hb)
  exact SortedRosterMember.mk.injEq .. ▸ ⟨hkey, hstake, rfl⟩

theorem sortedMembers_sorted (h : (vals.map RosterMember.pubKey).Nodup) :
    (sortedMembers vals).Pairwise fun a b => sortKey b < sortKey a := by
  have hkeys : ((sortedMembers vals).map SortedRosterMember.pubKey).Nodup := by
    refine ((sortedMembers_perm vals).map SortedRosterMember.pubKey).nodup_iff.mpr ?_
    rwa [map_map]
  have hne : (sortedMembers vals).Pairwise fun a b => a.pubKey ≠ b.pubKey := pairwise_map.mp hkeys
  refine (hne.and (sortedMembers_pairwise vals)).imp fun ⟨hdiff, hle⟩ => hle.lt_of_ne ?_
  exact fun heq => hdiff (sortKey_inj heq).1.symm

/-! ### The running sums -/

theorem map_cumulate {β : Type} (f : SortedRosterMember → β)
    (hf : ∀ m sum, f { m with cumulativeStake := sum } = f m) (sum : ℕ) (ms : List SortedRosterMember) :
    (cumulate sum ms).map f = ms.map f := by
  induction ms generalizing sum with
  | nil => rfl
  | cons m ms ih => rw [cumulate, map_cons, map_cons, hf, ih]

theorem canonical_cumulate (h : (vals.map RosterMember.pubKey).Nodup) : Canonical vals (cumulate 0 (sortedMembers vals)) := by
  refine ⟨?_, ?_, fun i m hm => ?_⟩
  · rw [map_cumulate _ fun _ _ => rfl]
    have hperm := (sortedMembers_perm vals).map fun m => (m.pubKey, m.stake)
    rwa [map_map] at hperm
  · have hsorted : ((sortedMembers vals).map sortKey).Pairwise fun a b => b < a :=
      pairwise_map.mpr (sortedMembers_sorted h)
    rw [← map_cumulate sortKey (fun _ _ => rfl) 0] at hsorted
    exact pairwise_map.mp hsorted
  · rw [cumulate_getElem? hm, Nat.zero_add]

theorem fillCumulative_eq_ok {sum : ℕ} (h : fillCumulative checks sum ms = .ok roster) :
    roster.map SortedRosterMember.stake = ms.map SortedRosterMember.stake ∧ ∀ m ∈ roster, m.cumulativeStake < 2 ^ 64 := by
  induction ms generalizing sum roster with
  | nil =>
    obtain rfl := pure_eq_ok.mp h
    exact ⟨rfl, nofun⟩
  | cons m ms ih =>
    rw [fillCumulative] at h
    obtain ⟨sum', hsum, h⟩ := bind_eq_ok.mp h
    obtain ⟨rest, hrest, h⟩ := bind_eq_ok.mp h
    obtain rfl := pure_eq_ok.mp h
    obtain ⟨hstakes, hlt⟩ := ih hrest
    refine ⟨by rw [map_cons, map_cons, hstakes], forall_mem_cons.mpr ⟨?_, hlt⟩⟩
    rw [addU_mod hsum]
    exact Nat.mod_lt _ (by norm_num)

theorem stakesFit_of_sums (h : tenderlinkRosterFromInternal P vals = .ok roster)
    (hsums : ∀ i m, roster[i]? = some m → m.cumulativeStake = stakeBefore roster (i + 1)) : StakesFit vals := by
  obtain ⟨⟨⟩, -, h⟩ := bind_eq_ok.mp h
  obtain ⟨hstakes, hlt⟩ := fillCumulative_eq_ok h
  rw [StakesFit, ← sum_sortedMembers, ← hstakes]
  cases hlast : roster.getLast? with
  | none => simp [getLast?_eq_none_iff.mp hlast]
  | some m =>
    have hm := hlt m (mem_of_getLast? hlast)
    have hlen : 0 < roster.length := length_pos_of_mem (mem_of_getLast? hlast)
    rw [getLast?_eq_getElem?] at hlast
    rwa [hsums _ m hlast, Nat.sub_add_cancel hlen, stakeBefore, take_length] at hm

/-- For members with distinct keys, every order of the input gives one canonical roster exactly when the
total stake fits in 64 bits. -/
theorem canonical_roster_iff (hdistinct : (vals.map RosterMember.pubKey).Nodup) :
    (∃ roster, Canonical vals roster ∧
      ∀ vals', vals'.Perm vals → tenderlinkRosterFromInternal P vals' = .ok roster) ↔ StakesFit vals := by
  constructor
  · rintro ⟨roster, hcanonical, hall⟩
    exact stakesFit_of_sums (hall vals (List.Perm.refl vals)) hcanonical.sums
  · intro hfit
    refine ⟨_, canonical_cumulate hdistinct, fun vals' hperm => ?_⟩
    have hfit' : StakesFit vals' := by
      rwa [StakesFit, (hperm.map RosterMember.votingPower).sum_eq]
    obtain ⟨R, hmembers, hroster⟩ := tenderlinkRosterFromInternal_ok (P := P) hfit'
    rw [hroster, hmembers, sortedMembers_eq_of_perm hperm]

/-- Two members with the same stake, given in either order. -/
theorem canonical_roster_iff_tie : ∃ roster, Canonical [⟨keyNo 1, 7⟩, ⟨keyNo 2, 7⟩] roster ∧
    ∀ vals', vals'.Perm [⟨keyNo 1, 7⟩, ⟨keyNo 2, 7⟩] →
      tenderlinkRosterFromInternal ⟨Params.sample true, fun _ => Bytes.zero 32, fun _ => true⟩ vals' = .ok roster :=
  (canonical_roster_iff (by decide)).mpr (by simp [StakesFit])

/-- Two stakes of `2 ^ 63`: a panic where overflow is checked, and elsewhere a last sum of zero. -/
theorem roster_sum_overflows :
    let vals : List RosterMember := [⟨keyNo 1, 2 ^ 63⟩, ⟨keyNo 2, 2 ^ 63⟩]
    (vals.map RosterMember.pubKey).Nodup ∧
    tenderlinkRosterFromInternal ⟨Params.sample true, fun _ => Bytes.zero 32, fun _ => true⟩ vals = .error .overflow ∧
    tenderlinkRosterFromInternal ⟨Params.sample false, fun _ => Bytes.zero 32, fun _ => true⟩ vals =
      .ok [⟨keyNo 2, 2 ^ 63, 2 ^ 63⟩, ⟨keyNo 1, 2 ^ 63, 0⟩] := by
  decide +kernel

end Crosslink.Bft
