import Crosslink.Tenderlink.Robust

/-!
# The counts are exact

The counters of a round are moved by differences as votes come in, recomputed when the first chunk drops
votes for other values, and zeroed when the node's own key changes its proposal. At every moment of a run
they are the sums of what the two slots of each member contribute, and no update leaves the 64 bits.
-/

namespace Crosslink.Tenderlink

/-- What the member at `i` adds to a count. -/
def contribution (R : SortedRoster) (slots : List VoteSlots) (k : CountKind) (i : ℕ) : ℕ :=
  (ConsensusCounts.ofSlots (slotAt slots i) (stakeAt R.members i)).get k

theorem tally_get (R : SortedRoster) (slots : List VoteSlots) (k : CountKind) :
    (tally R.members slots).get k = ∑ i ∈ Finset.range slots.length, contribution R slots k i := by
  simp only [tally, ConsensusCounts.get_ofFn, stakeWhere, contribution, ConsensusCounts.ofSlots_get]

/-- The counts of a record are exact; a vote that may enter a slot lowers no contribution and overflows no
count; neither does recounting after the votes for other values have gone. -/
structure ExactCounts (R : SortedRoster) (d : RoundData) : Prop where
  slots : d.msgValSigs.length = activeRosterLen R.members
  counts : ∀ k, d.counts.get k =
    ∑ i ∈ Finset.range (activeRosterLen R.members), contribution R d.msgValSigs k i
  update : ∀ i < activeRosterLen R.members, ∀ isPrecommit x, (slotAt d.msgValSigs i).accepts isPrecommit x → ∀ k,
    let new := contribution R (d.msgValSigs.set i ((slotAt d.msgValSigs i).set isPrecommit x)) k i
    contribution R d.msgValSigs k i ≤ new ∧ d.counts.get k + (new - contribution R d.msgValSigs k i) < 2 ^ 64
  recount : ∀ valueId, ∀ n ≤ activeRosterLen R.members, ∀ k,
    ∑ i ∈ Finset.range n, contribution R (d.msgValSigs.map (VoteSlots.purge valueId)) k i < 2 ^ 64

theorem Shape.exactCounts (hd : Shape R d) : ExactCounts R d where
  slots := hd.slots
  counts k := by rw [hd.counts, tally_get, hd.slots]
  update i hi isPrecommit x hacc k := by
    have hlt : i < d.msgValSigs.length := hd.slots ▸ hi
    have hslot : d.msgValSigs[i]? = some (slotAt d.msgValSigs i) := by simp [slotAt, hlt]
    have hnew : slotAt (d.msgValSigs.set i ((slotAt d.msgValSigs i).set isPrecommit x)) i = _ :=
      slotAt_of_getElem? (List.getElem?_set_self hlt)
    have hle := ofSlots_le_of_accepts hacc (stakeAt R.members i) k
    have hset : _ + (tally R.members (d.msgValSigs.set i _)).get k = _ :=
      tally_set ((slotAt d.msgValSigs i).set isPrecommit x) hslot k
    have hbound := tally_get_lt R (d.msgValSigs.set i ((slotAt d.msgValSigs i).set isPrecommit x)) k
    rw [← hd.counts] at hset
    simp only [contribution, hnew]
    omega
  recount valueId n hn k := by
    set slots := d.msgValSigs.map (VoteSlots.purge valueId) with hslots
    have hsub : Finset.range n ⊆ Finset.range slots.length :=
      Finset.range_subset_range.mpr (by rw [hslots, List.length_map, hd.slots]; exact hn)
    refine lt_of_le_of_lt (Finset.sum_le_sum_of_subset hsub) ?_
    rw [← tally_get]
    exact tally_get_lt R slots k

end Crosslink.Tenderlink
