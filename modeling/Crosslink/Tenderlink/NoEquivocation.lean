import Crosslink.Tenderlink.Receive

/-!
# No equivocation

What one node signs over a whole run: at most one vote of each kind and one proposal for each height
and round, in lexicographic order. The only way out is the round counter: after round `2^32 - 1` a build
without overflow checks starts again at round zero of the same height.
-/

namespace Crosslink.Tenderlink

open Codec Fallible

variable {P : Params} {cl : Closures}

def Signed.isVoteAt (isPrecommit : Bool) (height round : ℕ) : Signed → Bool
  | .chunk _ _ => false
  | .vote k h r _ => k = isPrecommit ∧ h = height ∧ r = round

/-- What a node that does not equivocate has signed, newest first. -/
structure NoEquivocation (P : Params) (log : List Signed) : Prop where
  ordered : log.Pairwise fun new old => KeyLe old.key new.key
  votes : ∀ isPrecommit height round, (log.filter (Signed.isVoteAt isPrecommit height round)).length ≤ 1
  proposal : ∀ height round, ∃ value validRound, ∀ hdr data, Signed.chunk hdr data ∈ log →
    (hdr.height, hdr.round) = (height, round) → (Signed.chunk hdr data).IsChunkOf P value validRound

theorem Signed.isVoteAt_iff {height round : ℕ} {e : Signed} :
    e.isVoteAt isPrecommit height round = true ↔ ∃ valueId, e = .vote isPrecommit height round valueId := by
  cases e <;> simp [Signed.isVoteAt]

theorem filter_votes_length {log : List Signed} (h : log.Pairwise Signed.After) (isPrecommit : Bool)
    (height round : ℕ) : (log.filter (Signed.isVoteAt isPrecommit height round)).length ≤ 1 := by
  have hpair := h.filter (Signed.isVoteAt isPrecommit height round)
  have hall : ∀ e ∈ log.filter (Signed.isVoteAt isPrecommit height round),
      ∃ valueId, e = .vote isPrecommit height round valueId :=
    fun e he => Signed.isVoteAt_iff.mp (List.mem_filter.mp he).2
  match log.filter (Signed.isVoteAt isPrecommit height round), hpair, hall with
  | [], _, _ => exact Nat.zero_le 1
  | [_], _, _ => exact le_rfl
  | new :: old :: _, hpair, hall =>
    -- two votes of one kind in one round cannot follow each other
    obtain ⟨x, rfl⟩ := hall new (by simp)
    obtain ⟨x', rfl⟩ := hall old (by simp)
    have hafter := (List.pairwise_cons.mp hpair).1 _ List.mem_cons_self
    exact absurd rfl (hafter.2 _ _ _ x x' rfl)

theorem LogInv.noEquivocation (h : LogInv P s) : NoEquivocation P s.signed where
  ordered := h.after.imp fun hafter => hafter.1
  votes := filter_votes_length h.after
  proposal height round := h.chunks (height, round)

/-- A node never equivocates in a run in which no tick of an unchecked build starts in the last round. -/
theorem noEquivocation_of_reaches {mySigningKey : SigningKey} {roster : SortedRoster} {startup : List RoundData}
    {now₀ : Instant} {r : EStateM.Result Panic TMState Unit}
    (h : Reaches P cl (NoWrap P) (TMState.init P mySigningKey roster startup) now₀ r) :
    NoEquivocation P (endState r).signed := by
  obtain ⟨s, hs, hinv, -⟩ := h.invariant False (I := fun _ => True) (init_inv _ _ _) rfl
    (fun _ _ _ hok => hok) (fun _ _ => trivial) fun _ _ _ _ _ _ _ => trivial
  rw [← hs.sameTrace.signed]
  exact (hinv.log id).noEquivocation

/-! ### A run of two members

The member with key three has stake one; the proposer, key two, has stake three and is faulty. -/

/-- Closures of an application that proposes nothing, accepts everything and keeps its roster. -/
def Closures.idle (roster : SortedRoster) : Closures where
  propose _ := .ok none
  validate _ _ := .ok (.pass, .none)
  push _ _ _ _ := .ok roster

def minorityRoster : SortedRoster := threeMembers 3 1 0 (by decide)

def minorityNode (P : Params) : TMState := TMState.init P (keyNo 3).bytes minorityRoster []

theorem noEquivocation_first_timeout :
    let r := life (Params.sample true) (.idle minorityRoster) 0 [.tick 5000] (minorityNode (Params.sample true))
    (endState r).signed = [.vote false 0 0 ValueId.nil] ∧ NoEquivocation (Params.sample true) (endState r).signed :=
  ⟨by decide +kernel, noEquivocation_of_reaches (reaches_life (fun _ input => by
    cases input with
    | recv => trivial
    | tick => exact .inl rfl) _ _ _)⟩

/-- The votes of the faulty proposer in the last round, and then its proposal for round zero. -/
def lastRoundInputs (P : Params) : List Input :=
  let last := 2 ^ 32 - 1
  let key := keyNo 2
  let hdr := chunkHeader P 0 0 [7] (-1) 0
  [.tick 5000,
    .recv (votePacket false 0 last ValueId.nil 0 (P.sign key.bytes (voteBytes key ValueId.nil 0 last))),
    .tick 5001,
    .recv (votePacket true 0 last ValueId.nil 0 (P.sign key.bytes (voteBytes key ValueId.nil 0 (2 ^ 31 - 1)))),
    .tick 5002,
    .recv (chunkPacket hdr [7] (P.sign key.bytes (hdr.writeTo ++ [7]))),
    .tick (10002 + 1000 * last),
    .tick (10002 + 1000 * last)]

/-- In a build without overflow checks the node prevotes nil in round zero, is called into the last round,
leaves it by its precommit timeout and prevotes the proposal in round zero. -/
theorem prevotes_twice_after_last_round :
    let P := Params.sample false
    let r := life P (.idle minorityRoster) 0 (lastRoundInputs P) (minorityNode P)
    Reaches P (.idle minorityRoster) (fun _ _ => True) (minorityNode P) 0 r ∧
      (endState r).signed = [.vote false 0 0 (idFromValue P [7]), .vote false 0 0 ValueId.nil] ∧
      ¬ NoEquivocation P (endState r).signed := by
  intro P r
  have hsigned : (endState r).signed = [.vote false 0 0 (idFromValue P [7]), .vote false 0 0 ValueId.nil] := by
    decide +kernel
  refine ⟨reaches_life (fun _ _ => trivial) _ _ _, hsigned, fun h => ?_⟩
  have hone := h.votes false 0 0
  rw [hsigned] at hone
  exact absurd hone (by decide)

end Crosslink.Tenderlink
