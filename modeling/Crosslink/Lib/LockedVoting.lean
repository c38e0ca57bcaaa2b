import Mathlib.Data.Set.Basic
import Mathlib.Tactic

/-!
# Voting in rounds with locks

Processes vote in two stages in each round, for a value or for none. A second vote for a value needs a
quorum of first votes for it in the same round. It also locks the process: a later first vote is for the
value of the last second vote, or for a value that a quorum has already first-voted in the same round. If
any two quorums meet, two values cannot both get a quorum of second votes, whatever their rounds.

The votes of all processes are kept in one list, newest first.
-/

namespace LockedVoting

inductive Stage where
  | first
  | second
  deriving DecidableEq

structure Ballot (ι V : Type) where
  voter : ι
  stage : Stage
  round : ℕ
  value : Option V

variable {ι V : Type} {Q : Set (Set ι)} {log : List (Ballot ι V)}

def Backed (Q : Set (Set ι)) (log : List (Ballot ι V)) (round : ℕ) (x : V) : Prop :=
  ∃ S ∈ Q, ∀ p ∈ S, ⟨p, .first, round, some x⟩ ∈ log

/-- The ballot may be cast after those of the log. -/
structure Allowed (Q : Set (Set ι)) (log : List (Ballot ι V)) (b : Ballot ι V) : Prop where
  order : ∀ b' ∈ log, b'.voter = b.voter → b'.round ≤ b.round
  once : ∀ b' ∈ log, b'.voter = b.voter → b'.stage = b.stage → b'.round ≠ b.round
  second : ∀ x, b.stage = .second → b.value = some x → Backed Q log b.round x
  first : ∀ x, b.stage = .first → b.value = some x →
    (∀ r y, ⟨b.voter, .second, r, some y⟩ ∉ log) ∨
      (∃ r, ⟨b.voter, .second, r, some x⟩ ∈ log ∧ ∀ r' y, ⟨b.voter, .second, r', some y⟩ ∈ log → r' ≤ r) ∨
      Backed Q log b.round x

inductive Valid (Q : Set (Set ι)) : List (Ballot ι V) → Prop where
  | nil : Valid Q []
  | cons {log : List (Ballot ι V)} {b : Ballot ι V} (h : Valid Q log) (hb : Allowed Q log b) : Valid Q (b :: log)

theorem Backed.cons {round : ℕ} {x : V} (h : Backed Q log round x) (b : Ballot ι V) : Backed Q (b :: log) round x := by
  obtain ⟨S, hS, hall⟩ := h
  exact ⟨S, hS, fun p hp => List.mem_cons_of_mem _ (hall p hp)⟩

theorem Valid.unique (h : Valid Q log) {round : ℕ} (hx : ⟨p, stage, round, x⟩ ∈ log) (hy : ⟨p, stage, round, y⟩ ∈ log) :
    x = y := by
  induction h with
  | nil => cases hx
  | cons _ hb ih =>
    rcases List.mem_cons.mp hx with rfl | hx' <;> rcases List.mem_cons.mp hy with heq | hy'
    · cases heq
      rfl
    · exact (hb.once _ hy' rfl rfl rfl).elim
    · subst heq
      exact (hb.once _ hx' rfl rfl rfl).elim
    · exact ih hx' hy'

theorem Valid.backed (h : Valid Q log) {round : ℕ} (hx : ⟨p, .second, round, some x⟩ ∈ log) :
    Backed Q log round x := by
  induction h with
  | nil => cases hx
  | cons _ hb ih =>
    rcases List.mem_cons.mp hx with rfl | hx
    · exact (hb.second x rfl rfl).cons _
    · exact (ih hx).cons _

/-- The processes of `S` that have gone past the round have second-voted the value in it. -/
def Passed (S : Set ι) (round : ℕ) (x : V) (log : List (Ballot ι V)) : Prop :=
  ∀ b ∈ log, b.voter ∈ S → round < b.round → ⟨b.voter, .second, round, some x⟩ ∈ log

theorem Passed.of_cons {round : ℕ} (hb : Allowed Q log b) (h : Passed S round x (b :: log)) :
    Passed S round x log := by
  intro b' hb' hS hlt
  rcases List.mem_cons.mp (h b' (List.mem_cons_of_mem _ hb') hS hlt) with heq | hmem
  -- the newest ballot cannot be for an older round
  · have := hb.order b' hb' (heq ▸ rfl)
    rw [← heq] at this
    exact absurd this (Nat.not_le.mpr hlt)
  · exact hmem

theorem Valid.first_eq (hQ : ∀ S ∈ Q, ∀ T ∈ Q, (S ∩ T).Nonempty) (h : Valid Q log) (hS : S ∈ Q) {round : ℕ}
    (hpassed : Passed S round x log) (hp : p ∈ S) (hlt : round < r) (hy : ⟨p, .first, r, some y⟩ ∈ log) : y = x := by
  induction h generalizing p r y with
  | nil => cases hy
  | @cons log b hlog hb ih =>
    have hpassed' := hpassed.of_cons hb
    have hbacked : ∀ {r y}, round < r → Backed Q log r y → y = x := by
      intro r y hr hback
      obtain ⟨T, hT, hall⟩ := hback
      obtain ⟨q, hqS, hqT⟩ := hQ S hS T hT
      exact ih hpassed' hqS hr (hall q hqT)
    rcases List.mem_cons.mp hy with rfl | hold
    · have hlocked : ⟨p, .second, round, some x⟩ ∈ log := by
        rcases List.mem_cons.mp (hpassed _ hy hp hlt) with heq | hmem
        · cases heq
        · exact hmem
      rcases hb.first y rfl rfl with hnone | ⟨r', hr', hlast⟩ | hback
      · exact absurd hlocked (hnone _ _)
      · rcases Nat.eq_or_lt_of_le (hlast round x hlocked) with rfl | hlt'
        · exact Option.some.inj (hlog.unique hr' hlocked)
        · exact hbacked hlt' (hlog.backed hr')
      · exact hbacked hlt hback
    · exact ih hpassed' hp hlt hold

theorem Valid.second_eq (hQ : ∀ S ∈ Q, ∀ T ∈ Q, (S ∩ T).Nonempty) (h : Valid Q log) (hS : S ∈ Q) (hT : T ∈ Q)
    (hx : ∀ p ∈ S, ⟨p, .second, r, some x⟩ ∈ log) (hy : ∀ p ∈ T, ⟨p, .second, r', some y⟩ ∈ log) : x = y := by
  wlog hle : r ≤ r' generalizing S T r r' x y
  · exact (this hT hS hy hx (Nat.le_of_not_le hle)).symm
  rcases Nat.eq_or_lt_of_le hle with rfl | hlt
  · obtain ⟨p, hpS, hpT⟩ := hQ S hS T hT
    exact Option.some.inj (h.unique (hx p hpS) (hy p hpT))
  · obtain ⟨p, hpT, -⟩ := hQ T hT T hT
    obtain ⟨U, hU, hall⟩ := h.backed (hy p hpT)
    obtain ⟨q, hqS, hqU⟩ := hQ S hS U hU
    exact (h.first_eq hQ hS (fun b _ hb _ => hx _ hb) hqS hlt (hall q hqU)).symm

end LockedVoting
