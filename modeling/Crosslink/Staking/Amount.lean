import Crosslink.Lib.Fallible

/-!
# Amounts and value pools

An amount is a number of zatoshis inside the range of its constraint, so an amount out of range cannot be built: the
conversions and the arithmetic return an error instead, and `Amount.new` panics. A value balance holds one amount for
each pool; all its operations work pool by pool and report the first pool that fails.
-/

namespace Crosslink.Staking

open Fallible

/-! ### Amounts -/

def maxMoney : ℤ := 2100000000000000

inductive Constraint where
  | negativeAllowed
  | nonNegative
  deriving DecidableEq, Repr

def Constraint.low : Constraint → ℤ
  | .negativeAllowed => -maxMoney
  | .nonNegative => 0

@[ext]
structure Amount (c : Constraint) where
  zatoshis : ℤ
  low_le : c.low ≤ zatoshis
  le_max : zatoshis ≤ maxMoney
  deriving DecidableEq

inductive AmountError where
  /-- Outside of the range of the constraint. -/
  | constraint (value : ℤ)
  /-- Not a 64-bit signed number. -/
  | convert (value : ℕ)
  | sumOverflow (partialSum : ℤ) (remainingItems : ℕ)
  deriving DecidableEq, Repr

/-- `value as i64`, for a 64-bit unsigned number. -/
def asI64 (value : ℕ) : ℤ := if value < 2 ^ 63 then value else value - 2 ^ 64

namespace Amount

variable {c d : Constraint}

def zero : Amount c := ⟨0, by cases c <;> decide, by decide⟩

/-- `Amount::try_from(i64)`. -/
def tryFrom (value : ℤ) : Except AmountError (Amount c) :=
  if h : c.low ≤ value ∧ value ≤ maxMoney then .ok ⟨value, h.1, h.2⟩ else .error (.constraint value)

/-- `Amount::try_from(u64)`. -/
def tryFromU64 (value : ℕ) : Except AmountError (Amount c) :=
  if value < 2 ^ 63 then tryFrom value else .error (.convert value)

/-- `Amount::new`, with its assertion. -/
def new (zatoshis : ℤ) : Except Panic (Amount .nonNegative) :=
  if h : 0 ≤ zatoshis ∧ zatoshis ≤ maxMoney then .ok ⟨zatoshis, h.1, h.2⟩ else .error .assert

def constrain (a : Amount c) : Except AmountError (Amount d) := tryFrom a.zatoshis

def add (a b : Amount c) : Except AmountError (Amount c) := tryFrom (a.zatoshis + b.zatoshis)

def sub (a b : Amount c) : Except AmountError (Amount c) := tryFrom (a.zatoshis - b.zatoshis)

/-- The range of `negativeAllowed` is symmetric, so negation does not fail. -/
def neg (a : Amount c) : Amount .negativeAllowed :=
  ⟨-a.zatoshis, neg_le_neg a.le_max, by
    have hlow := a.low_le
    have hle : -maxMoney ≤ c.low := by cases c <;> decide
    omega⟩

/-- `iter.sum::<Result<Amount, _>>()`, from a partial sum. -/
def sumFrom (acc : Amount c) : List (Amount c) → Except AmountError (Amount c)
  | [] => .ok acc
  | a :: rest =>
    match acc.add a with
    | .ok acc => sumFrom acc rest
    | .error _ => .error (.sumOverflow (acc.zatoshis + a.zatoshis) rest.length)

def sum (amounts : List (Amount c)) : Except AmountError (Amount c) := sumFrom zero amounts

variable {a b r : Amount c} {z : ℤ} {n : ℕ}

@[simp] theorem zatoshis_zero : (zero : Amount c).zatoshis = 0 := rfl

@[simp] theorem zatoshis_neg : (neg a).zatoshis = -a.zatoshis := rfl

theorem zatoshis_nonneg (a : Amount .nonNegative) : 0 ≤ a.zatoshis := a.low_le

theorem tryFrom_eq_ok : tryFrom z = .ok r ↔ r.zatoshis = z := by
  unfold tryFrom
  constructor
  · intro h
    split_ifs at h
    obtain rfl := Except.ok.inj h
    rfl
  · intro h
    subst h
    rw [dif_pos ⟨r.low_le, r.le_max⟩]

theorem new_eq_ok {r : Amount .nonNegative} : new z = .ok r ↔ r.zatoshis = z := by
  unfold new
  constructor
  · intro h
    split_ifs at h
    obtain rfl := Except.ok.inj h
    rfl
  · intro h
    subst h
    rw [dif_pos ⟨r.low_le, r.le_max⟩]

theorem new_error (h : ¬ (0 ≤ z ∧ z ≤ maxMoney)) : new z = .error .assert := dif_neg h

theorem tryFromU64_eq_ok {r : Amount .nonNegative} : tryFromU64 n = .ok r ↔ r.zatoshis = n := by
  have hmax := r.le_max
  unfold tryFromU64
  split_ifs with hn
  · exact tryFrom_eq_ok
  · simp only [false_iff]
    unfold maxMoney at hmax
    omega

theorem add_eq_ok : add a b = .ok r ↔ r.zatoshis = a.zatoshis + b.zatoshis := tryFrom_eq_ok

theorem sub_eq_ok : sub a b = .ok r ↔ r.zatoshis = a.zatoshis - b.zatoshis := tryFrom_eq_ok

theorem constrain_eq_ok {r : Amount d} : constrain a = .ok r ↔ r.zatoshis = a.zatoshis := tryFrom_eq_ok

theorem sumFrom_zatoshis (h : sumFrom acc l = .ok r) :
    r.zatoshis = acc.zatoshis + (l.map zatoshis).sum := by
  induction l generalizing acc with
  | nil =>
    obtain rfl := Except.ok.inj h
    simp
  | cons a l ih =>
    rw [sumFrom] at h
    cases hadd : acc.add a with
    | error e =>
      rw [hadd] at h
      cases h
    | ok acc' =>
      rw [hadd] at h
      rw [ih h, add_eq_ok.mp hadd, List.map_cons, List.sum_cons, add_assoc]

theorem sum_zatoshis_nonneg (l : List (Amount .nonNegative)) : 0 ≤ (l.map zatoshis).sum := by
  apply List.sum_nonneg
  intro z hz
  obtain ⟨a, -, rfl⟩ := List.mem_map.mp hz
  exact a.zatoshis_nonneg

theorem sumFrom_of_le {acc : Amount .nonNegative} {l : List (Amount .nonNegative)}
    (h : acc.zatoshis + (l.map zatoshis).sum ≤ maxMoney) : ∃ r, sumFrom acc l = .ok r := by
  induction l generalizing acc with
  | nil => exact ⟨acc, rfl⟩
  | cons a l ih =>
    have hrest := sum_zatoshis_nonneg l
    have hacc := acc.zatoshis_nonneg
    have ha := a.zatoshis_nonneg
    rw [List.map_cons, List.sum_cons] at h
    have hadd : acc.add a = .ok ⟨acc.zatoshis + a.zatoshis, add_nonneg hacc ha, by omega⟩ := add_eq_ok.mpr rfl
    rw [sumFrom, hadd]
    exact ih (by simpa [add_assoc] using h)

theorem sum_isOk_iff {l : List (Amount .nonNegative)} : (∃ r, sum l = .ok r) ↔ (l.map zatoshis).sum ≤ maxMoney := by
  constructor
  · rintro ⟨r, h⟩
    have hr := sumFrom_zatoshis h
    have hmax := r.le_max
    simp only [zatoshis_zero, zero_add] at hr
    omega
  · intro h
    exact sumFrom_of_le (by simpa using h)

theorem constrain_nonNegative (a : Amount .nonNegative) :
    a.constrain = .ok (a.neg.neg : Amount .negativeAllowed) := constrain_eq_ok.mpr (by simp)

theorem asI64_of_le (h : (n : ℤ) ≤ maxMoney) : asI64 n = n := by
  unfold maxMoney at h
  exact if_pos (by omega)

end Amount

/-! ### Value balances -/

inductive Pool where
  | transparent
  | sprout
  | sapling
  | orchard
  | deferred
  | stakingBonded
  | stakingUnbonded
  deriving DecidableEq, Repr

abbrev ValueBalance (c : Constraint) := Pool → Amount c

abbrev ValueBalanceError := Pool × AmountError

namespace ValueBalance

variable {c d : Constraint}

def zero : ValueBalance c := fun _ => .zero

/-- `ValueBalance::from_transparent_amount` and its siblings. -/
def fromAmount (pool : Pool) (a : Amount c) : ValueBalance c := Function.update zero pool a

def ofPools (f : Pool → Except AmountError (Amount c)) : Except ValueBalanceError (ValueBalance c) := do
  let transparent ← (f .transparent).mapError (.transparent, ·)
  let sprout ← (f .sprout).mapError (.sprout, ·)
  let sapling ← (f .sapling).mapError (.sapling, ·)
  let orchard ← (f .orchard).mapError (.orchard, ·)
  let deferred ← (f .deferred).mapError (.deferred, ·)
  let stakingBonded ← (f .stakingBonded).mapError (.stakingBonded, ·)
  let stakingUnbonded ← (f .stakingUnbonded).mapError (.stakingUnbonded, ·)
  return fun
    | .transparent => transparent
    | .sprout => sprout
    | .sapling => sapling
    | .orchard => orchard
    | .deferred => deferred
    | .stakingBonded => stakingBonded
    | .stakingUnbonded => stakingUnbonded

def constrain (v : ValueBalance c) : Except ValueBalanceError (ValueBalance d) := ofPools fun p => (v p).constrain

def add (v w : ValueBalance c) : Except ValueBalanceError (ValueBalance c) := ofPools fun p => (v p).add (w p)

def neg (v : ValueBalance c) : ValueBalance .negativeAllowed := fun p => (v p).neg

def sum (vs : List (ValueBalance c)) : Except ValueBalanceError (ValueBalance c) := vs.foldlM add zero

def setAmount (v : ValueBalance c) (pool : Pool) (a : Amount c) : ValueBalance c := Function.update v pool a

/-- The fee that a transaction pays; the deferred pool does not take part. -/
def remainingTransactionValue (v : ValueBalance .negativeAllowed) : Except AmountError (Amount .nonNegative) := do
  let s ← (v .transparent).add (v .sprout)
  let s ← s.add (v .sapling)
  let s ← s.add (v .orchard)
  let s ← s.add (v .stakingBonded)
  let s ← s.add (v .stakingUnbonded)
  s.constrain

/-- The pools of the chain after a block, which may not go below zero. -/
def addChainValuePoolChange (v : ValueBalance .nonNegative) (change : ValueBalance .negativeAllowed) :
    Except ValueBalanceError (ValueBalance .nonNegative) := do
  let v : ValueBalance .negativeAllowed ← v.constrain
  let v ← v.add change
  v.constrain

theorem ofPools_eq_ok :
    ofPools f = .ok v ↔ ∀ p, f p = .ok (v p) := by
  constructor
  · intro h
    simp only [ofPools, bind_eq_ok, mapError_eq_ok, pure_eq_ok] at h
    obtain ⟨t, ht, s, hs, sa, hsa, o, ho, de, hde, b, hb, u, hu, rfl⟩ := h
    intro p
    cases p <;> assumption
  · intro h
    simp only [ofPools, h, mapError_ok, ok_bind, pure_eq_ok]
    funext p
    cases p <;> rfl

theorem constrain_eq_ok {v : ValueBalance c} :
    v.constrain = .ok w ↔ ∀ p, (w p).zatoshis = (v p).zatoshis := by
  simp only [constrain, ofPools_eq_ok, Amount.constrain_eq_ok]

theorem add_eq_ok {v w r : ValueBalance c} :
    v.add w = .ok r ↔ ∀ p, (r p).zatoshis = (v p).zatoshis + (w p).zatoshis := by
  simp only [add, ofPools_eq_ok, Amount.add_eq_ok]

theorem add_of_disjoint {v w : ValueBalance c} (h : ∀ p, v p = .zero ∨ w p = .zero) :
    ∃ r, v.add w = .ok r ∧ ∀ p, v p = .zero → w p = .zero → r p = .zero := by
  refine ⟨fun p => if v p = .zero then w p else v p, add_eq_ok.mpr fun p => ?_, fun p hv hw => by simp [hv, hw]⟩
  by_cases hv : v p = .zero
  · simp [hv]
  · simp [hv, (h p).resolve_left hv]

theorem addChainValuePoolChange_eq_ok {v r : ValueBalance .nonNegative} :
    v.addChainValuePoolChange change = .ok r ↔ ∀ p, (r p).zatoshis = (v p).zatoshis + (change p).zatoshis := by
  simp only [addChainValuePoolChange, bind_eq_ok, constrain_eq_ok, add_eq_ok]
  constructor
  · rintro ⟨v', hv, w, hw, hr⟩ p
    rw [hr, hw, hv]
  · intro h
    have hlow : ∀ a : Amount .nonNegative, Constraint.negativeAllowed.low ≤ a.zatoshis := fun a =>
      le_trans (by decide) a.low_le
    exact ⟨fun p => ⟨(v p).zatoshis, hlow _, (v p).le_max⟩, fun _ => rfl,
      fun p => ⟨(r p).zatoshis, hlow _, (r p).le_max⟩, h, fun _ => rfl⟩

theorem sum_eq_ok {vs : List (ValueBalance c)} {r : ValueBalance c} (h : sum vs = .ok r) (p : Pool) :
    (r p).zatoshis = (vs.map fun v => (v p).zatoshis).sum := by
  refine foldlM_induction (R := fun pre r => (r p).zatoshis = (pre.map fun v => (v p).zatoshis).sum) h rfl ?_
  intro pre v b₁ b₂ hpre hadd
  rw [add_eq_ok.mp hadd p, hpre]
  simp

theorem ext {v w : ValueBalance c} (h : ∀ p, (v p).zatoshis = (w p).zatoshis) : v = w :=
  funext fun p => Amount.ext (h p)

end ValueBalance

end Crosslink.Staking
