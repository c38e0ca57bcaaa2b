import Crosslink.Staking.Ledger

/-!
# Bonds and value balances on disk

The database keeps value balances, bonds and bond statuses as byte strings of fixed layouts. Amounts of a value balance
are little-endian and follow each other in the order of the pools; older databases hold the first four or five pools
only. A bond holds its amount big-endian, its finalizer and the location of a transaction; a status is a tag and, for
the bonds that are no longer active, a location. A location holds three bytes of the height, and a height that does not
fit in them is written as the greatest that does.
-/

namespace Crosslink.Staking

open Codec Fallible List

/-! ### Value balances -/

section Amounts

variable {c : Constraint}

def i64Bits (z : ℤ) : ℕ := (z % 2 ^ 64).toNat

namespace Amount

def toBytes (a : Amount c) : List UInt8 := leBytes 8 (i64Bits a.zatoshis)

def fromBytes (bytes : List UInt8) : Except AmountError (Amount c) := tryFrom (asI64 (leNat bytes))

@[simp] theorem length_toBytes (a : Amount c) : a.toBytes.length = 8 := leBytes_length _ _

theorem asI64_i64Bits (a : Amount c) : asI64 (i64Bits a.zatoshis % 256 ^ 8) = a.zatoshis := by
  have hlow : -maxMoney ≤ a.zatoshis := le_trans (by cases c <;> decide) a.low_le
  have hmax := a.le_max
  unfold maxMoney at hlow hmax
  unfold asI64 i64Bits
  split_ifs <;> omega

theorem asI64_toBytes (a : Amount c) : asI64 (leNat a.toBytes) = a.zatoshis := by
  rw [toBytes, leNat_leBytes, asI64_i64Bits]

end Amount

end Amounts

inductive BalanceParseError where
  | unparsable
  | value (e : ValueBalanceError)
  deriving DecidableEq

namespace ValueBalance

def toBytes (v : ValueBalance .nonNegative) : List UInt8 :=
  [(v .transparent).toBytes, (v .sprout).toBytes, (v .sapling).toBytes, (v .orchard).toBytes, (v .deferred).toBytes,
    (v .stakingBonded).toBytes, (v .stakingUnbonded).toBytes].flatten

/-- The amount of a pool in the eight bytes from `start`. -/
def amountAt (bytes : List UInt8) (pool : Pool) (start : ℕ) :
    Except (Stop BalanceParseError) (Amount .nonNegative) := do
  let field ← (slice bytes start (start + 8)).mapError .panic
  (Amount.fromBytes field).mapError fun e => .error (.value (pool, e))

def fromBytes (bytes : List UInt8) : Except (Stop BalanceParseError) (ValueBalance .nonNegative) := do
  if ¬ (bytes.length = 32 ∨ bytes.length = 40 ∨ bytes.length = 56) then throw (.error .unparsable)
  let transparent ← amountAt bytes .transparent 0
  let sprout ← amountAt bytes .sprout 8
  let sapling ← amountAt bytes .sapling 16
  let orchard ← amountAt bytes .orchard 24
  let deferred ← (if bytes.length = 32 then pure .zero else amountAt bytes .deferred 32)
  let stakingBonded ← (if bytes.length = 56 then amountAt bytes .stakingBonded 40 else pure .zero)
  let stakingUnbonded ← (if bytes.length = 56 then amountAt bytes .stakingUnbonded 48 else pure .zero)
  return fun
    | .transparent => transparent
    | .sprout => sprout
    | .sapling => sapling
    | .orchard => orchard
    | .deferred => deferred
    | .stakingBonded => stakingBonded
    | .stakingUnbonded => stakingUnbonded

end ValueBalance

def Pool.offset : Pool → ℕ
  | .transparent => 0
  | .sprout => 8
  | .sapling => 16
  | .orchard => 24
  | .deferred => 32
  | .stakingBonded => 40
  | .stakingUnbonded => 48

/-- The number in the place of a pool, and zero where the byte string is too short to hold it. -/
def Pool.spelled (bytes : List UInt8) (pool : Pool) : ℤ :=
  if pool.offset < bytes.length then asI64 (leNat ((bytes.drop pool.offset).take 8)) else 0

namespace ValueBalance

variable {bytes : List UInt8} {v : ValueBalance .nonNegative}

theorem amountAt_eq_ok {pool : Pool} {a : Amount .nonNegative} (h : pool.offset + 8 ≤ bytes.length) :
    amountAt bytes pool pool.offset = .ok a ↔ a.zatoshis = pool.spelled bytes := by
  have hslice : slice bytes pool.offset (pool.offset + 8) = .ok ((bytes.drop pool.offset).take 8) := by
    rw [slice, if_pos ⟨by omega, h⟩, Nat.add_sub_cancel_left]
  rw [amountAt, hslice, Pool.spelled, if_pos (by omega)]
  simp only [mapError_ok, ok_bind, mapError_eq_ok, Amount.fromBytes, Amount.tryFrom_eq_ok]

theorem optional_eq_ok {pool : Pool} {a : Amount .nonNegative} {held : Prop} [Decidable held]
    (hheld : held ↔ pool.offset < bytes.length) (h : held → pool.offset + 8 ≤ bytes.length) :
    (if held then amountAt bytes pool pool.offset else pure .zero) = .ok a ↔ a.zatoshis = pool.spelled bytes := by
  by_cases hp : held
  · rw [if_pos hp, amountAt_eq_ok (h hp)]
  · rw [if_neg hp, pure_eq_ok, Pool.spelled, if_neg fun hlt => hp (hheld.mpr hlt), Amount.ext_iff, Amount.zatoshis_zero,
      eq_comm]

theorem fromBytes_eq_ok :
    fromBytes bytes = .ok v ↔
      (bytes.length = 32 ∨ bytes.length = 40 ∨ bytes.length = 56) ∧ ∀ p, (v p).zatoshis = p.spelled bytes := by
  by_cases hlen : bytes.length = 32 ∨ bytes.length = 40 ∨ bytes.length = 56
  swap
  · rw [fromBytes, if_pos hlen]
    exact iff_of_false (fun h => nomatch h) fun h => hlen h.1
  have hfront {pool : Pool} {a : Amount .nonNegative} (h : pool.offset ≤ 24) :=
    @amountAt_eq_ok bytes pool a (by omega)
  have hdeferred {a : Amount .nonNegative} := @optional_eq_ok bytes .deferred a (bytes.length ≠ 32) _
    (by simp only [Pool.offset]; omega) (by simp only [Pool.offset]; omega)
  have hstaking {pool : Pool} {a : Amount .nonNegative} (h : pool.offset = 40 ∨ pool.offset = 48) :=
    @optional_eq_ok bytes pool a (bytes.length = 56) _ (by omega) (by omega)
  simp only [ite_not] at hdeferred
  simp only [fromBytes, not_true_eq_false, hlen, if_false, bind_eq_ok, pure_eq_ok, true_and]
  constructor
  · rintro ⟨t, ht, s, hs, sa, hsa, o, ho, d, hd, b, hb, u, hu, rfl⟩ p
    cases p with
    | transparent => exact (hfront (by decide)).mp ht
    | sprout => exact (hfront (by decide)).mp hs
    | sapling => exact (hfront (by decide)).mp hsa
    | orchard => exact (hfront (by decide)).mp ho
    | deferred => exact hdeferred.mp hd
    | stakingBonded => exact (hstaking (by decide)).mp hb
    | stakingUnbonded => exact (hstaking (by decide)).mp hu
  · intro h
    refine ⟨_, (hfront (by decide)).mpr (h .transparent), _, (hfront (by decide)).mpr (h .sprout),
      _, (hfront (by decide)).mpr (h .sapling), _, (hfront (by decide)).mpr (h .orchard), _, hdeferred.mpr (h .deferred),
      _, (hstaking (by decide)).mpr (h .stakingBonded), _, (hstaking (by decide)).mpr (h .stakingUnbonded), ?_⟩
    funext p
    cases p <;> rfl

theorem length_toBytes (v : ValueBalance .nonNegative) : v.toBytes.length = 56 := by simp [toBytes]

theorem spelled_toBytes (v : ValueBalance .nonNegative) (p : Pool) : p.spelled v.toBytes = (v p).zatoshis := by
  have hfield : (v.toBytes.drop p.offset).take 8 = (v p).toBytes := by
    cases p <;> simp [toBytes, Pool.offset, drop_append, drop_of_length_le, take_of_length_le]
  have hoffset : p.offset < 56 := by cases p <;> decide
  rw [Pool.spelled, length_toBytes, if_pos hoffset, hfield, Amount.asI64_toBytes]

theorem fromBytes_toBytes (v : ValueBalance .nonNegative) : fromBytes v.toBytes = .ok v :=
  fromBytes_eq_ok.mpr ⟨.inr (.inr v.length_toBytes), fun p => (v.spelled_toBytes p).symm⟩

theorem fromBytes_legacy (hlen : bytes.length = 32 ∨ bytes.length = 40) :
    (∃ v, fromBytes bytes = .ok v) ↔ ∀ p : Pool, 0 ≤ p.spelled bytes ∧ p.spelled bytes ≤ maxMoney := by
  constructor
  · rintro ⟨v, h⟩ p
    rw [← (fromBytes_eq_ok.mp h).2 p]
    exact ⟨(v p).zatoshis_nonneg, (v p).le_max⟩
  · intro h
    exact ⟨fun p => ⟨p.spelled bytes, (h p).1, (h p).2⟩, fromBytes_eq_ok.mpr ⟨by omega, fun p => rfl⟩⟩

theorem eq_zero_of_fromBytes (h : fromBytes bytes = .ok v) (hp : bytes.length ≤ p.offset) : v p = .zero := by
  apply Amount.ext
  rw [(fromBytes_eq_ok.mp h).2, Pool.spelled, if_neg (by omega), Amount.zatoshis_zero]

end ValueBalance

/-! ### Locations -/

/-- `try_into().unwrap()` to an array of `n` bytes. -/
def toArray (n : ℕ) (bytes : List UInt8) : Except Panic (Bytes n) :=
  if h : bytes.length = n then .ok ⟨bytes, h⟩ else .error .unwrap

/-- The last `diskLen` bytes, when those before them are all zero. -/
def truncateZeroBeBytes (memBytes : List UInt8) (diskLen : ℕ) : Except Panic (Option (List UInt8)) :=
  if memBytes.length < diskLen then .error .unwrap
  else
    let discarded := memBytes.length - diskLen
    if (memBytes.take discarded).all (· == 0) then .ok (some (memBytes.drop discarded)) else .ok none

def expandZeroBeBytes (diskBytes : List UInt8) (memLen : ℕ) : Except Panic (List UInt8) :=
  if memLen < diskBytes.length then .error .unwrap
  else .ok (List.replicate (memLen - diskBytes.length) 0 ++ diskBytes)

/-- `MAX_ON_DISK_HEIGHT`. -/
def maxOnDiskHeight : ℕ := 2 ^ 24 - 1

def heightAsBytes (height : ℕ) : Except Panic (Bytes 3) := do
  match ← truncateZeroBeBytes (beBytes 4 height) 3 with
  | some bytes => toArray 3 bytes
  | none => toArray 3 (← unwrap (← truncateZeroBeBytes (beBytes 4 maxOnDiskHeight) 3))

def heightFromBytes (diskBytes : List UInt8) : Except Panic ℕ := do
  let memBytes ← toArray 4 (← expandZeroBeBytes diskBytes 4)
  return beNat memBytes.toList

namespace TransactionLocation

def asBytes (l : TransactionLocation) : Except Panic (Bytes 5) := do
  toArray 5 ((← heightAsBytes l.height).toList ++ beBytes 2 l.index)

def fromBytes (diskBytes : List UInt8) : Except Panic TransactionLocation := do
  let heightBytes ← slice diskBytes 0 3
  let height ← heightFromBytes heightBytes
  let indexBytes ← toArray 2 (diskBytes.drop 3)
  return ⟨height, beNat indexBytes.toList⟩

def Sized (l : TransactionLocation) : Prop := l.height < 2 ^ 32 ∧ l.index < 2 ^ 16

/-- The location that is stored in place of `l`. -/
def onDisk (l : TransactionLocation) : TransactionLocation := { l with height := min l.height maxOnDiskHeight }

end TransactionLocation

theorem toArray_ok {n : ℕ} {bytes : List UInt8} (h : bytes.length = n) :
    ∃ array, toArray n bytes = .ok array ∧ array.toList = bytes :=
  ⟨⟨bytes, h⟩, dif_pos h, rfl⟩

theorem truncateZeroBeBytes_beBytes (h : height < 2 ^ 32) :
    truncateZeroBeBytes (beBytes 4 height) 3 = .ok (if height ≤ maxOnDiskHeight then some (beBytes 3 height) else none) := by
  have hzero : UInt8.ofNat (height / 256 ^ 3) = 0 ↔ height ≤ maxOnDiskHeight := by
    rw [← UInt8.toNat_inj, UInt8.toNat_ofNat', maxOnDiskHeight]
    simp only [UInt8.toNat_zero]
    omega
  rw [truncateZeroBeBytes, beBytes_length, if_neg (by omega), beBytes_succ]
  simp only [Nat.reduceSub, take_succ_cons, take_zero, all_cons, all_nil, Bool.and_true, beq_iff_eq,
    hzero, drop_succ_cons, drop_zero]
  split_ifs <;> rfl

theorem heightAsBytes_ok (h : height < 2 ^ 32) :
    ∃ bytes, heightAsBytes height = .ok bytes ∧ bytes.toList = beBytes 3 (min height maxOnDiskHeight) := by
  rw [heightAsBytes, truncateZeroBeBytes_beBytes h]
  by_cases hle : height ≤ maxOnDiskHeight
  · simp only [if_pos hle, ok_bind, min_eq_left hle]
    exact toArray_ok (beBytes_length _ _)
  · have hmax := truncateZeroBeBytes_beBytes (show maxOnDiskHeight < 2 ^ 32 by decide)
    simp only [if_neg hle, ok_bind, min_eq_right (le_of_not_ge hle), hmax, if_pos le_rfl, unwrap]
    exact toArray_ok (beBytes_length _ _)

theorem heightFromBytes_beBytes (height : ℕ) : heightFromBytes (beBytes 3 height) = .ok (height % 2 ^ 24) := by
  have hexpand : expandZeroBeBytes (beBytes 3 height) 4 = .ok (0 :: beBytes 3 height) := by
    rw [expandZeroBeBytes, beBytes_length, if_neg (by omega)]
    rfl
  obtain ⟨array, harray, hlist⟩ := @toArray_ok 4 (0 :: beBytes 3 height) (by simp)
  rw [heightFromBytes, hexpand, ok_bind, harray, ok_bind, hlist, beNat_zero_cons, beNat_beBytes]
  rfl

namespace TransactionLocation

variable {l : TransactionLocation}

theorem fromBytes_onDisk (h : l.Sized) :
    fromBytes (beBytes 3 l.onDisk.height ++ beBytes 2 l.index) = .ok l.onDisk := by
  have hheight : slice (beBytes 3 l.onDisk.height ++ beBytes 2 l.index) 0 3 = .ok (beBytes 3 l.onDisk.height) :=
    slice_middle (l := []) (m := beBytes 3 l.onDisk.height) rfl rfl
  have hmin : l.onDisk.height < 2 ^ 24 := lt_of_le_of_lt (min_le_right _ _) (by decide)
  obtain ⟨array, harray, hindex⟩ := toArray_ok (beBytes_length 2 l.index)
  rw [fromBytes, hheight, ok_bind, heightFromBytes_beBytes, ok_bind, drop_left' (beBytes_length _ _), harray,
    ok_bind, hindex, beNat_beBytes, Nat.mod_eq_of_lt hmin, Nat.mod_eq_of_lt (by exact h.2)]
  rfl

theorem asBytes_ok (h : l.Sized) : ∃ bytes, l.asBytes = .ok bytes ∧ fromBytes bytes.toList = .ok l.onDisk := by
  obtain ⟨heightBytes, hheight, hlist⟩ := heightAsBytes_ok h.1
  obtain ⟨bytes, hbytes, hbytesList⟩ := @toArray_ok 5 (beBytes 3 l.onDisk.height ++ beBytes 2 l.index) (by simp)
  refine ⟨bytes, ?_, hbytesList ▸ fromBytes_onDisk h⟩
  rw [asBytes, hheight, ok_bind, hlist]
  exact hbytes

theorem onDisk_eq_self : l.onDisk = l ↔ l.height ≤ maxOnDiskHeight := by
  rw [onDisk, ← min_eq_left_iff]
  constructor
  · exact fun h => congrArg height h
  · intro h
    rw [h]

end TransactionLocation

/-! ### Bonds and their statuses -/

namespace DelegationBond

def asBytes (bond : DelegationBond) : Except Panic (List UInt8) := do
  return beBytes 8 (i64Bits bond.amount.zatoshis) ++ bond.targetFinalizer.toList ++ (← bond.createdAt.asBytes).toList

def fromBytes (bytes : List UInt8) : Except Panic DelegationBond := do
  ensure (45 ≤ bytes.length)
  let amountBytes ← toArray 8 (← slice bytes 0 8)
  let amount ← (Amount.tryFromU64 (beNat amountBytes.toList)).mapError fun _ => .unwrap
  let targetFinalizer ← toArray 32 (← slice bytes 8 40)
  let createdAt ← TransactionLocation.fromBytes (← slice bytes 40 45)
  return ⟨amount, targetFinalizer, createdAt⟩

theorem beNat_amount (a : Amount .nonNegative) : (beNat (beBytes 8 (i64Bits a.zatoshis)) : ℤ) = a.zatoshis := by
  have hnonneg := a.zatoshis_nonneg
  have hmax := a.le_max
  unfold maxMoney at hmax
  rw [beNat_beBytes, i64Bits]
  omega

theorem fromBytes_asBytes {bond : DelegationBond} (h : bond.createdAt.Sized) :
    (bond.asBytes >>= fromBytes) = .ok { bond with createdAt := bond.createdAt.onDisk } := by
  obtain ⟨location, hlocation, hcreatedAt⟩ := TransactionLocation.asBytes_ok h
  obtain ⟨amountBytes, hamountArray, hamountList⟩ := toArray_ok (beBytes_length 8 (i64Bits bond.amount.zatoshis))
  obtain ⟨finalizer, hfinalizer, hfinalizerList⟩ := toArray_ok bond.targetFinalizer.toList_length
  obtain rfl : finalizer = bond.targetFinalizer := List.Vector.toList_injective hfinalizerList
  have hamount : Amount.tryFromU64 (beNat amountBytes.toList) = .ok bond.amount :=
    Amount.tryFromU64_eq_ok.mpr (by rw [hamountList, beNat_amount])
  have hbytes : bond.asBytes = .ok (amountBytes.toList ++ (bond.targetFinalizer.toList ++ location.toList)) := by
    rw [asBytes, hlocation, ok_bind, append_assoc, hamountList]
    rfl
  rw [← hamountList] at hamountArray
  have hslice₁ : slice (amountBytes.toList ++ (bond.targetFinalizer.toList ++ location.toList)) 0 8 =
    .ok amountBytes.toList := slice_middle (l := []) rfl (by simp)
  have hslice₂ : slice (amountBytes.toList ++ (bond.targetFinalizer.toList ++ location.toList)) 8 40 =
    .ok bond.targetFinalizer.toList := slice_middle (by simp) (by simp)
  have hslice₃ : slice (amountBytes.toList ++ (bond.targetFinalizer.toList ++ location.toList)) 40 45 =
      .ok location.toList := by
    have := slice_middle (l := amountBytes.toList ++ bond.targetFinalizer.toList) (m := location.toList) (r := [])
      (a := 40) (b := 45) (by simp) (by simp)
    rwa [append_nil, append_assoc] at this
  simp only [hbytes, ok_bind, fromBytes, ensure, length_append, List.Vector.toList_length, Nat.reduceAdd, le_refl,
    if_true, hslice₁, hslice₂, hslice₃, hamountArray, hamount, hfinalizer, hcreatedAt, mapError_ok]
  rfl

end DelegationBond

namespace BondStatus

def asBytes : BondStatus → Except Panic (List UInt8)
  | .active => .ok [0]
  | .unbonding unbondedAt => return 1 :: (← unbondedAt.asBytes).toList
  | .withdrawn withdrawnAt => return 2 :: (← withdrawnAt.asBytes).toList

def fromBytes (bytes : List UInt8) : Except Panic BondStatus := do
  ensure (bytes ≠ [])
  match ← getIdx bytes 0 with
  | 0 => return .active
  | 1 =>
    ensure (6 ≤ bytes.length)
    return .unbonding (← TransactionLocation.fromBytes (← slice bytes 1 6))
  | 2 =>
    ensure (6 ≤ bytes.length)
    return .withdrawn (← TransactionLocation.fromBytes (← slice bytes 1 6))
  | _ => throw .assert

def location : BondStatus → Option TransactionLocation
  | .active => none
  | .unbonding unbondedAt => some unbondedAt
  | .withdrawn withdrawnAt => some withdrawnAt

def onDisk : BondStatus → BondStatus
  | .active => .active
  | .unbonding unbondedAt => .unbonding unbondedAt.onDisk
  | .withdrawn withdrawnAt => .withdrawn withdrawnAt.onDisk

theorem slice_tagged (tag : UInt8) (bytes : Bytes 5) : slice (tag :: bytes.toList) 1 6 = .ok bytes.toList := by
  have := slice_middle (l := [tag]) (m := bytes.toList) (r := []) (a := 1) (b := 6) rfl (by simp)
  rwa [append_nil] at this

theorem fromBytes_asBytes {status : BondStatus} (h : ∀ l ∈ status.location, l.Sized) :
    (status.asBytes >>= fromBytes) = .ok status.onDisk := by
  cases status with
  | active => rfl
  | unbonding l | withdrawn l =>
    obtain ⟨bytes, hbytes, hlocation⟩ := TransactionLocation.asBytes_ok (h l rfl)
    simp [asBytes, hbytes, fromBytes, getIdx, ensure, slice_tagged, hlocation, onDisk]

theorem onDisk_eq_self {status : BondStatus} :
    status.onDisk = status ↔ ∀ l ∈ status.location, l.height ≤ maxOnDiskHeight := by
  cases status <;> simp [onDisk, location, TransactionLocation.onDisk_eq_self]

end BondStatus

/-- Value balances come back as they were written, in the legacy lengths too, and bonds and statuses come back exactly
when the height they name fits on disk. -/
theorem disk_roundTrip :
    (∀ v : ValueBalance .nonNegative, ValueBalance.fromBytes v.toBytes = .ok v) ∧
    (∀ bytes : List UInt8, bytes.length = 32 ∨ bytes.length = 40 →
      ((∃ v, ValueBalance.fromBytes bytes = .ok v) ↔ ∀ p : Pool, 0 ≤ p.spelled bytes ∧ p.spelled bytes ≤ maxMoney) ∧
      ∀ v, ValueBalance.fromBytes bytes = .ok v →
        (∀ p : Pool, bytes.length ≤ p.offset → v p = .zero) ∧ ValueBalance.fromBytes v.toBytes = .ok v) ∧
    (∀ bond : DelegationBond, bond.createdAt.Sized →
      ((bond.asBytes >>= DelegationBond.fromBytes) = .ok bond ↔ bond.createdAt.height ≤ maxOnDiskHeight)) ∧
    ∀ status : BondStatus, (∀ l ∈ status.location, l.Sized) →
      ((status.asBytes >>= BondStatus.fromBytes) = .ok status ↔ ∀ l ∈ status.location, l.height ≤ maxOnDiskHeight) := by
  refine ⟨ValueBalance.fromBytes_toBytes, fun bytes hlen => ⟨ValueBalance.fromBytes_legacy hlen, fun v hv =>
    ⟨fun p => ValueBalance.eq_zero_of_fromBytes hv, v.fromBytes_toBytes⟩⟩, fun bond h => ?_, fun status h => ?_⟩
  · rw [DelegationBond.fromBytes_asBytes h, Except.ok.injEq, ← TransactionLocation.onDisk_eq_self]
    exact ⟨fun heq => congrArg DelegationBond.createdAt heq, fun heq => by rw [heq]⟩
  · rw [BondStatus.fromBytes_asBytes h, Except.ok.injEq, BondStatus.onDisk_eq_self]

def lastStoredBond : DelegationBond := ⟨.zero, Bytes.zero 32, ⟨maxOnDiskHeight, 0⟩⟩

theorem disk_roundTrip_lastStored :
    ValueBalance.fromBytes ValueBalance.zero.toBytes = .ok .zero ∧
    (∃ v, ValueBalance.fromBytes (List.replicate 32 0) = .ok v) ∧
    (lastStoredBond.asBytes >>= DelegationBond.fromBytes) = .ok lastStoredBond ∧
    ((BondStatus.unbonding ⟨maxOnDiskHeight, 0⟩).asBytes >>= BondStatus.fromBytes) =
      .ok (.unbonding ⟨maxOnDiskHeight, 0⟩) := by
  obtain ⟨hbalance, hlegacy, hbond, hstatus⟩ := disk_roundTrip
  have hsized : TransactionLocation.Sized ⟨maxOnDiskHeight, 0⟩ := ⟨by decide, by decide⟩
  refine ⟨hbalance .zero, (hlegacy _ (by simp)).1.mpr fun p => ?_, (hbond lastStoredBond hsized).mpr le_rfl,
    (hstatus (.unbonding ⟨maxOnDiskHeight, 0⟩) fun l hl => ?_).mpr fun l hl => ?_⟩
  · cases p <;> decide
  · obtain rfl := Option.some.inj hl
    exact hsized
  · obtain rfl := Option.some.inj hl
    exact le_rfl

/-- A bond of the block after it is read back with the height of the block before. -/
theorem disk_roundTrip_fails_above :
    let bond : DelegationBond := { lastStoredBond with createdAt := ⟨maxOnDiskHeight + 1, 0⟩ }
    bond.createdAt.Sized ∧ (bond.asBytes >>= DelegationBond.fromBytes) = .ok lastStoredBond ∧ lastStoredBond ≠ bond := by
  refine ⟨⟨by decide, by decide⟩, DelegationBond.fromBytes_asBytes ⟨by decide, by decide⟩, by decide⟩

end Crosslink.Staking
