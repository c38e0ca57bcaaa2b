import Crosslink.Staking.Transaction

/-!
# Staking actions on the wire and in the digests

The writer of staking actions, the bytes that an action puts into its digest, and the two hashes that take that digest
in: the transaction id and the hash that is signed. For an action whose unused fields are zero, what is written
determines the action even when more bytes follow, and the digest absorbs exactly what is written; an absent action is
written as a zero byte and absorbed as nothing.
-/

namespace Crosslink.Staking

open Codec Fallible Bft Tenderlink List Option StakingActionKind

/-! ### Writing -/

def StakingActionKind.toU8 : StakingActionKind → UInt8
  | .null => 0
  | .createNewDelegationBond => 1
  | .beginDelegationUnbonding => 2
  | .withdrawDelegationBond => 3
  | .retargetDelegationBond => 4
  | .registerFinalizer => 5
  | .convertFinalizerRewardToDelegationBond => 6
  | .updateFinalizerKey => 7

@[simp] theorem StakingActionKind.tryFrom_toU8 (kind : StakingActionKind) : tryFrom kind.toU8 = some kind := by
  cases kind <;> rfl

theorem StakingActionKind.eq_toU8 (h : tryFrom v = some kind) : v = kind.toU8 := by
  unfold tryFrom at h
  split at h <;> cases h <;> exact UInt8.toNat_inj.mp ‹v.toNat = _›

namespace StakingAction

/-- `None` is the error of a kind that is not implemented. -/
def write : Option StakingAction → Option (List UInt8)
  | none => some [0]
  | some a =>
    match a.kind with
    | .null => none
    | .createNewDelegationBond =>
      some (a.kind.toU8 :: (a.arg32_0.toList ++ a.arg32_1.toList ++ a.arg64_0.toList ++ a.arg32_2.toList ++
        leBytes 8 a.amountZats))
    | .beginDelegationUnbonding => some (a.kind.toU8 :: (a.arg32_0.toList ++ a.arg32_1.toList ++ a.arg64_0.toList))
    | .withdrawDelegationBond =>
      some (a.kind.toU8 :: (a.arg32_0.toList ++ a.arg32_1.toList ++ a.arg64_0.toList ++ leBytes 8 a.amountZats))
    | .retargetDelegationBond =>
      some (a.kind.toU8 :: (a.arg32_0.toList ++ a.arg32_1.toList ++ a.arg64_0.toList ++ a.arg32_2.toList))
    | .registerFinalizer => some (a.kind.toU8 :: (a.arg32_0.toList ++ a.arg32_1.toList ++ a.arg64_0.toList))
    | .convertFinalizerRewardToDelegationBond =>
      some (a.kind.toU8 :: (a.arg32_0.toList ++ a.arg32_1.toList ++ a.arg64_0.toList ++ a.arg32_2.toList ++
        leBytes 8 a.amountZats ++ a.arg32_3.toList ++ a.arg64_1.toList))
    | .updateFinalizerKey =>
      some (a.kind.toU8 :: (a.arg32_0.toList ++ a.arg32_1.toList ++ a.arg64_0.toList ++ a.arg32_2.toList ++
        a.arg32_3.toList ++ a.arg64_1.toList))

/-- What the hash state absorbs; callers do not look at the result, which is `None` for the null kind. -/
def hashToState (a : StakingAction) : List UInt8 :=
  match a.kind with
  | .createNewDelegationBond =>
    a.kind.toU8 :: (a.arg32_0.toList ++ a.arg32_1.toList ++ a.arg64_0.toList ++ a.arg32_2.toList ++
      leBytes 8 a.amountZats)
  | .beginDelegationUnbonding => a.kind.toU8 :: (a.arg32_0.toList ++ a.arg32_1.toList ++ a.arg64_0.toList)
  | .withdrawDelegationBond =>
    a.kind.toU8 :: (a.arg32_0.toList ++ a.arg32_1.toList ++ a.arg64_0.toList ++ leBytes 8 a.amountZats)
  | .retargetDelegationBond =>
    a.kind.toU8 :: (a.arg32_0.toList ++ a.arg32_1.toList ++ a.arg64_0.toList ++ a.arg32_2.toList)
  | .registerFinalizer => a.kind.toU8 :: (a.arg32_0.toList ++ a.arg32_1.toList ++ a.arg64_0.toList)
  | .convertFinalizerRewardToDelegationBond =>
    a.kind.toU8 :: (a.arg32_0.toList ++ a.arg32_1.toList ++ a.arg64_0.toList ++ a.arg32_2.toList ++
      leBytes 8 a.amountZats ++ a.arg32_3.toList ++ a.arg64_1.toList)
  | .updateFinalizerKey =>
    a.kind.toU8 :: (a.arg32_0.toList ++ a.arg32_1.toList ++ a.arg64_0.toList ++ a.arg32_2.toList ++
      a.arg32_3.toList ++ a.arg64_1.toList)
  | .null => []

theorem write_some (h : a.kind ≠ .null) : write (some a) = some a.hashToState := by
  unfold write hashToState
  cases hkind : a.kind <;> simp_all

end StakingAction

namespace StakingActionKind

def usesAmount : StakingActionKind → Bool
  | .createNewDelegationBond | .withdrawDelegationBond | .convertFinalizerRewardToDelegationBond => true
  | _ => false

def usesFinalizer : StakingActionKind → Bool
  | .createNewDelegationBond | .retargetDelegationBond | .convertFinalizerRewardToDelegationBond
  | .updateFinalizerKey => true
  | _ => false

def usesSecondSignature : StakingActionKind → Bool
  | .convertFinalizerRewardToDelegationBond | .updateFinalizerKey => true
  | _ => false

end StakingActionKind

namespace StakingAction

/-- The fields that the kind does not use are zero. -/
structure Canonical (a : StakingAction) : Prop where
  amount_lt : a.amountZats < 2 ^ 64
  amount : ¬ a.kind.usesAmount → a.amountZats = 0
  finalizer : ¬ a.kind.usesFinalizer → a.arg32_2 = Bytes.zero 32
  challenge : ¬ a.kind.usesSecondSignature → a.arg32_3 = Bytes.zero 32
  signature : ¬ a.kind.usesSecondSignature → a.arg64_1 = Bytes.zero 64

theorem readFields_eq {kind : StakingActionKind} (h : kind ≠ .null) : readFields kind = (do
    let arg32_0 ← readBytes 32
    let arg32_1 ← readBytes 32
    let arg64_0 ← readBytes 64
    let arg32_2 ← (if kind.usesFinalizer then readBytes 32 else return Bytes.zero 32)
    let amountZats ← (if kind.usesAmount then readLE 8 else return 0)
    let arg32_3 ← (if kind.usesSecondSignature then readBytes 32 else return Bytes.zero 32)
    let arg64_1 ← (if kind.usesSecondSignature then readBytes 64 else return Bytes.zero 64)
    return ⟨kind, amountZats, arg32_0, arg32_1, arg32_2, arg32_3, arg64_0, arg64_1⟩) := by
  cases kind with
  | null => exact absurd rfl h
  | _ => simp [readFields, default, StakingActionKind.usesFinalizer, StakingActionKind.usesAmount,
      StakingActionKind.usesSecondSignature]

theorem hashToState_eq {a : StakingAction} (h : a.kind ≠ .null) :
    a.hashToState = a.kind.toU8 :: (a.arg32_0.toList ++ (a.arg32_1.toList ++ (a.arg64_0.toList ++
      ((if a.kind.usesFinalizer then a.arg32_2.toList else []) ++
        ((if a.kind.usesAmount then leBytes 8 a.amountZats else []) ++
          ((if a.kind.usesSecondSignature then a.arg32_3.toList else []) ++
            (if a.kind.usesSecondSignature then a.arg64_1.toList else []))))))) := by
  unfold hashToState
  cases hkind : a.kind with
  | null => exact absurd hkind h
  | _ => simp [usesFinalizer, usesAmount, usesSecondSignature]

theorem readFields_eq_some {kind : StakingActionKind} (hkind : kind ≠ .null) :
    readFields kind buf = some (a, rest) ↔ a.kind = kind ∧ a.Canonical ∧ kind.toU8 :: buf = a.hashToState ++ rest := by
  rw [readFields_eq hkind]
  simp only [bind_eq_some, readBytes_eq_some, pure_eq_some,
    (reads_readBytes 32).optional (kind.usesFinalizer = true) trivial _ _ _,
    (reads_readLE 8).optional (kind.usesAmount = true) (Nat.pow_pos (by decide)) _ _ _,
    (reads_readBytes 32).optional (kind.usesSecondSignature = true) trivial _ _ _,
    (reads_readBytes 64).optional (kind.usesSecondSignature = true) trivial _ _ _]
  constructor
  · rintro ⟨key, -, rfl, challenge, -, rfl, signature, -, rfl, finalizer, -, ⟨⟨-, hfinalizer⟩, rfl⟩, amount, -,
      ⟨⟨hlt, hamount⟩, rfl⟩, challenge₂, -, ⟨⟨-, hchallenge⟩, rfl⟩, signature₂, -, ⟨⟨-, hsignature⟩, rfl⟩, rfl, rfl⟩
    refine ⟨rfl, ⟨hlt, hamount, hfinalizer, hchallenge, hsignature⟩, ?_⟩
    rw [hashToState_eq hkind]
    simp only [cons_append, append_assoc]
  · rintro ⟨rfl, hcanonical, heq⟩
    rw [hashToState_eq hkind] at heq
    simp only [cons_append, append_assoc, cons.injEq, true_and] at heq
    exact ⟨a.arg32_0, _, heq, a.arg32_1, _, rfl, a.arg64_0, _, rfl, a.arg32_2, _,
      ⟨⟨trivial, hcanonical.finalizer⟩, rfl⟩, a.amountZats, _, ⟨⟨hcanonical.amount_lt, hcanonical.amount⟩, rfl⟩,
      a.arg32_3, _, ⟨⟨trivial, hcanonical.challenge⟩, rfl⟩, a.arg64_1, _, ⟨⟨trivial, hcanonical.signature⟩, rfl⟩,
      rfl, rfl⟩

/-- No action, or one of a kind other than null whose unused fields are zero. -/
def Staked (a : Option StakingAction) : Prop := ∀ x ∈ a, x.kind ≠ .null ∧ x.Canonical

def encode : Option StakingAction → List UInt8
  | none => [0]
  | some a => a.hashToState

theorem Staked.write_eq (h : Staked a) : write a = some (encode a) := by
  cases a with
  | none => rfl
  | some a => exact write_some (h a rfl).1

theorem reads_read : Reads read encode Staked := by
  intro a buf rest
  simp only [read, bind_eq_some, reads_readByte _ _ _, true_and]
  constructor
  · rintro ⟨tag, mid, rfl, h⟩
    split_ifs at h with htag
    · obtain ⟨rfl, rfl⟩ := pure_eq_some.mp h
      exact ⟨nofun, by rw [htag]; rfl⟩
    · cases hkind : tryFrom tag with
      | none =>
        rw [hkind] at h
        exact absurd h (by simp)
      | some kind =>
        rw [hkind] at h
        have htag' := eq_toU8 hkind
        have hnull : kind ≠ .null := by
          rintro rfl
          exact htag htag'
        simp only [bind_eq_some, readFields_eq_some hnull, pure_eq_some] at h
        obtain ⟨x, _, ⟨hx, hcanonical, hbytes⟩, rfl, rfl⟩ := h
        refine ⟨fun y hy => ?_, htag' ▸ hbytes⟩
        obtain rfl := some.inj hy
        exact ⟨hx ▸ hnull, hcanonical⟩
  · rintro ⟨hstaked, rfl⟩
    cases a with
    | none => exact ⟨0, rest, rfl, by rw [if_pos rfl, pure_eq_some]; exact ⟨rfl, rfl⟩⟩
    | some x =>
      obtain ⟨hnull, hcanonical⟩ := hstaked x rfl
      obtain ⟨tail, htail⟩ : ∃ tail, x.hashToState ++ rest = x.kind.toU8 :: tail :=
        ⟨_, by rw [hashToState_eq hnull, cons_append]⟩
      refine ⟨x.kind.toU8, tail, htail, ?_⟩
      have htag : x.kind.toU8 ≠ 0 := by
        cases hkind : x.kind with
        | null => exact absurd hkind hnull
        | _ => decide
      rw [if_neg htag, tryFrom_toU8]
      simp only [bind_eq_some, readFields_eq_some hnull, pure_eq_some]
      exact ⟨x, rest, ⟨rfl, hcanonical, htail.symm⟩, rfl, rfl⟩

end StakingAction

/-! ### Digests -/

/-- The hash of the transaction digests, with a personalization, and the digest of an absent Orchard part. -/
structure DigestParams where
  blake2b : List UInt8 → List UInt8 → Bytes 32
  orchardEmpty : Bytes 32

namespace DigestParams

variable (D : DigestParams)

def personal (s : String) : List UInt8 := s.toList.map fun c => UInt8.ofNat c.toNat

def crosslinkPersonalization : List UInt8 := personal "ZTxCrosslinkHash"

def txPersonalization (consensusBranchId : ℕ) : List UInt8 := personal "ZcashTxHash_" ++ leBytes 4 consensusBranchId

def hashSaplingTxidEmpty : Bytes 32 := D.blake2b (personal "ZTxIdSaplingHash") []

def digestCrosslink (stakingAction : Option StakingAction) : Option (Bytes 32) :=
  stakingAction.map fun a => D.blake2b crosslinkPersonalization a.hashToState

def preimage (header transparent : Bytes 32) (sapling orchard crosslink : Option (Bytes 32)) : List UInt8 :=
  header.toList ++ transparent.toList ++ (sapling.getD D.hashSaplingTxidEmpty).toList ++
    (orchard.getD D.orchardEmpty).toList ++ (crosslink.map List.Vector.toList).getD []

def toHash (consensusBranchId : ℕ) (header transparent : Bytes 32) (sapling orchard crosslink : Option (Bytes 32)) :
    Bytes 32 :=
  D.blake2b (txPersonalization consensusBranchId) (D.preimage header transparent sapling orchard crosslink)

end DigestParams

/-- A transaction as its id and its signature hashes see it: the digests of the other parts, and the action. -/
structure DigestedTx where
  consensusBranchId : ℕ
  header : Bytes 32
  /-- `hash_transparent_txid_data`. -/
  transparent : Bytes 32
  sapling : Option (Bytes 32)
  orchard : Option (Bytes 32)
  stakingAction : Option StakingAction

namespace DigestedTx

variable (D : DigestParams) (tx : DigestedTx)

def toTxid : Bytes 32 :=
  D.toHash tx.consensusBranchId tx.header tx.transparent tx.sapling tx.orchard (D.digestCrosslink tx.stakingAction)

/-- The transparent part of a signature hash depends on the input that is signed. -/
def vcrosslinkSignatureHash (transparentSigDigest : Bytes 32) : Bytes 32 :=
  D.toHash tx.consensusBranchId tx.header transparentSigDigest tx.sapling tx.orchard
    (D.digestCrosslink tx.stakingAction)

end DigestedTx

namespace DigestParams

variable {D : DigestParams}

theorem crosslink_of_preimage
    (h : D.preimage header transparent sapling orchard crosslink = D.preimage header' transparent' sapling' orchard' crosslink') :
    crosslink = crosslink' := by
  simp only [preimage] at h
  have htail := (append_inj' h (by
    have hlen := congrArg length h
    simp only [length_append, List.Vector.toList_length] at hlen
    omega)).2
  cases crosslink <;> cases crosslink' <;> simp only [map_none, map_some, getD_none, getD_some] at htail
  · rfl
  · exact absurd (congrArg length htail) (by simp)
  · exact absurd (congrArg length htail) (by simp)
  · exact congrArg some (List.Vector.toList_injective htail)

end DigestParams

namespace DigestedTx

variable {D : DigestParams} {tx tx' : DigestedTx}

/-- The inputs of the hash, each with its personalization, on the way from the staking action to the last hash. -/
def hashed (D : DigestParams) (tx : DigestedTx) (transparent : Bytes 32) : List (List UInt8 × List UInt8) :=
  (DigestParams.txPersonalization tx.consensusBranchId,
    D.preimage tx.header transparent tx.sapling tx.orchard (D.digestCrosslink tx.stakingAction)) ::
  (tx.stakingAction.map fun a => (DigestParams.crosslinkPersonalization, a.hashToState)).toList

/-- The hash has no collision among the inputs it is given for the two transactions. -/
def Collisionless (D : DigestParams) (tx tx' : DigestedTx) (transparent transparent' : Bytes 32) : Prop :=
  Set.InjOn (fun x => D.blake2b x.1 x.2) {x | x ∈ tx.hashed D transparent ∨ x ∈ tx'.hashed D transparent'}

theorem stakingAction_eq {transparent transparent' : Bytes 32} (h : StakingAction.Staked tx.stakingAction)
    (h' : StakingAction.Staked tx'.stakingAction) (hcoll : Collisionless D tx tx' transparent transparent')
    (heq : D.toHash tx.consensusBranchId tx.header transparent tx.sapling tx.orchard
        (D.digestCrosslink tx.stakingAction) =
      D.toHash tx'.consensusBranchId tx'.header transparent' tx'.sapling tx'.orchard
        (D.digestCrosslink tx'.stakingAction)) : tx.stakingAction = tx'.stakingAction := by
  have hpreimage := hcoll (.inl mem_cons_self) (.inr mem_cons_self) heq
  have hcrosslink := DigestParams.crosslink_of_preimage (Prod.mk.inj hpreimage).2
  unfold DigestParams.digestCrosslink at hcrosslink
  cases ha : tx.stakingAction with
  | none =>
    cases hb : tx'.stakingAction with
    | none => rfl
    | some y => simp [ha, hb] at hcrosslink
  | some x =>
    cases hb : tx'.stakingAction with
    | none => simp [ha, hb] at hcrosslink
    | some y =>
      simp only [ha, hb, map_some, some.injEq] at hcrosslink
      have hx : (DigestParams.crosslinkPersonalization, x.hashToState) ∈ tx.hashed D transparent := by simp [hashed, ha]
      have hy : (DigestParams.crosslinkPersonalization, y.hashToState) ∈ tx'.hashed D transparent' := by simp [hashed, hb]
      have hbytes := hcoll (.inl hx) (.inr hy) hcrosslink
      rw [ha] at h
      rw [hb] at h'
      exact StakingAction.reads_read.unambiguous.injective h h' (Prod.mk.inj hbytes).2

end DigestedTx

/-- What is written is read back, determines the action even as the beginning of longer bytes, and is what the digest of
a present action absorbs, so the transaction id and the signature hashes commit to the action. -/
theorem stakingAction_committed (D : DigestParams) {a : Option StakingAction} (ha : StakingAction.Staked a) :
    (∃ bytes, StakingAction.write a = some bytes ∧ (∀ rest, StakingAction.read (bytes ++ rest) = some (a, rest)) ∧
      D.digestCrosslink a = if a.isSome then some (D.blake2b DigestParams.crosslinkPersonalization bytes) else none) ∧
    (∀ b, StakingAction.Staked b → a ≠ b → ∀ bytes bytes', StakingAction.write a = some bytes →
      StakingAction.write b = some bytes' → ¬ bytes <+: bytes') ∧
    (∀ tx tx' : DigestedTx, tx.stakingAction = a → StakingAction.Staked tx'.stakingAction →
      (DigestedTx.Collisionless D tx tx' tx.transparent tx'.transparent → tx.toTxid D = tx'.toTxid D →
        tx'.stakingAction = a) ∧
      ∀ digest digest', DigestedTx.Collisionless D tx tx' digest digest' →
        tx.vcrosslinkSignatureHash D digest = tx'.vcrosslinkSignatureHash D digest' → tx'.stakingAction = a) := by
  refine ⟨⟨_, ha.write_eq, fun rest => (StakingAction.reads_read a _ rest).mpr ⟨ha, rfl⟩, ?_⟩, ?_, ?_⟩
  · cases a <;> rfl
  · intro b hb hne bytes bytes' hbytes hbytes' ⟨rest, heq⟩
    obtain rfl := some.inj (ha.write_eq.symm.trans hbytes)
    obtain rfl := some.inj (hb.write_eq.symm.trans hbytes')
    exact hne (StakingAction.reads_read.unambiguous ha hb (heq.trans (append_nil _).symm)).1
  · rintro tx tx' rfl h'
    exact ⟨fun hcoll heq => (DigestedTx.stakingAction_eq ha h' hcoll heq).symm,
      fun digest digest' hcoll heq => (DigestedTx.stakingAction_eq ha h' hcoll heq).symm⟩

theorem staked_default : StakingAction.Staked (some (.default .createNewDelegationBond)) := by
  intro x hx
  obtain rfl := some.inj hx
  exact ⟨by decide, Nat.two_pow_pos 64, nofun, nofun, fun _ => rfl, fun _ => rfl⟩

def DigestParams.sample : DigestParams := ⟨fun _ bytes => ⟨leBytes 32 bytes.length, leBytes_length 32 _⟩, Bytes.zero 32⟩

theorem stakingAction_committed_default :
    ∃ bytes, StakingAction.write (some (.default .createNewDelegationBond)) = some bytes ∧
      (∀ rest, StakingAction.read (bytes ++ rest) = some (some (.default .createNewDelegationBond), rest)) ∧
      DigestParams.sample.digestCrosslink (some (.default .createNewDelegationBond)) =
        if (some (StakingAction.default .createNewDelegationBond)).isSome then
          some (DigestParams.sample.blake2b DigestParams.crosslinkPersonalization bytes) else none :=
  (stakingAction_committed DigestParams.sample staked_default).1

/-- An absent action is written as one byte, but nothing of it is absorbed. -/
theorem absent_action_absorbs_nothing :
    StakingAction.write none = some [0] ∧ DigestParams.sample.digestCrosslink none = none ∧
      DigestParams.sample.preimage (Bytes.zero 32) (Bytes.zero 32) (some (Bytes.zero 32)) (some (Bytes.zero 32))
        (DigestParams.sample.digestCrosslink none) = List.replicate 128 0 := by
  refine ⟨rfl, rfl, by decide⟩

end Crosslink.Staking
