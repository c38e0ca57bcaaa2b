import Crosslink.State.Chain
import Crosslink.Staking.Rewards

/-!
# The lifecycle of a bond

A bond should be created once, then unbonded once, then withdrawn once, and be retargeted only while it is active.
Along accepted blocks this holds exactly when no block withdraws one bond twice and none retargets a bond that it
unbonded before: these are the two things that the validator, which keeps no note of them, lets through.
-/

namespace Crosslink.State

open Codec Fallible Staking List Ledger Option StakingActionKind

/-! ### Lawful histories -/

/-- The moves of a bond's status; kinds that are not about bonds leave it alone. -/
def lawfulNext : Option BondStatusInChain → StakingActionKind → Option (Option BondStatusInChain)
  | none, .createNewDelegationBond => some (some .active)
  | some .active, .beginDelegationUnbonding => some (some .unbonding)
  | some .unbonding, .withdrawDelegationBond => some (some .withdrawn)
  | some .active, .retargetDelegationBond => some (some .active)
  | status, kind => if kind.actsOnBond then none else some status

/-- Each of the actions is a move from the status that the ones before it lead to. -/
def Lawful (status : Option BondStatusInChain) (kinds : List StakingActionKind) : Prop :=
  (kinds.foldlM lawfulNext status).isSome

instance (status : Option BondStatusInChain) (kinds : List StakingActionKind) : Decidable (Lawful status kinds) :=
  inferInstanceAs (Decidable (_ = true))

/-- The lifecycle of one bond: a lawful path, on which nothing happens twice. -/
structure Lifecycle (status : Option BondStatusInChain) (kinds : List StakingActionKind) : Prop where
  lawful : Lawful status kinds
  created : kinds.count .createNewDelegationBond ≤ 1
  unbonded : kinds.count .beginDelegationUnbonding ≤ 1
  withdrawn : kinds.count .withdrawDelegationBond ≤ 1

def stage : Option BondStatusInChain → ℕ
  | none => 0
  | some .active => 1
  | some .unbonding => 2
  | some .withdrawn => 3

theorem lawful_cons :
    Lawful status (kind :: kinds) ↔ ∃ next, lawfulNext status kind = some next ∧ Lawful next kinds := by
  unfold Lawful
  rw [foldlM_cons]
  cases lawfulNext status kind <;> simp

theorem stage_le_of_lawfulNext {status next : Option BondStatusInChain} (h : lawfulNext status kind = some next) :
    stage status ≤ stage next := by
  unfold lawfulNext at h
  split at h <;> grind [stage]

theorem Lawful.count_le
    (hkind : ∀ status next, lawfulNext status kind = some next → stage status = n ∧ n < stage next)
    (h : Lawful status kinds) :
    kinds.count kind ≤ if stage status ≤ n then 1 else 0 := by
  induction kinds generalizing status with
  | nil => simp
  | cons k kinds ih =>
    obtain ⟨next, hnext, hrest⟩ := lawful_cons.mp h
    have hle := ih hrest
    have hup := stage_le_of_lawfulNext hnext
    rw [count_cons]
    by_cases hk : k = kind
    · obtain ⟨hstage, hlt⟩ := hkind status next (hk ▸ hnext)
      rw [if_neg (by omega)] at hle
      rw [if_pos hstage.le]
      split_ifs <;> omega
    · rw [if_neg (by simpa using hk)]
      split_ifs at hle ⊢ <;> omega

theorem lifecycle_iff_lawful :
    Lifecycle status kinds ↔ Lawful status kinds := by
  constructor
  · intro h
    exact h.lawful
  · intro h
    have hone : ∀ kind n, (∀ status next, lawfulNext status kind = some next → stage status = n ∧ n < stage next) →
        kinds.count kind ≤ 1 := by
      intro kind n hkind
      exact (h.count_le hkind).trans (by split_ifs <;> omega)
    refine ⟨h, hone _ 0 ?_, hone _ 1 ?_, hone _ 2 ?_⟩ <;>
      (intro status next hnext; unfold lawfulNext at hnext; split at hnext <;> grind [stage, actsOnBond])

/-! ### Statuses along a block -/

def applied (status : Option BondStatusInChain) : StakingActionKind → Option BondStatusInChain
  | .createNewDelegationBond => some .active
  | .beginDelegationUnbonding => some .unbonding
  | .withdrawDelegationBond => some .withdrawn
  | _ => status

theorem applied_of_not_acts (h : kind.actsOnBond = false) : applied status kind = status := by
  cases kind <;> first | rfl | cases h

def kindsOn (key : BondKey) (actions : List (StakingAction × ℕ)) : List StakingActionKind :=
  (actions.filter fun a => a.1.arg32_0 = key).map fun a => a.1.kind

theorem kindsOn_cons_self (a : StakingAction × ℕ) (actions : List (StakingAction × ℕ)) :
    kindsOn a.1.arg32_0 (a :: actions) = a.1.kind :: kindsOn a.1.arg32_0 actions := by
  simp [kindsOn]

theorem kindsOn_cons_of_ne (h : a.1.arg32_0 ≠ key) (actions : List (StakingAction × ℕ)) :
    kindsOn key (a :: actions) = kindsOn key actions := by
  simp [kindsOn, h]

theorem lawfulNext_eq_applied {status next : Option BondStatusInChain} (h : lawfulNext status kind = some next) :
    next = applied status kind := by
  unfold lawfulNext at h
  split at h
  iterate 4 exact (some.inj h).symm
  split_ifs at h with hk
  rw [applied_of_not_acts (by simpa using hk)]
  exact (some.inj h).symm

section Acts

variable {l l' : Ledger} {action : StakingAction} {location : TransactionLocation} {key : BondKey}

theorem status?_insert {bonds : Bonds} :
    ((bonds.insert action.arg32_0 bs)[key]?).map Prod.snd =
      if action.arg32_0 = key then some bs.2 else bonds[key]?.map Prod.snd := by
  rw [Std.ExtTreeMap.getElem?_insert]
  by_cases h : action.arg32_0 = key
  · rw [if_pos (compare_eq_iff_eq.mpr h), if_pos h, map_some]
  · rw [if_neg (fun h' => h (compare_eq_iff_eq.mp h')), if_neg h]

theorem acts_status_of_ne (h : l.Acts action location l') (hne : action.arg32_0 ≠ key) :
    l'.status? key = l.status? key := by
  cases h <;> simp only [status?, status?_insert, if_neg hne]

theorem acts_status_self (h : l.Acts action location l') :
    l'.status? action.arg32_0 = applied (l.status? action.arg32_0) action.kind := by
  cases h with
  | create amount hk => simp only [status?, status?_insert, if_true, hk, applied]
  | unbond bond status bonded unbonded hk => simp only [status?, status?_insert, if_true, hk, applied]
  | withdraw bond status hk => simp only [status?, status?_insert, if_true, hk, applied]
  | retarget bond status retargets hk hbond =>
    simp only [status?, status?_insert, if_true, hk, applied, hbond, map_some]
  | other hk => rw [applied_of_not_acts hk]

theorem acts_status_before (h : l.Acts action location l') :
    (action.kind = .createNewDelegationBond → l.status? action.arg32_0 = none) ∧
      (action.kind.actsOnBond → action.kind ≠ .createNewDelegationBond → l.status? action.arg32_0 ≠ none) := by
  cases h with
  | create amount hk hamount hnew => simp [hk, status?, hnew]
  | unbond bond status bonded unbonded hk hbond => simp [hk, status?, hbond]
  | withdraw bond status hk hbond => simp [hk, status?, hbond]
  | retarget bond status retargets hk hbond => simp [hk, status?, hbond]
  | other hk =>
    refine ⟨?_, by simp [hk]⟩
    intro hcreate
    rw [hcreate] at hk
    cases hk

end Acts

theorem lawful_status (hacts : actAll height l actions = .ok l')
    (h : (kindsOn key actions).foldlM lawfulNext (l.status? key) = some status) : l'.status? key = status := by
  induction actions generalizing l with
  | nil =>
    obtain rfl := foldlM_nil_eq_ok.mp hacts
    exact some.inj h
  | cons a actions ih =>
    obtain ⟨l₁, h₁, hrest⟩ := foldlM_cons_eq_ok.mp hacts
    have hact := updateChainTipWithDelegationBond_eq_ok.mp h₁
    by_cases hkey : a.1.arg32_0 = key
    · subst hkey
      rw [kindsOn_cons_self, foldlM_cons] at h
      obtain ⟨next, hnext, h⟩ := bind_eq_some_iff.mp h
      apply ih hrest
      rw [acts_status_self hact, ← lawfulNext_eq_applied hnext]
      exact h
    · rw [kindsOn_cons_of_ne hkey] at h
      apply ih hrest
      rw [acts_status_of_ne hact hkey]
      exact h

/-! ### What the validator lets through -/

/-- The status of a bond in the middle of a block, from its status before the block and from whether the block
created, unbonded and withdrew it, as long as its history is lawful. -/
def tracked (before : Option BondStatusInChain) (new unbonded withdrawn : Prop) [Decidable new] [Decidable unbonded]
    [Decidable withdrawn] : Option BondStatusInChain :=
  match before with
  | none => if new then if unbonded then some .unbonding else some .active else none
  | some .active => if unbonded then some .unbonding else some .active
  | some .unbonding => if withdrawn then some .withdrawn else some .unbonding
  | some .withdrawn => some .withdrawn

/-- A bond is withdrawn once at most, and not retargeted after it was unbonded. -/
def Orderly (kinds : List StakingActionKind) : Prop :=
  kinds.count .withdrawDelegationBond ≤ 1 ∧
    ¬ [.beginDelegationUnbonding, .retargetDelegationBond].Sublist kinds

instance (kinds : List StakingActionKind) : Decidable (Orderly kinds) :=
  inferInstanceAs (Decidable (_ ∧ _))

theorem orderly_iff_acted :
    (∀ key, Orderly (kindsOn key actions)) ↔ ∀ a ∈ actions, Orderly (kindsOn a.1.arg32_0 actions) := by
  constructor
  · intro h a _
    exact h a.1.arg32_0
  · intro h key
    by_cases hkey : ∃ a ∈ actions, a.1.arg32_0 = key
    · obtain ⟨a, ha, rfl⟩ := hkey
      exact h a ha
    · have hnil : kindsOn key actions = [] := by
        simpa [kindsOn, filter_eq_nil_iff] using hkey
      rw [hnil]
      decide

def OrderlyAfter (unbonded withdrawn : Prop) (kinds : List StakingActionKind) : Prop :=
  (unbonded → .retargetDelegationBond ∉ kinds) ∧ (withdrawn → .withdrawDelegationBond ∉ kinds) ∧ Orderly kinds

theorem orderlyAfter_unbond :
    OrderlyAfter False withdrawn (.beginDelegationUnbonding :: kinds) ↔ OrderlyAfter True withdrawn kinds := by
  have hsub : [beginDelegationUnbonding, .retargetDelegationBond].Sublist
      (.beginDelegationUnbonding :: kinds) ↔ .retargetDelegationBond ∈ kinds := by
    rw [cons_sublist_cons, singleton_sublist]
  have hmem : [beginDelegationUnbonding, .retargetDelegationBond].Sublist kinds →
      .retargetDelegationBond ∈ kinds := fun h => h.subset (by simp)
  simp only [OrderlyAfter, Orderly, hsub, mem_cons, count_cons]
  grind

theorem orderlyAfter_withdraw :
    OrderlyAfter unbonded False (.withdrawDelegationBond :: kinds) ↔ OrderlyAfter unbonded True kinds := by
  have hcount : kinds.count .withdrawDelegationBond = 0 ↔ .withdrawDelegationBond ∉ kinds := count_eq_zero
  simp only [OrderlyAfter, Orderly, mem_cons, count_cons, sublist_cons_iff]
  grind

theorem orderlyAfter_cons (hu : kind ≠ .beginDelegationUnbonding) (hw : kind ≠ .withdrawDelegationBond)
    (hr : kind = .retargetDelegationBond → ¬ unbonded) :
    OrderlyAfter unbonded withdrawn (kind :: kinds) ↔ OrderlyAfter unbonded withdrawn kinds := by
  simp only [OrderlyAfter, Orderly, mem_cons, count_cons, sublist_cons_iff]
  grind

/-- The chain before the block, the validator's notes and the ledger fit together at a bond. -/
structure Tracks (chain : Bonds) (notes : BlockNotes) (l : Ledger) (key : BondKey) (withdrawn : Bool) : Prop where
  status : l.status? key =
    tracked (chain[key]?.map Prod.snd) (key ∈ notes.newBonds) (key ∈ notes.unbondingBonds) withdrawn
  new : key ∈ notes.newBonds → chain[key]? = none
  unbonded : key ∈ notes.unbondingBonds → chain[key]? = none → key ∈ notes.newBonds
  withdrawn : withdrawn → ∃ bond, chain[key]? = some (bond, .unbonding)

section Tracks

variable {db : FinalizedBonds} {chain : Bonds} {notes notes' : BlockNotes} {l l' : Ledger} {action : StakingAction}
  {location : TransactionLocation} {withdrawn : Bool}

theorem Tracks.of_ne (h : Tracks chain notes l key withdrawn) (hadmits : Admits db chain notes action notes')
    (hacts : l.Acts action location l') (hne : action.arg32_0 ≠ key) : Tracks chain notes' l' key withdrawn ∧
      (key ∈ notes'.unbondingBonds ↔ key ∈ notes.unbondingBonds) := by
  have hmem : (key ∈ notes'.newBonds ↔ key ∈ notes.newBonds) ∧
      (key ∈ notes'.unbondingBonds ↔ key ∈ notes.unbondingBonds) := by
    cases hadmits <;> simp [Ne.symm hne]
  refine ⟨⟨?_, ?_, ?_, h.withdrawn⟩, hmem.2⟩
  · rw [acts_status_of_ne hacts hne, h.status]
    simp only [tracked, hmem]
  · rw [hmem.1]
    exact h.new
  · rw [hmem.1, hmem.2]
    exact h.unbonded

theorem Tracks.usable (h : Tracks chain notes l key withdrawn) (husable : Usable db chain notes key)
    (hsome : l.status? key ≠ none) :
    (key ∈ notes.newBonds ∧ chain[key]? = none ∨ ∃ bond, chain[key]? = some (bond, .active)) ∧
      l.status? key = if key ∈ notes.unbondingBonds then some .unbonding else some .active := by
  have hstatus := h.status
  rcases husable with hnew | ⟨bond, hbond⟩ | ⟨hnone, -⟩
  · rw [h.new hnew, map_none, tracked, if_pos hnew] at hstatus
    exact ⟨.inl ⟨hnew, h.new hnew⟩, hstatus⟩
  · rw [hbond, map_some, tracked] at hstatus
    exact ⟨.inr ⟨bond, hbond⟩, hstatus⟩
  · by_cases hnew : key ∈ notes.newBonds
    · rw [hnone, map_none, tracked, if_pos hnew] at hstatus
      exact ⟨.inl ⟨hnew, hnone⟩, hstatus⟩
    · rw [hnone, map_none, tracked, if_neg hnew] at hstatus
      exact absurd hstatus hsome

theorem Tracks.create (h : Tracks chain notes l action.arg32_0 withdrawn) (hk : action.kind = .createNewDelegationBond)
    (hnew : action.arg32_0 ∉ notes.newBonds) (hchain : chain[action.arg32_0]? = none)
    (hacts : l.Acts action location l') :
    lawfulNext (l.status? action.arg32_0) action.kind = some (l'.status? action.arg32_0) ∧
      Tracks chain { notes with newBonds := action.arg32_0 :: notes.newBonds } l' action.arg32_0 withdrawn := by
  have hbefore := (acts_status_before hacts).1 hk
  have hafter := acts_status_self hacts
  have hunbonded : action.arg32_0 ∉ notes.unbondingBonds := fun hmem => hnew (h.unbonded hmem hchain)
  rw [hk, applied] at hafter
  refine ⟨by rw [hbefore, hafter, hk]; rfl, ?_, fun _ => hchain, fun hmem _ => by simp, h.withdrawn⟩
  rw [hafter, hchain]
  simp [tracked, hunbonded]

theorem Tracks.unbond (h : Tracks chain notes l action.arg32_0 withdrawn) (hk : action.kind = .beginDelegationUnbonding)
    (hnot : action.arg32_0 ∉ notes.unbondingBonds) (husable : Usable db chain notes action.arg32_0)
    (hacts : l.Acts action location l') :
    lawfulNext (l.status? action.arg32_0) action.kind = some (l'.status? action.arg32_0) ∧
      Tracks chain { notes with unbondingBonds := action.arg32_0 :: notes.unbondingBonds } l' action.arg32_0
        withdrawn := by
  have hsome := (acts_status_before hacts).2 (by rw [hk]; rfl) (by rw [hk]; nofun)
  obtain ⟨hwhere, hbefore⟩ := h.usable husable hsome
  have hafter := acts_status_self hacts
  rw [hk, applied] at hafter
  rw [if_neg hnot] at hbefore
  refine ⟨by rw [hbefore, hafter, hk]; rfl, ?_, h.new, ?_, h.withdrawn⟩
  · rw [hafter]
    rcases hwhere with ⟨hnew, hnone⟩ | ⟨bond, hbond⟩
    · simp [hnone, tracked, hnew]
    · simp [hbond, tracked]
  · intro _ hnone
    rcases hwhere with ⟨hnew, -⟩ | ⟨bond, hbond⟩
    · exact hnew
    · rw [hnone] at hbond
      cases hbond

theorem Tracks.withdraw (h : Tracks chain notes l action.arg32_0 withdrawn)
    (hk : action.kind = .withdrawDelegationBond) (hchain : chain[action.arg32_0]? = some (bond, .unbonding))
    (hacts : l.Acts action location l') :
    Tracks chain notes l' action.arg32_0 true := by
  have hafter := acts_status_self hacts
  rw [hk, applied] at hafter
  refine ⟨?_, h.new, h.unbonded, fun _ => ⟨bond, hchain⟩⟩
  rw [hafter, hchain]
  simp [tracked]

theorem Tracks.of_status (h : Tracks chain notes l key withdrawn) (hstatus : l'.status? key = l.status? key) :
    Tracks chain notes l' key withdrawn :=
  ⟨hstatus.trans h.status, h.new, h.unbonded, h.withdrawn⟩

theorem Tracks.start (l : Ledger) (key : BondKey) :
    Tracks l.delegationBonds ⟨[], []⟩ (openLedger l) key false := by
  have hopen : (openLedger l).status? key = l.status? key := rfl
  refine ⟨?_, by simp, by simp, by simp⟩
  rw [hopen, status?]
  cases l.delegationBonds[key]? with
  | none => rfl
  | some bs => cases hs : bs.2 <;> simp [tracked, hs]

theorem lawful_iff_orderlyAfter
    (hvalid : acts.foldlM (fun notes a => validateAction db chain notes a.1) notes = .ok notes')
    (hacts : actAll height l acts = .ok l') (h : Tracks chain notes l key withdrawn) :
    Lawful (l.status? key) (kindsOn key acts) ↔
      OrderlyAfter (key ∈ notes.unbondingBonds) withdrawn (kindsOn key acts) := by
  induction acts generalizing notes l withdrawn with
  | nil => simp [kindsOn, Lawful, OrderlyAfter, Orderly]
  | cons a acts ih =>
    obtain ⟨notes₁, hvalid₁, hvalid⟩ := foldlM_cons_eq_ok.mp hvalid
    obtain ⟨l₁, hacts₁, hacts⟩ := foldlM_cons_eq_ok.mp hacts
    have hadmits := validateAction_eq_ok hvalid₁
    have hact := updateChainTipWithDelegationBond_eq_ok.mp hacts₁
    by_cases hkey : a.1.arg32_0 = key
    · subst hkey
      rw [kindsOn_cons_self, lawful_cons]
      -- after a lawful step the rest is the induction hypothesis; the two unlawful ones are disorderly
      have hstep : ∀ {notes₂ : BlockNotes} {w₂ : Bool}, notes₂ = notes₁ →
          lawfulNext (l.status? a.1.arg32_0) a.1.kind = some (l₁.status? a.1.arg32_0) →
          Tracks chain notes₂ l₁ a.1.arg32_0 w₂ →
          ((∃ next, lawfulNext (l.status? a.1.arg32_0) a.1.kind = some next ∧
            Lawful next (kindsOn a.1.arg32_0 acts)) ↔
            OrderlyAfter (a.1.arg32_0 ∈ notes₂.unbondingBonds) w₂ (kindsOn a.1.arg32_0 acts)) := by
        intro notes₂ w₂ hnotes hnext htracks
        subst hnotes
        rw [hnext, ← ih hvalid hacts htracks]
        simp
      cases hadmits with
      | create amount hk hnew hchain hamount =>
        obtain ⟨hnext, htracks⟩ := h.create hk hnew hchain hact
        rw [hstep rfl hnext htracks, orderlyAfter_cons (by simp [hk]) (by simp [hk]) (by simp [hk])]
      | unbond hk hnot husable =>
        obtain ⟨hnext, htracks⟩ := h.unbond hk hnot husable hact
        rw [hstep rfl hnext htracks, hk]
        simpa [hnot] using orderlyAfter_unbond.symm
      | withdraw bond hk hchain hamount =>
        cases withdrawn with
        | false =>
          have hbefore := h.status
          rw [hchain, map_some, tracked, if_neg (by simp)] at hbefore
          have hafter := acts_status_self hact
          rw [hk, applied] at hafter
          rw [hstep rfl (by rw [hbefore, hafter, hk]; rfl) (h.withdraw hk hchain hact), hk]
          simpa using orderlyAfter_withdraw.symm
        | true =>
          have hbefore := h.status
          rw [hchain, map_some, tracked, if_pos rfl] at hbefore
          rw [hbefore, hk]
          simp [lawfulNext, actsOnBond, OrderlyAfter]
      | retarget hk husable =>
        have hsome := (acts_status_before hact).2 (by rw [hk]; rfl) (by simp [hk])
        have hbefore := (h.usable husable hsome).2
        have hafter : l₁.status? a.1.arg32_0 = l.status? a.1.arg32_0 := by
          rw [acts_status_self hact, hk]
          rfl
        by_cases hunbonded : a.1.arg32_0 ∈ notes.unbondingBonds
        · rw [hbefore, if_pos hunbonded, hk]
          simp [lawfulNext, actsOnBond, OrderlyAfter, hunbonded]
        · rw [if_neg hunbonded] at hbefore
          rw [hstep rfl (by rw [hafter, hbefore, hk]; rfl) (h.of_status hafter),
            orderlyAfter_cons (by simp [hk]) (by simp [hk]) (fun _ => hunbonded)]
      | other hk =>
        have hafter := acts_status_self hact
        rw [applied_of_not_acts hk] at hafter
        have hne : ∀ kind : StakingActionKind, kind.actsOnBond = true → a.1.kind ≠ kind := by
          intro kind hkind heq
          rw [heq, hkind] at hk
          cases hk
        have hnext : lawfulNext (l.status? a.1.arg32_0) a.1.kind = some (l₁.status? a.1.arg32_0) := by
          rw [hafter]
          unfold lawfulNext
          split <;> simp_all [actsOnBond]
        rw [hstep rfl hnext (h.of_status hafter),
          orderlyAfter_cons (hne _ rfl) (hne _ rfl) (fun heq => absurd heq (hne _ rfl))]
    · obtain ⟨htracks, hmem⟩ := h.of_ne hadmits hact hkey
      rw [kindsOn_cons_of_ne hkey, ← acts_status_of_ne hact hkey, ih hvalid hacts htracks, hmem]

end Tracks

/-! ### Accepted blocks -/

theorem closeLedger_status (h : Chain.closeLedger checks l b = .ok l') (key : BondKey) :
    l'.status? key = l.status? key := by
  unfold Chain.closeLedger updateChainValuePools at h
  obtain ⟨l₁, h₁, h⟩ := bind_eq_ok.mp h
  obtain ⟨pools, -, h₁⟩ := bind_eq_ok.mp h₁
  obtain rfl := pure_eq_ok.mp h₁
  obtain ⟨record, hrewarded⟩ := payBlockReward_eq_ok (mapError_eq_ok.mp h)
  unfold status?
  rcases hrewarded.paid.lookup key with ⟨hnone, hnone'⟩ | ⟨bond, status, amount, hbond, hbond'⟩
  · rw [hnone', hnone]
  · rw [hbond', hbond]
    rfl

variable {checks : Bool} {c c' : Chain} {offer : Offer}

/-- One accepted block: the history of a bond in it is lawful just when it is orderly, and then ends in the status of
the bond after the block. -/
theorem accept_lawful (h : c.accept checks offer = .ok c') (key : BondKey) :
    (Lawful (c.status? key) (kindsOn key offer.block.actions) ↔ Orderly (kindsOn key offer.block.actions)) ∧
      ∀ status, (kindsOn key offer.block.actions).foldlM lawfulNext (c.status? key) = some status →
        c'.status? key = status := by
  obtain ⟨a⟩ := Chain.accept_eq_ok h
  have hopen : (openLedger c.toLedger).status? key = c.status? key := rfl
  constructor
  · have hiff := lawful_iff_orderlyAfter a.valid a.actAll (Tracks.start c.toLedger key)
    rw [hopen] at hiff
    rw [hiff]
    simp [OrderlyAfter]
  · intro status hstatus
    rw [closeLedger_status a.close_eq]
    exact lawful_status a.actAll (hopen ▸ hstatus)

def historyOf (key : BondKey) (offers : List Offer) : List StakingActionKind :=
  offers.flatMap fun offer => kindsOn key offer.block.actions

theorem lawful_append :
    Lawful status (kinds ++ kinds') ↔ ∃ next, kinds.foldlM lawfulNext status = some next ∧ Lawful next kinds' := by
  unfold Lawful
  rw [foldlM_append]
  cases kinds.foldlM lawfulNext status <;> simp

theorem lawful_iff_orderly (h : offers.foldlM (Chain.accept checks) c = .ok c') :
    (∀ key, Lawful (c.status? key) (historyOf key offers)) ↔
      ∀ offer ∈ offers, ∀ key, Orderly (kindsOn key offer.block.actions) := by
  induction offers generalizing c with
  | nil => simp [historyOf, Lawful]
  | cons offer offers ih =>
    obtain ⟨c₁, h₁, hrest⟩ := foldlM_cons_eq_ok.mp h
    have hfirst : ∀ key, Lawful (c.status? key) (historyOf key (offer :: offers)) ↔
        Orderly (kindsOn key offer.block.actions) ∧ Lawful (c₁.status? key) (historyOf key offers) := by
      intro key
      obtain ⟨hiff, hstatus⟩ := accept_lawful h₁ key
      rw [historyOf, flatMap_cons, lawful_append, ← hiff]
      constructor
      · rintro ⟨next, hnext, hlawful⟩
        exact ⟨by rw [Lawful, hnext]; rfl, hstatus next hnext ▸ hlawful⟩
      · rintro ⟨hlawful, hlater⟩
        obtain ⟨next, hnext⟩ := isSome_iff_exists.mp hlawful
        exact ⟨next, hnext, hstatus next hnext ▸ hlater⟩
    simp only [hfirst, forall_and, ih hrest, forall_mem_cons]

/-- Along every sequence of accepted blocks, every bond has its lifecycle just when no block withdraws a bond twice or
retargets a bond that it unbonded before. -/
theorem lifecycle_iff_orderly {offers : List Offer} (h : offers.foldlM (Chain.accept checks) c = .ok c') :
    (∀ key, Lifecycle (c.status? key) (historyOf key offers)) ↔
      ∀ offer ∈ offers, ∀ key, Orderly (kindsOn key offer.block.actions) := by
  simp only [lifecycle_iff_lawful]
  exact lawful_iff_orderly h

def unbondingDb : ZebraDb := sampleDb 299 (.unbonding ⟨150, 1⟩) [(1, 1250000000), (2, 1250000000)]

def withdrawBoth : Offer :=
  ⟨unbondingDb, sampleBlock 300 [stakingTx .withdrawDelegationBond 1 1250000000,
    stakingTx .withdrawDelegationBond 2 1250000000], Table.empty⟩

def withdrawTwice : Offer :=
  ⟨unbondingDb, sampleBlock 300 [stakingTx .withdrawDelegationBond 1 1250000000,
    stakingTx .withdrawDelegationBond 1 1250000000], Table.empty⟩

theorem lifecycle_iff_orderly_withdrawBoth :
    (∃ c', [withdrawBoth].foldlM (Chain.accept true) (Chain.new unbondingDb) = .ok c') ∧
    ∀ key, Lifecycle ((Chain.new unbondingDb).status? key) (historyOf key [withdrawBoth]) := by
  obtain ⟨c', h⟩ : ∃ c', [withdrawBoth].foldlM (Chain.accept true) (Chain.new unbondingDb) = .ok c' :=
    exists_ok_of_isSome (by decide +kernel)
  refine ⟨⟨c', h⟩, ?_⟩
  rw [lifecycle_iff_orderly h]
  intro offer hoffer
  rw [mem_singleton.1 hoffer, orderly_iff_acted]
  decide +kernel

/-- Both withdrawals are accepted, so the bond takes its second one while it is withdrawn. -/
theorem withdrawTwice_not_lifecycle :
    (∃ c', [withdrawTwice].foldlM (Chain.accept true) (Chain.new unbondingDb) = .ok c') ∧
    ¬ ∀ key, Lifecycle ((Chain.new unbondingDb).status? key) (historyOf key [withdrawTwice]) := by
  refine ⟨exists_ok_of_isSome (by decide +kernel), fun h => ?_⟩
  have hlawful := (h (bytesNo 32 1)).lawful
  revert hlawful
  decide +kernel

end Crosslink.State
