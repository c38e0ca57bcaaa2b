import Mathlib.Data.List.AList
import Crosslink.Bft.Block
import Crosslink.Transport.Reassembly

/-!
# Blocks in flight

For every peer two maps tell which blocks are on their way to it: one from blocks to jumbogram ids, one back.
Sends, acknowledgements, timeouts and the peer's own status remove and add entries in both. The ids come from a
counter of the connection, which wraps around and starts again when the peer connects anew; the maps stay
inverse exactly as long as no block is sent under an id that is still in flight.
-/

namespace Crosslink.NewNet

open Bft Transport

/-- Hash and height of a block. -/
abbrev BlockId := BlockHash × ℕ

/-- Each entry comes with the time of the first send. -/
structure InFlight where
  blocks : AList fun _ : BlockId => ℕ × ℕ
  jumbos : AList fun _ : ℕ => BlockId × ℕ

namespace InFlight

def remove (p : InFlight) (x : ℕ × BlockId) : InFlight := ⟨p.blocks.erase x.2, p.jumbos.erase x.1⟩

/-- `PACKET_TYPE_BLOCK_ACK`. -/
def ack (p : InFlight) (id : ℕ) : InFlight :=
  match p.jumbos.lookup id with
  | some (b, _) => p.remove (id, b)
  | none => { p with jumbos := p.jumbos.erase id }

def jumboTimeout : ℕ := 45 * 10 ^ 9

/-- The entries of both maps that are too old. -/
def stale (p : InFlight) (now : ℕ) : List (ℕ × BlockId) :=
  ((p.jumbos.entries.filter fun x => jumboTimeout ≤ now - x.2.2).map fun x => (x.1, x.2.1)) ++
    (p.blocks.entries.filter fun x => jumboTimeout ≤ now - x.2.2).map fun x => (x.2.1, x.1)

def evictStale (p : InFlight) (now : ℕ) : InFlight := (p.stale now).foldl remove p

/-- The peer has the block. -/
def evictKnown (p : InFlight) (b : BlockId) : InFlight :=
  match p.blocks.lookup b with
  | some (id, _) => p.remove (id, b)
  | none => p

end InFlight

/-- A peer with the jumbogram counter of its connection. -/
structure Link where
  index : ℕ
  inFlight : InFlight

namespace Link

/-- The id under which a block goes out. (A send to a peer that is disconnected changes nothing.) -/
def send (l : Link) (b : BlockId) (now : ℕ) : ℕ × Link :=
  match l.inFlight.blocks.lookup b with
  | some (id, _) => (id, l)
  | none => (l.index, {
      index := (l.index + 1) % 2 ^ 32 % maxJumbogramIds
      inFlight := ⟨l.inFlight.blocks.insert b (l.index, now), l.inFlight.jumbos.insert l.index (b, now)⟩ })

inductive Event where
  | send (b : BlockId) (now : ℕ)
  /-- Another message that takes an id of the connection. -/
  | message
  | ack (id : ℕ)
  | status
  /-- The pass that evicts old entries and then the blocks of the peer's tree. -/
  | pass (now : ℕ) (tree : List (List BlockId))
  /-- The peer is connected anew; its entry stays if no pass came in between. -/
  | reconnect (kept : Bool)

def step (l : Link) : Event → Link
  | .send b now => (l.send b now).2
  | .message => { l with index := (l.index + 1) % 2 ^ 32 % maxJumbogramIds }
  | .ack id => { l with inFlight := l.inFlight.ack id }
  | .status => l
  | .pass now tree => { l with inFlight := tree.flatten.foldl InFlight.evictKnown (l.inFlight.evictStale now) }
  | .reconnect kept => ⟨0, if kept then l.inFlight else ⟨∅, ∅⟩⟩

def run (events : List Event) : Link := events.foldl step ⟨0, ⟨∅, ∅⟩⟩

/-- A block that was not in flight is not sent under an id that is. -/
def Fresh (l : Link) : Event → Prop
  | .send b _ => l.inFlight.blocks.lookup b = none → l.inFlight.jumbos.lookup l.index = none
  | _ => True

end Link

/-! ### Inverse maps -/

namespace InFlight

variable {p : InFlight} {b : BlockId} {id now : ℕ}

def Inverse (p : InFlight) : Prop :=
  ∀ b id t, p.blocks.lookup b = some (id, t) ↔ p.jumbos.lookup id = some (b, t)

/-- The maps are inverse, a block in flight is sent again under its id, and an acknowledgement clears the block
that was sent under the id. -/
structure Coherent (p : InFlight) : Prop where
  inverse : p.Inverse
  resend : ∀ index b now id t, p.jumbos.lookup id = some (b, t) → (Link.mk index p).send b now = (id, ⟨index, p⟩)
  acked : ∀ id b, (p.ack id).blocks.lookup b =
    if (p.jumbos.lookup id).map Prod.fst = some b then none else p.blocks.lookup b

theorem lookup_erase {α β : Type} [DecidableEq α] (s : AList fun _ : α => β) (a a' : α) :
    (s.erase a).lookup a' = if a = a' then none else s.lookup a' := by
  split_ifs with h
  · rw [h, AList.lookup_erase]
  · exact AList.lookup_erase_ne (Ne.symm h)

theorem lookup_insert {α β : Type} [DecidableEq α] (s : AList fun _ : α => β) (a a' : α) (v : β) :
    (s.insert a v).lookup a' = if a = a' then some v else s.lookup a' := by
  split_ifs with h
  · rw [h, AList.lookup_insert]
  · exact AList.lookup_insert_ne (Ne.symm h)

/-- Nothing but the pair itself is in flight under its id, or for its block. -/
def Paired (p : InFlight) (x : ℕ × BlockId) : Prop :=
  (∀ id t, p.blocks.lookup x.2 = some (id, t) → id = x.1) ∧ ∀ b t, p.jumbos.lookup x.1 = some (b, t) → b = x.2

theorem Inverse.remove {x : ℕ × BlockId} (h : p.Inverse) (hx : p.Paired x) : (p.remove x).Inverse := by
  intro b id t
  simp only [InFlight.remove, lookup_erase]
  split_ifs with hb hid hid
  · simp
  · subst hb
    refine ⟨nofun, fun hj => absurd (hx.1 id t ((h _ _ _).mpr hj)) (Ne.symm hid)⟩
  · subst hid
    refine ⟨fun hb' => absurd (hx.2 b t ((h _ _ _).mp hb')) (Ne.symm hb), nofun⟩
  · exact h b id t

theorem Paired.remove {x y : ℕ × BlockId} (hy : p.Paired y) : (p.remove x).Paired y := by
  constructor <;> intro _ t hlookup <;> rw [InFlight.remove, lookup_erase] at hlookup <;> split_ifs at hlookup
  · exact hy.1 _ t hlookup
  · exact hy.2 _ t hlookup

theorem Inverse.foldl_remove {xs : List (ℕ × BlockId)} (h : p.Inverse) (hxs : ∀ x ∈ xs, p.Paired x) :
    (xs.foldl InFlight.remove p).Inverse := by
  induction xs generalizing p with
  | nil => exact h
  | cons x xs ih =>
    exact ih (h.remove (hxs x List.mem_cons_self)) fun y hy => (hxs y (List.mem_cons_of_mem _ hy)).remove

theorem Inverse.paired (h : p.Inverse) (hid : p.jumbos.lookup id = some (b, t)) : p.Paired (id, b) := by
  refine ⟨fun id' t' hb => ?_, fun b' t' hj => ?_⟩
  · rw [(h b id t).mpr hid] at hb
    exact (congrArg Prod.fst (Option.some.inj hb)).symm
  · rw [hid] at hj
    exact (congrArg Prod.fst (Option.some.inj hj)).symm

theorem Inverse.ack (h : p.Inverse) (id : ℕ) : (p.ack id).Inverse := by
  unfold InFlight.ack
  split
  · rename_i b t hid
    exact h.remove (h.paired hid)
  · rename_i hnone
    intro b id' t
    rw [h, lookup_erase]
    split_ifs with heq
    · subst heq
      simp [hnone]
    · rfl

theorem Inverse.evictStale (h : p.Inverse) (now : ℕ) : (p.evictStale now).Inverse := by
  refine h.foldl_remove fun x hx => ?_
  rcases List.mem_append.mp hx with hx | hx <;> obtain ⟨⟨k, v⟩, hmem, rfl⟩ := List.mem_map.mp hx
  · exact h.paired (AList.mem_lookup_iff.mpr (List.mem_of_mem_filter hmem))
  · exact h.paired ((h _ _ _).mp (AList.mem_lookup_iff.mpr (List.mem_of_mem_filter hmem)))

theorem Inverse.foldl_evictKnown (h : p.Inverse) (bs : List BlockId) : (bs.foldl evictKnown p).Inverse := by
  induction bs generalizing p with
  | nil => exact h
  | cons b bs ih =>
    refine ih ?_
    unfold evictKnown
    split
    · rename_i id t hb
      exact h.remove (h.paired ((h _ _ _).mp hb))
    · exact h

theorem Inverse.coherent (h : p.Inverse) : p.Coherent where
  inverse := h
  resend index b now id t hid := by rw [Link.send, (h b id t).mpr hid]
  acked id b := by
    unfold InFlight.ack
    split
    · rename_i b' t hid
      rw [hid, InFlight.remove, lookup_erase]
      simp
    · rename_i hnone
      rw [hnone]
      rfl

end InFlight

/-! ### Runs -/

namespace Link

variable {l : Link}

/-- Only a send under an id that is in flight breaks the maps. -/
theorem inverse_step_iff (h : l.inFlight.Inverse) (e : Event) : (l.step e).inFlight.Inverse ↔ l.Fresh e := by
  cases e with
  | send b now =>
    cases hb : l.inFlight.blocks.lookup b with
    | some x => simpa [step, send, Fresh, hb] using h
    | none =>
      simp only [step, send, Fresh, hb, forall_const]
      constructor
      · intro h'
        cases hid : l.inFlight.jumbos.lookup l.index with
        | none => rfl
        | some y =>
          -- the older block keeps its id, which now leads to the new one
          have hold := (h y.1 l.index y.2).mpr hid
          have hne : b ≠ y.1 := fun heq => by
            rw [heq, hold] at hb
            cases hb
          have hlost := (h' y.1 l.index y.2).mp (by rw [InFlight.lookup_insert, if_neg hne, hold])
          rw [InFlight.lookup_insert, if_pos rfl] at hlost
          exact absurd (congrArg Prod.fst (Option.some.inj hlost)) hne
      · intro hnew b' id t
        simp only [InFlight.lookup_insert]
        split_ifs with h₁ h₂ h₂
        · subst h₁ h₂
          simp
        · subst h₁
          rw [← h b id t, hb]
          simp [h₂]
        · subst h₂
          rw [h b' l.index t, hnew]
          simp [h₁]
        · exact h b' id t
  | message => exact ⟨fun _ => trivial, fun _ => h⟩
  | ack id => exact ⟨fun _ => trivial, fun _ => h.ack id⟩
  | status => exact ⟨fun _ => trivial, fun _ => h⟩
  | pass now tree => exact ⟨fun _ => trivial, fun _ => (h.evictStale now).foldl_evictKnown _⟩
  | reconnect kept =>
    refine ⟨fun _ => trivial, fun _ => ?_⟩
    cases kept with
    | true => exact h
    | false => exact fun b id t => by simp [step]

/-- In a run the maps are coherent in every state exactly when every newly sent block gets a fresh id. -/
theorem coherent_iff_fresh (events : List Event) :
    (∀ pre, pre <+: events → (run pre).inFlight.Coherent) ↔ ∀ pre e, pre ++ [e] <+: events → (run pre).Fresh e := by
  have hsnoc : ∀ pre e, run (pre ++ [e]) = (run pre).step e := fun pre e => by simp [run]
  constructor
  · intro h pre e hpre
    refine (inverse_step_iff (h pre ((List.prefix_append _ _).trans hpre)).inverse e).mp ?_
    rw [← hsnoc]
    exact (h _ hpre).inverse
  · intro h pre hpre
    refine InFlight.Inverse.coherent ?_
    induction pre using List.reverseRecOn with
    | nil => exact fun b id t => by simp [run]
    | append_singleton pre e ih =>
      rw [hsnoc]
      exact (inverse_step_iff (ih ((List.prefix_append _ _).trans hpre)) e).mpr (h pre e hpre)

/-- A peer that connects anew within one pass of the loop keeps its entry while the counter starts again: the
second block goes out under the id of the first. -/
theorem reconnect_reuses_id : ¬ (run [.send (Codec.Bytes.zero 32, 0) 0, .reconnect true,
    .send (Codec.Bytes.zero 32, 1) 0]).inFlight.Coherent := by
  intro h
  have hlost := (h.inverse (Codec.Bytes.zero 32, 0) 0 0).mp (by decide +kernel)
  exact absurd hlost (by decide +kernel)

end Link

end Crosslink.NewNet
