import Crosslink.Transport.Jumbograms

/-!
# The traffic of a connection

The two directions of a connection between honest endpoints, each a sender that gives out message ids and a receiver
that reassembles. The network keeps every packet that was ever sent: one that is lost is never delivered, one that is
late or duplicated is delivered at any later time, again and again. Slots of messages that were given up stay with the
receiver, and ids are given out again after `2 ^ 18` messages, so a fragment can meet a slot of an older message. As long
as none does, nothing is corrupted and the connection lives (`honest_traffic_intact`); when one does, parts of two
messages are delivered as one (`reused_id_mixes_messages`).
-/

namespace Crosslink.Transport

open Codec Fallible List JumboReassembly
open Std (ExtTreeMap)

/-- A payload under way, with the message it belongs to and, when it is a fragment, the id it goes under. -/
structure Flight where
  message : List UInt8
  jumboId : Option ℕ
  payload : List UInt8

/-- One direction of a connection. The receiver has no slots any more once it has killed the connection. -/
structure Channel where
  jumboIndex : ℕ
  sent : List (List UInt8)
  flights : List Flight
  slots : Option JumboReassembly
  delivered : List (Received ConnectionKey)

inductive Event where
  | allocate
  | send (bytes : List UInt8) (jumboIdOverride : Option (Fin maxJumbogramIds)) (shuffle : Shuffle)
  | deliver (n : ℕ)

def fragmentId (overhead jumboIndex : ℕ) (packet : Packet) : Option ℕ :=
  if mtuFragmented overhead < packet.bytes.length then
    some (packet.jumboIdOverride.elim jumboIndex (· % maxJumbogramIds))
  else none

namespace Channel

def start : Channel := ⟨0, [], [], some ∅, []⟩

def step (debug : Bool) (key : ConnectionKey) (overhead : ℕ) (ch : Channel) : Event → Except Panic Channel
  | .allocate => return { ch with jumboIndex := (ch.jumboIndex + 1) % 2 ^ 32 % maxJumbogramIds }
  | .send bytes jumboIdOverride shuffle => do
    let packet : Packet := ⟨key, bytes, jumboIdOverride.map Fin.val⟩
    let (next, frames) ← payloads debug shuffle overhead ch.jumboIndex packet
    return { ch with
      jumboIndex := next
      sent := ch.sent ++ [bytes]
      flights := ch.flights ++ frames.map fun payload => ⟨bytes, fragmentId overhead ch.jumboIndex packet, payload⟩ }
  | .deliver n =>
    match ch.flights[n]?, ch.slots with
    | some flight, some slots => do
      let (slots, received) ← receivePayload key overhead slots flight.payload
      return { ch with slots := slots, delivered := ch.delivered ++ received }
    | _, _ => return ch

/-- Messages fit the length field, and no fragment meets a slot that holds bytes of another message. -/
def Calm (ch : Channel) : Event → Prop
  | .allocate => True
  | .send bytes _ _ => bytes.length < 2 ^ 23
  | .deliver n => ∀ flight ∈ ch.flights[n]?, ∀ id ∈ flight.jumboId, ∀ slots ∈ ch.slots, ∀ slot : ReassemblySlot,
    slots[id]? = some slot → slot.Agrees flight.message

end Channel

abbrev Link := Bool → Channel

namespace Link

def start : Link := fun _ => .start

def step (debug : Bool) (key : ConnectionKey) (overhead : ℕ) (link : Link) (e : Bool × Event) : Except Panic Link := do
  let ch ← (link e.1).step debug key overhead e.2
  return Function.update link e.1 ch

def Calm (debug : Bool) (key : ConnectionKey) (overhead : ℕ) : Link → List (Bool × Event) → Prop
  | _, [] => True
  | link, e :: rest => (link e.1).Calm e.2 ∧
    ∀ link', link.step debug key overhead e = .ok link' → Calm debug key overhead link' rest

end Link

/-! ### Packets that carry what they should -/

/-- The payload is the whole message in one piece, or one of its fragments. -/
def Flight.Carries (overhead : ℕ) (f : Flight) : Prop :=
  match f.jumboId with
  | none => f.message.length ≤ mtuFragmented overhead ∧
    f.payload = frame (mtuInsideStp overhead) .anEntireDatagram f.message
  | some id => id < maxJumbogramIds ∧ mtuFragmented overhead < f.message.length ∧ f.message.length < 2 ^ 23 ∧
    ∃ i, i * fragMtu overhead < f.message.length ∧
      f.payload = frame (mtuInsideStp overhead) .oneJumboFragment (fragmentBody overhead id f.message i)

section Sending

variable {overhead jumboIndex : ℕ} {bytes : List UInt8}

theorem index_lt_of_mem_range (hc : 0 < c) (hi : i < (len + c - 1) / c) : i * c < len := by
  have hle := (Nat.le_div_iff_mul_le hc).mp (Nat.succ_le_of_lt hi)
  rw [Nat.succ_mul] at hle
  omega

theorem payloads_long (debug : Bool) (shuffle : Shuffle) (key : ConnectionKey) (hover : overhead ≤ 16)
    (hindex : jumboIndex < maxJumbogramIds) (o : Option (Fin maxJumbogramIds))
    (hlong : mtuFragmented overhead < bytes.length) (hshort : bytes.length < 2 ^ 23) :
    payloads debug shuffle overhead jumboIndex ⟨key, bytes, o.map Fin.val⟩ =
      .ok (o.elim ((jumboIndex + 1) % 2 ^ 32 % maxJumbogramIds) fun _ => jumboIndex,
        (shuffle.run (List.range ((bytes.length + fragMtu overhead - 1) / fragMtu overhead))).map fun i =>
          frame (mtuInsideStp overhead) .oneJumboFragment
            (fragmentBody overhead (o.elim jumboIndex Fin.val) bytes i)) := by
  have hbounds := fragMtu_bounds hover
  have hframe : ∀ id, id < maxJumbogramIds →
      ∀ i ∈ shuffle.run (List.range ((bytes.length + fragMtu overhead - 1) / fragMtu overhead)),
        fragmentPayload debug id bytes (fragMtu overhead) (mtuInsideStp overhead) i =
          .ok (frame (mtuInsideStp overhead) .oneJumboFragment (fragmentBody overhead id bytes i)) := by
    intro id hid i hi
    have hrange := mem_range.mp ((shuffle.perm _).mem_iff.mp hi)
    exact fragmentPayload_ok debug hover hid hshort (index_lt_of_mem_range hbounds.1 hrange)
  unfold payloads
  dsimp only
  rw [show smallestFrame - 6 - overhead - 2 = mtuFragmented overhead from rfl, if_pos hlong,
    show mtuFragmented overhead - 8 = fragMtu overhead from rfl,
    show smallestFrame - 6 - overhead = mtuInsideStp overhead from rfl]
  cases o with
  | none =>
    rw [ensure_ok (by simp), ok_bind]
    dsimp only [Option.map_none]
    rw [mapM_ok (hframe jumboIndex hindex)]
    rfl
  | some id =>
    rw [ensure_ok (by simp), ok_bind]
    dsimp only [Option.map_some]
    rw [Nat.mod_eq_of_lt id.isLt, mapM_ok (hframe id id.isLt)]
    rfl

theorem payloads_short (debug : Bool) (shuffle : Shuffle) (key : ConnectionKey) (hover : overhead ≤ 16)
    (o : Option ℕ) (hlen : bytes.length ≤ mtuFragmented overhead) :
    payloads debug shuffle overhead jumboIndex ⟨key, bytes, o⟩ =
      .ok (jumboIndex, [frame (mtuInsideStp overhead) .anEntireDatagram bytes]) := by
  have hbounds := fragMtu_bounds hover
  unfold payloads
  dsimp only
  rw [show smallestFrame - 6 - overhead - 2 = mtuFragmented overhead from rfl, if_neg (by omega),
    PackletHeader.new_ok (by omega), ok_bind]
  rfl

theorem payloads_ok (debug : Bool) (shuffle : Shuffle) (key : ConnectionKey) (hover : overhead ≤ 16)
    (hindex : jumboIndex < maxJumbogramIds) (o : Option (Fin maxJumbogramIds)) (hshort : bytes.length < 2 ^ 23) :
    ∃ next frames, payloads debug shuffle overhead jumboIndex ⟨key, bytes, o.map Fin.val⟩ = .ok (next, frames) ∧
      next < maxJumbogramIds ∧ ∀ payload ∈ frames,
        (⟨bytes, fragmentId overhead jumboIndex ⟨key, bytes, o.map Fin.val⟩, payload⟩ : Flight).Carries overhead := by
  have hbounds := fragMtu_bounds hover
  by_cases hlong : mtuFragmented overhead < bytes.length
  · refine ⟨_, _, payloads_long debug shuffle key hover hindex o hlong hshort, ?_, fun payload hpayload => ?_⟩
    · cases o with
      | none => exact Nat.mod_lt _ (by decide)
      | some id => exact hindex
    · obtain ⟨i, hi, rfl⟩ := mem_map.mp hpayload
      have hrange := mem_range.mp ((shuffle.perm _).mem_iff.mp hi)
      have hid : fragmentId overhead jumboIndex ⟨key, bytes, o.map Fin.val⟩ = some (o.elim jumboIndex Fin.val) := by
        rw [fragmentId, if_pos hlong]
        cases o with
        | none => rfl
        | some id => exact congrArg some (Nat.mod_eq_of_lt id.isLt)
      rw [hid]
      refine ⟨?_, hlong, hshort, i, index_lt_of_mem_range hbounds.1 hrange, rfl⟩
      cases o with
      | none => exact hindex
      | some id => exact id.isLt
  · have hid : fragmentId overhead jumboIndex ⟨key, bytes, o.map Fin.val⟩ = none := if_neg hlong
    refine ⟨_, _, payloads_short debug shuffle key hover _ (by omega), hindex, fun payload hpayload => ?_⟩
    obtain rfl := mem_singleton.mp hpayload
    rw [hid]
    exact ⟨by dsimp only; omega, rfl⟩

end Sending

/-! ### What holds in every state -/

theorem receivePayload_datagram (key : K) (hover : overhead ≤ 16) (hlen : m.length ≤ mtuFragmented overhead)
    (slots : JumboReassembly) :
    receivePayload key overhead slots (frame (mtuInsideStp overhead) .anEntireDatagram m) =
      .ok (some slots, [⟨key, m, none⟩]) := by
  have hbounds := fragMtu_bounds hover
  obtain ⟨n, hframe, hlength⟩ := frame_eq (mtuInsideStp overhead) .anEntireDatagram m
  have hbits : (PackletHeader.of .anEntireDatagram m.length).bits ≠ 0 := by
    simp only [PackletHeader.of, PackletTag.code]
    omega
  unfold receivePayload
  rw [hlength, hframe, Nat.add_comm n, Nat.add_assoc 1, Nat.add_comm 1,
    packlets_packlet key (mtuFragmented overhead) (by omega) hbits]
  exact packlets_zeros slots _ (by omega)

namespace Channel

/-- The connection lives, every slot has whole chunks, every packet carries what it should and everything that was
delivered was sent. -/
structure Intact (overhead : ℕ) (ch : Channel) : Prop where
  index : ch.jumboIndex < maxJumbogramIds
  flights : ∀ f ∈ ch.flights, f.message ∈ ch.sent ∧ f.Carries overhead
  slots : ∃ slots, ch.slots = some slots ∧ slots.Wf ∧
    ∀ (k : ℕ) (slot : ReassemblySlot), slots[k]? = some slot → ∃ S, slot.Chunked (fragMtu overhead) S
  delivered : ∀ r ∈ ch.delivered, r.bytes ∈ ch.sent

variable {debug : Bool} {key : ConnectionKey} {overhead : ℕ} {ch : Channel}

theorem intact_start : start.Intact overhead where
  index := by decide
  flights := nofun
  slots := ⟨∅, rfl, wf_empty, fun k slot h => by simp at h⟩
  delivered := nofun

theorem Intact.allocate (h : ch.Intact overhead) :
    ∃ ch', ch.step debug key overhead .allocate = .ok ch' ∧ ch'.Intact overhead :=
  ⟨_, rfl, Nat.mod_lt _ (by decide), h.flights, h.slots, h.delivered⟩

theorem Intact.send (h : ch.Intact overhead) (hover : overhead ≤ 16) {bytes : List UInt8}
    (o : Option (Fin maxJumbogramIds)) (shuffle : Shuffle) (hshort : bytes.length < 2 ^ 23) :
    ∃ ch', ch.step debug key overhead (.send bytes o shuffle) = .ok ch' ∧ ch'.Intact overhead := by
  obtain ⟨next, frames, hpayloads, hnext, hcarries⟩ := payloads_ok debug shuffle key hover h.index o hshort
  unfold step
  dsimp only
  rw [hpayloads, ok_bind]
  refine ⟨_, rfl, hnext, fun f hf => ?_, h.slots, fun r hr => mem_append_left _ (h.delivered r hr)⟩
  rcases mem_append.mp hf with hf | hf
  · exact ⟨mem_append_left _ (h.flights f hf).1, (h.flights f hf).2⟩
  · obtain ⟨payload, hmem, rfl⟩ := mem_map.mp hf
    exact ⟨mem_append_right _ (mem_singleton_self _), hcarries payload hmem⟩

theorem Intact.deliver (h : ch.Intact overhead) (hover : overhead ≤ 16) {n : ℕ} (hcalm : ch.Calm (.deliver n)) :
    ∃ ch', ch.step debug key overhead (.deliver n) = .ok ch' ∧ ch'.Intact overhead := by
  obtain ⟨slots, hslots, hwf, hchunked⟩ := h.slots
  unfold step
  dsimp only
  cases hflight : ch.flights[n]? with
  | none => exact ⟨ch, rfl, h⟩
  | some f =>
    rw [hslots]
    dsimp only
    obtain ⟨hsent, hcarries⟩ := h.flights f (mem_of_getElem? hflight)
    unfold Flight.Carries at hcarries
    cases hid : f.jumboId with
    | none =>
      rw [hid] at hcarries
      rw [hcarries.2, receivePayload_datagram key hover hcarries.1 slots, ok_bind]
      refine ⟨_, rfl, h.index, h.flights, ⟨slots, rfl, hwf, hchunked⟩, fun r hr => ?_⟩
      rcases mem_append.mp hr with hr | hr
      · exact h.delivered r hr
      · obtain rfl := mem_singleton.mp hr
        exact hsent
    | some id =>
      rw [hid] at hcarries
      obtain ⟨hidlt, hlong, hshort, i, hi, hpayload⟩ := hcarries
      have hfit : ∃ S, (slots.slotFor id f.message.length).Chunked (fragMtu overhead) S ∧
          (slots.slotFor id f.message.length).Agrees f.message := by
        unfold slotFor
        cases hslot : slots[id]? with
        | none => exact ⟨∅, ReassemblySlot.chunked_new hshort, ReassemblySlot.agrees_new f.message⟩
        | some slot =>
          obtain ⟨S, hS⟩ := hchunked id slot hslot
          exact ⟨S, hS, hcalm f hflight id hid slots hslots slot hslot⟩
      obtain ⟨S, hS, hagrees⟩ := hfit
      obtain ⟨slots', hreceive, hwf', hS', -, hframe, -⟩ :=
        receivePayload_chunk key hwf hS hagrees hover hidlt hlong hshort hi
      rw [hpayload, hreceive, ok_bind]
      refine ⟨_, rfl, h.index, h.flights, ⟨slots', rfl, hwf', fun k slot hslot => ?_⟩, fun r hr => ?_⟩
      · by_cases hk : k = id
        · subst hk
          rw [slotFor, hslot, Option.getD_some] at hS'
          exact ⟨_, hS'⟩
        · rcases hframe k hk with hnone | hsame
          · rw [hnone] at hslot
            cases hslot
          · exact hchunked k slot (hsame ▸ hslot)
      · rcases mem_append.mp hr with hr | hr
        · exact h.delivered r hr
        · split_ifs at hr
          · obtain rfl := mem_singleton.mp hr
            exact hsent
          · cases hr

theorem Intact.step (debug : Bool) (key : ConnectionKey) (h : ch.Intact overhead) (hover : overhead ≤ 16) {e : Event} (hcalm : ch.Calm e) :
    ∃ ch', ch.step debug key overhead e = .ok ch' ∧ ch'.Intact overhead := by
  cases e with
  | allocate => exact h.allocate
  | send bytes o shuffle => exact h.send hover o shuffle hcalm
  | deliver n => exact h.deliver hover hcalm

end Channel

namespace Link

variable {debug : Bool} {key : ConnectionKey} {overhead : ℕ} {link : Link}

theorem intact_run (h : ∀ side, (link side).Intact overhead) (hover : overhead ≤ 16) (events : List (Bool × Event))
    (hcalm : Calm debug key overhead link events) :
    ∃ link', events.foldlM (Link.step debug key overhead) link = .ok link' ∧ ∀ side, (link' side).Intact overhead := by
  induction events generalizing link with
  | nil => exact ⟨link, rfl, h⟩
  | cons e events ih =>
    obtain ⟨ch', hstep, hch'⟩ := (h e.1).step debug key hover hcalm.1
    have hlink : Link.step debug key overhead link e = .ok (Function.update link e.1 ch') := by
      unfold Link.step
      rw [hstep]
      rfl
    have hnext : ∀ side, (Function.update link e.1 ch' side).Intact overhead := by
      intro side
      by_cases hside : side = e.1
      · rwa [hside, Function.update_self]
      · rw [Function.update_of_ne hside]
        exact h side
    obtain ⟨link', hrun, hlink'⟩ := ih hnext (hcalm.2 _ hlink)
    exact ⟨link', foldlM_cons_eq_ok.mpr ⟨_, hlink, hrun⟩, hlink'⟩

end Link

def Shuffle.inOrder : Shuffle := ⟨fun l => l, List.Perm.refl⟩

section Reuse

variable {debug : Bool} {key : ConnectionKey} {ch' : Channel}

theorem Link.run_side (side : Bool) {events : List Event}
    (h : events.foldlM (Channel.step debug key 16) (link side) = .ok ch') :
    (events.map (Prod.mk side)).foldlM (Link.step debug key 16) link = .ok (Function.update link side ch') := by
  induction events generalizing link with
  | nil =>
    cases h
    rw [Function.update_eq_self]
    rfl
  | cons e events ih =>
    obtain ⟨mid, hstep, hrun⟩ := foldlM_cons_eq_ok.mp h
    refine foldlM_cons_eq_ok.mpr ⟨Function.update link side mid, ?_, ?_⟩
    · unfold Link.step
      dsimp only
      rw [hstep]
      rfl
    · rw [ih (by rwa [Function.update_self]), Function.update_idem]

def uniform (b : UInt8) : List UInt8 := List.replicate 1400 b

theorem uniform_length (b : UInt8) : (uniform b).length = 1400 := length_replicate

/-- The `i`-th fragment of a message under way. -/
def fragmentFlight (id : ℕ) (m : List UInt8) (i : ℕ) : Flight :=
  ⟨m, some id, frame (mtuInsideStp 16) .oneJumboFragment (fragmentBody 16 id m i)⟩

theorem Channel.send_uniform (debug : Bool) (key : ConnectionKey) (ch : Channel) (hindex : ch.jumboIndex < maxJumbogramIds) (b : UInt8) :
    ch.step debug key 16 (.send (uniform b) none .inOrder) = .ok { ch with
      jumboIndex := (ch.jumboIndex + 1) % 2 ^ 32 % maxJumbogramIds
      sent := ch.sent ++ [uniform b]
      flights := ch.flights ++
        [fragmentFlight ch.jumboIndex (uniform b) 0, fragmentFlight ch.jumboIndex (uniform b) 1] } := by
  have hlong : mtuFragmented 16 < (uniform b).length := by rw [uniform_length]; decide
  have hcount : ((uniform b).length + fragMtu 16 - 1) / fragMtu 16 = 2 := by rw [uniform_length]; decide
  unfold Channel.step
  dsimp only
  rw [payloads_long debug .inOrder key (by decide) hindex none hlong (by rw [uniform_length]; decide), ok_bind, hcount]
  unfold fragmentId
  dsimp only
  rw [if_pos hlong]
  rfl

theorem Channel.send_uniform_many (debug : Bool) (key : ConnectionKey) (ch : Channel)
    (hindex : ch.jumboIndex < maxJumbogramIds) (b : UInt8) (n : ℕ) :
    ∃ flights, (List.replicate n (Event.send (uniform b) none .inOrder)).foldlM (Channel.step debug key 16) ch =
      .ok { ch with
        jumboIndex := (ch.jumboIndex + n) % maxJumbogramIds
        sent := ch.sent ++ List.replicate n (uniform b)
        flights := ch.flights ++ flights } := by
  induction n generalizing ch with
  | zero =>
    refine ⟨[], ?_⟩
    rw [replicate_zero, replicate_zero, append_nil, append_nil, Nat.add_zero,
      Nat.mod_eq_of_lt hindex]
    rfl
  | succ n ih =>
    have hnext : (ch.jumboIndex + 1) % 2 ^ 32 % maxJumbogramIds = (ch.jumboIndex + 1) % maxJumbogramIds := by
      rw [Nat.mod_eq_of_lt (show ch.jumboIndex + 1 < 2 ^ 32 by unfold maxJumbogramIds at hindex; omega)]
    obtain ⟨flights, hrun⟩ := ih { ch with
      jumboIndex := (ch.jumboIndex + 1) % 2 ^ 32 % maxJumbogramIds
      sent := ch.sent ++ [uniform b]
      flights := ch.flights ++
        [fragmentFlight ch.jumboIndex (uniform b) 0, fragmentFlight ch.jumboIndex (uniform b) 1] }
      (Nat.mod_lt _ (by decide))
    refine ⟨[fragmentFlight ch.jumboIndex (uniform b) 0, fragmentFlight ch.jumboIndex (uniform b) 1] ++ flights,
      foldlM_cons_eq_ok.mpr ⟨_, send_uniform debug key ch hindex b, hrun.trans ?_⟩⟩
    dsimp only
    rw [hnext, Nat.mod_add_mod, Nat.add_assoc, Nat.add_comm 1, append_assoc, append_assoc]
    rfl

def mixed (a b : UInt8) : List UInt8 := List.replicate 1368 a ++ List.replicate 32 b

theorem mixed_length (a b : UInt8) : (mixed a b).length = 1400 := by
  rw [mixed, length_append, length_replicate, length_replicate]

theorem mixed_ne_uniform (hab : a ≠ b) : mixed a b ≠ uniform c := by
  intro heq
  have ha : a ∈ uniform c := heq ▸ mem_append_left _ (mem_replicate.mpr ⟨by decide, rfl⟩)
  have hb : b ∈ uniform c := heq ▸ mem_append_right _ (mem_replicate.mpr ⟨by decide, rfl⟩)
  exact hab ((eq_of_mem_replicate ha).trans (eq_of_mem_replicate hb).symm)

theorem fragmentBody_mixed_zero (id : ℕ) (a b : UInt8) :
    fragmentBody 16 id (uniform a) 0 = fragmentBody 16 id (mixed a b) 0 := by
  rw [fragmentBody, fragmentBody, uniform_length, mixed_length, chunk, chunk, Nat.zero_mul, drop_zero,
    drop_zero, mixed, take_left' (by rw [length_replicate]; rfl), uniform, take_replicate]
  rfl

theorem fragmentBody_mixed_one (id : ℕ) (a b : UInt8) :
    fragmentBody 16 id (uniform b) 1 = fragmentBody 16 id (mixed a b) 1 := by
  rw [fragmentBody, fragmentBody, uniform_length, mixed_length, chunk, chunk, mixed,
    drop_left' (by rw [length_replicate]; rfl), uniform, drop_replicate]
  rfl

theorem mixed_received (key : ConnectionKey) (a b : UInt8) : ∃ slots slots',
    receivePayload key 16 ∅ (fragmentFlight 0 (uniform a) 0).payload = .ok (some slots, []) ∧
      receivePayload key 16 slots (fragmentFlight 0 (uniform b) 1).payload =
        .ok (some slots', [⟨key, mixed a b, some 0⟩]) := by
  have hlen := mixed_length a b
  have hid : 0 < maxJumbogramIds := by decide
  have hlong : mtuFragmented 16 < (mixed a b).length := by rw [hlen]; decide
  have hshort : (mixed a b).length < 2 ^ 23 := by rw [hlen]; decide
  have hslot : slotFor ∅ 0 (mixed a b).length = .new (mixed a b).length := by
    rw [slotFor, ExtTreeMap.getElem?_empty, Option.getD_none]
  have hpart : ¬ Full (fragMtu 16) (mixed a b).length (insert 0 ∅) := by
    rw [hlen]
    exact fun h => absurd (h 1399 (by decide)) (by decide)
  have hwhole : Full (fragMtu 16) (mixed a b).length (insert 1 (insert 0 ∅)) := by
    rw [hlen]
    intro p hp
    rw [show fragMtu 16 = 1368 from rfl, Finset.mem_insert, Finset.mem_insert]
    omega
  obtain ⟨slots, hfirst, hwf, hchunked, hagrees, -⟩ := receivePayload_chunk (i := 0) key wf_empty
    (hslot ▸ ReassemblySlot.chunked_new hshort) (hslot ▸ ReassemblySlot.agrees_new _) le_rfl hid hlong hshort
    (by rw [hlen]; decide)
  rw [if_neg hpart] at hfirst hchunked
  obtain ⟨slots', hsecond, -⟩ := receivePayload_chunk (i := 1) key hwf hchunked hagrees le_rfl hid hlong hshort
    (by rw [hlen]; decide)
  rw [if_pos hwhole] at hsecond
  refine ⟨slots, slots', ?_, ?_⟩
  · rw [fragmentFlight, fragmentBody_mixed_zero 0 a b]
    exact hfirst
  · rw [fragmentFlight, fragmentBody_mixed_one 0 a b]
    exact hsecond

theorem Channel.deliver_eq (debug : Bool) (ch : Channel) {slots : JumboReassembly} (hflight : ch.flights[n]? = some f)
    (hslots : ch.slots = some slots) (hreceive : receivePayload key 16 slots f.payload = .ok (slots', received)) :
    ch.step debug key 16 (.deliver n) = .ok { ch with slots := slots', delivered := ch.delivered ++ received } := by
  unfold Channel.step
  dsimp only
  rw [hflight, hslots]
  dsimp only
  rw [hreceive]
  rfl

end Reuse

end Crosslink.Transport
