import Crosslink.Transport.Connections

/-!
# Datagrams from anyone

A datagram comes from any address, with any bytes, in any state of the connections. What is left to show of the
receiving half, when the Noise library keeps to its documentation, is when it stops at one of its own assertions: at
those, all in the handling of a hello, that there is nothing behind the key or in the payload of the handshake.
-/

namespace Crosslink.Transport

open Codec Fallible ConnectionTrackingData Option

variable {N : Noise}

/-! ### What is assumed of the library -/

/-- An initiator that has sent its message and has accepted no answer yet. -/
inductive Noise.Awaiting (N : Noise) : N.Handshake → Prop
  | sent {pattern : String} {prologue privateKey remote message : List UInt8} {seed : ℕ} {hs hs' : N.Handshake}
      (hbuild : N.buildInitiator pattern prologue privateKey remote seed = some hs)
      (hwrite : N.writeMessage hs = (hs', some message)) : N.Awaiting hs'
  | refused {message : List UInt8} {hs hs' : N.Handshake} (hawaiting : N.Awaiting hs)
      (hread : N.readMessage hs message = (hs', none)) : N.Awaiting hs'

/-- The handshake pattern of the transport has two messages, and the first one is sealed for one responder. -/
structure Noise.Documented (N : Noise) : Prop where
  finishes : ∀ hs message hs' n, N.Awaiting hs → N.readMessage hs message = (hs', some n) →
    N.isHandshakeFinished hs' ∧ (N.getRemoteStatic hs').isSome ∧ (N.intoStatelessTransportMode hs').isSome
  answers : ∀ pattern prologue privateKey seed hs message hs' n remote,
    N.buildResponder pattern prologue privateKey seed = some hs → N.readMessage hs message = (hs', some n) →
    N.getRemoteStatic hs' = some remote → remote.length = 32 ∧ ∃ hs'' answer, N.writeMessage hs' = (hs'', some answer) ∧
      N.isHandshakeFinished hs'' ∧ (N.intoStatelessTransportMode hs'').isSome
  oneRemote : ∀ pattern prologue message privateKey₁ seed₁ hs₁ hs₁' n₁ privateKey₂ seed₂ hs₂ hs₂' n₂,
    N.buildResponder pattern prologue privateKey₁ seed₁ = some hs₁ → N.readMessage hs₁ message = (hs₁', some n₁) →
    N.buildResponder pattern prologue privateKey₂ seed₂ = some hs₂ → N.readMessage hs₂ message = (hs₂', some n₂) →
    N.getRemoteStatic hs₁' = N.getRemoteStatic hs₂'

/-- A keypair that `new_keypair_from_connect_magic1` makes: the library takes its private key. -/
structure IdentityKeyPair.Usable (N : Noise) (kp : IdentityKeyPair) : Prop where
  length : kp.publicKey.length = 32
  responds : ∀ pattern prologue seed, kp.magic1 ≠ connectMagic1PlainText →
    cryptoStringFromConnectMagic1 kp.magic1 = some pattern →
    (N.buildResponder pattern prologue kp.privateKey seed).isSome

theorem keyBits_ok (h : key.length = 32) : ∃ bits, keyBits key = .ok bits := by
  refine ⟨leNat ((key.drop 0).take 2) * 2 % 2 ^ 16, ?_⟩
  rw [keyBits, slice_ok (by omega) (by omega)]
  rfl

/-! ### The invariant of the connections -/

theorem cryptoOverhead_isSome (h : cryptoStringFromConnectMagic1 magic = some pattern) :
    (cryptoOverheadFromConnectMagic1 magic).isSome := by
  unfold cryptoStringFromConnectMagic1 at h
  unfold cryptoOverheadFromConnectMagic1
  split_ifs at h ⊢ <;> rfl

theorem plainText_known : (cryptoOverheadFromConnectMagic1 connectMagic1PlainText).isSome := rfl

/-- The kind of encryption is a known one, and a handshake on its way awaits its answer. -/
def ConnectionState.Wf : ConnectionState N → Prop
  | .sendingClientHelloPlaintext _ _ => True
  | .sendingClientHello magic1 _ _ handshake => (cryptoOverheadFromConnectMagic1 magic1).isSome ∧ N.Awaiting handshake
  | .sendingServerHelloPlaintext _ _ => True
  | .sendingServerHello _ magic1 _ _ => (cryptoOverheadFromConnectMagic1 magic1).isSome
  | .connected _ magic1 _ _ _ _ => (cryptoOverheadFromConnectMagic1 magic1).isSome

structure ConnectionTrackingData.Wf (conn : ConnectionTrackingData N) : Prop where
  state : conn.connectionState.Wf
  slots : conn.jumboReassembly.Wf

def ConnectionsMap.Wf (conns : ConnectionsMap N) : Prop := ∀ key conn, conns key = some conn → conn.Wf

/-- Only the connection under `key` differs. -/
def Touches (key : ConnectionKey) (conns conns' : ConnectionsMap N) : Prop := ∀ k, k ≠ key → conns' k = conns k

variable {key : ConnectionKey} {conns conns' conns'' : ConnectionsMap N} {conn : ConnectionTrackingData N}

theorem Touches.refl (key : ConnectionKey) (conns : ConnectionsMap N) : Touches key conns conns := fun _ _ => rfl

theorem Touches.trans (h : Touches key conns conns') (h' : Touches key conns' conns'') : Touches key conns conns'' :=
  fun k hk => (h' k hk).trans (h k hk)

theorem Touches.update (key : ConnectionKey) (conns : ConnectionsMap N) (conn : Option (ConnectionTrackingData N)) :
    Touches key conns (Function.update conns key conn) := fun _ hk => Function.update_of_ne hk _ _

theorem ConnectionsMap.Wf.update (h : ConnectionsMap.Wf conns) (ho : ∀ conn, o = some conn → conn.Wf) :
    ConnectionsMap.Wf (Function.update conns key o) := by
  intro k conn hk
  by_cases heq : k = key
  · rw [heq, Function.update_self] at hk
    exact ho conn hk
  · rw [Function.update_of_ne heq] at hk
    exact h k conn hk

theorem ConnectionTrackingData.create_ok (ip port now : ℕ) (identity : List UInt8) {state : ConnectionState N}
    (hkp : kp.Usable N) (hstate : state.Wf) :
    ∃ conn, ConnectionTrackingData.create kp ip port identity now state = .ok conn ∧ conn.Wf := by
  obtain ⟨bits, hbits⟩ := keyBits_ok hkp.length
  refine ⟨_, by rw [create, hbits]; rfl, hstate, JumboReassembly.wf_empty⟩

/-! ### Client hellos -/

theorem acceptHello_ok (dg : Datagram) (now : ℕ) (hkp : kp.Usable N) (hbits : keyBits clientKey = .ok bits)
    (hconns : ConnectionsMap.Wf conns) (hmagic : (cryptoOverheadFromConnectMagic1 magic1).isSome)
    (hcontested : ∀ state m, state.Wf → contested state = some m → (cryptoOverheadFromConnectMagic1 m).isSome)
    (hanswer : ∀ m, (cryptoOverheadFromConnectMagic1 m).isSome → ∃ state, answer m = .ok state ∧ state.Wf) :
    ∃ conns', acceptHello conns kp dg clientKey now contested magic1 answer = .ok conns' ∧
      Touches ⟨dg.ip, dg.port, bits⟩ conns conns' ∧ ConnectionsMap.Wf conns' := by
  have hsame : ∃ conns', (pure conns : Except Panic (ConnectionsMap N)) = .ok conns' ∧
      Touches ⟨dg.ip, dg.port, bits⟩ conns conns' ∧ ConnectionsMap.Wf conns' := ⟨conns, rfl, Touches.refl _ _, hconns⟩
  rw [acceptHello, hbits, ok_bind]
  dsimp only
  cases hconn : conns ⟨dg.ip, dg.port, bits⟩ with
  | none =>
    obtain ⟨state, hstate, hwf⟩ := hanswer magic1 hmagic
    obtain ⟨conn, hcreate, hconn⟩ := create_ok dg.ip dg.port now clientKey hkp hwf
    dsimp only
    rw [hstate, ok_bind, hcreate, ok_bind]
    refine ⟨_, rfl, Touches.update _ _ _, hconns.update fun c hc => ?_⟩
    obtain rfl := some.inj hc
    exact hconn
  | some existing =>
    have hexisting := hconns _ _ hconn
    dsimp only
    by_cases hpeer : existing.myTransportIdentityKeypair = kp ∧ existing.otherTransportIdentity = clientKey
    · rw [if_pos hpeer]
      cases hstate : contested existing.connectionState with
      | none => exact hsame
      | some m =>
        dsimp only
        by_cases hsmaller : clientKey < kp.publicKey
        · obtain ⟨state, hanswer, hwf⟩ := hanswer m (hcontested _ m hexisting.state hstate)
          rw [if_pos hsmaller, hanswer, ok_bind]
          refine ⟨_, rfl, Touches.update _ _ _, hconns.update fun c hc => ?_⟩
          obtain rfl := some.inj hc
          exact ⟨hwf, hexisting.slots⟩
        · rw [if_neg hsmaller]
          exact hsame
    · rw [if_neg hpeer]
      exact hsame

theorem serverHelloStart_ok (hkp : kp.Usable N) : ∃ start, serverHelloStart kp = .ok start := by
  obtain ⟨bits, hbits⟩ := keyBits_ok hkp.length
  rw [serverHelloStart, hbits]
  exact ⟨_, rfl⟩

theorem serverHelloPlaintext_ok (hkp : kp.Usable N) :
    ∃ payload, serverHelloPlaintext kp = .ok payload := by
  obtain ⟨start, hstart⟩ := serverHelloStart_ok hkp
  rw [serverHelloPlaintext, hstart, ok_bind, ensure_ok hkp.length]
  exact ⟨_, rfl⟩

theorem ConnectionState.plainHello_known (state : ConnectionState N) (m : ℕ) (_ : state.Wf)
    (h : state.plainHello = some m) : (cryptoOverheadFromConnectMagic1 m).isSome := by
  cases state <;> cases h
  rfl

theorem ConnectionState.noiseHello_known (state : ConnectionState N) (m : ℕ) (hwf : state.Wf)
    (h : state.noiseHello = some m) : (cryptoOverheadFromConnectMagic1 m).isSome := by
  cases state <;> cases h
  exact hwf.1

theorem clientHelloPlaintext_ok (dg : Datagram) (now : ℕ) (hkp : kp.Usable N) (hconns : ConnectionsMap.Wf conns)
    (hbare : kp.magic1 = connectMagic1PlainText → dg.bytes.length ≤ 38) :
    ∃ conns', clientHelloPlaintext conns kp dg now = .ok conns' ∧ ConnectionsMap.Wf conns' ∧
      ∀ bits, (38 ≤ dg.bytes.length → keyBits ((dg.bytes.drop 6).take 32) = .ok bits) →
        Touches ⟨dg.ip, dg.port, bits⟩ conns conns' := by
  unfold clientHelloPlaintext
  by_cases hmagic : kp.magic1 = connectMagic1PlainText
  · rw [if_neg (not_not.mpr hmagic)]
    by_cases hshort : dg.bytes.length < 6 + 32
    · rw [if_pos hshort]
      exact ⟨conns, rfl, hconns, fun _ _ => Touches.refl _ _⟩
    · have hlen := hbare hmagic
      have hkey : ((dg.bytes.drop 6).take 32).length = 32 := by
        rw [List.length_take, List.length_drop]
        omega
      obtain ⟨bits, hbits⟩ := keyBits_ok hkey
      obtain ⟨payload, hpayload⟩ := serverHelloPlaintext_ok hkp
      rw [if_neg hshort, slice_ok (by omega) (by omega), ok_bind, ensure_ok (by omega), ok_bind, hpayload]
      obtain ⟨conns', heq, htouch, hwf⟩ := acceptHello_ok dg now hkp hbits hconns plainText_known
        ConnectionState.plainHello_known fun _ _ => ⟨.sendingServerHelloPlaintext 0 payload, rfl, trivial⟩
      refine ⟨conns', heq, hwf, fun bits' hbits' => ?_⟩
      obtain rfl : bits = bits' := Except.ok.inj (hbits.symm.trans (hbits' (by omega)))
      exact htouch
  · rw [if_pos hmagic]
    exact ⟨conns, rfl, hconns, fun _ _ => Touches.refl _ _⟩

/-- The keypair opens the hello: it comes from the key `remote`, with a payload of `n` bytes. -/
def Datagram.OpenedBy (N : Noise) (dg : Datagram) (kp : IdentityKeyPair) (seed : ℕ) (remote : List UInt8) (n : ℕ) : Prop :=
  ∃ pattern hs hs', dg.firstSixBytes ≠ connectMagic1PlainText ∧ kp.magic1 = dg.firstSixBytes ∧
    cryptoStringFromConnectMagic1 dg.firstSixBytes = some pattern ∧
    N.buildResponder pattern (dg.bytes.take 6) kp.privateKey seed = some hs ∧
    N.readMessage hs (dg.bytes.drop 6) = (hs', some n) ∧ N.getRemoteStatic hs' = some remote

theorem Datagram.OpenedBy.remote_unique (hN : N.Documented) {dg : Datagram} (h₁ : dg.OpenedBy N kp₁ seed₁ remote₁ n₁)
    (h₂ : dg.OpenedBy N kp₂ seed₂ remote₂ n₂) : remote₁ = remote₂ := by
  obtain ⟨pattern, hs₁, hs₁', -, -, hpattern, hbuild₁, hread₁, hremote₁⟩ := h₁
  obtain ⟨pattern', hs₂, hs₂', -, -, hpattern', hbuild₂, hread₂, hremote₂⟩ := h₂
  obtain rfl : pattern = pattern' := some.inj (hpattern.symm.trans hpattern')
  have := hN.oneRemote _ _ _ _ _ _ _ _ _ _ _ _ _ hbuild₁ hread₁ hbuild₂ hread₂
  rw [hremote₁, hremote₂] at this
  exact some.inj this

theorem slice_from {l : List UInt8} (h : a ≤ l.length) : slice l a l.length = .ok (l.drop a) := by
  rw [slice_ok h le_rfl, List.take_of_length_le (by rw [List.length_drop])]

theorem serverHello_ok (debug : Bool) (hkp : kp.Usable N) (hwrite : N.writeMessage hs = (hs', some answer))
    (hfinished : N.isHandshakeFinished hs') (hcipher : (N.intoStatelessTransportMode hs').isSome) :
    ∃ r, serverHello debug kp hs = .ok r := by
  obtain ⟨start, hstart⟩ := serverHelloStart_ok hkp
  obtain ⟨cipher, hcipher⟩ := isSome_iff_exists.mp hcipher
  rw [serverHello, hstart, ok_bind, hwrite]
  dsimp only
  rw [unwrap_eq_ok.mpr rfl, ok_bind, ensure_ok fun _ => hfinished, ok_bind, unwrap_eq_ok.mpr hcipher]
  exact ⟨_, rfl⟩

theorem clientHelloNoise_ok (debug : Bool) (now : ℕ) (hN : N.Documented) (hkp : kp.Usable N)
    (hconns : ConnectionsMap.Wf conns) (hlen : 6 ≤ dg.bytes.length)
    (hplain : dg.firstSixBytes ≠ connectMagic1PlainText)
    (hpattern : cryptoStringFromConnectMagic1 dg.firstSixBytes = some pattern)
    (hbare : ∀ remote n, dg.OpenedBy N kp seed remote n → n = 0) :
    ∃ conns', clientHelloNoise debug pattern dg.firstSixBytes conns kp dg now seed = .ok conns' ∧
      ConnectionsMap.Wf conns' ∧
      ∀ bits, (∀ remote n, dg.OpenedBy N kp seed remote n → keyBits remote = .ok bits) →
        Touches ⟨dg.ip, dg.port, bits⟩ conns conns' := by
  have hsame : ∃ conns', (pure conns : Except Panic (ConnectionsMap N)) = .ok conns' ∧ ConnectionsMap.Wf conns' ∧
      ∀ bits, (∀ remote n, dg.OpenedBy N kp seed remote n → keyBits remote = .ok bits) →
        Touches ⟨dg.ip, dg.port, bits⟩ conns conns' := ⟨conns, rfl, hconns, fun _ _ => Touches.refl _ _⟩
  unfold clientHelloNoise
  by_cases hmagic : kp.magic1 = dg.firstSixBytes
  · obtain ⟨hs, hbuild⟩ := isSome_iff_exists.mp
      (hkp.responds pattern (dg.bytes.take 6) seed (by rwa [hmagic]) (by rwa [hmagic]))
    rw [if_neg (not_not.mpr hmagic), unwrap_eq_ok.mpr hbuild, ok_bind, slice_from hlen, ok_bind]
    cases hread : N.readMessage hs (dg.bytes.drop 6) with
    | mk hs' payload =>
      cases payload with
      | none => exact hsame
      | some n =>
        dsimp only
        cases hremote : N.getRemoteStatic hs' with
        | none => exact hsame
        | some remote =>
          have hopened : dg.OpenedBy N kp seed remote n :=
            ⟨pattern, hs, hs', hplain, hmagic, hpattern, hbuild, hread, hremote⟩
          obtain ⟨hlength, hs'', answer, hwrite, hfinished, hcipher⟩ :=
            hN.answers _ _ _ _ _ _ _ _ _ hbuild hread hremote
          obtain ⟨bits, hbits⟩ := keyBits_ok hlength
          obtain ⟨⟨payload, cipher⟩, hhello⟩ := serverHello_ok debug hkp hwrite hfinished hcipher
          dsimp only
          rw [ensure_ok (hbare remote n hopened), ok_bind, hhello]
          obtain ⟨conns', heq, htouch, hwf⟩ := acceptHello_ok dg now hkp hbits hconns (cryptoOverhead_isSome hpattern)
            ConnectionState.noiseHello_known fun m hm => ⟨.sendingServerHello cipher m 0 payload, rfl, hm⟩
          refine ⟨conns', heq, hwf, fun bits' hbits' => ?_⟩
          obtain rfl : bits = bits' := Except.ok.inj (hbits.symm.trans (hbits' remote n hopened))
          exact htouch
  · rw [if_pos hmagic]
    exact hsame

/-- The fifteen key bits that a datagram comes with: its first two bytes, or those of the client's key in a hello. -/
inductive Datagram.Carries (N : Noise) (keypairs : List IdentityKeyPair) (moment : Moment) (dg : Datagram) : ℕ → Prop
  | packet (heven : dg.firstSixBytes % 2 = 0) : dg.Carries N keypairs moment (dg.firstSixBytes % 2 ^ 16)
  | plain {bits : ℕ} (hplain : dg.firstSixBytes = connectMagic1PlainText) (hlen : 38 ≤ dg.bytes.length)
      (hbits : keyBits ((dg.bytes.drop 6).take 32) = .ok bits) : dg.Carries N keypairs moment bits
  | noise {kp : IdentityKeyPair} {i n bits : ℕ} {remote : List UInt8} (hkp : (kp, i) ∈ keypairs.zipIdx)
      (hopened : dg.OpenedBy N kp (moment.seed i) remote n) (hbits : keyBits remote = .ok bits) :
      dg.Carries N keypairs moment bits

theorem cryptoString_odd (h : cryptoStringFromConnectMagic1 magic = some pattern) :
    magic % 2 = 1 := by
  unfold cryptoStringFromConnectMagic1 connectMagic1Blake2s connectMagic1Blake2b connectMagic1PlainText at h
  split_ifs at h <;> omega

theorem Datagram.Carries.unique (hN : N.Documented) {dg : Datagram} (h : dg.Carries N keypairs moment bits)
    (h' : dg.Carries N keypairs moment bits') : bits = bits' := by
  have hodd : connectMagic1PlainText % 2 = 1 := rfl
  cases h with
  | packet heven =>
    cases h' with
    | packet => rfl
    | plain hplain =>
      rw [hplain] at heven
      omega
    | noise hkp hopened =>
      obtain ⟨pattern, hs, hs', -, -, hpattern, -⟩ := hopened
      have := cryptoString_odd hpattern
      omega
  | plain hplain hlen hbits =>
    cases h' with
    | packet heven =>
      rw [hplain] at heven
      omega
    | plain _ _ hbits' => exact Except.ok.inj (hbits.symm.trans hbits')
    | noise hkp hopened =>
      obtain ⟨pattern, hs, hs', hne, -⟩ := hopened
      exact absurd hplain hne
  | noise hkp hopened hbits =>
    cases h' with
    | packet heven =>
      obtain ⟨pattern, hs, hs', -, -, hpattern, -⟩ := hopened
      have := cryptoString_odd hpattern
      omega
    | plain hplain =>
      obtain ⟨pattern, hs, hs', hne, -⟩ := hopened
      exact absurd hplain hne
    | noise _ hopened' hbits' =>
      rw [hopened.remote_unique hN hopened'] at hbits
      exact Except.ok.inj (hbits.symm.trans hbits')

/-- Nothing comes behind the key of a hello or in the payload of its handshake, neither in one from a client nor in
the answer to one of this node's. -/
structure Datagram.Bare (N : Noise) (keypairs : List IdentityKeyPair) (moment : Moment) (conns : ConnectionsMap N)
    (dg : Datagram) : Prop where
  plainHello : dg.firstSixBytes = connectMagic1PlainText → (∃ kp ∈ keypairs, kp.magic1 = connectMagic1PlainText) →
    dg.bytes.length ≤ 38
  noiseHello : ∀ kp i remote n, (kp, i) ∈ keypairs.zipIdx → dg.OpenedBy N kp (moment.seed i) remote n → n = 0
  plainAnswer : dg.firstSixBytes % 2 = 0 → ∀ conn lastSent payload, conns ⟨dg.ip, dg.port, dg.firstSixBytes % 2 ^ 16⟩ = some conn →
    conn.connectionState = .sendingClientHelloPlaintext lastSent payload → dg.IsServerHello →
    (dg.bytes.drop 6).take 32 = conn.otherTransportIdentity → dg.bytes.length ≤ 38
  noiseAnswer : dg.firstSixBytes % 2 = 0 → ∀ conn magic1 lastSent payload handshake handshake' n,
    conns ⟨dg.ip, dg.port, dg.firstSixBytes % 2 ^ 16⟩ = some conn →
    conn.connectionState = .sendingClientHello magic1 lastSent payload handshake →
    dg.IsServerHello → N.readMessage handshake (dg.bytes.drop 6) = (handshake', some n) → n = 0

/-- What a datagram may do to the connections. -/
structure Datagram.Contained (N : Noise) (keypairs : List IdentityKeyPair) (moment : Moment) (dg : Datagram)
    (conns conns' : ConnectionsMap N) : Prop where
  wf : ConnectionsMap.Wf conns'
  touches : ∀ bits, (∀ b, dg.Carries N keypairs moment b → b = bits) → Touches ⟨dg.ip, dg.port, bits⟩ conns conns'

theorem Datagram.Contained.refl {dg : Datagram} (hconns : ConnectionsMap.Wf conns) :
    dg.Contained N keypairs moment conns conns :=
  ⟨hconns, fun _ _ => Touches.refl _ _⟩

variable {keypairs : List IdentityKeyPair} {moment : Moment} {dg : Datagram} {debug : Bool}

theorem clientHello_ok (debug : Bool) (hN : N.Documented) (hkeys : ∀ kp ∈ keypairs, kp.Usable N) (hconns : ConnectionsMap.Wf conns)
    (hlen : 6 ≤ dg.bytes.length) (hbare : dg.Bare N keypairs moment conns) :
    ∃ conns', clientHello debug keypairs conns dg moment = .ok conns' ∧
      dg.Contained N keypairs moment conns conns' := by
  unfold clientHello
  by_cases hplain : dg.firstSixBytes = connectMagic1PlainText
  · rw [if_pos hplain]
    refine foldlM_ok (I := dg.Contained N keypairs moment conns) (fun kp hkp conns₁ h₁ => ?_) (.refl hconns)
    obtain ⟨conns₂, heq, hwf, htouch⟩ := clientHelloPlaintext_ok dg moment.nowNs (hkeys kp hkp) h₁.wf
      fun hmagic => hbare.plainHello hplain ⟨kp, hkp, hmagic⟩
    refine ⟨conns₂, heq, hwf, fun bits hbits => (h₁.touches bits hbits).trans (htouch bits fun h38 => ?_)⟩
    have hkey : ((dg.bytes.drop 6).take 32).length = 32 := by
      rw [List.length_take, List.length_drop]
      omega
    obtain ⟨b, hb⟩ := keyBits_ok hkey
    rw [← hbits b (.plain hplain h38 hb), hb]
  · rw [if_neg hplain]
    cases hpattern : cryptoStringFromConnectMagic1 dg.firstSixBytes with
    | none => exact ⟨conns, rfl, .refl hconns⟩
    | some pattern =>
      refine foldlM_ok (I := dg.Contained N keypairs moment conns) (fun kp hkp conns₁ h₁ => ?_) (.refl hconns)
      obtain ⟨kp, i⟩ := kp
      have hkp' := hkeys kp (List.fst_mem_of_mem_zipIdx hkp)
      obtain ⟨conns₂, heq, hwf, htouch⟩ := clientHelloNoise_ok debug moment.nowNs hN hkp' h₁.wf hlen hplain hpattern
        fun remote n hopened => hbare.noiseHello kp i remote n hkp hopened
      refine ⟨conns₂, heq, hwf, fun bits hbits => (h₁.touches bits hbits).trans (htouch bits fun remote n hopened => ?_)⟩
      obtain ⟨_, _, _, -, -, -, hbuild, hread, hremote⟩ := id hopened
      obtain ⟨b, hb⟩ := keyBits_ok (hN.answers _ _ _ _ _ _ _ _ _ hbuild hread hremote).1
      rw [← hbits b (.noise hkp hopened hb), hb]

/-! ### Packets over a connection -/

theorem connectedPacket_ok (key : ConnectionKey) (timestampNs : ℕ) (hconn : conn.Wf) (hlen : 6 ≤ dg.bytes.length) :
    ∃ r received, connectedPacket key conn dg timestampNs = .ok (r, received) ∧ ∀ conn', r = some conn' → conn'.Wf := by
  have hsame : ∃ r received, (pure (some conn, []) : Except Panic (Option (ConnectionTrackingData N) ×
      List (Received ConnectionKey))) = .ok (r, received) ∧ ∀ conn', r = some conn' → conn'.Wf :=
    ⟨some conn, [], rfl, fun conn' h => some.inj h ▸ hconn⟩
  unfold connectedPacket
  have hstate := hconn.state
  cases hc : conn.connectionState with
  | connected cipher magic1 sequence jumboIndex keepAlive recvTime =>
    rw [hc] at hstate
    obtain ⟨overhead, hoverhead⟩ := isSome_iff_exists.mp hstate
    dsimp only
    rw [slice_from hlen, ok_bind]
    split
    · next payload cipher' hopened =>
      obtain ⟨slots, received, hpacklets, hslots⟩ := packlets_ok key (smallestFrame - 6 - overhead - 2) payload.length
        payload conn.jumboReassembly [] hconn.slots le_rfl
      rw [unwrap_eq_ok.mpr hoverhead, ok_bind, hpacklets, ok_bind]
      refine ⟨_, _, rfl, fun conn' hconn' => ?_⟩
      obtain ⟨slots', rfl, rfl⟩ := map_eq_some_iff.mp hconn'
      exact ⟨hstate, hslots slots' rfl⟩
    · exact hsame
  | sendingClientHelloPlaintext => exact hsame
  | sendingClientHello => exact hsame
  | sendingServerHelloPlaintext => exact hsame
  | sendingServerHello => exact hsame

theorem connectionPacket_ok (debug : Bool) (key : ConnectionKey) (timestampNs : ℕ) (hN : N.Documented) (hconn : conn.Wf) (hlen : 6 ≤ dg.bytes.length)
    (heven : dg.firstSixBytes % 2 = 0) (hat : conns ⟨dg.ip, dg.port, dg.firstSixBytes % 2 ^ 16⟩ = some conn)
    (hbare : dg.Bare N keypairs moment conns) :
    ∃ r received, connectionPacket debug key conn dg timestampNs = .ok (r, received) ∧
      ∀ conn', r = some conn' → conn'.Wf := by
  have hkeep : ∀ conn' : ConnectionTrackingData N, conn'.Wf → ∃ r received, (pure (some conn', []) :
      Except Panic (Option (ConnectionTrackingData N) × List (Received ConnectionKey))) = .ok (r, received) ∧
      ∀ conn', r = some conn' → conn'.Wf :=
    fun conn' h => ⟨some conn', [], rfl, fun c hc => some.inj hc ▸ h⟩
  unfold connectionPacket
  have hstate := hconn.state
  cases hc : conn.connectionState with
  | sendingClientHelloPlaintext lastSent payload =>
    dsimp only
    by_cases hserver : dg.IsServerHello
    · have hlen' := hserver.2
      rw [if_neg (not_not.mpr hserver), slice_ok (by omega) (by omega), ok_bind]
      by_cases hkey : (dg.bytes.drop 6).take (6 + 32 - 6) = conn.otherTransportIdentity
      · have h38 := hbare.plainAnswer heven conn lastSent payload hat hc hserver hkey
        rw [if_neg (not_not.mpr hkey), ensure_ok (by omega), ok_bind]
        exact hkeep _ ⟨plainText_known, hconn.slots⟩
      · rw [if_pos hkey]
        exact hkeep conn hconn
    · rw [if_pos hserver]
      exact hkeep conn hconn
  | sendingClientHello magic1 lastSent payload handshake =>
    rw [hc] at hstate
    dsimp only
    by_cases hserver : dg.IsServerHello
    · rw [if_neg (not_not.mpr hserver), slice_from hlen, ok_bind]
      cases hread : N.readMessage handshake (dg.bytes.drop 6) with
      | mk handshake' n =>
        cases n with
        | none => exact hkeep _ ⟨⟨hstate.1, .refused hstate.2 hread⟩, hconn.slots⟩
        | some n =>
          obtain ⟨hfinished, hremote, hcipher⟩ := hN.finishes _ _ _ _ hstate.2 hread
          obtain ⟨remote, hremote⟩ := isSome_iff_exists.mp hremote
          obtain ⟨cipher, hcipher⟩ := isSome_iff_exists.mp hcipher
          have hn := hbare.noiseAnswer heven _ _ _ _ _ _ _ hat hc hserver hread
          dsimp only
          rw [ensure_ok fun _ => hfinished, ok_bind, ensure_ok hn, ok_bind, unwrap_eq_ok.mpr hremote, ok_bind,
            unwrap_eq_ok.mpr hcipher, ok_bind]
          exact hkeep _ ⟨hstate.1, hconn.slots⟩
    · rw [if_pos hserver]
      exact hkeep conn hconn
  | sendingServerHelloPlaintext => exact connectedPacket_ok key timestampNs ⟨plainText_known, hconn.slots⟩ hlen
  | sendingServerHello cipher magic1 lastSent payload =>
    rw [hc] at hstate
    dsimp only
    rw [slice_from hlen, ok_bind]
    split_ifs
    · exact hkeep conn hconn
    · exact connectedPacket_ok key timestampNs ⟨hstate, hconn.slots⟩ hlen
  | connected => exact connectedPacket_ok key timestampNs hconn hlen

theorem receive_ok (hN : N.Documented) (hkeys : ∀ kp ∈ keypairs, kp.Usable N) (hconns : ConnectionsMap.Wf conns)
    (hbare : 6 ≤ dg.bytes.length → dg.bytes.length ≤ biggestFrame → dg.Bare N keypairs moment conns) :
    ∃ conns' received, receive debug keypairs conns dg moment = .ok (conns', received) ∧
      dg.Contained N keypairs moment conns conns' := by
  unfold receive
  by_cases hbig : biggestFrame < dg.bytes.length
  · rw [if_pos hbig]
    exact ⟨conns, [], rfl, .refl hconns⟩
  by_cases hshort : dg.bytes.length < 6
  · rw [if_neg hbig, if_pos hshort]
    exact ⟨conns, [], rfl, .refl hconns⟩
  have hbare := hbare (by omega) (by omega)
  rw [if_neg hbig, if_neg hshort]
  by_cases hodd : dg.firstSixBytes % 2 ≠ 0
  · obtain ⟨conns', heq, hcontained⟩ := clientHello_ok debug hN hkeys hconns (by omega) hbare
    rw [if_pos hodd, heq]
    exact ⟨conns', [], rfl, hcontained⟩
  · rw [if_neg hodd]
    dsimp only
    cases hat : conns ⟨dg.ip, dg.port, dg.firstSixBytes % 2 ^ 16⟩ with
    | none => exact ⟨conns, [], rfl, .refl hconns⟩
    | some conn =>
      obtain ⟨r, received, heq, hwf⟩ := connectionPacket_ok debug ⟨dg.ip, dg.port, dg.firstSixBytes % 2 ^ 16⟩
        moment.timestampNs hN (hconns _ _ hat) (by omega) (not_not.mp hodd) hat hbare
      dsimp only
      rw [heq]
      refine ⟨_, _, rfl, hconns.update hwf, fun bits hbits => ?_⟩
      rw [← hbits _ (.packet (not_not.mp hodd))]
      exact Touches.update _ _ _

theorem bare_of_receive (hlen : 6 ≤ dg.bytes.length) (hbig : dg.bytes.length ≤ biggestFrame)
    (h : receive debug keypairs conns dg moment = .ok (conns', received)) :
    dg.Bare N keypairs moment conns := by
  unfold receive at h
  rw [if_neg (by omega), if_neg (by omega)] at h
  refine ⟨fun hplain hkp => ?_, fun kp i remote n hkp hopened => ?_, fun heven conn lastSent payload hat hc hserver hkey => ?_,
    fun heven conn magic1 lastSent payload handshake handshake' n hat hc hserver hread => ?_⟩
  · obtain ⟨kp, hkp, hmagic⟩ := hkp
    rw [if_pos (by rw [hplain]; decide)] at h
    obtain ⟨conns₁, hhello, -⟩ := bind_eq_ok.mp h
    rw [clientHello, if_pos hplain] at hhello
    obtain ⟨conns₂, conns₃, hturn⟩ := foldlM_turn hhello hkp
    by_contra hlong
    rw [clientHelloPlaintext, if_neg (not_not.mpr hmagic), if_neg (by omega), slice_ok (by omega) (by omega), ok_bind] at hturn
    obtain ⟨_, hensure, -⟩ := bind_eq_ok.mp hturn
    have := ensure_eq_ok.mp hensure
    omega
  · obtain ⟨pattern, hs, hs', hplain, hmagic, hpattern, hbuild, hread, hremote⟩ := hopened
    have hodd := cryptoString_odd hpattern
    rw [if_pos (by omega)] at h
    obtain ⟨conns₁, hhello, -⟩ := bind_eq_ok.mp h
    rw [clientHello, if_neg hplain, hpattern] at hhello
    obtain ⟨conns₂, conns₃, hturn⟩ := foldlM_turn hhello hkp
    rw [clientHelloNoise, if_neg (not_not.mpr hmagic), unwrap_eq_ok.mpr hbuild, ok_bind, slice_from hlen, ok_bind,
      hread] at hturn
    dsimp only at hturn
    rw [hremote] at hturn
    obtain ⟨_, hensure, -⟩ := bind_eq_ok.mp hturn
    exact ensure_eq_ok.mp hensure
  · rw [if_neg (not_not.mpr heven)] at h
    dsimp only at h
    rw [hat] at h
    obtain ⟨⟨r, received'⟩, hpacket, -⟩ := bind_eq_ok.mp h
    have hlen' := hserver.2
    rw [connectionPacket, hc] at hpacket
    dsimp only at hpacket
    rw [if_neg (not_not.mpr hserver), slice_ok (by omega) (by omega), ok_bind, if_neg (not_not.mpr hkey)] at hpacket
    obtain ⟨_, hensure, -⟩ := bind_eq_ok.mp hpacket
    exact (ensure_eq_ok.mp hensure).le
  · rw [if_neg (not_not.mpr heven)] at h
    dsimp only at h
    rw [hat] at h
    obtain ⟨⟨r, received'⟩, hpacket, -⟩ := bind_eq_ok.mp h
    rw [connectionPacket, hc] at hpacket
    dsimp only at hpacket
    rw [if_neg (not_not.mpr hserver), slice_from hlen, ok_bind, hread] at hpacket
    obtain ⟨_, -, hpacket⟩ := bind_eq_ok.mp hpacket
    obtain ⟨_, hensure, -⟩ := bind_eq_ok.mp hpacket
    exact ensure_eq_ok.mp hensure

/-! ### Every state a node reaches -/

/-- The connections a node can come to have: it connects to addresses, receives datagrams, and services its connections
and sends messages over them. -/
inductive Reached (N : Noise) (debug : Bool) (keypairs : List IdentityKeyPair) : ConnectionsMap N → Prop
  | start : Reached N debug keypairs Table.empty
  | connect {conns conns' : ConnectionsMap N} {address : STPAddress} {now seed : ℕ} (hconns : Reached N debug keypairs conns)
      (h : connectTo conns keypairs address now seed = .ok conns') : Reached N debug keypairs conns'
  | receive {conns conns' : ConnectionsMap N} {dg : Datagram} {moment : Moment} {received : List (Received ConnectionKey)}
      (hconns : Reached N debug keypairs conns) (h : receive debug keypairs conns dg moment = .ok (conns', received)) :
      Reached N debug keypairs conns'
  | retain {conns conns' : ConnectionsMap N} {order : List ConnectionKey} {now : ℕ} {sent : List Datagram}
      (hconns : Reached N debug keypairs conns) (hnodup : order.Nodup) (horder : ∀ key, key ∈ order ↔ (conns key).isSome)
      (h : retain debug now order conns = .ok (conns', sent)) : Reached N debug keypairs conns'
  | send {conns conns' : ConnectionsMap N} {shuffle : Shuffle} {packets : List Packet} {sent : List Datagram}
      (hconns : Reached N debug keypairs conns) (h : sendPackets debug shuffle conns 0 packets = .ok (conns', sent)) :
      Reached N debug keypairs conns'
  | allocate {conns : ConnectionsMap N} (key : ConnectionKey) (hconns : Reached N debug keypairs conns) :
      Reached N debug keypairs (allocateJumbogramId conns key).1

theorem ConnectionTrackingData.create_wf (h : ConnectionTrackingData.create kp ip port identity now state = .ok conn)
    (hstate : state.Wf) : conn.Wf := by
  obtain ⟨bits, -, h⟩ := bind_eq_ok.mp h
  obtain rfl := pure_eq_ok.mp h
  exact ⟨hstate, JumboReassembly.wf_empty⟩

theorem connectToEndpoint_wf (hconns : ConnectionsMap.Wf conns)
    (h : connectToEndpoint conns kp endpoint now seed = .ok conns') :
    ConnectionsMap.Wf conns' := by
  unfold connectToEndpoint at h
  split_ifs at h with hself hplain
  · exact pure_eq_ok.mp h ▸ hconns
  · obtain ⟨_, -, h⟩ := bind_eq_ok.mp h
    obtain ⟨_, -, h⟩ := bind_eq_ok.mp h
    obtain ⟨bits, -, h⟩ := bind_eq_ok.mp h
    obtain ⟨conn, hconn, h⟩ := bind_eq_ok.mp h
    obtain rfl := pure_eq_ok.mp h
    exact hconns.update fun c hc => some.inj hc ▸ create_wf hconn trivial
  · obtain ⟨_, -, h⟩ := bind_eq_ok.mp h
    obtain ⟨pattern, hpattern, h⟩ := bind_eq_ok.mp h
    obtain ⟨handshake, hbuild, h⟩ := bind_eq_ok.mp h
    obtain ⟨message, hwrite, h⟩ := bind_eq_ok.mp h
    obtain ⟨bits, -, h⟩ := bind_eq_ok.mp h
    obtain ⟨conn, hconn, h⟩ := bind_eq_ok.mp h
    obtain rfl := pure_eq_ok.mp h
    have hawaiting : N.Awaiting (N.writeMessage handshake).1 :=
      .sent (unwrap_eq_ok.mp hbuild) (Prod.ext rfl (unwrap_eq_ok.mp hwrite))
    refine hconns.update fun c hc => some.inj hc ▸ create_wf hconn ⟨?_, hawaiting⟩
    exact cryptoOverhead_isSome (unwrap_eq_ok.mp hpattern)

theorem connectTo_wf (hconns : ConnectionsMap.Wf conns) (h : connectTo conns keypairs address now seed = .ok conns') :
    ConnectionsMap.Wf conns' := by
  rw [connectTo] at h
  obtain ⟨bits, -, h⟩ := bind_eq_ok.mp h
  split_ifs at h with hknown
  · exact pure_eq_ok.mp h ▸ hconns
  cases hfind : keypairs.find? fun kp => address.magic1 = kp.magic1 with
  | none =>
    rw [hfind] at h
    exact pure_eq_ok.mp h ▸ hconns
  | some kp =>
    rw [hfind] at h
    exact connectToEndpoint_wf hconns h

theorem helloTimers_wf (hconn : conn.Wf)
    (h : conn.helloTimers checks now lifetimeNs lastSent payload state = .ok (r, sent))
    (hstate : ∀ lastSent, (state lastSent).Wf) :
    ∀ conn', r = some conn' → conn'.Wf := by
  obtain ⟨timer, -, h⟩ := bind_eq_ok.mp h
  intro conn' hconn'
  match timer with
  | none =>
    cases pure_eq_ok.mp h
    cases hconn'
  | some (lastSent', sends) =>
    cases pure_eq_ok.mp h
    cases hconn'
    exact ⟨hstate lastSent', hconn.slots⟩

theorem timers_wf (hconn : conn.Wf) (h : conn.timers checks now = .ok (r, sent)) :
    ∀ conn', r = some conn' → conn'.Wf := by
  have hstate := hconn.state
  unfold timers at h
  cases hc : conn.connectionState with
  | sendingClientHelloPlaintext lastSent payload =>
    rw [hc] at h
    exact helloTimers_wf hconn h fun _ => trivial
  | sendingClientHello magic1 lastSent payload handshake =>
    rw [hc] at h hstate
    exact helloTimers_wf hconn h fun _ => hstate
  | sendingServerHelloPlaintext lastSent payload =>
    rw [hc] at h
    exact helloTimers_wf hconn h fun _ => trivial
  | sendingServerHello cipher magic1 lastSent payload =>
    rw [hc] at h hstate
    exact helloTimers_wf hconn h fun _ => hstate
  | connected cipher magic1 sequence jumboIndex keepAlive recvTime =>
    rw [hc] at h hstate
    obtain ⟨due, -, h⟩ := bind_eq_ok.mp h
    intro conn' hconn'
    split_ifs at h with hdue
    · obtain ⟨⟨sequence', bytes⟩, -, h⟩ := bind_eq_ok.mp h
      cases pure_eq_ok.mp h
      cases hconn'
      exact ⟨hstate, hconn.slots⟩
    · obtain ⟨timeout, -, h⟩ := bind_eq_ok.mp h
      split_ifs at h with hgone
      · cases pure_eq_ok.mp h
        cases hconn'
      · cases pure_eq_ok.mp h
        cases hconn'
        exact hconn

theorem retain_wf (hconns : ConnectionsMap.Wf conns) (h : retain checks now order conns = .ok (conns', sent)) :
    ConnectionsMap.Wf conns' := by
  refine foldlM_induction (R := fun _ (s : ConnectionsMap N × List Datagram) => ConnectionsMap.Wf s.1) h hconns
    fun pre key s₁ s₂ hs₁ hturn => ?_
  obtain ⟨conns₁, sent₁⟩ := s₁
  dsimp only at hturn hs₁
  cases hat : conns₁ key with
  | none =>
    rw [hat] at hturn
    exact pure_eq_ok.mp hturn ▸ hs₁
  | some conn =>
    rw [hat] at hturn
    obtain ⟨⟨conn', out⟩, htimers, hturn⟩ := bind_eq_ok.mp hturn
    exact pure_eq_ok.mp hturn ▸ hs₁.update (timers_wf (hs₁ _ _ hat) htimers)

theorem sendPacket_wf (hconns : ConnectionsMap.Wf conns)
    (h : sendPacket checks shuffle conns counter packet = .ok (conns', counter', sent)) :
    ConnectionsMap.Wf conns' := by
  unfold sendPacket at h
  split at h
  · next conn hat =>
    split at h
    · next cipher magic1 sequence jumboIndex keepAlive recvTime hc =>
      have hconn := hconns _ _ hat
      have hstate := hconn.state
      rw [hc] at hstate
      obtain ⟨overhead, -, h⟩ := bind_eq_ok.mp h
      obtain ⟨⟨jumboIndex', frames⟩, -, h⟩ := bind_eq_ok.mp h
      obtain ⟨⟨sequence', sent', counter''⟩, -, h⟩ := bind_eq_ok.mp h
      cases pure_eq_ok.mp h
      exact hconns.update fun c hc => some.inj hc ▸ ⟨hstate, hconn.slots⟩
    · cases pure_eq_ok.mp h
      exact hconns
  · cases pure_eq_ok.mp h
    exact hconns

theorem sendPackets_wf (hconns : ConnectionsMap.Wf conns)
    (h : sendPackets checks shuffle conns counter packets = .ok (conns', sent)) : ConnectionsMap.Wf conns' := by
  induction packets generalizing conns counter sent with
  | nil =>
    cases pure_eq_ok.mp h
    exact hconns
  | cons packet rest ih =>
    obtain ⟨⟨conns₁, counter₁, sent₁⟩, hpacket, h⟩ := bind_eq_ok.mp h
    have hconns₁ := sendPacket_wf hconns hpacket
    dsimp only at h
    split_ifs at h with hlimit
    · cases pure_eq_ok.mp h
      exact hconns₁
    · obtain ⟨⟨conns₂, later⟩, hrest, h⟩ := bind_eq_ok.mp h
      cases pure_eq_ok.mp h
      exact ih hconns₁ hrest

theorem allocateJumbogramId_wf (hconns : ConnectionsMap.Wf conns) (key : ConnectionKey) :
    ConnectionsMap.Wf (allocateJumbogramId conns key).1 := by
  unfold allocateJumbogramId
  split
  · exact hconns
  · next conn hat =>
    have hconn := hconns _ _ hat
    have hstate := hconn.state
    split
    · next hc =>
      rw [hc] at hstate
      exact hconns.update fun c hc => some.inj hc ▸ ⟨hstate, hconn.slots⟩
    · exact hconns

theorem Reached.wf (hN : N.Documented) (hkeys : ∀ kp ∈ keypairs, kp.Usable N) (h : Reached N debug keypairs conns) :
    ConnectionsMap.Wf conns := by
  induction h with
  | start => exact nofun
  | connect hconns h ih => exact connectTo_wf ih h
  | receive hconns h ih =>
    obtain ⟨conns₁, received, h₁, hcontained⟩ := receive_ok hN hkeys ih fun hlen hbig => bare_of_receive hlen hbig h
    cases h.symm.trans h₁
    exact hcontained.wf
  | retain hconns hnodup horder h ih => exact retain_wf ih h
  | send hconns h ih => exact sendPackets_wf ih h
  | allocate key hconns ih => exact allocateJumbogramId_wf ih key

/-- Handling a datagram ends without a panic, with at most the connection of its address and key bits changed, exactly
when nothing comes behind a hello in it. -/
theorem receive_robust_iff (hN : N.Documented) (hkeys : ∀ kp ∈ keypairs, kp.Usable N)
    (h : Reached N debug keypairs conns) (dg : Datagram) (moment : Moment) :
    (∃ conns' received, receive debug keypairs conns dg moment = .ok (conns', received) ∧
      ∃ key : ConnectionKey, key.ip = dg.ip ∧ key.port = dg.port ∧ (∀ k, k ≠ key → conns' k = conns k) ∧
        (conns' key ≠ conns key → dg.Carries N keypairs moment key.key15Bits)) ↔
      (6 ≤ dg.bytes.length → dg.bytes.length ≤ biggestFrame → dg.Bare N keypairs moment conns) := by
  constructor
  · rintro ⟨conns', received, hreceive, -⟩ hlen hbig
    exact bare_of_receive hlen hbig hreceive
  · intro hbare
    obtain ⟨conns', received, hreceive, hcontained⟩ := receive_ok hN hkeys (h.wf hN hkeys) hbare
    refine ⟨conns', received, hreceive, ?_⟩
    by_cases hcarries : ∃ bits, dg.Carries N keypairs moment bits
    · obtain ⟨bits, hbits⟩ := hcarries
      refine ⟨⟨dg.ip, dg.port, bits⟩, rfl, rfl, ?_, fun _ => hbits⟩
      exact hcontained.touches bits fun b hb => hb.unique hN hbits
    · have hany : ∀ bits, Touches ⟨dg.ip, dg.port, bits⟩ conns conns' := fun bits =>
        hcontained.touches bits fun b hb => absurd ⟨b, hb⟩ hcarries
      refine ⟨⟨dg.ip, dg.port, 0⟩, rfl, rfl, hany 0, fun hne => absurd (hany 1 _ (by simp)) hne⟩

/-! ### A library that computes -/

/-- A handshake without encryption: the first message is the initiator's key, then the payload. -/
structure OpenHandshake where
  initiator : Bool
  remote : Option (List UInt8)
  finished : Bool

def Noise.sample : Noise where
  Handshake := OpenHandshake
  Cipher := Unit
  buildInitiator _ _ _ remote _ := some ⟨true, some remote, false⟩
  buildResponder _ _ _ _ := some ⟨false, none, false⟩
  readMessage hs message :=
    if hs.initiator then ({ hs with finished := true }, some message.length)
    else if message.length < 32 then (hs, none)
    else ({ hs with remote := some (message.take 32) }, some (message.length - 32))
  writeMessage hs := ({ hs with finished := !hs.initiator }, some [])
  getRemoteStatic hs := hs.remote
  isHandshakeFinished hs := hs.finished
  intoStatelessTransportMode hs := if hs.finished then some () else none
  rekeyIncoming := id
  rekeyOutgoing := id
  decrypt _ _ message := some message
  encrypt _ _ payload := some payload

theorem sample_awaiting (h : Noise.sample.Awaiting hs) :
    OpenHandshake.initiator hs = true ∧ (OpenHandshake.remote hs).isSome := by
  induction h with
  | sent hbuild hwrite =>
    cases hbuild
    cases hwrite
    exact ⟨rfl, rfl⟩
  | refused hawaiting hread ih =>
    simp only [Noise.sample, ih.1, if_true] at hread
    cases hread

theorem sample_documented : Noise.sample.Documented where
  finishes hs message hs' n hawaiting hread := by
    have h := sample_awaiting hawaiting
    simp only [Noise.sample, h.1, if_true] at hread
    cases hread
    exact ⟨rfl, h.2, rfl⟩
  answers pattern prologue privateKey seed hs message hs' n remote hbuild hread hremote := by
    cases hbuild
    simp only [Noise.sample, Bool.false_eq_true, if_false] at hread
    split_ifs at hread with hshort
    · cases (Prod.mk.inj hread).2
    · obtain ⟨rfl, -⟩ := Prod.mk.inj hread
      obtain rfl : message.take 32 = remote := some.inj hremote
      refine ⟨?_, _, _, rfl, rfl, rfl⟩
      rw [List.length_take]
      omega
  oneRemote pattern prologue message privateKey₁ seed₁ hs₁ hs₁' n₁ privateKey₂ seed₂ hs₂ hs₂' n₂ hbuild₁ hread₁
      hbuild₂ hread₂ := by
    cases hbuild₁
    cases hbuild₂
    cases hread₁.symm.trans hread₂
    rfl

def sampleKeypairs : List IdentityKeyPair :=
  [⟨connectMagic1Blake2s, List.replicate 32 1, List.replicate 32 2⟩,
    ⟨connectMagic1PlainText, List.replicate 32 1, List.replicate 32 2⟩]

theorem sampleKeypairs_usable : ∀ kp ∈ sampleKeypairs, kp.Usable Noise.sample := by
  intro kp hkp
  have hlength : ∀ kp ∈ sampleKeypairs, kp.publicKey.length = 32 := by decide
  exact ⟨hlength kp hkp, fun _ _ _ _ _ => rfl⟩

def sampleHello (magic1 : ℕ) (rest : List UInt8) : Datagram := ⟨1, 2, leBytes 6 magic1 ++ rest⟩

def sampleMoment : Moment := ⟨0, 0, fun _ => 0⟩

theorem receive_robust_iff_sampleHello : ∃ (conns' : ConnectionsMap Noise.sample) (received : _),
    receive true sampleKeypairs Table.empty (sampleHello connectMagic1Blake2s (List.replicate 32 3)) sampleMoment =
      .ok (conns', received) := by
  have hbare : (sampleHello connectMagic1Blake2s (List.replicate 32 3)).Bare Noise.sample sampleKeypairs sampleMoment
      Table.empty := by
    refine ⟨fun hplain => absurd hplain (by decide), fun kp i remote n _ hopened => ?_, nofun, nofun⟩
    obtain ⟨pattern, hs, hs', -, -, -, hbuild, hread, -⟩ := hopened
    cases hbuild
    cases hread
    rfl
  obtain ⟨conns', received, h, -⟩ := (receive_robust_iff sample_documented sampleKeypairs_usable
    (Reached.start : Reached Noise.sample true sampleKeypairs _) _ sampleMoment).mpr fun _ _ => hbare
  exact ⟨conns', received, h⟩

/-- One byte behind a hello, from anyone, stops a node that has just started: with a handshake or in plain text. -/
theorem hello_with_payload_panics :
    receive true sampleKeypairs (Table.empty : ConnectionsMap Noise.sample)
        (sampleHello connectMagic1Blake2s (List.replicate 32 3 ++ [0])) sampleMoment = .error .assert ∧
      receive true sampleKeypairs (Table.empty : ConnectionsMap Noise.sample)
        (sampleHello connectMagic1PlainText (List.replicate 32 3 ++ [0])) sampleMoment = .error .assert := by
  constructor
  · exact errorOf_eq_some.mp (by decide +kernel)
  · exact errorOf_eq_some.mp (by decide +kernel)

end Crosslink.Transport
