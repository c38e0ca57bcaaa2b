import Crosslink.Transport.Reassembly

/-!
# Connections of the transport

A node keeps a map of connections, keyed by the address of the peer and fifteen bits of its key. A connection is set
up by a hello from each side, in plain text or with a Noise handshake, and then carries packets. This module is the
code as it is: `connectTo` starts a connection, `receive` is the half of `service_connections` that handles one
datagram, `retain` and `sendPackets` the half that keeps connections alive and sends. The Noise library is a
parameter.
-/

namespace Crosslink.Transport

open Codec Fallible

/-! ### Keys -/

def connectMagic1Blake2s : ℕ := 0x7193c304f8d5

def connectMagic1Blake2b : ℕ := 0xbe53b3641ce1

def connectMagic1PlainText : ℕ := 0x5bb22856ae53

def cryptoStringFromConnectMagic1 (magic : ℕ) : Option String :=
  if magic = connectMagic1Blake2s then some "Noise_IK_25519_ChaChaPoly_BLAKE2s"
  else if magic = connectMagic1Blake2b then some "Noise_IK_25519_ChaChaPoly_BLAKE2b"
  else if magic = connectMagic1PlainText then some "plaintext"
  else none

def cryptoOverheadFromConnectMagic1 (magic : ℕ) : Option ℕ :=
  if magic = connectMagic1Blake2s then some 16
  else if magic = connectMagic1Blake2b then some 16
  else if magic = connectMagic1PlainText then some 0
  else none

structure IdentityKeyPair where
  magic1 : ℕ
  privateKey : List UInt8
  publicKey : List UInt8
  deriving DecidableEq

structure STPAddress where
  ip : ℕ
  port : ℕ
  magic1 : ℕ
  key : List UInt8
  deriving DecidableEq

structure ConnectionKey where
  ip : ℕ
  port : ℕ
  key15Bits : ℕ
  deriving DecidableEq

/-- `load_u16(&key[0..2]) << 1`. -/
def keyBits (key : List UInt8) : Except Panic ℕ := do
  let start ← slice key 0 2
  return leNat start * 2 % 2 ^ 16

/-! ### The Noise library -/

/-- What the transport uses of the Noise library: handshakes, and the ciphers they end in. The seed of a handshake is
the randomness it draws from. -/
structure Noise where
  Handshake : Type
  Cipher : Type
  buildInitiator (pattern : String) (prologue privateKey remotePublicKey : List UInt8) (seed : ℕ) : Option Handshake
  buildResponder (pattern : String) (prologue privateKey : List UInt8) (seed : ℕ) : Option Handshake
  /-- The handshake after a message was offered to it, and the length of the payload when it is accepted. -/
  readMessage : Handshake → List UInt8 → Handshake × Option ℕ
  /-- The message with an empty payload. -/
  writeMessage : Handshake → Handshake × Option (List UInt8)
  getRemoteStatic : Handshake → Option (List UInt8)
  isHandshakeFinished : Handshake → Bool
  intoStatelessTransportMode : Handshake → Option Cipher
  rekeyIncoming : Cipher → Cipher
  rekeyOutgoing : Cipher → Cipher
  decrypt : Cipher → ℕ → List UInt8 → Option (List UInt8)
  encrypt : Cipher → ℕ → List UInt8 → Option (List UInt8)

variable {N : Noise}

structure ConnectionCipherTriplet (N : Noise) where
  old : N.Cipher
  current : N.Cipher
  new : N.Cipher

namespace ConnectionCipherTriplet

def newFromOldInitOnly (cipher : N.Cipher) : ConnectionCipherTriplet N :=
  let old := N.rekeyOutgoing cipher
  let current := N.rekeyIncoming old
  ⟨old, current, N.rekeyIncoming current⟩

def ratchetForwardIncoming (c : ConnectionCipherTriplet N) : ConnectionCipherTriplet N :=
  ⟨N.rekeyIncoming c.old, N.rekeyIncoming c.current, N.rekeyIncoming c.new⟩

/-- The payload of a message under the first of the three ciphers that opens it, and the ciphers afterwards. -/
def decrypt (c : ConnectionCipherTriplet N) (nonce : ℕ) (message : List UInt8) :
    Option (List UInt8 × ConnectionCipherTriplet N) :=
  match N.decrypt c.current nonce message with
  | some payload => some (payload, c)
  | none =>
    match N.decrypt c.old nonce message with
    | some payload => some (payload, c)
    | none =>
      match N.decrypt c.new nonce message with
      | some payload => some (payload, c.ratchetForwardIncoming)
      | none => none

end ConnectionCipherTriplet

/-! ### Connections -/

inductive ConnectionState (N : Noise) where
  | sendingClientHelloPlaintext (lastSentTimeNs : ℕ) (helloPacketPayload : List UInt8)
  | sendingClientHello (magic1 lastSentTimeNs : ℕ) (helloPacketPayload : List UInt8) (handshake : N.Handshake)
  | sendingServerHelloPlaintext (lastSentTimeNs : ℕ) (helloPacketPayload : List UInt8)
  | sendingServerHello (cipher : ConnectionCipherTriplet N) (magic1 lastSentTimeNs : ℕ) (helloPacketPayload : List UInt8)
  | connected (cipher : Option (ConnectionCipherTriplet N)) (magic1 sendSequenceNumber jumbogramIndex
      lastSentKeepAliveTimeNs recvTimeNs : ℕ)

structure ConnectionTrackingData (N : Noise) where
  creationTimeNs : ℕ
  myTransportIdentityKeypair : IdentityKeyPair
  twoByteSendPrefix : ℕ
  otherIp : ℕ
  otherPort : ℕ
  otherTransportIdentity : List UInt8
  connectionState : ConnectionState N
  jumboReassembly : JumboReassembly

abbrev ConnectionsMap (N : Noise) := Table ConnectionKey (ConnectionTrackingData N)

def ConnectionTrackingData.create (kp : IdentityKeyPair) (ip port : ℕ) (identity : List UInt8) (now : ℕ)
    (state : ConnectionState N) : Except Panic (ConnectionTrackingData N) := do
  let sendPrefix ← keyBits kp.publicKey
  return ⟨now, kp, sendPrefix, ip, port, identity, state, ∅⟩

def ConnectionState.established (cipher : Option (ConnectionCipherTriplet N)) (magic1 timestampNs : ℕ) :
    ConnectionState N :=
  .connected cipher magic1 0 0 0 timestampNs

/-- `connect_to_endpoint`. -/
def connectToEndpoint (conns : ConnectionsMap N) (kp : IdentityKeyPair) (endpoint : STPAddress) (now seed : ℕ) :
    Except Panic (ConnectionsMap N) := do
  if kp.publicKey = endpoint.key then return conns
  ensure (kp.magic1 = endpoint.magic1)
  let magic := leBytes 6 kp.magic1
  if kp.magic1 = connectMagic1PlainText then
    ensure (kp.publicKey.length = 32)
    let bits ← keyBits endpoint.key
    let conn ← ConnectionTrackingData.create kp endpoint.ip endpoint.port endpoint.key now
      (.sendingClientHelloPlaintext 0 (magic ++ kp.publicKey))
    return Function.update conns ⟨endpoint.ip, endpoint.port, bits⟩ (some conn)
  else
    let pattern ← unwrap (cryptoStringFromConnectMagic1 kp.magic1)
    let handshake ← unwrap (N.buildInitiator pattern magic kp.privateKey endpoint.key seed)
    let (handshake, message) := N.writeMessage handshake
    let message ← unwrap message
    let bits ← keyBits endpoint.key
    let conn ← ConnectionTrackingData.create kp endpoint.ip endpoint.port endpoint.key now
      (.sendingClientHello kp.magic1 0 (magic ++ message) handshake)
    return Function.update conns ⟨endpoint.ip, endpoint.port, bits⟩ (some conn)

/-- `connect_to`. Its error, an address already connected to or without a keypair for it, leaves the map as it is. -/
def connectTo (conns : ConnectionsMap N) (myKeypairs : List IdentityKeyPair) (address : STPAddress) (now seed : ℕ) :
    Except Panic (ConnectionsMap N) := do
  let bits ← keyBits address.key
  if (conns ⟨address.ip, address.port, bits⟩).isSome then return conns
  match myKeypairs.find? fun kp => address.magic1 = kp.magic1 with
  | some kp => connectToEndpoint conns kp address now seed
  | none => return conns

/-! ### One datagram -/

structure Datagram where
  ip : ℕ
  port : ℕ
  bytes : List UInt8
  deriving DecidableEq

/-- The clock when a datagram is handled, and the randomness of the handshake with each keypair. -/
structure Moment where
  timestampNs : ℕ
  nowNs : ℕ
  seed : ℕ → ℕ

/-- The first six bytes of a datagram, which say whether it is a client hello. -/
def Datagram.firstSixBytes (dg : Datagram) : ℕ := leNat (dg.bytes.take 6)

/-- The start of a server hello: the key's bits under thirty-two ones. -/
def serverHelloStart (kp : IdentityKeyPair) : Except Panic (List UInt8) := do
  let bits ← keyBits kp.publicKey
  return leBytes 6 (0xffffffff0000 ||| bits)

def serverHelloPlaintext (kp : IdentityKeyPair) : Except Panic (List UInt8) := do
  let start ← serverHelloStart kp
  ensure (kp.publicKey.length = 32)
  return start ++ kp.publicKey

/-- The answer to a handshake that was read, and the ciphers it ends in. -/
def serverHello (debug : Bool) (kp : IdentityKeyPair) (handshake : N.Handshake) :
    Except Panic (List UInt8 × ConnectionCipherTriplet N) := do
  let start ← serverHelloStart kp
  let (handshake, message) := N.writeMessage handshake
  let message ← unwrap message
  ensure (debug → N.isHandshakeFinished handshake)
  let cipher ← unwrap (N.intoStatelessTransportMode handshake)
  return (start ++ message, .newFromOldInitOnly cipher)

/-- A hello from `clientKey` to the keypair `kp`. It makes a new connection, or turns one that sends a hello of its
own into the server's side when the other key is the smaller one. -/
def acceptHello (conns : ConnectionsMap N) (kp : IdentityKeyPair) (dg : Datagram) (clientKey : List UInt8) (now : ℕ)
    (contested : ConnectionState N → Option ℕ) (magic1 : ℕ) (answer : ℕ → Except Panic (ConnectionState N)) :
    Except Panic (ConnectionsMap N) := do
  let bits ← keyBits clientKey
  let key : ConnectionKey := ⟨dg.ip, dg.port, bits⟩
  match conns key with
  | some existing =>
    if existing.myTransportIdentityKeypair = kp ∧ existing.otherTransportIdentity = clientKey then
      match contested existing.connectionState with
      | some magic1 =>
        if clientKey < kp.publicKey then
          let state ← answer magic1
          return Function.update conns key (some { existing with connectionState := state })
        else return conns
      | none => return conns
    else return conns
  | none =>
    let state ← answer magic1
    let conn ← ConnectionTrackingData.create kp dg.ip dg.port clientKey now state
    return Function.update conns key (some conn)

/-- The kind of encryption of a connection that sends a hello in plain text, or with a handshake, itself. -/
def ConnectionState.plainHello : ConnectionState N → Option ℕ
  | .sendingClientHelloPlaintext _ _ => some connectMagic1PlainText
  | _ => none

def ConnectionState.noiseHello : ConnectionState N → Option ℕ
  | .sendingClientHello magic1 _ _ _ => some magic1
  | _ => none

def clientHelloPlaintext (conns : ConnectionsMap N) (kp : IdentityKeyPair) (dg : Datagram) (now : ℕ) :
    Except Panic (ConnectionsMap N) := do
  if kp.magic1 ≠ connectMagic1PlainText then return conns
  if dg.bytes.length < 6 + 32 then return conns
  let clientKey ← slice dg.bytes 6 (6 + 32)
  -- the list of protocols is empty for now
  ensure (dg.bytes.length - 6 - 32 = 0)
  acceptHello conns kp dg clientKey now ConnectionState.plainHello connectMagic1PlainText fun _ => do
    let payload ← serverHelloPlaintext kp
    return .sendingServerHelloPlaintext 0 payload

/-- A client hello with a Noise handshake, against one of the keypairs. -/
def clientHelloNoise (debug : Bool) (pattern : String) (magic1 : ℕ) (conns : ConnectionsMap N) (kp : IdentityKeyPair)
    (dg : Datagram) (now seed : ℕ) : Except Panic (ConnectionsMap N) := do
  if kp.magic1 ≠ magic1 then return conns
  let handshake ← unwrap (N.buildResponder pattern (dg.bytes.take 6) kp.privateKey seed)
  let message ← slice dg.bytes 6 dg.bytes.length
  match N.readMessage handshake message with
  | (_, none) => return conns
  | (handshake, some listOfProtocolsLenBytes) =>
    match N.getRemoteStatic handshake with
    | none => return conns
    | some clientKey =>
      ensure (listOfProtocolsLenBytes = 0)
      acceptHello conns kp dg clientKey now ConnectionState.noiseHello magic1 fun magic1 => do
        let (payload, cipher) ← serverHello debug kp handshake
        return .sendingServerHello cipher magic1 0 payload

def clientHello (debug : Bool) (myListenKeypairs : List IdentityKeyPair) (conns : ConnectionsMap N) (dg : Datagram)
    (moment : Moment) : Except Panic (ConnectionsMap N) :=
  let magic1 := dg.firstSixBytes
  if magic1 = connectMagic1PlainText then
    myListenKeypairs.foldlM (fun conns kp => clientHelloPlaintext conns kp dg moment.nowNs) conns
  else
    match cryptoStringFromConnectMagic1 magic1 with
    | none => return conns
    | some pattern =>
      myListenKeypairs.zipIdx.foldlM (fun conns kp =>
        clientHelloNoise debug pattern magic1 conns kp.1 dg moment.nowNs (moment.seed kp.2)) conns

/-- A packet over a connection that is set up: the connection afterwards, or nothing when it has to be killed, and
what is handed to the application. -/
def connectedPacket (key : ConnectionKey) (conn : ConnectionTrackingData N) (dg : Datagram) (timestampNs : ℕ) :
    Except Panic (Option (ConnectionTrackingData N) × List (Received ConnectionKey)) := do
  let .connected cipher magic1 sequence jumboIndex keepAlive _ := conn.connectionState | return (some conn, [])
  let nonVirtualNonce := dg.firstSixBytes / 2 ^ 16
  let message ← slice dg.bytes 6 dg.bytes.length
  let opened : Option (List UInt8 × Option (ConnectionCipherTriplet N)) :=
    match cipher with
    | some cipher => (cipher.decrypt nonVirtualNonce message).map fun p => (p.1, some p.2)
    | none => some (message, none)
  let some (payload, cipher) := opened | return (some conn, [])
  let overhead ← unwrap (cryptoOverheadFromConnectMagic1 magic1)
  let mtuFragmented := smallestFrame - 6 - overhead - 2
  let (slots, received) ← packlets key mtuFragmented payload.length payload conn.jumboReassembly []
  let state : ConnectionState N := .connected cipher magic1 sequence jumboIndex keepAlive timestampNs
  return (slots.map fun slots => { conn with connectionState := state, jumboReassembly := slots }, received)

def Datagram.IsServerHello (dg : Datagram) : Prop := dg.firstSixBytes / 2 ^ 16 = 0xffffffff ∧ 6 + 32 ≤ dg.bytes.length

instance (dg : Datagram) : Decidable dg.IsServerHello := inferInstanceAs (Decidable (_ ∧ _))

/-- A packet that is no client hello, over the connection it names. -/
def connectionPacket (debug : Bool) (key : ConnectionKey) (conn : ConnectionTrackingData N) (dg : Datagram)
    (timestampNs : ℕ) : Except Panic (Option (ConnectionTrackingData N) × List (Received ConnectionKey)) := do
  match conn.connectionState with
  | .sendingClientHelloPlaintext _ _ =>
    if ¬ dg.IsServerHello then return (some conn, [])
    let serverKey ← slice dg.bytes 6 (6 + 32)
    if serverKey ≠ conn.otherTransportIdentity then return (some conn, [])
    ensure (dg.bytes.length = 6 + 32)
    return (some { conn with connectionState := .established none connectMagic1PlainText timestampNs }, [])
  | .sendingClientHello magic1 lastSent payload handshake =>
    if ¬ dg.IsServerHello then return (some conn, [])
    let message ← slice dg.bytes 6 dg.bytes.length
    match N.readMessage handshake message with
    | (handshake, none) =>
      return (some { conn with connectionState := .sendingClientHello magic1 lastSent payload handshake }, [])
    | (handshake, some payloadLen) =>
      ensure (debug → N.isHandshakeFinished handshake)
      ensure (payloadLen = 0)
      let _ ← unwrap (N.getRemoteStatic handshake)
      let cipher ← unwrap (N.intoStatelessTransportMode handshake)
      let state : ConnectionState N := .established (some (.newFromOldInitOnly cipher)) magic1 timestampNs
      return (some { conn with connectionState := state }, [])
  | .sendingServerHelloPlaintext _ _ =>
    connectedPacket key { conn with connectionState := .established none connectMagic1PlainText timestampNs } dg timestampNs
  | .sendingServerHello cipher magic1 _ _ =>
    let message ← slice dg.bytes 6 dg.bytes.length
    if (N.decrypt cipher.current (dg.firstSixBytes / 2 ^ 16) message).isNone then return (some conn, [])
    connectedPacket key { conn with connectionState := .established (some cipher) magic1 timestampNs } dg timestampNs
  | .connected .. => connectedPacket key conn dg timestampNs

/-- The half of `service_connections` that handles one datagram. A datagram that does not fit into the packet memory
is not received. -/
def receive (debug : Bool) (myListenKeypairs : List IdentityKeyPair) (conns : ConnectionsMap N) (dg : Datagram)
    (moment : Moment) : Except Panic (ConnectionsMap N × List (Received ConnectionKey)) := do
  if biggestFrame < dg.bytes.length then return (conns, [])
  if dg.bytes.length < 6 then return (conns, [])
  if dg.firstSixBytes % 2 ≠ 0 then
    let conns ← clientHello debug myListenKeypairs conns dg moment
    return (conns, [])
  else
    let key : ConnectionKey := ⟨dg.ip, dg.port, dg.firstSixBytes % 2 ^ 16⟩
    match conns key with
    | none => return (conns, [])
    | some conn =>
      let (conn, received) ← connectionPacket debug key conn dg moment.timestampNs
      return (Function.update conns key conn, received)

/-! ### The sending half -/

/-- When a hello is sent again and when the connection is given up: nothing when it is, otherwise the time of the last
hello and whether one is sent now. -/
def helloTimer (checks : Bool) (now creationTimeNs lifetimeNs lastSentTimeNs : ℕ) : Except Panic (Option (ℕ × Bool)) := do
  let due ← addU checks 64 lastSentTimeNs 2500000000
  if due < now then
    if lastSentTimeNs = 0 then
      let early ← subU checks 64 now 2500000000
      let sent ← addU checks 64 early 10000000
      return some (sent, true)
    return some (now, true)
  let given ← addU checks 64 creationTimeNs lifetimeNs
  if given < now then return none
  return some (lastSentTimeNs, false)

/-- The next packet over a connection: its sequence number in the clear and the payload, encrypted if there is a
cipher. -/
def sealPacket (checks : Bool) (sendPrefix : ℕ) (cipher : Option (ConnectionCipherTriplet N)) (sequence : ℕ)
    (payload : List UInt8) : Except Panic (ℕ × List UInt8) := do
  let next ← addU checks 64 sequence 1
  let body ← match cipher with
    | some cipher => unwrap (N.encrypt cipher.current sequence payload)
    | none => pure payload
  return (next, leBytes 2 sendPrefix ++ leBytes 4 (sequence % 2 ^ 32) ++ body)

def ConnectionTrackingData.helloTimers (checks : Bool) (now lifetimeNs lastSent : ℕ) (payload : List UInt8)
    (state : ℕ → ConnectionState N) (conn : ConnectionTrackingData N) :
    Except Panic (Option (ConnectionTrackingData N) × List Datagram) := do
  match ← helloTimer checks now conn.creationTimeNs lifetimeNs lastSent with
  | none => return (none, [])
  | some (lastSent, sends) =>
    return (some { conn with connectionState := state lastSent },
      if sends then [⟨conn.otherIp, conn.otherPort, payload⟩] else [])

/-- The timers of one connection: the connection afterwards, or nothing when it is dropped, and the datagrams that are
sent. -/
def ConnectionTrackingData.timers (checks : Bool) (now : ℕ) (conn : ConnectionTrackingData N) :
    Except Panic (Option (ConnectionTrackingData N) × List Datagram) :=
  match conn.connectionState with
  | .sendingClientHelloPlaintext lastSent payload =>
    conn.helloTimers checks now 30000000000 lastSent payload (.sendingClientHelloPlaintext · payload)
  | .sendingClientHello magic1 lastSent payload handshake =>
    conn.helloTimers checks now 30000000000 lastSent payload (.sendingClientHello magic1 · payload handshake)
  | .sendingServerHelloPlaintext lastSent payload =>
    conn.helloTimers checks now 15000000000 lastSent payload (.sendingServerHelloPlaintext · payload)
  | .sendingServerHello cipher magic1 lastSent payload =>
    conn.helloTimers checks now 15000000000 lastSent payload (.sendingServerHello cipher magic1 · payload)
  | .connected cipher magic1 sequence jumboIndex keepAlive recvTime => do
    let due ← addU checks 64 keepAlive 5000000000
    if due < now then
      let (sequence, bytes) ← sealPacket checks conn.twoByteSendPrefix cipher sequence []
      return (some { conn with connectionState := .connected cipher magic1 sequence jumboIndex now recvTime },
        [⟨conn.otherIp, conn.otherPort, bytes⟩])
    let timeout ← addU checks 64 recvTime 15000000000
    if timeout < now then return (none, [])
    return (some conn, [])

/-- The pass over all connections, in the order in which the map is iterated. -/
def retain (checks : Bool) (now : ℕ) (order : List ConnectionKey) (conns : ConnectionsMap N) :
    Except Panic (ConnectionsMap N × List Datagram) :=
  order.foldlM (fun (conns, sent) key => do
    let some conn := conns key | return (conns, sent)
    let (conn, out) ← conn.timers checks now
    return (Function.update conns key conn, sent ++ out)) (conns, [])

/-- A message to a peer, with the id of an earlier attempt at sending it. -/
structure Packet where
  key : ConnectionKey
  bytes : List UInt8
  jumboIdOverride : Option ℕ
  deriving DecidableEq

/-- An order in which the fragments of a message are sent. -/
structure Shuffle where
  run : List ℕ → List ℕ
  perm : ∀ l, (run l).Perm l

def fragmentPayload (debug : Bool) (jumboId : ℕ) (data : List UInt8) (fragMtu insideStp i : ℕ) :
    Except Panic (List UInt8) := do
  let fragment := (data.drop (i * fragMtu)).take fragMtu
  let hdr ← PackletHeader.new debug .oneJumboFragment (8 + fragment.length)
  let frag ← PackletOneJumboFragment.new debug jumboId data.length (i * fragMtu)
  return (hdr.writeTo ++ frag.writeTo ++ fragment).rightpad insideStp 0

def payloads (debug : Bool) (shuffle : Shuffle) (overhead jumboIndex : ℕ) (packet : Packet) :
    Except Panic (ℕ × List (List UInt8)) := do
  let insideStp := smallestFrame - 6 - overhead
  let mtuFragmented := insideStp - 2
  if mtuFragmented < packet.bytes.length then
    let fragMtu := mtuFragmented - 8
    ensure (debug → packet.jumboIdOverride.all fun id => id < maxJumbogramIds)
    let (jumboId, next) := match packet.jumboIdOverride with
      | some id => (id % maxJumbogramIds, jumboIndex)
      | none => (jumboIndex, (jumboIndex + 1) % 2 ^ 32 % maxJumbogramIds)
    let count := (packet.bytes.length + fragMtu - 1) / fragMtu
    let frames ← (shuffle.run (List.range count)).mapM (fragmentPayload debug jumboId packet.bytes fragMtu insideStp)
    return (next, frames)
  else
    let hdr ← PackletHeader.new debug .anEntireDatagram packet.bytes.length
    return (jumboIndex, [(hdr.writeTo ++ packet.bytes).rightpad insideStp 0])

/-- Sends the payloads one by one, until more than a thousand packets have gone out in this call. -/
def sendPayloads (checks : Bool) (sendPrefix : ℕ) (cipher : Option (ConnectionCipherTriplet N)) :
    ℕ → List (List UInt8) → ℕ → List (List UInt8) → Except Panic (ℕ × List (List UInt8) × ℕ)
  | sequence, [], counter, sent => return (sequence, sent, counter)
  | sequence, payload :: rest, counter, sent => do
    let (sequence, bytes) ← sealPacket checks sendPrefix cipher sequence payload
    ensure (bytes.length = smallestFrame)
    if 1000 < counter + 1 then return (sequence, sent ++ [bytes], counter + 1)
    sendPayloads checks sendPrefix cipher sequence rest (counter + 1) (sent ++ [bytes])

/-- One message of the list to send. A message for which there is no connection yet is passed over. -/
def sendPacket (checks : Bool) (shuffle : Shuffle) (conns : ConnectionsMap N) (counter : ℕ) (packet : Packet) :
    Except Panic (ConnectionsMap N × ℕ × List Datagram) := do
  let some conn := conns packet.key | return (conns, counter, [])
  let .connected cipher magic1 sequence jumboIndex keepAlive recvTime := conn.connectionState
    | return (conns, counter, [])
  let overhead ← unwrap (cryptoOverheadFromConnectMagic1 magic1)
  let (jumboIndex, frames) ← payloads checks shuffle overhead jumboIndex packet
  let (sequence, sent, counter) ← sendPayloads checks conn.twoByteSendPrefix cipher sequence frames counter []
  let state : ConnectionState N := .connected cipher magic1 sequence jumboIndex keepAlive recvTime
  return (Function.update conns packet.key (some { conn with connectionState := state }), counter,
    sent.map fun bytes => ⟨conn.otherIp, conn.otherPort, bytes⟩)

/-- `allocate_jumbogram_id`. -/
def allocateJumbogramId (conns : ConnectionsMap N) (key : ConnectionKey) : ConnectionsMap N × Option ℕ :=
  match conns key with
  | none => (conns, none)
  | some conn =>
    match conn.connectionState with
    | .connected cipher magic1 sequence jumboIndex keepAlive recvTime =>
      let next := (jumboIndex + 1) % 2 ^ 32 % maxJumbogramIds
      (Function.update conns key (some { conn with
        connectionState := .connected cipher magic1 sequence next keepAlive recvTime }), some jumboIndex)
    | _ => (conns, none)

def sendPackets (checks : Bool) (shuffle : Shuffle) :
    ConnectionsMap N → ℕ → List Packet → Except Panic (ConnectionsMap N × List Datagram)
  | conns, _, [] => return (conns, [])
  | conns, counter, packet :: rest => do
    let (conns, counter, sent) ← sendPacket checks shuffle conns counter packet
    if 1000 < counter then return (conns, sent)
    let (conns, later) ← sendPackets checks shuffle conns counter rest
    return (conns, sent ++ later)

end Crosslink.Transport
