import Crosslink.Transport.Connections

/-!
# Two ends of a connection

Two nodes that connect to each other over Noise, as `service_connections` drives the connection either of them keeps
for the other. The Noise library is taken as what it promises: a handshake is a term, made of the fresh key of the one
who asks (`attempt`) and of the one who answers (`answer`); an answer is accepted by the attempt it answers and by no
other, and a packet is opened by the other end of the same handshake and by no one else. Packets may be lost, delayed,
reordered and duplicated: the network keeps every packet that was sent.

Attempts and answers are numbered in the order in which they are made. That order is what rules out two ends that hold
different handshakes: each end would have had to be made before the other.
-/

namespace Crosslink.Transport.Handshakes

open Fallible List Option

/-! ### One end -/

/-- `ConnectionState`, of a connection over Noise. A connection that is set up knows which end of the handshake it is. -/
inductive Phase where
  | sendingClientHello (attempt lastSentTimeNs : ℕ)
  | sendingServerHello (attempt answer lastSentTimeNs : ℕ)
  | connected (attempt answer : ℕ) (server : Bool) (lastSentKeepAliveTimeNs recvTimeNs : ℕ)
  deriving DecidableEq

/-- `ConnectionTrackingData`. -/
structure Tracking where
  creationTimeNs : ℕ
  phase : Phase
  deriving DecidableEq

inductive Wire where
  | clientHello (attempt : ℕ)
  | serverHello (attempt answer : ℕ)
  | data (attempt answer : ℕ) (server : Bool)
  deriving DecidableEq

/-- `connect_to`: nothing happens when there is a connection already. -/
def connectTo (conn : Option Tracking) (now fresh : ℕ) : Option Tracking :=
  match conn with
  | some conn => some conn
  | none => some ⟨now, .sendingClientHello fresh 0⟩

/-- A client hello. It is answered when there is no connection, or when we sent a hello ourselves and the key of the
client is the smaller one. -/
def receiveHello (clientSmaller : Bool) (conn : Option Tracking) (attempt now fresh : ℕ) : Option Tracking :=
  match conn with
  | none => some ⟨now, .sendingServerHello attempt fresh 0⟩
  | some conn =>
    match conn.phase with
    | .sendingClientHello _ _ =>
      if clientSmaller then some { conn with phase := .sendingServerHello attempt fresh 0 } else some conn
    | _ => some conn

/-- A packet over a connection that is set up; what it carries may be reason to kill the connection. -/
def receiveConnected (conn : Tracking) (attempt answer : ℕ) (server : Bool) (keepAlive : ℕ) (wire : Wire)
    (timestampNs : ℕ) (kills : Bool) : Option Tracking :=
  if wire = .data attempt answer (!server) then
    if kills then none else some { conn with phase := .connected attempt answer server keepAlive timestampNs }
  else some conn

def receivePacket (conn : Option Tracking) (wire : Wire) (timestampNs : ℕ) (kills : Bool) : Option Tracking :=
  match conn with
  | none => none
  | some conn =>
    match conn.phase with
    | .sendingClientHello attempt _ =>
      match wire with
      | .serverHello attempt' answer =>
        if attempt' = attempt then some { conn with phase := .connected attempt answer false 0 timestampNs }
        else some conn
      | _ => some conn
    | .sendingServerHello attempt answer _ =>
      if wire = .data attempt answer false then
        receiveConnected { conn with phase := .connected attempt answer true 0 timestampNs } attempt answer true 0 wire
          timestampNs kills
      else some conn
    | .connected attempt answer server keepAlive _ =>
      receiveConnected conn attempt answer server keepAlive wire timestampNs kills

/-- The half of `service_connections` that handles one packet. -/
def receive (clientSmaller : Bool) (conn : Option Tracking) (wire : Wire) (timestampNs now fresh : ℕ) (kills : Bool) :
    Option Tracking :=
  match wire with
  | .clientHello attempt => receiveHello clientSmaller conn attempt now fresh
  | wire => receivePacket conn wire timestampNs kills

/-- The timers of a connection: the connection afterwards, or nothing when it is given up, and what is sent. -/
def Tracking.timers (checks : Bool) (now : ℕ) (conn : Tracking) : Except Panic (Option Tracking × List Wire) :=
  match conn.phase with
  | .sendingClientHello attempt lastSent => do
    match ← helloTimer checks now conn.creationTimeNs 30000000000 lastSent with
    | none => return (none, [])
    | some (lastSent, sends) =>
      return (some { conn with phase := .sendingClientHello attempt lastSent },
        if sends then [.clientHello attempt] else [])
  | .sendingServerHello attempt answer lastSent => do
    match ← helloTimer checks now conn.creationTimeNs 15000000000 lastSent with
    | none => return (none, [])
    | some (lastSent, sends) =>
      return (some { conn with phase := .sendingServerHello attempt answer lastSent },
        if sends then [.serverHello attempt answer] else [])
  | .connected attempt answer server keepAlive recvTime => do
    let due ← addU checks 64 keepAlive 5000000000
    if due < now then
      return (some { conn with phase := .connected attempt answer server now recvTime }, [.data attempt answer server])
    let timeout ← addU checks 64 recvTime 15000000000
    if timeout < now then return (none, [])
    return (some conn, [])

def Tracking.sends (conn : Tracking) : List Wire :=
  match conn.phase with
  | .connected attempt answer server _ _ => [.data attempt answer server]
  | _ => []

/-! ### Two nodes -/

/-- Two nodes, everything either has sent, and the number of the next fresh key. -/
structure Peers where
  conns : Bool → Option Tracking
  wires : Bool → List Wire
  fresh : ℕ

inductive Event where
  | connect (now : ℕ)
  | receive (n timestampNs now : ℕ) (kills : Bool)
  | retain (now : ℕ)
  | send
  deriving DecidableEq

namespace Peers

def start : Peers := ⟨fun _ => none, fun _ => [], 0⟩

/-- The node `side` has its connection replaced, and has sent something. -/
def update (s : Peers) (side : Bool) (conn : Option Tracking) (sent : List Wire) : Peers :=
  ⟨Function.update s.conns side conn, Function.update s.wires side (s.wires side ++ sent), s.fresh + 1⟩

variable (checks : Bool) (keys : Bool → List UInt8)

def step (s : Peers) (e : Bool × Event) : Except Panic Peers :=
  match e.2 with
  | .connect now => return s.update e.1 (connectTo (s.conns e.1) now s.fresh) []
  | .receive n timestampNs now kills =>
    match (s.wires (!e.1))[n]? with
    | none => return s
    | some wire =>
      let conn := Handshakes.receive (keys (!e.1) < keys e.1) (s.conns e.1) wire timestampNs now s.fresh kills
      return s.update e.1 conn []
  | .retain now =>
    match s.conns e.1 with
    | none => return s
    | some conn => do
      let (conn, sent) ← conn.timers checks now
      return s.update e.1 conn sent
  | .send => return s.update e.1 (s.conns e.1) ((s.conns e.1).elim [] Tracking.sends)

def run (s : Peers) (events : List (Bool × Event)) : Except Panic Peers := events.foldlM (step checks keys) s

end Peers

/-! ### What a step can do -/

/-- The part of a connection that does not depend on the clock. -/
inductive Role where
  | client (attempt : ℕ)
  | server (attempt answer : ℕ)
  | connected (attempt answer : ℕ) (server : Bool)
  deriving DecidableEq

def Phase.role : Phase → Role
  | .sendingClientHello attempt _ => .client attempt
  | .sendingServerHello attempt answer _ => .server attempt answer
  | .connected attempt answer server _ _ => .connected attempt answer server

namespace Role

def own : Role → ℕ
  | client attempt => attempt
  | server _ answer => answer
  | connected attempt _ false => attempt
  | connected _ answer true => answer

def wire : Role → Wire
  | client attempt => .clientHello attempt
  | server attempt answer => .serverHello attempt answer
  | connected attempt answer isServer => .data attempt answer isServer

def Serves (attempt answer : ℕ) (r : Role) : Prop := r = server attempt answer ∨ r = connected attempt answer true

end Role

/-- How the role of a node changes when it sends nothing, given what the other node has sent. -/
inductive Moves (clientSmaller : Bool) (fresh : ℕ) (wires : List Wire) : Option Role → Option Role → Prop
  | stay (r : Option Role) : Moves clientSmaller fresh wires r r
  | attempt : Moves clientSmaller fresh wires none (some (.client fresh))
  | answer {a : ℕ} (h : .clientHello a ∈ wires) : Moves clientSmaller fresh wires none (some (.server a fresh))
  | yield {a c : ℕ} (h : .clientHello a ∈ wires) (hsmaller : clientSmaller = true) :
    Moves clientSmaller fresh wires (some (.client c)) (some (.server a fresh))
  | accepted {a b : ℕ} (h : .serverHello a b ∈ wires) :
    Moves clientSmaller fresh wires (some (.client a)) (some (.connected a b false))
  | opened {a b : ℕ} (h : .data a b false ∈ wires) :
    Moves clientSmaller fresh wires (some (.server a b)) (some (.connected a b true))
  | drop (r : Option Role) : Moves clientSmaller fresh wires r none

def roleOf (conn : Option Tracking) : Option Role := conn.map fun conn => conn.phase.role

section Moves

variable {clientSmaller kills checks : Bool} {fresh now timestampNs : ℕ} {wires : List Wire} {conn : Option Tracking}
  {wire : Wire}

theorem connectTo_moves : Moves clientSmaller fresh wires (roleOf conn) (roleOf (connectTo conn now fresh)) := by
  cases conn with
  | none => exact .attempt
  | some conn => exact .stay _

theorem receiveHello_moves (h : .clientHello a ∈ wires) :
    Moves clientSmaller fresh wires (roleOf conn) (roleOf (receiveHello clientSmaller conn a now fresh)) := by
  match conn with
  | none => exact .answer h
  | some ⟨_, .sendingClientHello _ _⟩ =>
    unfold receiveHello
    dsimp only
    split_ifs with hsmaller
    · exact .yield h hsmaller
    · exact .stay _
  | some ⟨_, .sendingServerHello _ _ _⟩ => exact .stay _
  | some ⟨_, .connected _ _ _ _ _⟩ => exact .stay _

theorem receivePacket_moves (h : wire ∈ wires) :
    Moves clientSmaller fresh wires (roleOf conn) (roleOf (receivePacket conn wire timestampNs kills)) := by
  match conn with
  | none => exact .stay _
  | some ⟨_, .sendingClientHello a _⟩ =>
    match wire, h with
    | .clientHello _, _ => exact .stay _
    | .data _ _ _, _ => exact .stay _
    | .serverHello a' b, h =>
      unfold receivePacket
      dsimp only
      split_ifs with heq
      · subst heq
        exact .accepted h
      · exact .stay _
  | some ⟨_, .sendingServerHello a b _⟩ =>
    unfold receivePacket
    dsimp only
    split_ifs with heq
    · subst heq
      unfold receiveConnected
      rw [if_pos (show Wire.data a b false = .data a b (!true) from rfl)]
      split_ifs
      · exact .drop _
      · exact .opened h
    · exact .stay _
  | some ⟨_, .connected a b server _ _⟩ =>
    unfold receivePacket receiveConnected
    dsimp only
    split_ifs
    · exact .drop _
    · exact .stay _
    · exact .stay _

theorem receive_moves (h : wire ∈ wires) :
    Moves clientSmaller fresh wires (roleOf conn)
      (roleOf (receive clientSmaller conn wire timestampNs now fresh kills)) := by
  cases wire with
  | clientHello a => exact receiveHello_moves h
  | serverHello a b => exact receivePacket_moves h
  | data a b server => exact receivePacket_moves h

theorem timers_cases {conn : Tracking} (h : conn.timers checks now = .ok (conn', sent)) :
    (conn' = none ∧ sent = []) ∨ (roleOf conn' = some conn.phase.role ∧ ∀ w ∈ sent, w = conn.phase.role.wire) := by
  obtain ⟨creation, phase⟩ := conn
  cases phase with
  | sendingClientHello a lastSent =>
    obtain ⟨timer, -, h⟩ := bind_eq_ok.mp h
    match timer, h with
    | none, h =>
      cases h
      exact .inl ⟨rfl, rfl⟩
    | some (lastSent, sends), h =>
      cases h
      refine .inr ⟨rfl, fun w hw => ?_⟩
      split_ifs at hw
      · exact mem_singleton.mp hw
      · cases hw
  | sendingServerHello a b lastSent =>
    obtain ⟨timer, -, h⟩ := bind_eq_ok.mp h
    match timer, h with
    | none, h =>
      cases h
      exact .inl ⟨rfl, rfl⟩
    | some (lastSent, sends), h =>
      cases h
      refine .inr ⟨rfl, fun w hw => ?_⟩
      split_ifs at hw
      · exact mem_singleton.mp hw
      · cases hw
  | connected a b server keepAlive recvTime =>
    obtain ⟨due, -, h⟩ := bind_eq_ok.mp h
    split_ifs at h with hdue
    · cases h
      exact .inr ⟨rfl, fun w hw => mem_singleton.mp hw⟩
    · obtain ⟨timeout, -, h⟩ := bind_eq_ok.mp h
      split_ifs at h with htimeout
      · cases h
        exact .inl ⟨rfl, rfl⟩
      · cases h
        exact .inr ⟨rfl, fun w hw => nomatch hw⟩

theorem sends_eq {conn : Tracking} : ∀ w ∈ conn.sends, w = conn.phase.role.wire := by
  obtain ⟨creation, phase⟩ := conn
  cases phase with
  | sendingClientHello a lastSent => exact fun w hw => nomatch hw
  | sendingServerHello a b lastSent => exact fun w hw => nomatch hw
  | connected a b server keepAlive recvTime => exact fun w hw => mem_singleton.mp hw

end Moves

namespace Peers

variable {checks : Bool} {keys : Bool → List UInt8} {s s' : Peers} {e : Bool × Event}

theorem step_cases (h : s.step checks keys e = .ok s') :
    s' = s ∨
    (∃ conn, s' = s.update e.1 conn [] ∧
      Moves (keys (!e.1) < keys e.1) s.fresh (s.wires (!e.1)) (roleOf (s.conns e.1)) (roleOf conn)) ∨
    ∃ conn sent, s' = s.update e.1 conn sent ∧ roleOf conn = roleOf (s.conns e.1) ∧
      ∀ w ∈ sent, ∃ r, roleOf conn = some r ∧ w = r.wire := by
  obtain ⟨side, event⟩ := e
  cases event with
  | connect now =>
    cases h
    exact .inr (.inl ⟨_, rfl, connectTo_moves⟩)
  | receive n timestampNs now kills =>
    unfold step at h
    dsimp only at h
    cases hwire : (s.wires (!side))[n]? with
    | none =>
      rw [hwire] at h
      cases h
      exact .inl rfl
    | some wire =>
      rw [hwire] at h
      cases h
      exact .inr (.inl ⟨_, rfl, receive_moves (mem_of_getElem? hwire)⟩)
  | retain now =>
    unfold step at h
    dsimp only at h
    cases hconn : s.conns side with
    | none =>
      rw [hconn] at h
      cases h
      exact .inl rfl
    | some conn =>
      rw [hconn] at h
      obtain ⟨⟨conn', sent⟩, htimers, h⟩ := bind_eq_ok.mp h
      cases h
      rcases timers_cases htimers with ⟨rfl, rfl⟩ | ⟨hrole, hsent⟩
      · exact .inr (.inl ⟨none, rfl, .drop _⟩)
      · exact .inr (.inr ⟨conn', sent, rfl, hrole, fun w hw => ⟨_, hrole, hsent w hw⟩⟩)
  | send =>
    cases h
    refine .inr (.inr ⟨_, _, rfl, rfl, fun w hw => ?_⟩)
    cases hconn : s.conns side with
    | none =>
      rw [hconn] at hw
      cases hw
    | some conn =>
      rw [hconn] at hw
      exact ⟨_, rfl, sends_eq w hw⟩

end Peers

/-! ### The order of attempts and answers -/

/-- The keys a node has made so far have numbers below its `bound`, the last one is that of its connection. Every answer
comes after its attempt, and a client sends packets under an answer before it makes its next key. -/
structure Ordered (s : Peers) (bound : Bool → ℕ) : Prop where
  le_fresh : ∀ side, bound side ≤ s.fresh
  current : ∀ side r, roleOf (s.conns side) = some r → r.own + 1 = bound side
  serves : ∀ side r a b, roleOf (s.conns side) = some r → r.Serves a b → a < b
  hello : ∀ side a, .clientHello a ∈ s.wires side → a < bound side
  reply : ∀ side a b, .serverHello a b ∈ s.wires side → a < b ∧ b < bound side ∧
    ∀ r, roleOf (s.conns side) = some r → r.own = b → r.Serves a b
  accepted : ∀ side a b, roleOf (s.conns side) = some (.connected a b false) → .serverHello a b ∈ s.wires (!side)
  opened : ∀ side a b, roleOf (s.conns side) = some (.connected a b true) → .data a b false ∈ s.wires (!side)
  data : ∀ side a b, .data a b false ∈ s.wires side → .serverHello a b ∈ s.wires (!side) ∧
    (a + 1 = bound side ∨ b + 1 < bound side) ∧
    ∀ r, roleOf (s.conns side) = some r → r.own = a → r = .connected a b false

theorem ordered_start : Ordered .start fun _ => 0 where
  le_fresh _ := le_rfl
  current _ _ h := nomatch h
  serves _ _ _ _ h := nomatch h
  hello _ _ h := nomatch h
  reply _ _ _ h := nomatch h
  accepted _ _ _ h := nomatch h
  opened _ _ _ h := nomatch h
  data _ _ _ h := nomatch h

section Order

variable {s : Peers} {bound bound' : Bool → ℕ} {side side' : Bool} {conn : Option Tracking} {sent : List Wire}

theorem Peers.conns_update_self : (s.update side conn sent).conns side = conn := Function.update_self ..

theorem Peers.conns_update_of_ne (h : side' ≠ side) : (s.update side conn sent).conns side' = s.conns side' :=
  Function.update_of_ne h ..

theorem Peers.wires_update_self : (s.update side conn sent).wires side = s.wires side ++ sent := Function.update_self ..

theorem Peers.wires_update_of_ne (h : side' ≠ side) : (s.update side conn sent).wires side' = s.wires side' :=
  Function.update_of_ne h ..

theorem Peers.mem_wires_update (h : w ∈ s.wires side') : w ∈ (s.update side conn sent).wires side' := by
  by_cases hside : side' = side
  · subst hside
    rw [Peers.wires_update_self]
    exact mem_append_left _ h
  · rwa [Peers.wires_update_of_ne hside]

theorem Ordered.update (h : Ordered s bound) (hother : bound' (!side) = bound (!side)) (hle : bound' side ≤ s.fresh + 1)
    (hcurrent : ∀ r, roleOf conn = some r → r.own + 1 = bound' side)
    (hserves : ∀ r a b, roleOf conn = some r → r.Serves a b → a < b)
    (hhello : ∀ a, .clientHello a ∈ s.wires side ++ sent → a < bound' side)
    (hreply : ∀ a b, .serverHello a b ∈ s.wires side ++ sent → a < b ∧ b < bound' side ∧
      ∀ r, roleOf conn = some r → r.own = b → r.Serves a b)
    (haccepted : ∀ a b, roleOf conn = some (.connected a b false) → .serverHello a b ∈ s.wires (!side))
    (hopened : ∀ a b, roleOf conn = some (.connected a b true) → .data a b false ∈ s.wires (!side))
    (hdata : ∀ a b, .data a b false ∈ s.wires side ++ sent → .serverHello a b ∈ s.wires (!side) ∧
      (a + 1 = bound' side ∨ b + 1 < bound' side) ∧
      ∀ r, roleOf conn = some r → r.own = a → r = .connected a b false) :
    Ordered (s.update side conn sent) bound' := by
  have hsides : ∀ side', side' = side ∨ (side' ≠ side ∧ side' = !side) := by
    intro side'
    cases side' <;> cases side <;> decide
  refine ⟨fun side' => ?_, fun side' r hr => ?_, fun side' r a b hr => ?_, fun side' a hmem => ?_,
    fun side' a b hmem => ?_, fun side' a b hr => ?_, fun side' a b hr => ?_, fun side' a b hmem => ?_⟩ <;>
  rcases hsides side' with rfl | ⟨hne, rfl⟩
  · exact hle
  · rw [hother]
    exact (h.le_fresh _).trans (Nat.le_succ _)
  · exact hcurrent r (by rwa [Peers.conns_update_self] at hr)
  · rw [hother]
    exact h.current _ r (by rwa [Peers.conns_update_of_ne hne] at hr)
  · exact hserves r a b (by rwa [Peers.conns_update_self] at hr)
  · exact h.serves _ r a b (by rwa [Peers.conns_update_of_ne hne] at hr)
  · exact hhello a (by rwa [Peers.wires_update_self] at hmem)
  · rw [hother]
    exact h.hello _ a (by rwa [Peers.wires_update_of_ne hne] at hmem)
  · rw [Peers.wires_update_self] at hmem
    rw [Peers.conns_update_self]
    exact hreply a b hmem
  · rw [Peers.wires_update_of_ne hne] at hmem
    rw [Peers.conns_update_of_ne hne, hother]
    exact h.reply _ a b hmem
  · exact Peers.mem_wires_update (haccepted a b (by rwa [Peers.conns_update_self] at hr))
  · exact Peers.mem_wires_update (h.accepted _ a b (by rwa [Peers.conns_update_of_ne hne] at hr))
  · exact Peers.mem_wires_update (hopened a b (by rwa [Peers.conns_update_self] at hr))
  · exact Peers.mem_wires_update (h.opened _ a b (by rwa [Peers.conns_update_of_ne hne] at hr))
  · rw [Peers.wires_update_self] at hmem
    rw [Peers.conns_update_self]
    obtain ⟨hreplied, hrest⟩ := hdata a b hmem
    exact ⟨Peers.mem_wires_update hreplied, hrest⟩
  · rw [Peers.wires_update_of_ne hne] at hmem
    rw [Peers.conns_update_of_ne hne, hother]
    obtain ⟨hreplied, hrest⟩ := h.data _ a b hmem
    exact ⟨Peers.mem_wires_update hreplied, hrest⟩

theorem Ordered.send (h : Ordered s bound) (hrole : roleOf conn = roleOf (s.conns side))
    (hsent : ∀ w ∈ sent, ∃ r, roleOf conn = some r ∧ w = r.wire) : Ordered (s.update side conn sent) bound := by
  rw [hrole] at hsent
  refine h.update rfl ((h.le_fresh side).trans (Nat.le_succ _)) ?_ ?_ (fun a hmem => ?_) (fun a b hmem => ?_) ?_ ?_
    (fun a b hmem => ?_)
  · rw [hrole]
    exact h.current side
  · rw [hrole]
    exact h.serves side
  · rcases mem_append.mp hmem with hmem | hmem
    · exact h.hello side a hmem
    · obtain ⟨r, hr, hw⟩ := hsent _ hmem
      have hcurrent := h.current side r hr
      cases r <;> cases hw
      exact Nat.lt_of_succ_le hcurrent.le
  · rw [hrole]
    rcases mem_append.mp hmem with hmem | hmem
    · exact h.reply side a b hmem
    · obtain ⟨r, hr, hw⟩ := hsent _ hmem
      have hcurrent := h.current side r hr
      cases r <;> cases hw
      refine ⟨h.serves side _ a b hr (.inl rfl), Nat.lt_of_succ_le hcurrent.le, fun r' hr' _ => .inl ?_⟩
      exact some.inj (hr'.symm.trans hr)
  · rw [hrole]
    exact h.accepted side
  · rw [hrole]
    exact h.opened side
  · rw [hrole]
    rcases mem_append.mp hmem with hmem | hmem
    · exact h.data side a b hmem
    · obtain ⟨r, hr, hw⟩ := hsent _ hmem
      have hcurrent := h.current side r hr
      cases r <;> cases hw
      exact ⟨h.accepted side a b hr, .inl hcurrent, fun r' hr' _ => some.inj (hr'.symm.trans hr)⟩

theorem Ordered.renew (h : Ordered s bound) (hrole : roleOf conn = some r) (hown : r.own = s.fresh)
    (hserves : ∀ a b, r.Serves a b → a < b) (hnew : ∀ a b server, r ≠ .connected a b server) :
    Ordered (s.update side conn []) (Function.update bound side (s.fresh + 1)) := by
  have hbound : Function.update bound side (s.fresh + 1) side = s.fresh + 1 := Function.update_self ..
  have hreplied : ∀ side' a b, .serverHello a b ∈ s.wires side' → a < b ∧ b < s.fresh := fun side' a b hmem =>
    ⟨(h.reply side' a b hmem).1, (h.reply side' a b hmem).2.1.trans_le (h.le_fresh side')⟩
  refine h.update (Function.update_of_ne (by cases side <;> decide) ..) hbound.le (fun r' hr' => ?_)
    (fun r' a b hr' => ?_) (fun a hmem => ?_) (fun a b hmem => ?_) (fun a b hr' => ?_) (fun a b hr' => ?_)
    (fun a b hmem => ?_)
  · rw [hbound, ← some.inj (hrole.symm.trans hr'), hown]
  · rw [← some.inj (hrole.symm.trans hr')]
    exact hserves a b
  · rw [append_nil] at hmem
    rw [hbound]
    exact (h.hello side a hmem).trans_le ((h.le_fresh side).trans (Nat.le_succ _))
  · rw [append_nil] at hmem
    obtain ⟨hlt, hfresh⟩ := hreplied side a b hmem
    refine ⟨hlt, by omega, fun r' hr' hb => ?_⟩
    rw [← some.inj (hrole.symm.trans hr')] at hb
    omega
  · exact absurd (some.inj (hrole.symm.trans hr')) (hnew a b false)
  · exact absurd (some.inj (hrole.symm.trans hr')) (hnew a b true)
  · rw [append_nil] at hmem
    have hreply := (h.data side a b hmem).1
    obtain ⟨hlt, hfresh⟩ := hreplied _ a b hreply
    refine ⟨hreply, .inr (by omega), fun r' hr' ha => ?_⟩
    rw [← some.inj (hrole.symm.trans hr')] at ha
    omega

theorem Ordered.keep (h : Ordered s bound)
    (hsame : ∀ r, roleOf conn = some r → ∃ r₀, roleOf (s.conns side) = some r₀ ∧ r.own = r₀.own ∧
      (∀ a b, r.Serves a b ↔ r₀.Serves a b) ∧ ∀ a b, r₀ = .connected a b false → r = r₀)
    (haccepted : ∀ a b, roleOf conn = some (.connected a b false) → .serverHello a b ∈ s.wires (!side))
    (hopened : ∀ a b, roleOf conn = some (.connected a b true) → .data a b false ∈ s.wires (!side)) :
    Ordered (s.update side conn []) bound := by
  refine h.update rfl ((h.le_fresh side).trans (Nat.le_succ _)) (fun r hr => ?_) (fun r a b hr hserves => ?_)
    (fun a hmem => ?_) (fun a b hmem => ?_) haccepted hopened (fun a b hmem => ?_)
  · obtain ⟨r₀, hr₀, hown, -⟩ := hsame r hr
    rw [hown]
    exact h.current side r₀ hr₀
  · obtain ⟨r₀, hr₀, -, hiff, -⟩ := hsame r hr
    exact h.serves side r₀ a b hr₀ ((hiff a b).mp hserves)
  · exact h.hello side a (by rwa [append_nil] at hmem)
  · obtain ⟨hlt, hbound, hrole⟩ := h.reply side a b (by rwa [append_nil] at hmem)
    refine ⟨hlt, hbound, fun r hr hb => ?_⟩
    obtain ⟨r₀, hr₀, hown, hiff, -⟩ := hsame r hr
    exact (hiff a b).mpr (hrole r₀ hr₀ (hown.symm.trans hb))
  · obtain ⟨hreply, hbound, hrole⟩ := h.data side a b (by rwa [append_nil] at hmem)
    refine ⟨hreply, hbound, fun r hr ha => ?_⟩
    obtain ⟨r₀, hr₀, hown, -, hconn⟩ := hsame r hr
    have hr₀' := hrole r₀ hr₀ (hown.symm.trans ha)
    rw [hconn a b hr₀', hr₀']

theorem Ordered.move (h : Ordered s bound) (hr : roleOf (s.conns side) = r) (hr' : roleOf conn = r')
    (hmove : Moves clientSmaller s.fresh (s.wires (!side)) r r') :
    ∃ bound', Ordered (s.update side conn []) bound' := by
  cases hmove with
  | stay =>
    refine ⟨bound, h.keep (fun r₁ h₁ => ⟨r₁, by rw [hr, ← hr', h₁], rfl, fun _ _ => Iff.rfl, fun _ _ _ => rfl⟩) ?_ ?_⟩
    · rw [hr', ← hr]
      exact h.accepted side
    · rw [hr', ← hr]
      exact h.opened side
  | attempt => exact ⟨_, h.renew hr' rfl (fun a b hs => by rcases hs with hs | hs <;> cases hs) nofun⟩
  | answer hhello =>
    refine ⟨_, h.renew hr' rfl (fun a b hs => ?_) nofun⟩
    rcases hs with hs | hs <;> cases hs
    exact (h.hello _ _ hhello).trans_le (h.le_fresh _)
  | yield hhello =>
    refine ⟨_, h.renew hr' rfl (fun a b hs => ?_) nofun⟩
    rcases hs with hs | hs <;> cases hs
    exact (h.hello _ _ hhello).trans_le (h.le_fresh _)
  | @accepted a b hreply =>
    refine ⟨bound, h.keep (fun r₁ h₁ => ?_) (fun a' b' h₁ => ?_) (fun a' b' h₁ => ?_)⟩
    · obtain rfl := some.inj (hr'.symm.trans h₁)
      refine ⟨_, hr, rfl, fun _ _ => iff_of_false ?_ ?_, nofun⟩ <;> (intro hs; rcases hs with hs | hs <;> cases hs)
    · cases hr'.symm.trans h₁
      exact hreply
    · cases hr'.symm.trans h₁
  | @opened a b hdata =>
    refine ⟨bound, h.keep (fun r₁ h₁ => ?_) (fun a' b' h₁ => ?_) (fun a' b' h₁ => ?_)⟩
    · obtain rfl := some.inj (hr'.symm.trans h₁)
      refine ⟨_, hr, rfl, fun a' b' => ?_, nofun⟩
      unfold Role.Serves
      simp
    · cases hr'.symm.trans h₁
    · cases hr'.symm.trans h₁
      exact hdata
  | drop =>
    have hnone : ∀ r₁, roleOf conn ≠ some r₁ := fun r₁ h₁ => nomatch hr'.symm.trans h₁
    exact ⟨bound, h.keep (fun r₁ h₁ => absurd h₁ (hnone r₁)) (fun _ _ h₁ => absurd h₁ (hnone _))
      fun _ _ h₁ => absurd h₁ (hnone _)⟩

theorem Ordered.step {checks : Bool} {keys : Bool → List UInt8} {s' : Peers} {e : Bool × Event} (h : Ordered s bound)
    (hstep : s.step checks keys e = .ok s') : ∃ bound', Ordered s' bound' := by
  rcases Peers.step_cases hstep with rfl | ⟨conn, rfl, hmove⟩ | ⟨conn, sent, rfl, hrole, hsent⟩
  · exact ⟨bound, h⟩
  · exact h.move rfl rfl hmove
  · exact ⟨bound, h.send hrole hsent⟩

theorem Ordered.agree (h : Ordered s bound) (hr : roleOf (s.conns side) = some (.connected a b server))
    (hr' : roleOf (s.conns (!side)) = some (.connected a' b' server')) : a = a' ∧ b = b' ∧ server' = !server := by
  have hbound := h.current _ _ hr
  have hbound' := h.current _ _ hr'
  cases server <;> cases server'
  · -- two clients: each attempt is older than the answer it got, which is older than the other attempt
    obtain ⟨hlt, hb, hrole⟩ := h.reply _ a b (h.accepted _ a b hr)
    obtain ⟨hlt', hb', hrole'⟩ := h.reply _ a' b' (Bool.not_not side ▸ h.accepted _ a' b' hr')
    have hne : a' ≠ b := fun heq => by rcases hrole _ hr' heq with hs | hs <;> cases hs
    have hne' : a ≠ b' := fun heq => by rcases hrole' _ hr heq with hs | hs <;> cases hs
    simp only [Role.own] at hbound hbound'
    omega
  · have hdata := Bool.not_not side ▸ h.opened _ a' b' hr'
    obtain ⟨-, hor, hrole⟩ := h.data _ a' b' hdata
    obtain ⟨hlt, hb, -⟩ := h.reply _ a b (h.accepted _ a b hr)
    simp only [Role.own] at hbound hbound'
    by_cases heq : a = a'
    · cases hrole _ hr heq
      exact ⟨rfl, rfl, rfl⟩
    · omega
  · have hdata := h.opened _ a b hr
    obtain ⟨-, hor, hrole⟩ := h.data _ a b hdata
    obtain ⟨hlt, hb, -⟩ := h.reply _ a' b' (Bool.not_not side ▸ h.accepted _ a' b' hr')
    simp only [Role.own] at hbound hbound'
    by_cases heq : a' = a
    · cases hrole _ hr' heq
      exact ⟨rfl, rfl, rfl⟩
    · omega
  · -- two servers: each has got packets from a client that the other was before
    obtain ⟨-, hor, hrole⟩ := h.data _ a b (h.opened _ a b hr)
    obtain ⟨-, hor', hrole'⟩ := h.data _ a' b' (Bool.not_not side ▸ h.opened _ a' b' hr')
    have hne : b' ≠ a := fun heq => nomatch hrole _ hr' heq
    have hne' : b ≠ a' := fun heq => nomatch hrole' _ hr heq
    simp only [Role.own] at hbound hbound'
    omega

end Order

/-! ### Two servers -/

def Peers.Keeps (checks : Bool) (keys : Bool → List UInt8) : Peers → List (Bool × Event) → Prop
  | _, [] => True
  | s, e :: rest => ∀ s', s.step checks keys e = .ok s' →
    (∀ side, (s.conns side).isSome → (s'.conns side).isSome) ∧ Keeps checks keys s' rest

/-- A node that has sent a hello and is a server now has given way to the smaller key. -/
structure Settled (keys : Bool → List UInt8) (s : Peers) : Prop where
  hello : ∀ side a, .clientHello a ∈ s.wires side → ∃ r, roleOf (s.conns side) = some r ∧
    ∀ a' b, r.Serves a' b → keys (!side) < keys side
  serves : ∀ side r a b, roleOf (s.conns side) = some r → r.Serves a b → .clientHello a ∈ s.wires (!side)

section Settling

variable {checks : Bool} {keys : Bool → List UInt8} {s s' : Peers} {conn : Option Tracking} {side : Bool}

theorem settled_start : Settled keys .start where
  hello _ _ h := nomatch h
  serves _ _ _ _ h := nomatch h

theorem Settled.update (h : Settled keys s)
    (hhello : ∀ a, .clientHello a ∈ s.wires side ++ sent → ∃ r, roleOf conn = some r ∧ ∀ a' b, r.Serves a' b → keys (!side) < keys side)
    (hserves : ∀ r a b, roleOf conn = some r → r.Serves a b → .clientHello a ∈ s.wires (!side)) :
    Settled keys (s.update side conn sent) := by
  refine ⟨fun side' a hmem => ?_, fun side' r a b hr hs => ?_⟩ <;> by_cases hside : side' = side
  · subst hside
    rw [Peers.wires_update_self] at hmem
    rw [Peers.conns_update_self]
    exact hhello a hmem
  · rw [Peers.wires_update_of_ne hside] at hmem
    rw [Peers.conns_update_of_ne hside]
    exact h.hello side' a hmem
  · subst hside
    rw [Peers.conns_update_self] at hr
    exact Peers.mem_wires_update (hserves r a b hr hs)
  · rw [Peers.conns_update_of_ne hside] at hr
    exact Peers.mem_wires_update (h.serves side' r a b hr hs)

theorem Settled.move (h : Settled keys s) (hr : roleOf (s.conns side) = r) (hr' : roleOf conn = r')
    (hmove : Moves (keys (!side) < keys side) s.fresh (s.wires (!side)) r r') (hkeeps : r.isSome → r'.isSome) :
    Settled keys (s.update side conn []) := by
  have hnone : r = none → ∀ a, .clientHello a ∉ s.wires side := by
    intro hnone a hmem
    obtain ⟨r₀, hr₀, -⟩ := h.hello side a hmem
    rw [hr, hnone] at hr₀
    cases hr₀
  refine h.update (fun a hmem => ?_) fun r₁ a b h₁ hs => ?_
  · rw [append_nil] at hmem
    cases hmove with
    | stay => exact ⟨_, by rw [hr', ← hr]; exact (h.hello side a hmem).choose_spec.1, (h.hello side a hmem).choose_spec.2⟩
    | attempt => exact absurd hmem (hnone rfl a)
    | answer => exact absurd hmem (hnone rfl a)
    | yield _ hsmaller => exact ⟨_, hr', fun _ _ _ => of_decide_eq_true hsmaller⟩
    | accepted => exact ⟨_, hr', fun _ _ hs => by rcases hs with hs | hs <;> cases hs⟩
    | opened =>
      obtain ⟨r₀, hr₀, hsmaller⟩ := h.hello side a hmem
      obtain rfl := some.inj (hr.symm.trans hr₀)
      exact ⟨_, hr', fun _ _ _ => hsmaller _ _ (.inl rfl)⟩
    | drop =>
      obtain ⟨r₀, hr₀, -⟩ := h.hello side a hmem
      have := hkeeps (by rw [← hr, hr₀]; rfl)
      cases this
  · rw [hr'] at h₁
    cases hmove with
    | stay => exact h.serves side r₁ a b (hr.trans h₁) hs
    | attempt =>
      cases h₁
      rcases hs with hs | hs <;> cases hs
    | answer hhello =>
      cases h₁
      rcases hs with hs | hs <;> cases hs
      exact hhello
    | yield hhello =>
      cases h₁
      rcases hs with hs | hs <;> cases hs
      exact hhello
    | accepted =>
      cases h₁
      rcases hs with hs | hs <;> cases hs
    | opened =>
      cases h₁
      rcases hs with hs | hs <;> cases hs
      exact h.serves side _ a b hr (.inl rfl)
    | drop => cases h₁

theorem Settled.step {e : Bool × Event} (h : Settled keys s) (hstep : s.step checks keys e = .ok s')
    (hkeeps : ∀ side, (s.conns side).isSome → (s'.conns side).isSome) : Settled keys s' := by
  rcases Peers.step_cases hstep with rfl | ⟨conn, rfl, hmove⟩ | ⟨conn, sent, rfl, hrole, hsent⟩
  · exact h
  · refine h.move rfl rfl hmove fun hsome => ?_
    have := hkeeps e.1 (by simpa [roleOf] using hsome)
    rw [Peers.conns_update_self] at this
    simpa [roleOf] using this
  · refine h.update (fun a hmem => ?_) fun r a b hr hs => h.serves e.1 r a b (hrole ▸ hr) hs
    rcases mem_append.mp hmem with hmem | hmem
    · rw [hrole]
      exact h.hello e.1 a hmem
    · obtain ⟨r, hr, hw⟩ := hsent _ hmem
      refine ⟨r, hr, fun a' b hs => ?_⟩
      cases r <;> cases hw
      rcases hs with hs | hs <;> cases hs

end Settling

/-- An attempt that is given up, and a hello that arrives after it. The node with the smaller key (`true`) tries first. The
other tries twenty seconds later and gives way to the first one's hello; the first one gives up after its thirty
seconds, and then answers the hello of the other as if it had never tried. -/
def lateHello : List (Bool × Event) :=
  [(true, .connect 10000000000), (true, .retain 10000000000),
    (false, .connect 30000000000), (false, .retain 30000000000),
    (false, .receive 0 39000000000 39000000000 false),
    (true, .retain 40000000000), (true, .retain 40100000000),
    (true, .receive 0 41000000000 41000000000 false)]

end Crosslink.Transport.Handshakes
