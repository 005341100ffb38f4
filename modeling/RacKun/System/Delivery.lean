/-
  RacKun.System.Delivery — several nodes, their connections, and what is on its way from
  one to another.

  A connection is known at each end as a peer object; `link` leads from one end to the
  other. A copy in flight is delivered as one read, or lost; which one is next, nobody
  knows.
-/

import RacKun.Network.Run

namespace RacKun

structure Packet (ι : Type) where
  source : ι
  target : ι
  /-- The target's peer object for the connection. -/
  emitter : PeerRef
  bytes : Bytes
  deriving DecidableEq

def Packet.edge {ι : Type} (c : Packet ι) : ι × ι := (c.source, c.target)

structure System (ι : Type) where
  node : ι → Network
  link : ι → PeerRef → Option (ι × PeerRef)
  wire : List (Packet ι)

/-- What happens to a copy. -/
inductive Move (ι : Type) where
  | deliver (c : Packet ι)
  | lose (c : Packet ι)
  deriving DecidableEq

namespace System

variable {ι : Type} (sys : System ι)

/-- What a node sends is on its way. -/
def posted (i : ι) (es : List Effect) : List (Packet ι) :=
  es.filterMap fun
    | .sent p b => (sys.link i p).map fun e => ⟨i, e.1, e.2, b⟩
    | _ => none

variable [DecidableEq ι]

/-- A node has handled an event. -/
def after (i : ι) (s' : Network) : System ι :=
  { sys with
    node := Function.update sys.node i s'
    wire := sys.wire ++ sys.posted i ((sys.node i).effects s') }

variable [Platform]

inductive Step : System ι → Move ι → System ι → Prop
  | deliver {sys : System ι} {c : Packet ι} {l₁ l₂ : List (Packet ι)} {reached : Option Bytes} {s' : Network} :
    sys.wire = l₁ ++ c :: l₂ → Network.Step (sys.node c.target) (.read c.emitter c.bytes reached) s' →
    Step sys (.deliver c) ({ sys with wire := l₁ ++ l₂ }.after c.target s')
  | lose {sys : System ι} {c : Packet ι} {l₁ l₂ : List (Packet ι)} : sys.wire = l₁ ++ c :: l₂ →
    Step sys (.lose c) { sys with wire := l₁ ++ l₂ }

/-- The moves, one after the other. -/
inductive Run (sys : System ι) : List (Move ι) → System ι → Prop
  | refl : Run sys [] sys
  | step {moves : List (Move ι)} {sys' sys'' : System ι} {a : Move ι} :
    Run sys moves sys' → Step sys' a sys'' → Run sys (moves ++ [a]) sys''

end System

namespace Move

variable {ι : Type}

def delivered? : Move ι → Option (ι × ι)
  | deliver c => some c.edge
  | lose _ => none

def lost? : Move ι → Option (ι × ι)
  | deliver _ => none
  | lose c => some c.edge

end Move

/-! ## What a node did -/

def Effect.sent? : Effect → Option (PeerRef × Bytes)
  | .sent p b => some (p, b)
  | _ => none

def Effect.displayed? : Effect → Option Bytes
  | .displayed _ content => some content
  | _ => none

end RacKun
