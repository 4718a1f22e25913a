import CppDemos.Lib.Machine
import CppDemos.Group.Member

/-!
# A multicast group

One sender wrapper and any number of receiver wrappers in one conversation,
and the network between them. A group runs on two kinds of event: the sender
sends, or some member calls `update` at some clock reading and with some
results of `recvfrom`. Every datagram handed to `udp_output` stays in `net` for
good, so it can be read any number of times, in any order, arbitrarily late or
never; nothing else can be read. The parameter `hears` says whose datagrams a
member receives at all.

`GroupInv` is the joint invariant: every member's receiving half tracks one
list of messages, and every segment on the network is what its number says and
acknowledges only what its origin has accepted. In `Sending` that list is what
the sender has accepted, the sender's queues are the rest of its stream, and
no segment leaves the sender's buffer before some member it hears has accepted
it.
-/

namespace CppDemos

open Fragment (stream)

/-! ## The machine -/

inductive Member (ι : Type) where
  | sender
  | receiver (i : ι)
deriving DecidableEq, Repr

/-- `net` holds every datagram handed to `udp_output` so far, with its origin;
`accepted` the buffers for which the sender's `send` returned true; `delivered`
the messages passed to each member's `data_callback_`. -/
structure Group (ι : Type) where
  node : Member ι → KCPWrapper
  net : List (Member ι × Bytes)
  accepted : List Bytes
  delivered : Member ι → List Bytes

inductive Event (ι : Type) where
  | send (data : Bytes)
  | update (m : Member ι) (iclock : UInt32) (results : List RecvResult)

variable {ι : Type} [DecidableEq ι]

/-- The datagram is on the network, from a member that `m` hears. -/
def readable (hears : Member ι → Member ι → Bool) (net : List (Member ι × Bytes))
    (m : Member ι) : RecvResult → Bool
  | .failed => true
  | .datagram data => net.any fun sent => hears m sent.1 && sent.2 == data

def Group.send (g : Group ι) (data : Bytes) : Group ι :=
  let (w, ok) := (g.node .sender).send (some data) (UInt64.ofNat data.length)
  { g with
    node := Function.update g.node .sender w
    accepted := if ok then g.accepted ++ [data] else g.accepted }

def Group.update (g : Group ι) (m : Member ι) (iclock : UInt32) (results : List RecvResult) :
    Group ι :=
  let (w, sent, messages) := (g.node m).update iclock results
  { g with
    node := Function.update g.node m w
    net := g.net ++ sent.map fun data => (m, data)
    delivered := Function.update g.delivered m (g.delivered m ++ messages) }

/-- One event; `none` if it cannot happen. What a member hands to `udp_output`
in an update may come back to it in the same update. -/
def Group.step (hears : Member ι → Member ι → Bool) (g : Group ι) : Event ι → Option (Group ι)
  | .send data => if data.length < 2 ^ 31 then some (g.send data) else none
  | .update m iclock results =>
      if results.all (readable hears (g.update m iclock results).net m) then
        some (g.update m iclock results)
      else none

/-- All members freshly initialised with the same conversation id, receivers
with a callback, nothing sent yet. -/
structure Group.Fresh (conv : UInt32) (g : Group ι) : Prop where
  init : ∀ m, ∃ (env : InitEnv) (ip : Bytes) (port : UInt16) (c : UInt32) (w : KCPWrapper),
    KCPWrapper.init {} env ip port c = (w, true) ∧ actualConv c = conv ∧
      (g.node m = w ∨ g.node m = w.setDataCallback)
  callback : ∀ i, (g.node (.receiver i)).dataCallback = true
  net : g.net = []
  accepted : g.accepted = []
  delivered : ∀ m, g.delivered m = []

/-- The two programs of the repository as a group. -/
def programs (ι : Type) : Group ι where
  node
    | .sender => senderWrapper
    | .receiver _ => receiverWrapper.setDataCallback
  net := []
  accepted := []
  delivered _ := []

theorem programs_fresh (ι : Type) : (programs ι).Fresh mainConv where
  init
    | .sender => ⟨_, _, _, _, _, senderWrapper_init, rfl, Or.inl rfl⟩
    | .receiver _ => ⟨_, _, _, _, _, receiverWrapper_init, rfl, Or.inr rfl⟩
  callback _ := rfl
  net := rfl
  accepted := rfl
  delivered _ := rfl

def Group.created (g : Group ι) : Nat := span groupMss g.accepted

/-! ## The invariant -/

def Group.Accepted (g : Group ι) (m : Member ι) (sn : UInt32) : Prop :=
  ∃ kcp, (g.node m).kcp = some kcp ∧ Taken kcp sn

/-- Segment `sn` is numbered and no longer in the sender's `snd_buf`. -/
def Group.Released (g : Group ι) (sn : UInt32) : Prop :=
  ∃ kcp, (g.node .sender).kcp = some kcp ∧ Freed kcp sn

/-- A segment on the network that came from `o`. It claims no more than what
its origin has accepted, and data comes from the sender alone. -/
structure Group.Sent (hears : Member ι → Member ι → Bool) (conv : UInt32) (log : List Bytes)
    (g : Group ι) (o : Member ι) (seg : IkcpSeg) : Prop where
  net : NetSeg log conv (hears .sender o = true) (g.Accepted o) seg
  data : seg.cmd = ikcpCmdPush → o = .sender

/-- Every member tracks `log`, of which it has handed over the first `pos`
messages, and so does every segment on the network. -/
structure GroupInv (hears : Member ι → Member ι → Bool) (conv : UInt32) (log : List Bytes)
    (pos : Member ι → Nat) (g : Group ι) : Prop where
  fits : ∀ m ∈ log, Fits m
  member : ∀ m, ∃ kcp, (g.node m).Live conv kcp ∧ NodeInv log conv (pos m) kcp
  callback : ∀ i, (g.node (.receiver i)).dataCallback = true
  idle : ∀ i kcp, (g.node (.receiver i)).kcp = some kcp → Idle kcp
  net : ∀ o data, (o, data) ∈ g.net → DatagramOf (g.Sent hears conv log o) data

/-- The sender is at work on `log`, the messages it has accepted, and the
receivers have been handed nothing else. -/
structure Sending (hears : Member ι → Member ι → Bool) (conv : UInt32)
    (pos : Member ι → Nat) (g : Group ι) : Prop where
  inv : GroupInv hears conv g.accepted pos g
  sender : ∀ kcp, (g.node .sender).kcp = some kcp → SndInv g.accepted conv kcp
  delivered : ∀ i, g.delivered (.receiver i) = g.accepted.take (pos (.receiver i))
  released : ∀ sn, g.Released sn → ∃ m, hears .sender m = true ∧ g.Accepted m sn

end CppDemos
