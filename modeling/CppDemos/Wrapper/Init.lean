import CppDemos.Kcp.Control

/-!
# KCPWrapper::init and the addressing of the group

The wrapper object, its constructor, and `init` with everything it asks of the
operating system. What the system answers is the argument `InitEnv`; what it
remembers of the socket afterwards is `Socket`: the local port and the joined
groups, which is all that decides which datagrams the socket receives.

`udp_output` sends every datagram to the multicast address given to `init`.
Only a wrapper without the top bit in `conv` binds its socket to the chosen
port (`if (!is_sender)`), so traffic flows one way:
`sender_reaches_receiver_only` says so for every address, port and
conversation id.
-/

namespace CppDemos

/-! ## The operating system's part -/

/-- An IPv4 address and a port, both in host order. -/
structure SockaddrIn where
  addr : UInt32
  port : UInt16
deriving DecidableEq, Repr

/-- What the kernel keeps for a UDP socket: the local port, if it has one, and
the groups it is a member of, each on one interface. -/
structure Socket where
  port : Option UInt16 := none
  groups : List (UInt32 × UInt32) := []
deriving DecidableEq, Repr

/-- A datagram sent to a group reaches the sockets bound to its port that are
members of the group. -/
def Socket.receives (sock : Socket) (dst : SockaddrIn) : Prop :=
  sock.port = some dst.port ∧ ∃ iface, (dst.addr, iface) ∈ sock.groups

instance (sock : Socket) (dst : SockaddrIn) : Decidable (sock.receives dst) :=
  decidable_of_iff (sock.port = some dst.port ∧ ∃ g ∈ sock.groups, g.1 = dst.addr) <| by
    refine and_congr_right fun _ => ⟨?_, ?_⟩
    · rintro ⟨⟨addr, iface⟩, hg, rfl⟩
      exact ⟨iface, hg⟩
    · rintro ⟨iface, hg⟩
      exact ⟨_, hg, rfl⟩

/-- One entry of the `getifaddrs` list; `addr` is there for AF_INET entries. -/
structure Ifaddrs where
  name : String
  addr : Option UInt32
  up : Bool
deriving DecidableEq, Repr

/-- The results of the calls `init` makes, in its order. A successful bind to
port 0 gives the socket the port `ephemeral`. -/
structure InitEnv where
  socket : Int
  reuseAddr : Bool
  multicastTtl : Bool
  ifaddrs : Option (List Ifaddrs)
  multicastIf : Bool
  bind : Bool
  ephemeral : UInt16
  addMembership : Bool
  alloc : Alloc
deriving DecidableEq, Repr

/-- A host with one network card on which every call succeeds. -/
def InitEnv.granted : InitEnv where
  socket := 3
  reuseAddr := true
  multicastTtl := true
  ifaddrs := some [⟨"lo", some 0x7F000001, true⟩, ⟨"eth0", some 0xC0A80002, true⟩]
  multicastIf := true
  bind := true
  ephemeral := 40000
  addMembership := true
  alloc := ⟨some ⟨0, 0, 0⟩, true⟩

/-- The loop over the interfaces: the first IPv4 address that is up and not
the loopback's. -/
def findInterface : List Ifaddrs → Option UInt32
  | [] => none
  | ifa :: rest =>
      match ifa.addr with
      | some addr => if ifa.name = "lo" ∨ ifa.up = false then findInterface rest else some addr
      | none => findInterface rest

/-- The loop of `inet_pton` for AF_INET: the octets finished so far and the one
being read, if it has a digit yet. -/
def inetPtonLoop : Bytes → List Nat → Option Nat → Option (List Nat)
  | [], _, none => none
  | [], octets, some n => if octets.length = 3 then some (octets ++ [n]) else none
  | ch :: src, octets, cur =>
      if 48 ≤ ch ∧ ch ≤ 57 then
        let digit := ch.toNat - 48
        match cur with
        | none => if octets.length = 4 then none else inetPtonLoop src octets (some digit)
        | some n =>
            if n = 0 ∨ 255 < 10 * n + digit then none
            else inetPtonLoop src octets (some (10 * n + digit))
      else
        match cur with
        | some n =>
            if ch = 46 ∧ octets.length < 3 then inetPtonLoop src (octets ++ [n]) none else none
        | none => none

/-- `inet_pton` for AF_INET on a C string. -/
def inetPton (src : Bytes) : Option UInt32 :=
  (inetPtonLoop (src.takeWhile (· ≠ 0)) [] none).map fun octets =>
    UInt32.ofNat (octets.foldl (fun acc n => 256 * acc + n) 0)

/-! ## The wrapper -/

/-- `KCPWrapper`. `recv_buffer_` is left out: it is always written before it is
read. Of the callback only whether one is set matters here. -/
structure KCPWrapper where
  kcp : Option Ikcpcb := none
  socketFd : Int := -1
  socket : Socket := {}
  mcastAddr : SockaddrIn := ⟨0, 0⟩
  dataCallback : Bool := false
  initialized : Bool := false
deriving DecidableEq, Repr

/-- Whether `conv` asks for the sender's role. -/
def isSender (conv : UInt32) : Bool := conv &&& 0x80000000 != 0

/-- The conversation id proper. -/
def actualConv (conv : UInt32) : UInt32 := conv &&& 0x7FFFFFFF

/-- `bind` to INADDR_ANY and a port. -/
def Socket.bind (sock : Socket) (port ephemeral : UInt16) : Socket :=
  { sock with port := some (if port = 0 then ephemeral else port) }

/-- IP_ADD_MEMBERSHIP. -/
def Socket.join (sock : Socket) (addr iface : UInt32) : Socket :=
  { sock with groups := sock.groups ++ [(addr, iface)] }

/-- The end of `init`: the control block and its parameters. -/
def KCPWrapper.createKcp (w : KCPWrapper) (alloc : Alloc) (conv : UInt32) : KCPWrapper × Bool :=
  match ikcpCreate (actualConv conv) alloc with
  | none => ({ w with kcp := none }, false)
  | some kcp =>
      ({ w with kcp := some (ikcpNodelay (ikcpWndsize kcp 128 128) 1 10 2 1)
                initialized := true }, true)

/-- The middle of `init`, once an interface is found: addresses, binding and
membership. -/
def KCPWrapper.joinGroup (w : KCPWrapper) (env : InitEnv) (iface : UInt32)
    (multicastIP : Bytes) (port : UInt16) (conv : UInt32) : KCPWrapper × Bool :=
  match inetPton multicastIP with
  | none => ({ w with mcastAddr := ⟨0, port⟩ }, false)
  | some addr =>
      let w := { w with mcastAddr := ⟨addr, port⟩ }
      if isSender conv = false ∧ env.bind = false then (w, false)
      else
        let w :=
          if isSender conv then w else { w with socket := w.socket.bind port env.ephemeral }
        if env.addMembership = false then (w, false)
        else { w with socket := w.socket.join addr iface }.createKcp env.alloc conv

def KCPWrapper.init (w : KCPWrapper) (env : InitEnv) (multicastIP : Bytes) (port : UInt16)
    (conv : UInt32) : KCPWrapper × Bool :=
  let w := { w with socketFd := env.socket, socket := {} }
  if env.socket < 0 then (w, false)
  else if env.reuseAddr = false then (w, false)
  else if env.multicastTtl = false then (w, false)
  else
    match env.ifaddrs.bind findInterface with
    | none => (w, false)
    | some iface =>
        if env.multicastIf = false then (w, false)
        else w.joinGroup env iface multicastIP port conv

/-- `udp_output`: the destination `sendto` is given. An unbound socket gets a
local port with its first `sendto`. -/
def KCPWrapper.udpOutput (w : KCPWrapper) (ephemeral : UInt16) : KCPWrapper × SockaddrIn :=
  ({ w with socket := { w.socket with port := some (w.socket.port.getD ephemeral) } },
    w.mcastAddr)

def KCPWrapper.setDataCallback (w : KCPWrapper) : KCPWrapper := { w with dataCallback := true }

/-! ## A successful init -/

def freshKcp (conv : UInt32) (mem : Leftover) : Ikcpcb :=
  ikcpNodelay (ikcpWndsize (ikcpInit conv mem) 128 128) 1 10 2 1

theorem freshKcp_eq (conv : UInt32) (mem : Leftover) :
    freshKcp conv mem =
      { ikcpInit conv mem with
        sndWnd := 128
        rcvWnd := 128
        nodelay := 1
        rxMinrto := 30
        interval := 10
        fastresend := 2
        nocwnd := 1 } := by
  simp only [freshKcp, ikcpWndsize, ikcpNodelay]
  rfl

/-- The socket `init` leaves behind: bound only in the receiver's role, and a
member of the group in both. -/
def groupSocket (conv : UInt32) (env : InitEnv) (port : UInt16) (addr iface : UInt32) : Socket :=
  (if isSender conv then {} else Socket.bind {} port env.ephemeral).join addr iface

theorem createKcp_eq_true {w w' : KCPWrapper} {alloc : Alloc} {conv : UInt32}
    (h : w.createKcp alloc conv = (w', true)) :
    ∃ mem, w' = { w with kcp := some (freshKcp (actualConv conv) mem), initialized := true } := by
  unfold KCPWrapper.createKcp ikcpCreate at h
  cases hblock : alloc.block with
  | none =>
      rw [hblock] at h
      cases h
  | some mem =>
      rw [hblock] at h
      simp only at h
      split at h
      · cases h
      · rename_i kcp hkcp
        split at hkcp
        · obtain rfl := Option.some.inj hkcp
          exact ⟨mem, (congrArg Prod.fst h).symm⟩
        · cases hkcp

theorem init_eq_true {w w' : KCPWrapper} {env : InitEnv} {ip : Bytes} {port : UInt16}
    {conv : UInt32} (h : w.init env ip port conv = (w', true)) :
    ∃ addr iface mem, inetPton ip = some addr ∧
      w' = { w with
        kcp := some (freshKcp (actualConv conv) mem)
        socketFd := env.socket
        socket := groupSocket conv env port addr iface
        mcastAddr := ⟨addr, port⟩
        initialized := true } := by
  unfold KCPWrapper.init at h
  simp only at h
  split at h
  · cases h
  · split at h
    · cases h
    · split at h
      · cases h
      · split at h
        · cases h
        · rename_i iface _
          split at h
          · cases h
          · unfold KCPWrapper.joinGroup at h
            cases hip : inetPton ip with
            | none =>
                rw [hip] at h
                cases h
            | some addr =>
                rw [hip] at h
                simp only at h
                split at h
                · cases h
                · split at h
                  · cases h
                  · obtain ⟨mem, rfl⟩ := createKcp_eq_true h
                    refine ⟨addr, iface, mem, rfl, ?_⟩
                    unfold groupSocket
                    split <;> rfl

/-! ## Who receives what -/

/-- The wrapper after so many calls of `udp_output`. -/
def KCPWrapper.outputs (w : KCPWrapper) (ephemerals : List UInt16) : KCPWrapper :=
  ephemerals.foldl (fun w e => (w.udpOutput e).1) w

theorem outputs_frame (w : KCPWrapper) (es : List UInt16) :
    (w.outputs es).mcastAddr = w.mcastAddr ∧
      (w.outputs es).socket.groups = w.socket.groups ∧
      ((w.outputs es).socket.port = w.socket.port ∨
        w.socket.port = none ∧ ∃ e ∈ es, (w.outputs es).socket.port = some e) := by
  induction es generalizing w with
  | nil => exact ⟨rfl, rfl, Or.inl rfl⟩
  | cons e es ih =>
      obtain ⟨haddr, hgroups, hport⟩ := ih (w.udpOutput e).1
      refine ⟨haddr, hgroups, ?_⟩
      cases hw : w.socket.port with
      | some p =>
          have hkeep : (w.udpOutput e).1.socket.port = some p := by
            simp [KCPWrapper.udpOutput, hw]
          rw [hkeep] at hport
          exact hport.imp id fun h => nomatch h.1
      | none =>
          have hbind : (w.udpOutput e).1.socket.port = some e := by
            simp [KCPWrapper.udpOutput, hw]
          rw [hbind] at hport
          rcases hport with hport | ⟨hnone, -⟩
          · exact Or.inr ⟨rfl, e, List.mem_cons_self .., hport⟩
          · cases hnone

theorem sender_port_ne {env : InitEnv} {ip : Bytes} {port : UInt16} {conv : UInt32}
    {s : KCPWrapper} (h : KCPWrapper.init {} env ip port conv = (s, true))
    (hrole : isSender conv = true) {es : List UInt16} (hes : ∀ e ∈ es, e ≠ port) :
    (s.outputs es).socket.port ≠ some port := by
  obtain ⟨addr, iface, mem, -, rfl⟩ := init_eq_true h
  have hunbound : (groupSocket conv env port addr iface).port = none := by
    simp [groupSocket, hrole, Socket.join]
  rcases (outputs_frame _ es).2.2 with hport | ⟨-, e, he, hport⟩
  · rw [hport]
    exact fun hc => nomatch hunbound.symm.trans hc
  · rw [hport]
    exact fun hc => hes e he (Option.some.inj hc)

/-- For every address, port and conversation id, and at any time after both
`init` calls: the receiver's socket receives what the sender sends, provided
the port is not 0, and the sender's socket never receives what the receiver
sends, acknowledgements included. -/
theorem sender_reaches_receiver_only {envS envR : InitEnv} {ipS ipR : Bytes} {port : UInt16}
    {convS convR : UInt32} {s r : KCPWrapper}
    (hs : KCPWrapper.init {} envS ipS port convS = (s, true))
    (hr : KCPWrapper.init {} envR ipR port convR = (r, true))
    (hsender : isSender convS = true) (hreceiver : isSender convR = false)
    (haddr : inetPton ipS = inetPton ipR) {es fs : List UInt16} (hes : ∀ e ∈ es, e ≠ port)
    (e f : UInt16) :
    (port ≠ 0 → (r.outputs fs).socket.receives ((s.outputs es).udpOutput e).2) ∧
      ¬ (s.outputs es).socket.receives ((r.outputs fs).udpOutput f).2 := by
  have hport := sender_port_ne hs hsender hes
  obtain ⟨addrS, ifaceS, memS, hipS, rfl⟩ := init_eq_true hs
  obtain ⟨addrR, ifaceR, memR, hipR, rfl⟩ := init_eq_true hr
  obtain rfl : addrS = addrR := Option.some.inj (hipS.symm.trans (haddr.trans hipR))
  obtain ⟨hdstS, -, -⟩ := outputs_frame _ es
  obtain ⟨hdstR, hgroups, hkept⟩ := outputs_frame _ fs
  constructor
  · intro hne
    have hbound : (groupSocket convR envR port addrS ifaceR).port = some port := by
      simp [groupSocket, hreceiver, Socket.join, Socket.bind, hne]
    refine ⟨?_, ifaceR, ?_⟩
    · rcases hkept with hsame | ⟨hnone, -⟩
      · rw [hsame, KCPWrapper.udpOutput, hdstS]
        exact hbound
      · exact nomatch hbound.symm.trans hnone
    · rw [hgroups, KCPWrapper.udpOutput, hdstS]
      simp [groupSocket, Socket.join]
  · rintro ⟨hc, -⟩
    rw [KCPWrapper.udpOutput, hdstR] at hc
    exact hport hc

/-! ## The two programs of the repository

Their wrappers on the group 239.0.0.1, with the port and the conversation id
both `main` functions use. -/

def mainGroup : Bytes := [50, 51, 57, 46, 48, 46, 48, 46, 49]

def mainConv : UInt32 := 0x11223344

def senderWrapper : KCPWrapper :=
  (KCPWrapper.init {} .granted mainGroup 12345 (mainConv ||| 0x80000000)).1

def receiverWrapper : KCPWrapper := (KCPWrapper.init {} .granted mainGroup 12345 mainConv).1

theorem senderWrapper_init :
    KCPWrapper.init {} .granted mainGroup 12345 (mainConv ||| 0x80000000)
      = (senderWrapper, true) := by
  decide +kernel

theorem receiverWrapper_init :
    KCPWrapper.init {} .granted mainGroup 12345 mainConv = (receiverWrapper, true) := by
  decide +kernel

theorem sender_reaches_receiver_only_main :
    (12345 ≠ (0 : UInt16) → (receiverWrapper.outputs [40002]).socket.receives
        ((senderWrapper.outputs [40001]).udpOutput 40001).2) ∧
      ¬ (senderWrapper.outputs [40001]).socket.receives
        ((receiverWrapper.outputs [40002]).udpOutput 40002).2 :=
  sender_reaches_receiver_only senderWrapper_init receiverWrapper_init (by decide) (by decide)
    rfl (by simp) 40001 40002

/-- The two sockets do not both receive what the other side sends. -/
theorem not_both_receive :
    ¬ ∀ (envS envR : InitEnv) (ip : Bytes) (port : UInt16) (convS convR : UInt32)
        (s r : KCPWrapper),
      KCPWrapper.init {} envS ip port convS = (s, true) →
      KCPWrapper.init {} envR ip port convR = (r, true) →
      isSender convS = true → isSender convR = false → actualConv convS = actualConv convR →
      ∀ e f : UInt16, e ≠ port → f ≠ port →
        r.socket.receives (s.udpOutput e).2 ∧
          (s.udpOutput e).1.socket.receives (r.udpOutput f).2 := by
  intro h
  have hboth := h _ _ _ _ _ _ _ _ senderWrapper_init receiverWrapper_init (by decide)
    (by decide) (by decide) 40001 40002 (by decide) (by decide)
  revert hboth
  decide +kernel

end CppDemos
