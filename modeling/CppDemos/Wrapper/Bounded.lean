import CppDemos.Kcp.Bounds
import CppDemos.Wrapper.Calls

/-!
# A wrapper on an open network

Whoever sends to the group address is read by `handleReceive`, so what a wrapper
relies on must hold whatever it reads. What `ikcp_send`, `ikcp_update`,
`ikcp_input` and `ikcp_recv` each keep, every series of calls keeps
(`Kept.calls`); this gives the bounds on the block (`bounded`) and what can be
said of the datagrams it sends (`own_datagrams_accepted`).
-/

namespace CppDemos

/-! ## Properties of the block that every call keeps -/

structure Kept (P : Ikcpcb → Prop) : Prop where
  send : ∀ kcp buffer len, P kcp → P (ikcpSend kcp buffer len).1
  update : ∀ kcp current, P kcp → P (ikcpUpdate kcp current).1
  input : ∀ kcp data, P kcp → P (ikcpInput kcp data).1
  recv : ∀ kcp, P kcp → P (ikcpRecv kcp bufferSize).1

namespace Kept

variable {P : Ikcpcb → Prop}

theorem drain (h : Kept P) : ∀ (fuel : Nat) {kcp : Ikcpcb}, P kcp → P (drain fuel kcp).1
  | 0, _, hP => hP
  | fuel + 1, kcp, hP => by
      rw [drain_succ]
      split
      · exact h.recv kcp hP
      · exact h.drain fuel (h.recv kcp hP)

theorem handleReceive (h : Kept P) :
    ∀ (results : List RecvResult) {kcp : Ikcpcb}, P kcp → P (handleReceive kcp results).1
  | [], _, hP => hP
  | .failed :: results, _, hP => h.handleReceive results hP
  | .datagram data :: results, kcp, hP => by
      rw [handleReceive_datagram]
      exact h.handleReceive results (h.drain _ (h.input kcp _ hP))

theorem call (h : Kept P) {w : KCPWrapper} (c : Call) (hP : ∀ kcp, w.kcp = some kcp → P kcp) :
    ∀ kcp, (w.call c).1.kcp = some kcp → P kcp := by
  intro kcp hkcp
  cases c with
  | send data len =>
      simp only [KCPWrapper.call, KCPWrapper.send] at hkcp
      split at hkcp
      · exact hP kcp hkcp
      · split at hkcp
        · rename_i old buffer hold _
          exact Option.some.inj hkcp ▸ h.send old _ _ (hP old hold)
        · exact hP kcp hkcp
  | update iclock results =>
      simp only [KCPWrapper.call, KCPWrapper.update] at hkcp
      split at hkcp
      · exact hP kcp hkcp
      · split at hkcp
        · exact hP kcp hkcp
        · rename_i old hold
          exact Option.some.inj hkcp ▸ h.handleReceive results (h.update old iclock (hP old hold))

theorem calls (h : Kept P) :
    ∀ (cs : List Call) {w : KCPWrapper}, (∀ kcp, w.kcp = some kcp → P kcp) →
      ∀ kcp, (w.calls cs).1.kcp = some kcp → P kcp
  | [], _, hP => hP
  | c :: cs, _, hP => h.calls cs (h.call c hP)

theorem and {Q : Ikcpcb → Prop} (h : Kept P) (h' : Kept Q) : Kept fun kcp => P kcp ∧ Q kcp :=
  ⟨fun kcp buffer len hP => ⟨h.send kcp buffer len hP.1, h'.send kcp buffer len hP.2⟩,
    fun kcp current hP => ⟨h.update kcp current hP.1, h'.update kcp current hP.2⟩,
    fun kcp data hP => ⟨h.input kcp data hP.1, h'.input kcp data hP.2⟩,
    fun kcp hP => ⟨h.recv kcp hP.1, h'.recv kcp hP.2⟩⟩

end Kept

theorem kept_setup (setup : Setup) : Kept fun kcp => kcp.setup = setup :=
  ⟨fun kcp buffer len h => (ikcpSend_frame kcp buffer len).1.trans h,
    fun kcp current h => (ikcpUpdate_frame kcp current).1.trans h,
    fun kcp data h => (setup_input kcp data).trans h,
    fun kcp h => (recv_frame kcp (Int.natCast_nonneg bufferSize)).1.trans h⟩

theorem kept_sndOk : Kept SndOk :=
  ⟨fun _ buffer len h => h.send buffer len, fun _ current h => h.update current,
    fun _ data h => h.input data,
    fun kcp h => h.congr (recv_sndBook kcp (Int.natCast_nonneg bufferSize))⟩

theorem kept_rcvBounded : Kept RcvBounded :=
  ⟨fun kcp buffer len h => h.congr (ikcpSend_frame kcp buffer len).2.1,
    fun kcp current h => h.congr (ikcpUpdate_frame kcp current).2.1,
    fun _ data h => h.input data, fun _ h => h.recv (Int.natCast_nonneg bufferSize)⟩

theorem kept_rtoOk : Kept RtoOk :=
  ⟨fun _ buffer len h => h.send buffer len, fun _ current h => h.update current,
    fun _ data h => h.input data, fun _ h => h.recv (Int.natCast_nonneg bufferSize)⟩

theorem kept_unsent : Kept Unsent :=
  ⟨fun _ buffer len h => h.send buffer len, fun _ current h => h.update current,
    fun _ data h => h.input data, fun _ h => h.recv (Int.natCast_nonneg bufferSize)⟩

/-- What holds of a wrapper's block between two calls, whatever it has read.
Nothing here depends on the peer: datagrams may be lost, forged or from another
conversation, and every part is kept by each call on its own. -/
structure Sound (conv : UInt32) (kcp : Ikcpcb) : Prop where
  setup : kcp.setup = groupSetup conv
  snd : SndOk kcp
  rcv : RcvBounded kcp
  rto : RtoOk kcp
  unsent : Unsent kcp

theorem kept_sound (conv : UInt32) : Kept (Sound conv) := by
  have hall := (kept_setup (groupSetup conv)).and
    (kept_sndOk.and (kept_rcvBounded.and (kept_rtoOk.and kept_unsent)))
  have hiff (kcp : Ikcpcb) : Sound conv kcp ↔ kcp.setup = groupSetup conv ∧ SndOk kcp ∧
      RcvBounded kcp ∧ RtoOk kcp ∧ Unsent kcp :=
    ⟨fun h => ⟨h.setup, h.snd, h.rcv, h.rto, h.unsent⟩,
      fun ⟨h1, h2, h3, h4, h5⟩ => ⟨h1, h2, h3, h4, h5⟩⟩
  simpa only [← hiff] using hall

theorem freshKcp_sound (conv : UInt32) (mem : Leftover) : Sound conv (freshKcp conv mem) := by
  have hwnd : snOffset 0 0 ≤ (128 : UInt32).toNat ∧ (128 : UInt32).toNat < 2 ^ 31 := by decide
  have hrto : ikcpRtoNdl ≤ (30 : Int32) ∧ (30 : Int32) ≤ ikcpRtoMin ∧ ikcpRtoNdl ≤ ikcpRtoDef ∧
      ikcpRtoDef ≤ ikcpRtoMax.toInt32 := by decide
  have hmss : ikcpOverhead + (1376 : UInt32).toNat ≤ (1400 : UInt32).toNat ∧
      (1376 : UInt32).toNat < 2 ^ 31 := by decide
  have hnone {P : IkcpSeg → Prop} : ∀ seg ∈ ([] : List IkcpSeg), P seg := by simp
  rw [freshKcp_eq]
  exact ⟨rfl, ⟨rfl, rfl, .nil _, hwnd.1, hwnd.2⟩,
    ⟨⟨rfl, rfl, ⟨.nil, hnone⟩, hnone⟩, rfl, Nat.zero_le _⟩,
    ⟨⟨hrto.1, hrto.2.1⟩, hrto.2.2.1, hrto.2.2.2⟩, ⟨hmss.1, hmss.2, hnone, hnone⟩⟩

/-! ## Any calls, any datagrams -/

theorem sound_of_init {w w' : KCPWrapper} {env : InitEnv} {ip : Bytes} {port : UInt16}
    {conv : UInt32} (h : w.init env ip port conv = (w', true)) :
    ∀ kcp, w'.kcp = some kcp → Sound (actualConv conv) kcp := by
  obtain ⟨mem, hlive⟩ := live_of_init h
  intro kcp hkcp
  rw [hlive.block] at hkcp
  exact Option.some.inj hkcp ▸ freshKcp_sound _ mem

theorem calls_block {conv : UInt32} :
    ∀ (cs : List Call) {w : KCPWrapper} {kcp : Ikcpcb}, w.Live conv kcp →
      ∃ kcp', (w.calls cs).1.kcp = some kcp'
  | [], _, kcp, h => ⟨kcp, h.block⟩
  | c :: cs, _, _, h => by
      obtain ⟨kcp', -, hlive⟩ := h.call c
      exact calls_block cs hlive

/-- `buf` holds segments of the `n` numbers from `base` on, in order and each once. -/
def OrderedWithin (base : UInt32) (n : Nat) (buf : List IkcpSeg) : Prop :=
  (buf.Pairwise fun a b => snOffset base a.sn < snOffset base b.sn) ∧
    ∀ seg ∈ buf, snOffset base seg.sn < n

/-- The bounds on a block with windows of 128 segments. A segment that arrives may be longer
than the block's own `mss`, which bounds what it sends. -/
structure Bounded (kcp : Ikcpcb) : Prop where
  window : snOffset kcp.sndUna kcp.sndNxt ≤ 128
  /-- what is sent and not acknowledged -/
  inFlight : OrderedWithin kcp.sndUna (snOffset kcp.sndUna kcp.sndNxt) kcp.sndBuf
  /-- what has arrived out of order -/
  reordered : OrderedWithin kcp.rcvNxt 128 kcp.rcvBuf
  outgoing : kcp.mss = 1376 ∧ ∀ seg ∈ kcp.sndQueue ++ kcp.sndBuf, seg.len ≤ kcp.mss.toNat
  sndBuf : kcp.sndBuf.length ≤ 128
  rcvBuf : kcp.rcvBuf.length ≤ 128
  rcvQueue : kcp.rcvQueue.length ≤ 128
  counters : kcp.nsndQue = kcp.sndQueue.length ∧ kcp.nsndBuf = kcp.sndBuf.length ∧
    kcp.nrcvQue = kcp.rcvQueue.length ∧ kcp.nrcvBuf = kcp.rcvBuf.length
  rto : 30 ≤ kcp.rxRto ∧ kcp.rxRto ≤ 60000

theorem Sound.bounded {conv : UInt32} {kcp : Ikcpcb} (h : Sound conv kcp) : Bounded kcp := by
  have hsnd : kcp.sndWnd.toNat = 128 := by
    rw [show kcp.sndWnd = 128 from congrArg Setup.sndWnd h.setup]
    rfl
  have hrcv : kcp.rcvWnd.toNat = 128 := by
    rw [h.rcv.ok.wnd]
    rfl
  have hwindow := h.snd.window
  have hlen := h.snd.length_le
  have hbuf := h.rcv.rcvBuf_le
  have hroom := h.rcv.room
  have hin := h.rcv.ok.inWindow
  rw [hsnd] at hwindow hlen
  rw [hrcv] at hbuf hroom hin
  refine ⟨hwindow, ⟨?_, fun seg hseg => ?_⟩, ⟨h.rcv.ok.sorted.1, hin⟩,
    ⟨congrArg Setup.mss h.setup, fun seg hseg => ?_⟩, hlen, hbuf, hroom,
    ⟨h.snd.count, h.snd.bufCount, h.rcv.ok.count, h.rcv.bufCount⟩, h.rto.low, h.rto.high⟩
  · have hordered := h.snd.flight.ordered
    rw [List.pairwise_map, List.pairwise_map] at hordered
    exact hordered
  · rw [snOffset_eq_offset, snOffset_eq_offset]
    exact h.snd.flight.below _ (List.mem_map_of_mem (List.mem_map_of_mem hseg))
  · rcases List.mem_append.mp hseg with hqueued | hsent
    · exact (h.unsent.queue seg hqueued).len
    · exact (h.unsent.buf seg.core (List.mem_map_of_mem hsent)).1.len

/-- Whatever is called on an initialised wrapper and whatever it reads, its block
stays within the bounds. -/
theorem bounded_after_calls {w w' : KCPWrapper} {env : InitEnv} {ip : Bytes} {port : UInt16}
    {conv : UInt32} (h : w.init env ip port conv = (w', true)) (cs : List Call) :
    ∃ kcp, (w'.calls cs).1.kcp = some kcp ∧ Bounded kcp := by
  obtain ⟨mem, hlive⟩ := live_of_init h
  obtain ⟨kcp, hkcp⟩ := calls_block cs hlive
  exact ⟨kcp, hkcp, ((kept_sound _).calls cs (sound_of_init h) kcp hkcp).bounded⟩

/-- A byte is sent, and a segment that is not yet expected is read. -/
def crossing : List Call :=
  [.send (some [7]) 1,
    .update 0 [.datagram [1, 2, 3], .datagram (segBytes
      { conv := mainConv, cmd := ikcpCmdPush, wnd := 128, sn := 2, data := [9] })],
    .update 20 []]

theorem bounded_after_calls_main :
    ∃ kcp, (senderWrapper.calls crossing).1.kcp = some kcp ∧
      kcp.sndBuf.map IkcpSeg.sn = [0] ∧ kcp.rcvBuf.map IkcpSeg.sn = [2] ∧ Bounded kcp := by
  have hend : (senderWrapper.calls crossing).1.kcp.map (fun kcp =>
      (kcp.sndBuf.map IkcpSeg.sn, kcp.rcvBuf.map IkcpSeg.sn)) = some ([0], [2]) := by
    decide +kernel
  obtain ⟨kcp, hkcp, hbounded⟩ := bounded_after_calls senderWrapper_init crossing
  rw [hkcp] at hend
  obtain ⟨hsnd, hrcv⟩ := Prod.mk.inj (Option.some.inj hend)
  exact ⟨kcp, hkcp, hsnd, hrcv, hbounded⟩

/-! ## What it sends -/

theorem Sound.sent {conv : UInt32} {w : KCPWrapper}
    (h : ∀ kcp, w.kcp = some kcp → Sound conv kcp) (c : Call) :
    ∀ data ∈ (w.observeCall c).2.sent, Parses conv 1400 data := by
  intro data hdata
  cases c with
  | send _ _ => cases hdata
  | update iclock results =>
      simp only [KCPWrapper.observeCall, KCPWrapper.update] at hdata
      split at hdata
      · cases hdata
      · split at hdata
        · cases hdata
        · rename_i kcp hkcp
          have hsound := h kcp hkcp
          have hconv : kcp.conv = conv := congrArg Setup.conv hsound.setup
          have hmtu : kcp.mtu = 1400 := congrArg Setup.mtu hsound.setup
          exact hconv ▸ hmtu ▸ hsound.unsent.outs hsound.rcv.ok iclock data hdata

theorem Sound.observe {conv : UInt32} :
    ∀ (cs : List Call) {w : KCPWrapper}, (∀ kcp, w.kcp = some kcp → Sound conv kcp) →
      ∀ seen ∈ (w.observe cs).2, ∀ data ∈ seen.sent, Parses conv 1400 data
  | [], _, _, seen, hseen => nomatch hseen
  | c :: cs, w, h, seen, hseen => by
      rw [KCPWrapper.observe_cons] at hseen
      rcases List.mem_cons.mp hseen with rfl | hseen
      · exact Sound.sent h c
      · refine Sound.observe cs (fun kcp hkcp => ?_) seen hseen
        rw [KCPWrapper.observeCall_fst] at hkcp
        exact (kept_sound conv).call c h kcp hkcp

/-- Whatever is called on an initialised wrapper and whatever it reads, each
datagram it passes to `udp_output` fits the MTU, starts with the conversation id,
and is parsed without error by exactly the blocks of the conversation. -/
theorem own_datagrams_accepted {w w' : KCPWrapper} {env : InitEnv} {ip : Bytes} {port : UInt16}
    {conv : UInt32} (h : w.init env ip port conv = (w', true)) (cs : List Call) :
    ∀ seen ∈ (w'.observe cs).2, ∀ data ∈ seen.sent,
      data.length ≤ 1400 ∧ ikcpGetconv data = actualConv conv ∧
        ∀ kcp : Ikcpcb, (ikcpInput kcp data).2 = 0 ↔ kcp.conv = actualConv conv := by
  intro seen hseen data hdata
  have hparses := Sound.observe cs (sound_of_init h) seen hseen data hdata
  exact ⟨hparses.length, hparses.getconv, hparses.accepted_iff⟩

/-- The sender's first datagram. -/
theorem own_datagrams_accepted_main :
    ∃ seen ∈ (senderWrapper.observe [.send (some [1]) 1, .update 0 []]).2, ∃ data ∈ seen.sent,
      data.length ≤ 1400 ∧ ikcpGetconv data = mainConv ∧
        ∀ kcp : Ikcpcb, (ikcpInput kcp data).2 = 0 ↔ kcp.conv = mainConv := by
  have hsent : ((senderWrapper.observe [.send (some [1]) 1, .update 0 []]).2.flatMap
      (·.sent)).length = 1 := by decide +kernel
  obtain ⟨data, hdata⟩ := List.exists_mem_of_length_pos (Nat.lt_of_lt_of_eq Nat.one_pos hsent.symm)
  obtain ⟨seen, hseen, hdata⟩ := List.mem_flatMap.mp hdata
  exact ⟨seen, hseen, data, hdata,
    own_datagrams_accepted senderWrapper_init _ seen hseen data hdata⟩

end CppDemos
