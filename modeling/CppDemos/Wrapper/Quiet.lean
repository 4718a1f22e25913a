import CppDemos.Wrapper.Calls

/-!
# What handleReceive leaves behind

A segment becomes deliverable in two places, when a datagram is parsed and when
`ikcp_recv` makes room in `rcv_queue`; both end with the moving loop, so `NoGap`
survives every datagram, whatever its bytes and wherever parsing stops
(`Quiet.input`). The inner loop of `handleReceive` ends when `ikcp_recv` refuses,
and `drained_iff` says what it refuses. So after any calls nothing is left that
could be handed over.
-/

namespace CppDemos

/-! ## The receive side under any datagram -/

/-- The receive side is in order, and nothing waits in `rcv_buf` that could be in
`rcv_queue`. -/
structure Quiet (kcp : Ikcpcb) : Prop where
  ok : RcvOk kcp
  gap : NoGap kcp

variable {kcp kcp' : Ikcpcb}

theorem RcvOk.congr (h : RcvOk kcp) (heq : kcp'.rcvSide = kcp.rcvSide) : RcvOk kcp' := by
  simp only [Ikcpcb.rcvSide, RcvSide.mk.injEq] at heq
  obtain ⟨hnxt, hwnd, -, hcount, hqueue, hbuf⟩ := heq
  refine ⟨hwnd.trans h.wnd, ?_, ?_, ?_⟩
  · rw [hcount, hqueue]
    exact h.count
  · rw [hnxt, hbuf]
    exact h.sorted
  · rw [hnxt, hwnd, hbuf]
    exact h.inWindow

theorem Quiet.congr (h : Quiet kcp) (heq : kcp'.rcvSide = kcp.rcvSide) : Quiet kcp' :=
  ⟨h.ok.congr heq, h.gap.congr heq⟩

theorem quiet_empty (h : kcp.rcvSide = ⟨0, ikcpWndRcv, 0, 0, [], []⟩) : Quiet kcp := by
  simp only [Ikcpcb.rcvSide, RcvSide.mk.injEq] at h
  obtain ⟨-, hwnd, -, hcount, hqueue, hbuf⟩ := h
  refine ⟨⟨hwnd, ?_, ⟨?_, ?_⟩, ?_⟩, Or.inl ?_⟩
  · rw [hcount, hqueue]
    rfl
  · rw [hbuf]
    exact List.Pairwise.nil
  · simp [hbuf]
  · simp [hbuf]
  · simp [hbuf]

theorem Quiet.parseData (h : Quiet kcp) (newseg : IkcpSeg) : Quiet (ikcpParseData kcp newseg) :=
  ⟨h.ok.parseData newseg, noGap_parseData h.ok h.gap newseg⟩

theorem Quiet.inputPush (h : Quiet kcp) (conv : UInt32) (head : SegHead) (payload : Bytes) :
    Quiet (inputPush kcp conv head payload) := by
  -- the acknowledgement is not on the receive side
  have hpush : Quiet (ikcpAckPush kcp head.sn head.ts) := h.congr rfl
  unfold CppDemos.inputPush
  split
  · simp only
    split
    · exact hpush.parseData _
    · exact hpush
  · exact h

theorem Quiet.inputSeg {st : InputSt} (h : Quiet st.kcp) (conv : UInt32) (head : SegHead)
    (payload : Bytes) : Quiet (inputSeg st conv head payload).kcp := by
  rcases inputSeg_rcv st conv head payload with ⟨-, k, -, hside, -, heq⟩ | ⟨-, hside, -⟩
  · rw [heq]
    exact (h.congr hside).inputPush conv head payload
  · exact h.congr hside

theorem Quiet.input (h : Quiet kcp) (data : Bytes) : Quiet (ikcpInput kcp data).1 :=
  ikcpInput_induct (fun _ conv head payload hst => hst.inputSeg conv head payload)
    (fun prevUna st hst => hst.congr (inputFinish_frame prevUna st).2.1) h data

theorem Quiet.recv (h : Quiet kcp) : Quiet (ikcpRecv kcp bufferSize).1 := by
  have hlen := Int.natCast_nonneg bufferSize
  refine ⟨h.ok.recv hlen, ?_⟩
  rcases ikcpRecv_cases kcp hlen with ⟨err, -, heq, -⟩ | ⟨-, -, -, probe, heq⟩
  · rw [heq]
    exact h.gap
  · rw [heq]
    exact (noGap_moveRcvBuf h.ok.popRcv).congr rfl

/-! ## Runs -/

theorem Quiet.drain :
    ∀ (fuel : Nat) {kcp : Ikcpcb}, Quiet kcp → Quiet (drain fuel kcp).1
  | 0, _, h => h
  | fuel + 1, kcp, h => by
      rw [drain_succ]
      split
      · exact h.recv
      · exact Quiet.drain fuel h.recv

theorem Quiet.handleReceive :
    ∀ (results : List RecvResult) {kcp : Ikcpcb}, Quiet kcp →
      Quiet (handleReceive kcp results).1
  | [], _, h => h
  | .failed :: results, _, h => Quiet.handleReceive results h
  | .datagram data :: results, kcp, h => by
      rw [handleReceive_datagram]
      exact Quiet.handleReceive results ((h.input (data.take bufferSize)).drain _)

/-- What holds of a live wrapper between two calls. `quiet` is kept by any
datagram, and `drained` is restored by the inner loop before a call returns. -/
structure KCPWrapper.Settled (conv : UInt32) (w : KCPWrapper) (kcp : Ikcpcb) : Prop where
  live : w.Live conv kcp
  quiet : Quiet kcp
  drained : Drained kcp

variable {conv : UInt32} {w : KCPWrapper}

theorem settled_of_init {w w' : KCPWrapper} {env : InitEnv} {ip : Bytes} {port : UInt16}
    {conv : UInt32} (h : w.init env ip port conv = (w', true)) :
    ∃ kcp, w'.Settled (actualConv conv) kcp := by
  obtain ⟨mem, hlive⟩ := live_of_init h
  obtain ⟨-, hrcv, -, -⟩ := freshKcp_spec (actualConv conv) mem
  exact ⟨_, hlive, quiet_empty hrcv, drained_empty hrcv⟩

theorem KCPWrapper.Settled.call (h : w.Settled conv kcp) (c : Call) :
    ∃ kcp', (w.call c).1.Settled conv kcp' := by
  cases c with
  | send data len =>
      obtain ⟨kcp', -, hlive, hrcv, -⟩ := h.live.send_frame data len
      exact ⟨kcp', hlive, h.quiet.congr hrcv, h.drained.congr hrcv⟩
  | update iclock results =>
      obtain ⟨hsetup, hrcv, -⟩ := ikcpUpdate_frame kcp iclock
      simp only [KCPWrapper.call, h.live.update_eq]
      refine ⟨_, ⟨h.live.init, rfl, ?_⟩, (h.quiet.congr hrcv).handleReceive results,
        handleReceive_drained results (h.drained.congr hrcv)⟩
      exact (handleReceive_setup results _).trans (hsetup.trans h.live.setup)

theorem KCPWrapper.Settled.calls :
    ∀ (cs : List Call) {w : KCPWrapper} {kcp : Ikcpcb}, w.Settled conv kcp →
      ∃ kcp', (w.calls cs).1.Settled conv kcp'
  | [], _, kcp, h => ⟨kcp, h⟩
  | c :: cs, _, _, h => by
      obtain ⟨kcp', hcall⟩ := h.call c
      exact KCPWrapper.Settled.calls cs hcall

/-! ## Nothing deliverable -/

/-- What `ikcp_recv` would hand over: the segments up to the one with fragment
number 0. -/
theorem ikcpPeeksize_complete {seg : IkcpSeg} {rest : List IkcpSeg}
    (hqueue : kcp.rcvQueue = seg :: rest) (hcount : ¬ kcp.nrcvQue < (seg.frg + 1).toNat) :
    ikcpPeeksize kcp = peekLength kcp.rcvQueue := by
  unfold ikcpPeeksize
  rw [hqueue]
  simp only
  by_cases hfrg : seg.frg = 0
  · rw [if_pos hfrg, peekLength, if_pos hfrg]
  · rw [if_neg hfrg, if_neg hcount]

theorem Drained.head (h : Drained kcp) (hok : RcvOk kcp) :
    ∀ seg, kcp.rcvQueue.head? = some seg →
      kcp.rcvQueue.length < seg.frg.toNat + 1 ∨ bufferSize < peekLength kcp.rcvQueue := by
  intro seg hhead
  obtain ⟨rest, hqueue⟩ := List.head?_eq_some_iff.mp hhead
  refine or_iff_not_imp_left.mpr ?_
  intro hcomplete
  rw [← hok.count] at hcomplete
  have hnext : (seg.frg + 1).toNat ≤ seg.frg.toNat + 1 := by
    rw [UInt32.toNat_add]
    exact Nat.mod_le ..
  have hpeek := ikcpPeeksize_complete hqueue (by omega)
  rcases (drained_iff kcp).mp h with hnil | hneg | hbig
  · rw [hnil] at hqueue
    cases hqueue
  · omega
  · omega

/-- After any calls on an initialised wrapper, whatever datagrams were read: the
message at the head of `rcv_queue` is absent, incomplete or larger than
`BUFFER_SIZE`, and the next segment in order is not in `rcv_buf`, unless
`rcv_queue` holds a window of segments. -/
theorem nothing_deliverable_left {w w' : KCPWrapper} {env : InitEnv} {ip : Bytes} {port : UInt16}
    {conv : UInt32} (h : w.init env ip port conv = (w', true)) (cs : List Call) :
    ∃ kcp, (w'.calls cs).1.kcp = some kcp ∧
      (∀ seg, kcp.rcvQueue.head? = some seg →
        kcp.rcvQueue.length < seg.frg.toNat + 1 ∨ bufferSize < peekLength kcp.rcvQueue) ∧
      ((∀ seg ∈ kcp.rcvBuf, seg.sn ≠ kcp.rcvNxt) ∨
        kcp.rcvWnd.toNat ≤ kcp.rcvQueue.length) := by
  obtain ⟨kcp, hsettled⟩ := settled_of_init h
  obtain ⟨kcp', hend⟩ := hsettled.calls cs
  have hok := hend.quiet.ok
  refine ⟨kcp', hend.live.block, hend.drained.head hok, ?_⟩
  rw [← hok.count]
  exact hend.quiet.gap

/-- The receiver's wrapper, with its callback set before `init`. -/
def listening : KCPWrapper :=
  (KCPWrapper.init (KCPWrapper.setDataCallback {}) .granted mainGroup 12345 mainConv).1

theorem listening_init :
    KCPWrapper.init (KCPWrapper.setDataCallback {}) .granted mainGroup 12345 mainConv
      = (listening, true) := by
  decide +kernel

def pushed (sn : UInt32) (b : UInt8) : Bytes :=
  segBytes { conv := mainConv, cmd := ikcpCmdPush, wnd := 128, sn := sn, data := [b] }

/-- One message is delivered, and a segment waits for the one before it. -/
theorem nothing_deliverable_left_main :
    (listening.calls [.update 0 [.datagram (pushed 0 7), .datagram (pushed 2 9)]]).2 = [[7]] ∧
    ∃ kcp,
      (listening.calls [.update 0 [.datagram (pushed 0 7), .datagram (pushed 2 9)]]).1.kcp
        = some kcp ∧
      (∀ seg, kcp.rcvQueue.head? = some seg →
        kcp.rcvQueue.length < seg.frg.toNat + 1 ∨ bufferSize < peekLength kcp.rcvQueue) ∧
      ((∀ seg ∈ kcp.rcvBuf, seg.sn ≠ kcp.rcvNxt) ∨ kcp.rcvWnd.toNat ≤ kcp.rcvQueue.length) ∧
      kcp.rcvBuf.map IkcpSeg.sn = [2] := by
  have hend : ((listening.calls [.update 0 [.datagram (pushed 0 7),
      .datagram (pushed 2 9)]]).1.kcp.map fun kcp => kcp.rcvBuf.map IkcpSeg.sn) = some [2] := by
    decide +kernel
  obtain ⟨kcp, hkcp, hhead, hgap⟩ := nothing_deliverable_left listening_init
    [.update 0 [.datagram (pushed 0 7), .datagram (pushed 2 9)]]
  rw [hkcp] at hend
  exact ⟨by decide +kernel, kcp, hkcp, hhead, hgap, Option.some.inj hend⟩

end CppDemos
