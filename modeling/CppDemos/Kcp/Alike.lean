import CppDemos.Kcp.Flush

/-!
# Blocks that behave alike

Congestion control is compiled in and kept up to date, but with `nocwnd` set
`ikcp_flush` does not ask for its window. So `ssthresh`, `cwnd` and `incr` are
written and read, and no datagram depends on them; of `updated` all that matters
is whether it is 0. Every function commutes with a change of these four fields
(`hiding`), which makes two blocks that differ in them behave alike in every call.
-/

namespace CppDemos

/-- Fields that do not show: with `nocwnd` set the congestion window decides
about nothing but itself, and `updated` shows in the first update at most. -/
structure Hidden where
  ssthresh : UInt32
  cwnd : UInt32
  incr : UInt32
  updated : UInt32

@[simps] def Ikcpcb.hiding (kcp : Ikcpcb) (x : Hidden) : Ikcpcb :=
  { kcp with ssthresh := x.ssthresh, cwnd := x.cwnd, incr := x.incr, updated := x.updated }

variable (kcp : Ikcpcb) (x : Hidden)

/-! ## Receiving -/

theorem moveRcvBuf_hiding :
    ∀ (buf : List IkcpSeg) (kcp : Ikcpcb),
      moveRcvBuf (kcp.hiding x) buf = (moveRcvBuf kcp buf).hiding x
  | [], _ => rfl
  | seg :: rest, kcp => by
      simp only [moveRcvBuf, Ikcpcb.hiding_rcvNxt, Ikcpcb.hiding_nrcvQue, Ikcpcb.hiding_rcvWnd]
      split
      · exact moveRcvBuf_hiding rest (shiftRcv kcp seg rest)
      · rfl

theorem ikcpRecv_hiding {len : Int} (hlen : 0 ≤ len) :
    ikcpRecv (kcp.hiding x) len = ((ikcpRecv kcp len).1.hiding x, (ikcpRecv kcp len).2) := by
  have hpeek : ikcpPeeksize (kcp.hiding x) = ikcpPeeksize kcp := rfl
  have hpop : popRcv (kcp.hiding x) = (popRcv kcp).hiding x := rfl
  unfold ikcpRecv
  simp only [if_neg (Int.not_lt.mpr hlen), hpeek, hpop, Ikcpcb.hiding_rcvQueue,
    Ikcpcb.hiding_nrcvQue, Ikcpcb.hiding_rcvWnd, moveRcvBuf_hiding, Ikcpcb.hiding_rcvBuf]
  split
  · rfl
  · split
    · rfl
    · split
      · rfl
      · split <;> rfl

theorem ikcpParseData_hiding (newseg : IkcpSeg) :
    ikcpParseData (kcp.hiding x) newseg = (ikcpParseData kcp newseg).hiding x := by
  unfold ikcpParseData
  simp only [Ikcpcb.hiding_rcvNxt, Ikcpcb.hiding_rcvWnd, Ikcpcb.hiding_rcvBuf]
  split
  · rfl
  · split
    · exact moveRcvBuf_hiding x _ { kcp with rcvBuf := _, nrcvBuf := kcp.nrcvBuf + 1 }
    · exact moveRcvBuf_hiding x _ kcp

theorem inputPush_hiding (conv : UInt32) (head : SegHead) (payload : Bytes) :
    inputPush (kcp.hiding x) conv head payload = (inputPush kcp conv head payload).hiding x := by
  have hpush : ikcpAckPush (kcp.hiding x) head.sn head.ts
      = (ikcpAckPush kcp head.sn head.ts).hiding x := rfl
  unfold inputPush
  simp only [hpush, Ikcpcb.hiding_rcvNxt, Ikcpcb.hiding_rcvWnd, ikcpParseData_hiding]
  split
  · split <;> rfl
  · rfl

/-! ## Acknowledgements -/

theorem ikcpShrinkBuf_hiding :
    ikcpShrinkBuf (kcp.hiding x) = (ikcpShrinkBuf kcp).hiding x := by
  unfold ikcpShrinkBuf
  rw [Ikcpcb.hiding_sndBuf]
  split <;> rfl

theorem ikcpUpdateAck_hiding (rtt : Int32) :
    ikcpUpdateAck (kcp.hiding x) rtt = (ikcpUpdateAck kcp rtt).hiding x := by
  unfold ikcpUpdateAck
  rw [Ikcpcb.hiding_rxSrtt]
  split <;> rfl

theorem ikcpParseAck_hiding (sn : UInt32) :
    ikcpParseAck (kcp.hiding x) sn = (ikcpParseAck kcp sn).hiding x := by
  unfold ikcpParseAck
  simp only [Ikcpcb.hiding_sndUna, Ikcpcb.hiding_sndNxt, Ikcpcb.hiding_sndBuf]
  split
  · rfl
  · split <;> rfl

theorem ikcpParseFastack_hiding (sn ts : UInt32) :
    ikcpParseFastack (kcp.hiding x) sn ts = (ikcpParseFastack kcp sn ts).hiding x := by
  unfold ikcpParseFastack
  simp only [Ikcpcb.hiding_sndUna, Ikcpcb.hiding_sndNxt]
  split <;> rfl

theorem inputUna_hiding (head : SegHead) :
    inputUna (kcp.hiding x) head = (inputUna kcp head).hiding x :=
  ikcpShrinkBuf_hiding (ikcpParseUna { kcp with rmtWnd := head.wnd.toUInt32 } head.una) x

theorem inputAck_hiding (head : SegHead) :
    inputAck (kcp.hiding x) head = (inputAck kcp head).hiding x := by
  unfold inputAck
  simp only [Ikcpcb.hiding_current, ikcpUpdateAck_hiding, ← apply_ite (Ikcpcb.hiding · x),
    ikcpParseAck_hiding, ikcpShrinkBuf_hiding]

/-! ## A datagram -/

/-- The state of the segment loop, with other values in its block. -/
def InputSt.hiding (st : InputSt) (x : Hidden) : InputSt := { st with kcp := st.kcp.hiding x }

theorem inputSeg_hiding (st : InputSt) (conv : UInt32) (head : SegHead) (payload : Bytes) :
    inputSeg (st.hiding x) conv head payload = (inputSeg st conv head payload).hiding x := by
  have huna : ikcpShrinkBuf (ikcpParseUna
      { (st.hiding x).kcp with rmtWnd := head.wnd.toUInt32 } head.una)
        = (inputUna st.kcp head).hiding x := inputUna_hiding st.kcp x head
  have hack := inputAck_hiding (inputUna st.kcp head) x head
  unfold inputAck at hack
  have hflag : (st.hiding x).flag = st.flag := rfl
  have hts : (st.hiding x).latestTs = st.latestTs := rfl
  have huna' : ikcpShrinkBuf (ikcpParseUna { st.kcp with rmtWnd := head.wnd.toUInt32 } head.una)
      = inputUna st.kcp head := rfl
  unfold inputSeg
  simp only [huna, huna', hack, hflag, hts, inputPush_hiding]
  split
  · split
    · rfl
    · split <;> rfl
  · split
    · rfl
    · split <;> rfl

theorem inputLoop_hiding :
    ∀ (fuel : Nat) (st : InputSt) (data : Bytes),
      inputLoop fuel (st.hiding x) data
        = ((inputLoop fuel st data).1.hiding x, (inputLoop fuel st data).2)
  | 0, _, _ => rfl
  | fuel + 1, st, data => by
      have hconv : (st.hiding x).kcp.conv = st.kcp.conv := rfl
      simp only [inputLoop, hconv, inputSeg_hiding]
      split
      · rfl
      · split
        · rfl
        · split
          · rfl
          · split
            · rfl
            · exact inputLoop_hiding fuel _ _

theorem growCwnd_hiding (prevUna : UInt32) :
    ∃ y : Hidden, y.updated = x.updated ∧
      growCwnd prevUna (kcp.hiding x) = (growCwnd prevUna kcp).hiding y := by
  obtain ⟨cwnd, incr, heq⟩ := growCwnd_frame prevUna (kcp.hiding x)
  obtain ⟨cwnd', incr', heq'⟩ := growCwnd_frame prevUna kcp
  rw [heq, heq']
  exact ⟨⟨x.ssthresh, cwnd, incr, x.updated⟩, rfl, rfl⟩

theorem inputFinish_hiding (prevUna : UInt32) (st : InputSt) :
    ∃ y : Hidden, y.updated = x.updated ∧
      inputFinish prevUna (st.hiding x) = (inputFinish prevUna st).hiding y := by
  have hflag : (st.hiding x).flag = st.flag := rfl
  have hfast : ikcpParseFastack (st.hiding x).kcp (st.hiding x).maxack (st.hiding x).latestTs
      = (ikcpParseFastack st.kcp st.maxack st.latestTs).hiding x :=
    ikcpParseFastack_hiding st.kcp x st.maxack st.latestTs
  unfold inputFinish
  rw [hflag, hfast, show (st.hiding x).kcp = st.kcp.hiding x from rfl,
    ← apply_ite (Ikcpcb.hiding · x)]
  exact growCwnd_hiding _ x prevUna

theorem ikcpInput_hiding (data : Bytes) :
    ∃ y : Hidden, y.updated = x.updated ∧
      ikcpInput (kcp.hiding x) data
        = ((ikcpInput kcp data).1.hiding y, (ikcpInput kcp data).2) := by
  have hloop := inputLoop_hiding x data.length { kcp := kcp } data
  rw [show InputSt.hiding { kcp := kcp } x = { kcp := kcp.hiding x } from rfl] at hloop
  unfold ikcpInput
  rw [hloop]
  split
  · exact ⟨x, rfl, rfl⟩
  · simp only
    split
    · exact ⟨x, rfl, rfl⟩
    · obtain ⟨y, hy, heq⟩ := inputFinish_hiding x kcp.sndUna
        (inputLoop data.length { kcp := kcp } data).1
      exact ⟨y, hy, Prod.ext heq rfl⟩

/-! ## Flushing -/

theorem flushAcks_hiding :
    ∀ (acks : List (UInt32 × UInt32)) (s : IkcpSeg × OutBuf),
      flushAcks (kcp.hiding x) acks s = flushAcks kcp acks s
  | [], _ => rfl
  | (sn, ts) :: acks, (seg, out) => by
      rw [flushAcks, flushAcks]
      exact flushAcks_hiding acks _

theorem probeWindow_hiding : probeWindow (kcp.hiding x) = (probeWindow kcp).hiding x := by
  unfold probeWindow
  simp only [Ikcpcb.hiding_rmtWnd, Ikcpcb.hiding_probeWait, Ikcpcb.hiding_current,
    Ikcpcb.hiding_tsProbe]
  split
  · split
    · rfl
    · split <;> rfl
  · rfl

theorem flushProbe_hiding (flag cmd : UInt32) (s : IkcpSeg × OutBuf) :
    flushProbe (kcp.hiding x) flag cmd s = flushProbe kcp flag cmd s := rfl

theorem flushControl_hiding :
    flushControl (kcp.hiding x) = ((flushControl kcp).1.hiding x, (flushControl kcp).2) := by
  have hnone : ({ kcp.hiding x with acklist := [] } : Ikcpcb)
      = Ikcpcb.hiding { kcp with acklist := [] } x := rfl
  have hhead : flushHead (kcp.hiding x) = flushHead kcp := rfl
  unfold flushControl
  simp only [hnone, hhead, probeWindow_hiding, flushAcks_hiding, flushProbe_hiding,
    Ikcpcb.hiding_acklist]
  rfl

theorem moveSndQueue_hiding (cwnd wnd : UInt32) :
    ∀ (queue : List IkcpSeg) (kcp : Ikcpcb),
      moveSndQueue cwnd wnd (kcp.hiding x) queue = (moveSndQueue cwnd wnd kcp queue).hiding x
  | [], _ => rfl
  | newseg :: rest, kcp => by
      simp only [moveSndQueue, Ikcpcb.hiding_sndNxt, Ikcpcb.hiding_sndUna]
      split
      · exact moveSndQueue_hiding cwnd wnd rest (shiftSnd wnd kcp newseg rest)
      · rfl

theorem flushData_hiding (resent rtomin wnd : UInt32) :
    ∀ (buf : List IkcpSeg) (st : FlushSt),
      flushData (kcp.hiding x) resent rtomin wnd buf st = flushData kcp resent rtomin wnd buf st
  | [], _ => rfl
  | segment :: p, st => by
      have hdue : flushDue (kcp.hiding x) resent rtomin segment st
          = flushDue kcp resent rtomin segment st := rfl
      rw [flushData, flushData, hdue]
      split
      · rw [flushData_hiding resent rtomin wnd p]
      · simp only [flushData_hiding resent rtomin wnd p]
        rfl

/-- With `nocwnd` the window of the flush is not the congestion window. -/
theorem flushBuffers_hiding (hnocwnd : kcp.nocwnd ≠ 0) (wnd : UInt32) (out : OutBuf) :
    ∃ y : Hidden, y.updated = x.updated ∧
      flushBuffers (kcp.hiding x) wnd out
        = ((flushBuffers kcp wnd out).1.hiding y, (flushBuffers kcp wnd out).2) := by
  have hcwnd : flushCwnd (kcp.hiding x) = flushCwnd kcp := by
    unfold flushCwnd
    simp only [Ikcpcb.hiding_nocwnd, Ikcpcb.hiding_sndWnd, Ikcpcb.hiding_rmtWnd, if_neg hnocwnd]
  have hdata (k : Ikcpcb) : flushSndBuf (k.hiding x) wnd out = flushSndBuf k wnd out :=
    flushData_hiding k x _ _ wnd _ _
  obtain ⟨ssthresh, cwnd, incr, heq⟩ := flushBuffers_eq (kcp.hiding x) wnd out
  obtain ⟨ssthresh', cwnd', incr', heq'⟩ := flushBuffers_eq kcp wnd out
  simp only [hcwnd, Ikcpcb.hiding_sndQueue, moveSndQueue_hiding, hdata] at heq heq'
  rw [heq, heq']
  exact ⟨⟨ssthresh, cwnd, incr, x.updated⟩, rfl, rfl⟩

theorem ikcpFlush_hiding (hnocwnd : kcp.nocwnd ≠ 0) :
    ∃ (kcp' : Ikcpcb) (outs : List Bytes), kcp'.setup = kcp.setup ∧
      ∀ x : Hidden, x.updated ≠ 0 → ∃ y : Hidden, y.updated = x.updated ∧
        ikcpFlush (kcp.hiding x) = (kcp'.hiding y, outs) := by
  obtain ⟨wait, ts, hcontrol⟩ := flushControl_frame kcp
  have hnocwnd' : (flushControl kcp).1.nocwnd ≠ 0 := by
    rw [hcontrol]
    exact hnocwnd
  let out := flushBuffers (flushControl kcp).1 (flushControl kcp).2.1.wnd (flushControl kcp).2.2
  have hsetup : out.1.setup = kcp.setup :=
    (flushBuffers_frame ..).1.trans (by rw [hcontrol]; rfl)
  refine ⟨out.1, out.2, hsetup, fun x hx => ?_⟩
  obtain ⟨y, hy, heq⟩ := flushBuffers_hiding (flushControl kcp).1 x hnocwnd'
    (flushControl kcp).2.1.wnd (flushControl kcp).2.2
  refine ⟨y, hy, ?_⟩
  have hupdated : (kcp.hiding x).updated ≠ 0 := hx
  unfold ikcpFlush
  rw [if_neg hupdated]
  simp only [flushControl_hiding]
  exact heq

/-! ## The clock -/

/-- From the second update on the clock is only set. -/
theorem updateClock_hiding (hx : x.updated ≠ 0) (current : UInt32) :
    updateClock (kcp.hiding x) current = Ikcpcb.hiding { kcp with current := current } x := by
  have hupdated : (kcp.hiding x).updated ≠ 0 := hx
  rw [updateClock, if_neg hupdated]
  rfl

/-- The flush timer, started again if the clock has jumped. -/
def restartClock (kcp : Ikcpcb) : Ikcpcb :=
  if clockJumped kcp then { kcp with tsFlush := kcp.current } else kcp

theorem restartClock_hiding : restartClock (kcp.hiding x) = (restartClock kcp).hiding x := by
  have hjump : clockJumped (kcp.hiding x) = clockJumped kcp := rfl
  unfold restartClock
  rw [hjump]
  split <;> rfl

theorem restartClock_setup : (restartClock kcp).setup = kcp.setup := by
  unfold restartClock
  split <;> rfl

theorem ikcpUpdate_eq (current : UInt32) :
    ikcpUpdate kcp current =
      if itimediff (restartClock (updateClock kcp current)).current
          (restartClock (updateClock kcp current)).tsFlush ≥ 0 then
        ikcpFlush { restartClock (updateClock kcp current) with
          tsFlush := nextFlush (restartClock (updateClock kcp current)) }
      else (restartClock (updateClock kcp current), []) := rfl

theorem ikcpUpdate_hiding (hnocwnd : kcp.nocwnd ≠ 0) (current : UInt32) :
    ∃ (kcp' : Ikcpcb) (outs : List Bytes), kcp'.setup = kcp.setup ∧
      ∀ x : Hidden, x.updated ≠ 0 → ∃ y : Hidden, y.updated = x.updated ∧
        ikcpUpdate (kcp.hiding x) current = (kcp'.hiding y, outs) := by
  have hsetup := restartClock_setup { kcp with current := current }
  generalize hk : restartClock { kcp with current := current } = k at hsetup
  have hclock (x : Hidden) (hx : x.updated ≠ 0) :
      restartClock (updateClock (kcp.hiding x) current) = k.hiding x := by
    rw [updateClock_hiding kcp x hx, restartClock_hiding, hk]
  have hnocwnd' : k.nocwnd ≠ 0 := fun h => hnocwnd ((congrArg Setup.nocwnd hsetup).symm.trans h)
  by_cases hdue : itimediff k.current k.tsFlush ≥ 0
  · obtain ⟨kcp', outs, hsetup', hflush⟩ :=
      ikcpFlush_hiding { k with tsFlush := nextFlush k } hnocwnd'
    refine ⟨kcp', outs, hsetup'.trans hsetup, fun x hx => ?_⟩
    obtain ⟨y, hy, heq⟩ := hflush x hx
    refine ⟨y, hy, ?_⟩
    rw [ikcpUpdate_eq, hclock x hx]
    exact (if_pos hdue).trans heq
  · refine ⟨k, [], hsetup, fun x hx => ⟨x, rfl, ?_⟩⟩
    rw [ikcpUpdate_eq, hclock x hx]
    exact if_neg hdue

/-! ## Sending -/

/-- The block with another clock reading too, which sending does not look at. -/
@[simps!] def Ikcpcb.unread (kcp : Ikcpcb) (x : Hidden) (current : UInt32) : Ikcpcb :=
  { kcp.hiding x with current := current }

variable (current : UInt32)

theorem sendLoop_unread :
    ∀ (n : Nat) (kcp : Ikcpcb) (buffer : Bytes) (len sent : Nat),
      sendLoop (kcp.unread x current) n buffer len sent
        = ((sendLoop kcp n buffer len sent).1.unread x current,
          (sendLoop kcp n buffer len sent).2)
  | 0, _, _, _, _ => rfl
  | n + 1, kcp, buffer, len, sent => by
      let size := if len > kcp.mss.toNat then kcp.mss.toNat else len
      let seg : IkcpSeg :=
        { data := buffer.take size, frg := if kcp.stream = 0 then UInt32.ofNat n else 0 }
      exact sendLoop_unread n (queueSnd kcp [seg]) (buffer.drop size) (len - size) (sent + size)

theorem extendLast_unread (buffer : Bytes) (len : Nat) :
    extendLast (kcp.unread x current) buffer len
      = ((extendLast kcp buffer len).1.unread x current, (extendLast kcp buffer len).2) := by
  unfold extendLast
  simp only [Ikcpcb.unread_sndQueue, Ikcpcb.unread_mss]
  split
  · rfl
  · split <;> rfl

theorem ikcpSend_unread (buffer : Bytes) (len : Int) :
    ikcpSend (kcp.unread x current) buffer len
      = ((ikcpSend kcp buffer len).1.unread x current, (ikcpSend kcp buffer len).2) := by
  have hcount (k : Ikcpcb) : sendCount (k.unread x current) = sendCount k := rfl
  -- in stream mode the last segment is filled up first
  have hfilled : (if kcp.stream ≠ 0 then extendLast (kcp.unread x current) buffer len.toNat
        else (kcp.unread x current, buffer, len.toNat, 0))
      = ((if kcp.stream ≠ 0 then extendLast kcp buffer len.toNat
          else (kcp, buffer, len.toNat, 0)).1.unread x current,
        (if kcp.stream ≠ 0 then extendLast kcp buffer len.toNat
          else (kcp, buffer, len.toNat, 0)).2) := by
    split
    · exact extendLast_unread kcp x current buffer len.toNat
    · rfl
  unfold ikcpSend
  rw [Ikcpcb.unread_stream, hfilled]
  generalize (if kcp.stream ≠ 0 then extendLast kcp buffer len.toNat
    else (kcp, buffer, len.toNat, 0)) = filled
  simp only [hcount, sendLoop_unread, Ikcpcb.unread_stream]
  split
  · rfl
  · split
    · rfl
    · split
      · split <;> rfl
      · rfl

/-! ## Nothing to send -/

/-- Nothing to acknowledge, to probe for or to send. -/
structure NothingToSend (kcp : Ikcpcb) : Prop where
  acklist : kcp.acklist = []
  rmtWnd : kcp.rmtWnd ≠ 0
  tsProbe : kcp.tsProbe = 0
  probeWait : kcp.probeWait = 0
  probe : kcp.probe = 0
  sndQueue : kcp.sndQueue = []
  sndBuf : kcp.sndBuf = []

variable {kcp}

theorem NothingToSend.probeWindow (h : NothingToSend kcp) :
    probeWindow { kcp with acklist := [] } = kcp := by
  have hacks : { kcp with acklist := [] } = kcp := by rw [← h.acklist]
  have hsame : ∀ ts wait, kcp.tsProbe = ts → kcp.probeWait = wait →
      { kcp with tsProbe := ts, probeWait := wait } = kcp := by
    rintro _ _ rfl rfl
    rfl
  rw [hacks, CppDemos.probeWindow, if_neg h.rmtWnd]
  exact hsame 0 0 h.tsProbe h.probeWait

theorem NothingToSend.flushControl (h : NothingToSend kcp) :
    flushControl kcp = (kcp, flushHead kcp, {}) := by
  have hprobe (flag cmd : UInt32) (acks : IkcpSeg × OutBuf) :
      flushProbe kcp flag cmd acks = acks := by
    simp only [flushProbe, h.probe, UInt32.zero_and, if_neg (not_not_intro rfl)]
  have hzero : { kcp with probe := 0 } = kcp := by
    rw [← h.probe]
  unfold CppDemos.flushControl
  rw [h.probeWindow, h.acklist]
  simp only [hprobe, flushAcks, hzero]

/-- A flush of it sends nothing and changes nothing that shows. -/
theorem NothingToSend.flush (h : NothingToSend kcp) :
    ∃ y : Hidden, y.updated = kcp.updated ∧ ikcpFlush kcp = (kcp.hiding y, []) := by
  by_cases hupdated : kcp.updated = 0
  · refine ⟨⟨kcp.ssthresh, kcp.cwnd, kcp.incr, kcp.updated⟩, rfl, ?_⟩
    rw [ikcpFlush, if_pos hupdated]
    rfl
  · obtain ⟨ssthresh, cwnd, incr, hbuffers⟩ := flushBuffers_eq kcp (flushHead kcp).wnd {}
    refine ⟨⟨ssthresh, cwnd, incr, kcp.updated⟩, rfl, ?_⟩
    rw [ikcpFlush, if_neg hupdated, h.flushControl]
    have hmove : moveSndQueue (flushCwnd kcp) (flushHead kcp).wnd kcp kcp.sndQueue = kcp := by
      rw [h.sndQueue, moveSndQueue]
    have hdata : flushSndBuf kcp (flushHead kcp).wnd {}
        = (kcp.sndBuf, { xmit := kcp.xmit, state := kcp.state, out := {} }) := by
      rw [flushSndBuf, h.sndBuf, flushData]
    simp only [hbuffers, hmove, hdata]
    rfl

end CppDemos
