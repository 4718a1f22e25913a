import CppDemos.Kcp.Restamp
import CppDemos.Kcp.Alike
import CppDemos.Kcp.Progress

/-!
# Clock readings in a flush

`ikcp_update` and `ikcp_flush` commute with other clock readings too
(`update_restamp`). The timers of `snd_buf` run out after as long a time as
before, so the same segments are due (`flushDue_late`), and what is written
differs in timestamps only, datagram by datagram (`pack_restamped`).
-/

namespace CppDemos

variable {kcp : Ikcpcb} {d offset : UInt32} {x : Clocks}

/-! ## Window probes -/

theorem Ticks.probed (h : Ticks offset d kcp x) {wait ts ts' probe : UInt32}
    (hprobe : wait = 0 ∨ ts' = ts + offset) :
    Ticks offset d { kcp with probeWait := wait, tsProbe := ts, probe := probe }
      { x with tsProbe := ts' } :=
  ⟨h.running, h.fresh, hprobe, h.timed⟩

theorem probeWindow_restamp (h : Ticks offset d kcp x) (hupdated : kcp.updated ≠ 0) :
    ∃ y, probeWindow (kcp.restamp d x) = (probeWindow kcp).restamp d y ∧
      Ticks offset d (probeWindow kcp) y := by
  obtain ⟨hcurrent, -⟩ := h.running hupdated
  have hlater (wait : UInt32) : x.current + wait = kcp.current + wait + offset := by grind
  unfold probeWindow
  simp only [Ikcpcb.restamp_rmtWnd, Ikcpcb.restamp_probeWait, Ikcpcb.restamp_current,
    Ikcpcb.restamp_tsProbe]
  split
  · split
    · exact ⟨{ x with tsProbe := x.current + ikcpProbeInit }, rfl,
        h.probed (Or.inr (hlater ikcpProbeInit))⟩
    · rename_i hwait
      have hdue : itimediff x.current x.tsProbe = itimediff kcp.current kcp.tsProbe := by
        rw [hcurrent, h.probe.resolve_left hwait, itimediff_late]
      rw [hdue]
      split
      · exact ⟨{ x with tsProbe := x.current + longerWait kcp.probeWait }, rfl,
          h.probed (Or.inr (hlater (longerWait kcp.probeWait)))⟩
      · exact ⟨x, rfl, h⟩
  · exact ⟨{ x with tsProbe := 0 }, rfl, h.probed (Or.inl rfl)⟩

theorem flushControl_restamp (h : Ticks offset d kcp x) (hupdated : kcp.updated ≠ 0) :
    ∃ y, (flushControl (kcp.restamp d x)).1 = (flushControl kcp).1.restamp d y ∧
      Ticks offset d (flushControl kcp).1 y := by
  have hacks : Ticks offset d { kcp with acklist := [] } x :=
    ⟨h.running, h.fresh, h.probe, h.timed⟩
  obtain ⟨y, hprobe, hticks⟩ := probeWindow_restamp hacks hupdated
  have hnone : { kcp.restamp d x with acklist := [] }
      = ({ kcp with acklist := [] } : Ikcpcb).restamp d x := rfl
  refine ⟨y, ?_, hticks.running, hticks.fresh, hticks.probe, hticks.timed⟩
  simp only [flushControl, hnone, hprobe]
  rfl

/-! ## Data segments -/

theorem moveSndQueue_restamp (cwnd wnd : UInt32) :
    ∀ (queue : List IkcpSeg) {kcp : Ikcpcb},
      x.current = kcp.current + d ∧ x.rxRto = kcp.rxRto ∨ queue = [] →
      moveSndQueue cwnd wnd (kcp.restamp d x) queue = (moveSndQueue cwnd wnd kcp queue).restamp d x
  | [], _, _ => rfl
  | newseg :: rest, kcp, h => by
      obtain ⟨hcurrent, hrto⟩ := h.resolve_right (by simp)
      have hshift : shiftSnd wnd (kcp.restamp d x) newseg rest
          = (shiftSnd wnd kcp newseg rest).restamp d x := by
        simp [shiftSnd, Ikcpcb.restamp, IkcpSeg.late, hcurrent, hrto]
      have hnext : moveSndQueue cwnd wnd ((shiftSnd wnd kcp newseg rest).restamp d x) rest
          = (moveSndQueue cwnd wnd (shiftSnd wnd kcp newseg rest) rest).restamp d x :=
        moveSndQueue_restamp cwnd wnd rest (Or.inl ⟨hcurrent, hrto⟩)
      simp only [moveSndQueue, Ikcpcb.restamp_sndNxt, Ikcpcb.restamp_sndUna, hshift, hnext]
      split <;> rfl

/-- A segment is due as long after it was sent as before, whatever else the loop
has written. -/
theorem flushDue_late (hcurrent : x.current = kcp.current + d) (hrto : x.rxRto = kcp.rxRto)
    (resent rtomin : UInt32) (segment : IkcpSeg) (st : FlushSt) (out : OutBuf) :
    flushDue (kcp.restamp d x) resent rtomin (segment.late d) { st with out := out }
      = (flushDue kcp resent rtomin segment st).map fun due =>
        (due.1.late d, { due.2 with out := out }) := by
  have hlater (wait : UInt32) : kcp.current + d + wait = kcp.current + wait + d := by grind
  have hmin (a b : UInt32) : kcp.current + a + d + b = kcp.current + a + b + d := by grind
  unfold flushDue
  simp only [IkcpSeg.late_xmit, IkcpSeg.late_resendts, IkcpSeg.late_rto, IkcpSeg.late_fastack,
    Ikcpcb.restamp_current, Ikcpcb.restamp_rxRto, Ikcpcb.restamp_nodelay,
    Ikcpcb.restamp_fastlimit, hcurrent, hrto, itimediff_late, hlater]
  split
  · simp [IkcpSeg.late, hmin]
  · split
    · simp [IkcpSeg.late]
    · split
      · split
        · simp [IkcpSeg.late]
        · rfl
      · rfl

theorem flushData_late (resent rtomin wnd : UInt32) :
    ∀ (buf : List IkcpSeg) (st : FlushSt) (out : OutBuf),
      x.current = kcp.current + d ∧ x.rxRto = kcp.rxRto ∨ buf = [] →
      ∃ out', flushData (kcp.restamp d x) resent rtomin wnd (buf.map (IkcpSeg.late d))
          { st with out := out }
        = ((flushData kcp resent rtomin wnd buf st).1.map (IkcpSeg.late d),
          { (flushData kcp resent rtomin wnd buf st).2 with out := out' })
  | [], _, out, _ => ⟨out, rfl⟩
  | segment :: p, st, out, h => by
      obtain ⟨hcurrent, hrto⟩ := h.resolve_right (by simp)
      have hdue := flushDue_late hcurrent hrto resent rtomin segment st out
      rw [List.map_cons, flushData, flushData, hdue]
      cases flushDue kcp resent rtomin segment st with
      | none =>
          obtain ⟨out', heq⟩ := flushData_late resent rtomin wnd p st out
            (Or.inl ⟨hcurrent, hrto⟩)
          exact ⟨out', by simp only [Option.map_none, heq, List.map_cons]⟩
      | some due =>
          obtain ⟨seg, st⟩ := due
          let sent : IkcpSeg := { seg with ts := kcp.current, wnd := wnd, una := kcp.rcvNxt }
          let next : FlushSt := { st with
            out := (st.out.reserve kcp.mtu (ikcpOverhead + seg.len)).put (segBytes sent)
            state := if seg.xmit ≥ kcp.deadLink then 0xffffffff else st.state }
          obtain ⟨out', heq⟩ := flushData_late resent rtomin wnd p next
            ((out.reserve kcp.mtu (ikcpOverhead + seg.len)).put (segBytes (sent.late d)))
            (Or.inl ⟨hcurrent, hrto⟩)
          have hsent : { seg.late d with ts := x.current, wnd := wnd, una := kcp.rcvNxt }
              = sent.late d := by
            simp only [sent, IkcpSeg.late, hcurrent]
          refine ⟨out', ?_⟩
          simp only [Option.map_some, Ikcpcb.restamp_current, Ikcpcb.restamp_rcvNxt,
            Ikcpcb.restamp_mtu, Ikcpcb.restamp_deadLink, hsent, List.map_cons]
          exact congrArg (fun r => (sent.late d :: r.1, r.2)) heq

theorem flushWindow_restamp (kcp : Ikcpcb) (resent cwnd : UInt32) (change lost : Bool) :
    flushWindow (kcp.restamp d x) resent cwnd change lost
      = (flushWindow kcp resent cwnd change lost).restamp d x := by
  have hfloor (k : Ikcpcb) :
      (if (k.restamp d x).cwnd < 1 then { k.restamp d x with cwnd := 1, incr := k.mss }
        else k.restamp d x)
        = (if k.cwnd < 1 then { k with cwnd := 1, incr := k.mss } else k).restamp d x := by
    rw [Ikcpcb.restamp_cwnd]
    split <;> rfl
  cases change with
  | false =>
      cases lost with
      | false => exact hfloor kcp
      | true => exact hfloor (flushLost kcp cwnd)
  | true =>
      cases lost with
      | false => exact hfloor (flushChange kcp resent)
      | true => exact hfloor (flushLost (flushChange kcp resent) cwnd)

/-- Either both blocks look at the same times, or there is nothing to send. -/
def SameTimes (d : UInt32) (kcp : Ikcpcb) (x : Clocks) : Prop :=
  x.current = kcp.current + d ∧ x.rxRto = kcp.rxRto ∨ kcp.sndQueue = [] ∧ kcp.sndBuf = []

theorem Ticks.sameTimes (h : Ticks offset d kcp x) (hupdated : kcp.updated ≠ 0) :
    SameTimes d kcp x := by
  refine h.timed.imp ?_ And.right
  rintro ⟨rfl, htiming⟩
  exact ⟨(h.running hupdated).1, congrArg (fun t => t.2.2) htiming⟩

theorem SameTimes.moved (h : SameTimes d kcp x) (cwnd wnd : UInt32) :
    moveSndQueue cwnd wnd (kcp.restamp d x) kcp.sndQueue
        = (moveSndQueue cwnd wnd kcp kcp.sndQueue).restamp d x ∧
      SameTimes d (moveSndQueue cwnd wnd kcp kcp.sndQueue) x := by
  refine ⟨moveSndQueue_restamp cwnd wnd kcp.sndQueue (h.imp id And.left), ?_⟩
  rcases h with hsame | ⟨hqueue, hbuf⟩
  · obtain ⟨_, _, _, _, _, heq⟩ := moveSndQueue_frame cwnd wnd kcp.sndQueue kcp
    rw [heq]
    exact Or.inl hsame
  · rw [hqueue]
    exact Or.inr ⟨hqueue, hbuf⟩

theorem SameTimes.sndBuf (h : SameTimes d kcp x) (wnd : UInt32) (out out' : OutBuf) :
    ∃ out'', flushSndBuf (kcp.restamp d x) wnd out'
      = ((flushSndBuf kcp wnd out).1.map (IkcpSeg.late d),
        { (flushSndBuf kcp wnd out).2 with out := out'' }) := by
  have hdata := flushData_late (flushResent kcp) (flushRtomin kcp) wnd kcp.sndBuf
    { xmit := kcp.xmit, state := kcp.state, out := out } out' (h.imp id And.right)
  rcases h with ⟨-, hrto⟩ | ⟨-, hbuf⟩
  · have hmin : flushRtomin (kcp.restamp d x) = flushRtomin kcp := by
      unfold flushRtomin
      rw [Ikcpcb.restamp_nodelay, Ikcpcb.restamp_rxRto, hrto]
    rw [flushSndBuf, hmin]
    exact hdata
  · refine ⟨out', ?_⟩
    rw [flushSndBuf, flushSndBuf, Ikcpcb.restamp_sndBuf, hbuf]
    rfl

theorem SameTimes.buffers (h : SameTimes d kcp x) (wnd : UInt32) (out out' : OutBuf) :
    (flushBuffers (kcp.restamp d x) wnd out').1 = (flushBuffers kcp wnd out).1.restamp d x := by
  obtain ⟨hmove, hsame⟩ := h.moved (flushCwnd kcp) wnd
  obtain ⟨out'', hdata⟩ := hsame.sndBuf wnd out out'
  have hcwnd : flushCwnd (kcp.restamp d x) = flushCwnd kcp := rfl
  unfold flushBuffers
  simp only [hcwnd, Ikcpcb.restamp_sndQueue, hmove, hdata]
  exact flushWindow_restamp { moveSndQueue (flushCwnd kcp) wnd kcp kcp.sndQueue with
    sndBuf := _, xmit := _, state := _ } _ _ _ _

theorem Ticks.buffers (h : Ticks offset d kcp x) (hupdated : kcp.updated ≠ 0) (wnd : UInt32)
    (out : OutBuf) : Ticks offset d (flushBuffers kcp wnd out).1 x := by
  obtain ⟨ssthresh, cwnd, incr, heq⟩ := flushBuffers_eq kcp wnd out
  obtain ⟨_, _, _, _, _, hmove⟩ := moveSndQueue_frame (flushCwnd kcp) wnd kcp.sndQueue kcp
  have hclock : (flushBuffers kcp wnd out).1.clock = kcp.clock ∧
      (flushBuffers kcp wnd out).1.timing = kcp.timing := by
    rw [heq, hmove]
    exact ⟨rfl, rfl⟩
  simp only [Ikcpcb.clock, Prod.mk.injEq] at hclock
  obtain ⟨⟨hup, hcurrent, hflush, hprobe, hwait⟩, htiming⟩ := hclock
  refine ⟨?_, fun hzero => absurd (hup.symm.trans hzero) hupdated, ?_, ?_⟩
  · rw [hup, hcurrent, hflush]
    exact h.running
  · rw [hwait, hprobe]
    exact h.probe
  · refine h.timed.imp (fun hsame => ⟨hsame.1, hsame.2.trans htiming.symm⟩) ?_
    rintro ⟨hne, hqueue, hbuf⟩
    rw [heq, hqueue]
    refine ⟨hne, hqueue, ?_⟩
    simp only [moveSndQueue, flushSndBuf, hbuf, flushData]

theorem flush_restamp (h : Ticks offset d kcp x) (hupdated : kcp.updated ≠ 0) :
    ∃ y, (ikcpFlush (kcp.restamp d x)).1 = (ikcpFlush kcp).1.restamp d y ∧
      Ticks offset d (ikcpFlush kcp).1 y := by
  obtain ⟨y, hcontrol, hticks⟩ := flushControl_restamp h hupdated
  obtain ⟨wait, ts, hframe⟩ := flushControl_frame kcp
  have hup : (flushControl kcp).1.updated ≠ 0 := by
    rw [hframe]
    exact hupdated
  obtain ⟨hwnd, -⟩ := flushControl_out kcp
  obtain ⟨hwnd', -⟩ := flushControl_out (kcp.restamp d x)
  refine ⟨y, ?_, ?_⟩
  · rw [ikcpFlush, ikcpFlush, Ikcpcb.restamp_updated, if_neg hupdated, if_neg hupdated]
    simp only [hwnd, hwnd', hcontrol]
    exact (hticks.sameTimes hup).buffers _ _ _
  · rw [ikcpFlush, if_neg hupdated]
    exact hticks.buffers hup _ _

/-! ## What is written -/

/-- The header of a flush, with some other timestamp. -/
def SameHead (seg seg' : IkcpSeg) : Prop := ∃ ts, seg' = { seg with ts := ts }

theorem ackHead_restamp (acks : List (UInt32 × UInt32)) :
    ∀ {seg seg' : IkcpSeg}, SameHead seg seg' →
      SameHead (ackHead seg acks) (ackHead seg' (acks.map fun ack => (ack.1, ack.2 + d))) := by
  induction acks with
  | nil => exact fun h => h
  | cons ack acks ih =>
      rintro seg _ ⟨ts, rfl⟩
      exact ih ⟨ack.2 + d, rfl⟩

theorem ackSegs_restamped (seg : IkcpSeg) (acks : List (UInt32 × UInt32)) :
    List.Forall₂ (IkcpSeg.Restamped d) (ackSegs seg acks)
      (ackSegs seg (acks.map fun ack => (ack.1, ack.2 + d))) := by
  induction acks with
  | nil => exact .nil
  | cons ack acks ih => exact .cons ⟨rfl, fun _ => rfl⟩ ih

theorem probeSegs_restamped {k k' : Ikcpcb} (hprobe : k'.probe = k.probe) (flag : UInt32)
    {cmd : UInt32} (hcmd : cmd ≠ ikcpCmdPush ∧ cmd ≠ ikcpCmdAck) {seg seg' : IkcpSeg}
    (hseg : SameHead seg seg') :
    List.Forall₂ (IkcpSeg.Restamped d) (probeSegs k flag cmd seg) (probeSegs k' flag cmd seg') ∧
      SameHead (probeHead k flag cmd seg) (probeHead k' flag cmd seg') := by
  obtain ⟨ts, rfl⟩ := hseg
  unfold probeSegs probeHead
  rw [hprobe]
  split
  · exact ⟨.cons ⟨rfl, fun h => absurd h (not_or.mpr hcmd)⟩ .nil, ts, rfl⟩
  · exact ⟨.nil, ts, rfl⟩

theorem wask_ne : ikcpCmdWask ≠ ikcpCmdPush ∧ ikcpCmdWask ≠ ikcpCmdAck := by decide

theorem wins_ne : ikcpCmdWins ≠ ikcpCmdPush ∧ ikcpCmdWins ≠ ikcpCmdAck := by decide

theorem controlSegs_restamp (h : Ticks offset d kcp x) (hupdated : kcp.updated ≠ 0) :
    List.Forall₂ (IkcpSeg.Restamped d) (controlSegs kcp) (controlSegs (kcp.restamp d x)) := by
  have hacks : Ticks offset d { kcp with acklist := [] } x :=
    ⟨h.running, h.fresh, h.probe, h.timed⟩
  obtain ⟨y, hprobe, -⟩ := probeWindow_restamp hacks hupdated
  have hsame := congrArg (fun k => k.probe) hprobe
  have hhead : SameHead (flushedHead kcp) (flushedHead (kcp.restamp d x)) :=
    ackHead_restamp kcp.acklist ⟨0, rfl⟩
  obtain ⟨hwask, hnext⟩ := probeSegs_restamped (d := d) hsame ikcpAskSend wask_ne hhead
  obtain ⟨hwins, -⟩ := probeSegs_restamped (d := d) hsame ikcpAskTell wins_ne hnext
  exact List.rel_append
    (List.rel_append (ackSegs_restamped (flushHead kcp) kcp.acklist) hwask) hwins

theorem flushing_restamp (h : Ticks offset d kcp x) (hupdated : kcp.updated ≠ 0) :
    ∃ y, flushing (kcp.restamp d x) = (flushing kcp).restamp d y ∧
      SameTimes d (flushing kcp) y := by
  obtain ⟨y, hcontrol, hticks⟩ := flushControl_restamp h hupdated
  obtain ⟨wait, ts, hframe⟩ := flushControl_frame kcp
  have hup : (flushControl kcp).1.updated ≠ 0 := by
    rw [hframe]
    exact hupdated
  obtain ⟨hmove, hsame⟩ := (hticks.sameTimes hup).moved (flushCwnd (flushControl kcp).1)
    (UInt32.ofNat (ikcpWndUnused kcp))
  refine ⟨y, ?_, hsame⟩
  rw [flushing, hcontrol]
  exact hmove

theorem dueSeg_late (hcurrent : x.current = kcp.current + d) (hrto : x.rxRto = kcp.rxRto)
    (resent rtomin wnd : UInt32) (segment : IkcpSeg) :
    dueSeg (kcp.restamp d x) resent rtomin wnd (segment.late d)
      = (dueSeg kcp resent rtomin wnd segment).map (IkcpSeg.late d) := by
  have hdue := flushDue_late hcurrent hrto resent rtomin segment
    { xmit := 0, state := 0, out := {} } {}
  rw [dueSeg, dueSeg, hdue, Option.map_map, Option.map_map]
  refine congrArg (Option.map · _) (funext fun due => ?_)
  simp only [Function.comp_apply, IkcpSeg.late, Ikcpcb.restamp_current, Ikcpcb.restamp_rcvNxt,
    hcurrent]

theorem restamped_late (segs : List IkcpSeg) :
    List.Forall₂ (IkcpSeg.Restamped d) segs (segs.map (IkcpSeg.late d)) := by
  rw [List.forall₂_map_right_iff, List.forall₂_same]
  exact fun seg _ => ⟨rfl, fun _ => rfl⟩

theorem dataSegs_restamp (h : Ticks offset d kcp x) (hupdated : kcp.updated ≠ 0) :
    List.Forall₂ (IkcpSeg.Restamped d) (dataSegs kcp) (dataSegs (kcp.restamp d x)) := by
  obtain ⟨y, hflushing, hsame⟩ := flushing_restamp h hupdated
  have hwnd : ikcpWndUnused (kcp.restamp d x) = ikcpWndUnused kcp := rfl
  have hresent : flushResent ((flushing kcp).restamp d y) = flushResent (flushing kcp) := rfl
  unfold dataSegs
  rw [hwnd, hflushing, hresent, Ikcpcb.restamp_sndBuf, List.filterMap_map]
  rcases hsame with ⟨hcurrent, hrto⟩ | ⟨-, hbuf⟩
  · have hmin : flushRtomin ((flushing kcp).restamp d y) = flushRtomin (flushing kcp) := by
      unfold flushRtomin
      rw [Ikcpcb.restamp_nodelay, Ikcpcb.restamp_rxRto, hrto]
    have hlate : dueSeg ((flushing kcp).restamp d y) (flushResent (flushing kcp))
          (flushRtomin (flushing kcp)) (UInt32.ofNat (ikcpWndUnused kcp)) ∘ IkcpSeg.late d
        = fun segment => (dueSeg (flushing kcp) (flushResent (flushing kcp))
          (flushRtomin (flushing kcp)) (UInt32.ofNat (ikcpWndUnused kcp)) segment).map
            (IkcpSeg.late d) :=
      funext fun segment => dueSeg_late hcurrent hrto _ _ _ segment
    rw [hmin, hlate, ← List.map_filterMap]
    exact restamped_late _
  · rw [hbuf]
    exact .nil

theorem flushSegs_restamp (h : Ticks offset d kcp x) (hupdated : kcp.updated ≠ 0) :
    List.Forall₂ (IkcpSeg.Restamped d) (flushSegs kcp) (flushSegs (kcp.restamp d x)) :=
  List.rel_append (controlSegs_restamp h hupdated) (dataSegs_restamp h hupdated)

/-! ## Datagrams -/

theorem IkcpSeg.Restamped.len {seg seg' : IkcpSeg} (h : IkcpSeg.Restamped d seg seg') :
    seg'.len = seg.len := by
  rw [h.same]
  rfl

theorem length_datagram_restamped {segs segs' : List IkcpSeg}
    (h : List.Forall₂ (IkcpSeg.Restamped d) segs segs') :
    (datagram segs').length = (datagram segs).length := by
  induction h with
  | nil => rfl
  | cons hseg _ ih =>
      rw [datagram_cons, datagram_cons, List.length_append, List.length_append, ih,
        length_segBytes, length_segBytes, hseg.len]

/-- The same datagrams handed over and the same bytes waiting, but for
timestamps. -/
def OutBuf.Restamped (d : UInt32) (log : List IkcpSeg) (out out' : OutBuf) : Prop :=
  ∃ groups groups' pending pending',
    out.sent = groups.map datagram ∧ out'.sent = groups'.map datagram ∧
    out.ptr = datagram pending ∧ out'.ptr = datagram pending' ∧
    List.Forall₂ (List.Forall₂ (IkcpSeg.Restamped d)) groups groups' ∧
    List.Forall₂ (IkcpSeg.Restamped d) pending pending' ∧ groups.flatten ++ pending = log

theorem OutBuf.Restamped.output {log : List IkcpSeg} {out out' : OutBuf}
    (h : OutBuf.Restamped d log out out') :
    ∃ groups groups', ikcpOutput out.sent out.ptr = groups.map datagram ∧
      ikcpOutput out'.sent out'.ptr = groups'.map datagram ∧
      List.Forall₂ (List.Forall₂ (IkcpSeg.Restamped d)) groups groups' ∧
      groups.flatten = log := by
  obtain ⟨groups, groups', pending, pending', h1, h2, h3, h4, hgroups, hpending, rfl⟩ := h
  rw [ikcpOutput, ikcpOutput, h1, h2, h3, h4, length_datagram_restamped hpending]
  split
  · rename_i hzero
    obtain rfl := datagram_eq_nil hzero
    exact ⟨groups, groups', rfl, rfl, hgroups, by simp⟩
  · exact ⟨groups ++ [pending], groups' ++ [pending'], by simp, by simp,
      List.rel_append hgroups (.cons hpending .nil), by simp⟩

theorem OutBuf.Restamped.write {log : List IkcpSeg} {out out' : OutBuf}
    (h : OutBuf.Restamped d log out out') (mtu : UInt32) {seg seg' : IkcpSeg}
    (hseg : IkcpSeg.Restamped d seg seg') :
    OutBuf.Restamped d (log ++ [seg]) (out.write mtu seg) (out'.write mtu seg') := by
  obtain ⟨all, all', hall, hall', hsame, hlog⟩ := h.output
  obtain ⟨groups, groups', pending, pending', h1, h2, h3, h4, hgroups, hpending, rfl⟩ := h
  have hlen : out'.ptr.length = out.ptr.length := by
    rw [h3, h4, length_datagram_restamped hpending]
  unfold OutBuf.write OutBuf.reserve OutBuf.put
  rw [hlen, hseg.len]
  split
  · exact ⟨all, all', [seg], [seg'], hall, hall', by simp [datagram], by simp [datagram],
      hsame, .cons hseg .nil, by rw [hlog]⟩
  · exact ⟨groups, groups', pending ++ [seg], pending' ++ [seg'], h1, h2,
      by rw [datagram_concat, ← h3], by rw [datagram_concat, ← h4], hgroups,
      List.rel_append hpending (.cons hseg .nil), by simp⟩

theorem OutBuf.Restamped.writeAll (mtu : UInt32) {segs segs' : List IkcpSeg}
    (hsegs : List.Forall₂ (IkcpSeg.Restamped d) segs segs') :
    ∀ {log : List IkcpSeg} {out out' : OutBuf}, OutBuf.Restamped d log out out' →
      OutBuf.Restamped d (log ++ segs) (out.writeAll mtu segs) (out'.writeAll mtu segs') := by
  induction hsegs with
  | nil => exact fun h => by simpa using h
  | cons hseg _ ih => exact fun h => by simpa using ih (h.write mtu hseg)

theorem pack_restamped (mtu : UInt32) {segs segs' : List IkcpSeg}
    (hsegs : List.Forall₂ (IkcpSeg.Restamped d) segs segs') :
    ∃ groups groups', pack mtu segs = groups.map datagram ∧
      pack mtu segs' = groups'.map datagram ∧
      List.Forall₂ (List.Forall₂ (IkcpSeg.Restamped d)) groups groups' ∧
      groups.flatten = segs := by
  have hnone : OutBuf.Restamped d [] {} {} :=
    ⟨[], [], [], [], rfl, rfl, rfl, rfl, .nil, .nil, rfl⟩
  exact (OutBuf.Restamped.writeAll mtu hsegs hnone).output

/-! ## An update -/

theorem updateClock_restamp (h : Ticks offset d kcp x) (current : UInt32) :
    ∃ y, updateClock (kcp.restamp d x) (current + offset)
        = (updateClock kcp current).restamp d y ∧
      Ticks offset d (updateClock kcp current) y ∧ (updateClock kcp current).updated ≠ 0 := by
  unfold updateClock
  rw [Ikcpcb.restamp_updated]
  split
  · exact ⟨{ x with current := current + offset, tsFlush := current + offset }, rfl,
      ⟨fun _ => ⟨rfl, rfl⟩, fun hzero => absurd hzero (by simp), h.probe, h.timed⟩, by simp⟩
  · rename_i hupdated
    exact ⟨{ x with current := current + offset }, rfl,
      ⟨fun _ => ⟨rfl, (h.running hupdated).2⟩, h.fresh, h.probe, h.timed⟩, hupdated⟩

theorem Ticks.flushAt (h : Ticks offset d kcp x) {ts ts' : UInt32} (hts : ts' = ts + offset) :
    Ticks offset d { kcp with tsFlush := ts } { x with tsFlush := ts' } :=
  ⟨fun hupdated => ⟨(h.running hupdated).1, hts⟩, h.fresh, h.probe, h.timed⟩

theorem nextFlush_late (h : Ticks offset d kcp x) (hupdated : kcp.updated ≠ 0) :
    nextFlush (kcp.restamp d x) = nextFlush kcp + offset := by
  obtain ⟨hcurrent, hflush⟩ := h.running hupdated
  have hlater (a b : UInt32) : a + offset + b = a + b + offset := by grind
  unfold nextFlush
  simp only [Ikcpcb.restamp_current, Ikcpcb.restamp_tsFlush, Ikcpcb.restamp_interval, hcurrent,
    hflush, hlater, itimediff_late]
  split <;> rfl

/-- The block with its clock set and its flush timer checked. -/
def updating (kcp : Ikcpcb) (current : UInt32) : Ikcpcb := restartClock (updateClock kcp current)

def flushSet (kcp : Ikcpcb) : Ikcpcb := { kcp with tsFlush := nextFlush kcp }

theorem ikcpUpdate_updating (kcp : Ikcpcb) (current : UInt32) :
    ikcpUpdate kcp current =
      if itimediff (updating kcp current).current (updating kcp current).tsFlush ≥ 0 then
        ikcpFlush (flushSet (updating kcp current))
      else (updating kcp current, []) := rfl

theorem flushSet_restamp (h : Ticks offset d kcp x) (hupdated : kcp.updated ≠ 0) :
    ∃ y, flushSet (kcp.restamp d x) = (flushSet kcp).restamp d y ∧
      Ticks offset d (flushSet kcp) y :=
  ⟨{ x with tsFlush := nextFlush (kcp.restamp d x) }, rfl, h.flushAt (nextFlush_late h hupdated)⟩

theorem updating_frame (kcp : Ikcpcb) (current : UInt32) : ∃ updated tsFlush,
    updating kcp current
      = { kcp with current := current, updated := updated, tsFlush := tsFlush } := by
  obtain ⟨updated, tsFlush, hclock⟩ := updateClock_frame kcp current
  rw [updating, hclock, restartClock]
  split
  · exact ⟨updated, current, rfl⟩
  · exact ⟨updated, tsFlush, rfl⟩

theorem updating_restamp (h : Ticks offset d kcp x) (current : UInt32) :
    ∃ y, updating (kcp.restamp d x) (current + offset) = (updating kcp current).restamp d y ∧
      Ticks offset d (updating kcp current) y ∧ (updating kcp current).updated ≠ 0 := by
  obtain ⟨y, hclock, hticks, hupdated⟩ := updateClock_restamp h current
  obtain ⟨hcurrent, hflush⟩ := hticks.running hupdated
  have hjumped : clockJumped ((updateClock kcp current).restamp d y)
      = clockJumped (updateClock kcp current) := by
    simp only [clockJumped, Ikcpcb.restamp_current, Ikcpcb.restamp_tsFlush, hcurrent, hflush,
      itimediff_late]
  unfold updating
  rw [hclock, restartClock, restartClock, hjumped]
  split
  · exact ⟨{ y with tsFlush := y.current }, rfl, hticks.flushAt hcurrent, hupdated⟩
  · exact ⟨y, rfl, hticks, hupdated⟩

/-- One datagram and the same with other timestamps, both well-formed. -/
structure DatagramRestamped (d conv mtu : UInt32) (data data' : Bytes) : Prop where
  segs : ∃ segs segs', data = datagram segs ∧ data' = datagram segs' ∧
    List.Forall₂ (IkcpSeg.Restamped d) segs segs' ∧ ∀ seg ∈ segs, seg.Sendable conv
  length : data.length ≤ mtu.toNat ∧ data'.length = data.length

theorem datagrams_restamped {conv mtu : UInt32} {groups groups' : List (List IkcpSeg)}
    (h : List.Forall₂ (List.Forall₂ (IkcpSeg.Restamped d)) groups groups')
    (hsend : ∀ seg ∈ groups.flatten, seg.Sendable conv)
    (hlen : ∀ group ∈ groups, (datagram group).length ≤ mtu.toNat) :
    List.Forall₂ (DatagramRestamped d conv mtu) (groups.map datagram) (groups'.map datagram) := by
  induction h with
  | nil => exact .nil
  | @cons group group' groups groups' hgroup _ ih =>
      rw [List.forall_mem_cons] at hlen
      rw [List.flatten_cons, List.forall_mem_append] at hsend
      exact .cons ⟨⟨group, group', rfl, rfl, hgroup, hsend.1⟩, hlen.1,
        length_datagram_restamped hgroup⟩ (ih hsend.2 hlen.2)

theorem flush_outs_restamped (h : Ticks offset d kcp x) (hupdated : kcp.updated ≠ 0) :
    ∃ groups groups', (ikcpFlush kcp).2 = groups.map datagram ∧
      (ikcpFlush (kcp.restamp d x)).2 = groups'.map datagram ∧
      List.Forall₂ (List.Forall₂ (IkcpSeg.Restamped d)) groups groups' ∧
      groups.flatten = flushSegs kcp := by
  have hupdated' : (kcp.restamp d x).updated ≠ 0 := hupdated
  rw [ikcpFlush_outs hupdated, ikcpFlush_outs hupdated', Ikcpcb.restamp_mtu]
  exact pack_restamped kcp.mtu (flushSegs_restamp h hupdated)

/-- What a flush of a block, or of the same block with another clock, has to send. -/
theorem flush_datagrams {conv mtu : UInt32} (h : Ticks offset d kcp x)
    (hupdated : kcp.updated ≠ 0) (hsend : ∀ seg ∈ flushSegs kcp, seg.Sendable conv)
    (hlen : ∀ data ∈ (ikcpFlush kcp).2, data.length ≤ mtu.toNat) :
    List.Forall₂ (DatagramRestamped d conv mtu) (ikcpFlush kcp).2
      (ikcpFlush (kcp.restamp d x)).2 := by
  obtain ⟨groups, groups', houts, houts', hgroups, hflat⟩ := flush_outs_restamped h hupdated
  rw [houts] at hlen ⊢
  rw [houts']
  exact datagrams_restamped hgroups (hflat ▸ hsend) fun group hgroup =>
    hlen _ (List.mem_map_of_mem hgroup)

/-- An update at another reading of a clock that is ahead by `offset` does the same
and sends the same, but for timestamps. -/
theorem update_restamp (h : Ticks offset d kcp x) (hunsent : Unsent kcp) (hok : RcvOk kcp)
    (current : UInt32) :
    ∃ y, (ikcpUpdate (kcp.restamp d x) (current + offset)).1
        = (ikcpUpdate kcp current).1.restamp d y ∧
      Ticks offset d (ikcpUpdate kcp current).1 y ∧ (ikcpUpdate kcp current).1.updated ≠ 0 ∧
      List.Forall₂ (DatagramRestamped d kcp.conv kcp.mtu) (ikcpUpdate kcp current).2
        (ikcpUpdate (kcp.restamp d x) (current + offset)).2 := by
  obtain ⟨y, hupdating, hticks, hupdated⟩ := updating_restamp h current
  obtain ⟨hcurrent, hflush⟩ := hticks.running hupdated
  have hafter := hunsent.update current
  have hconv : (ikcpUpdate kcp current).1.conv = kcp.conv :=
    congrArg Setup.conv (ikcpUpdate_frame kcp current).1
  have hparses := hunsent.outs hok current
  obtain ⟨updated, tsFlush, hframe⟩ := updating_frame kcp current
  rw [ikcpUpdate_updating] at hafter hconv hparses ⊢
  rw [ikcpUpdate_updating, hupdating]
  simp only [Ikcpcb.restamp_current, Ikcpcb.restamp_tsFlush, hcurrent, hflush, itimediff_late]
  split
  · rename_i hdue
    rw [if_pos hdue] at hafter hconv hparses
    obtain ⟨z, hset, hsetTicks⟩ := flushSet_restamp hticks hupdated
    have hrunning : (flushSet (updating kcp current)).updated ≠ 0 := hupdated
    obtain ⟨z', hblock, hticks'⟩ := flush_restamp hsetTicks hrunning
    obtain ⟨⟨hsame, -⟩, -⟩ := ikcpFlush_block hrunning
    rw [hset]
    refine ⟨z', hblock, hticks', fun hzero => hrunning (hsame.symm.trans hzero),
      flush_datagrams hsetTicks hrunning (fun seg hseg => ?_) fun data hdata =>
        (hparses data hdata).length⟩
    obtain ⟨tsNext, hframe⟩ : ∃ tsNext, flushSet (updating kcp current)
        = { kcp with current := current, updated := updated, tsFlush := tsNext } := by
      rw [flushSet, hframe]
      exact ⟨_, rfl⟩
    have hflushed := flushSegs_flushed hrunning hseg
    generalize flushSet (updating kcp current) = k at hframe hflushed hafter hconv
    subst hframe
    exact hafter.sendable hconv hok hflushed.of_clock
  · exact ⟨y, rfl, hticks, hupdated, .nil⟩

/-! ## Sending -/

theorem sendLoop_restamp :
    ∀ (n : Nat) (kcp : Ikcpcb) (buffer : Bytes) (len sent : Nat),
      sendLoop (kcp.restamp d x) n buffer len sent
        = ((sendLoop kcp n buffer len sent).1.restamp d x, (sendLoop kcp n buffer len sent).2)
  | 0, _, _, _, _ => rfl
  | n + 1, kcp, buffer, len, sent => by
      let size := if len > kcp.mss.toNat then kcp.mss.toNat else len
      let seg : IkcpSeg :=
        { data := buffer.take size, frg := if kcp.stream = 0 then UInt32.ofNat n else 0 }
      exact sendLoop_restamp n (queueSnd kcp [seg]) (buffer.drop size) (len - size) (sent + size)

theorem send_restamp (kcp : Ikcpcb) (buffer : Bytes) (len : Int) :
    ikcpSend (kcp.restamp d x) buffer len
      = ((ikcpSend kcp buffer len).1.restamp d x, (ikcpSend kcp buffer len).2) := by
  have hextend (len : Nat) : extendLast (kcp.restamp d x) buffer len
      = ((extendLast kcp buffer len).1.restamp d x, (extendLast kcp buffer len).2) := by
    unfold extendLast
    simp only [Ikcpcb.restamp_sndQueue, Ikcpcb.restamp_mss]
    split
    · rfl
    · split <;> rfl
  have hfilled : (if kcp.stream ≠ 0 then extendLast (kcp.restamp d x) buffer len.toNat
        else (kcp.restamp d x, buffer, len.toNat, 0))
      = ((if kcp.stream ≠ 0 then extendLast kcp buffer len.toNat
          else (kcp, buffer, len.toNat, 0)).1.restamp d x,
        (if kcp.stream ≠ 0 then extendLast kcp buffer len.toNat
          else (kcp, buffer, len.toNat, 0)).2) := by
    split
    · exact hextend len.toNat
    · rfl
  have hcount (k : Ikcpcb) : sendCount (k.restamp d x) = sendCount k := rfl
  unfold ikcpSend
  rw [Ikcpcb.restamp_stream, hfilled]
  generalize (if kcp.stream ≠ 0 then extendLast kcp buffer len.toNat
    else (kcp, buffer, len.toNat, 0)) = filled
  simp only [hcount, sendLoop_restamp, Ikcpcb.restamp_stream]
  split
  · rfl
  · split
    · rfl
    · split
      · split <;> rfl
      · rfl

end CppDemos
