import CppDemos.Kcp.Send
import CppDemos.Kcp.Input

/-!
# ikcp_flush and ikcp_update

The only functions that transmit. `ikcp_flush` writes acknowledgements, window
probes and due data segments into one buffer and hands it to `kcp->output`
whenever the next segment would not fit in the MTU; here it returns the list
of datagrams handed over. `OutBuf.Packs` is the accounting of that buffer: the
datagrams and the unfinished rest are the segments written so far, in order
and unbroken.

`ikcpUpdate_spec` is the specification the protocol proofs use: what is sent is
control segments and current copies of `snd_buf` (`Flushed`), every segment
that was never sent before is among them, and of the block only the send side,
the acknowledgement list and the timers change.
-/

namespace CppDemos

/-! ## The output buffer -/

/-- The bytes between `kcp->buffer` and `ptr`, and the datagrams passed to
`kcp->output` so far. -/
structure OutBuf where
  ptr : Bytes := []
  sent : List Bytes := []

def ikcpOutput (sent : List Bytes) (data : Bytes) : List Bytes :=
  if data.length = 0 then sent else sent ++ [data]

/-- "if (size + need > (int)kcp->mtu)": hand the buffer over and start again. -/
def OutBuf.reserve (out : OutBuf) (mtu : UInt32) (need : Nat) : OutBuf :=
  if out.ptr.length + need > mtu.toNat then
    { ptr := [], sent := ikcpOutput out.sent out.ptr }
  else out

def OutBuf.put (out : OutBuf) (bytes : Bytes) : OutBuf :=
  { out with ptr := out.ptr ++ bytes }

/-- The datagrams and the rest of the buffer are the segments of `log`, and
none of them is longer than the MTU. -/
def OutBuf.Packs (mtu : UInt32) (out : OutBuf) (log : List IkcpSeg) : Prop :=
  ∃ (groups : List (List IkcpSeg)) (pending : List IkcpSeg),
    out.sent = groups.map datagram ∧ out.ptr = datagram pending ∧
    (∀ group ∈ groups, group ≠ [] ∧ (datagram group).length ≤ mtu.toNat) ∧
    out.ptr.length ≤ mtu.toNat ∧ groups.flatten ++ pending = log

theorem OutBuf.packs_empty (mtu : UInt32) : OutBuf.Packs mtu {} [] :=
  ⟨[], [], rfl, rfl, by simp, by simp, rfl⟩

theorem datagram_eq_nil {segs : List IkcpSeg} (h : (datagram segs).length = 0) :
    segs = [] := by
  have hlen : 24 * segs.length ≤ (datagram segs).length := length_datagram_ge segs
  exact List.length_eq_zero_iff.mp (by omega)

/-- Handing the buffer over closes a group, unless it is empty. -/
theorem OutBuf.Packs.output {mtu : UInt32} {out : OutBuf} {log : List IkcpSeg}
    (h : out.Packs mtu log) :
    ∃ groups : List (List IkcpSeg), ikcpOutput out.sent out.ptr = groups.map datagram ∧
      (∀ group ∈ groups, group ≠ [] ∧ (datagram group).length ≤ mtu.toNat) ∧
      groups.flatten = log := by
  obtain ⟨groups, pending, hsent, hptr, hgroups, hcap, rfl⟩ := h
  unfold ikcpOutput
  split
  · rename_i hzero
    rw [hptr] at hzero
    obtain rfl := datagram_eq_nil hzero
    exact ⟨groups, hsent, hgroups, by simp⟩
  · rename_i hzero
    refine ⟨groups ++ [pending], by simp [hsent, hptr], ?_, by simp⟩
    intro group hgroup
    rcases List.mem_append.mp hgroup with hgroup | hgroup
    · exact hgroups group hgroup
    · rw [List.mem_singleton.mp hgroup, ← hptr]
      refine ⟨?_, hcap⟩
      rintro rfl
      exact hzero (by rw [hptr]; rfl)

/-- One segment is written, with room made for it if need be. -/
theorem OutBuf.Packs.write {mtu : UInt32} {out : OutBuf} {log : List IkcpSeg}
    (h : out.Packs mtu log) {seg : IkcpSeg} {need : Nat}
    (hneed : need = ikcpOverhead + seg.len) (hfit : need ≤ mtu.toNat) :
    ((out.reserve mtu need).put (segBytes seg)).Packs mtu (log ++ [seg]) := by
  unfold OutBuf.reserve OutBuf.put
  split
  · obtain ⟨groups, hsent, hgroups, hlog⟩ := h.output
    refine ⟨groups, [seg], hsent, ?_, hgroups, ?_, by rw [hlog]⟩
    · simp [datagram]
    · rw [List.nil_append, length_segBytes]
      omega
  · obtain ⟨groups, pending, hsent, hptr, hgroups, -, rfl⟩ := h
    refine ⟨groups, pending ++ [seg], hsent, ?_, hgroups, ?_, by simp⟩
    · rw [datagram_concat, ← hptr]
    · rw [List.length_append, length_segBytes]
      omega

/-! ## Control segments -/

def ikcpWndUnused (kcp : Ikcpcb) : Nat :=
  if kcp.nrcvQue < kcp.rcvWnd.toNat then kcp.rcvWnd.toNat - kcp.nrcvQue else 0

/-- The local `seg` of `ikcp_flush`, as first filled in. -/
def flushHead (kcp : Ikcpcb) : IkcpSeg :=
  { conv := kcp.conv, cmd := ikcpCmdAck, wnd := UInt32.ofNat (ikcpWndUnused kcp),
    una := kcp.rcvNxt }

/-- "flush acknowledges". The header keeps the last number and timestamp. -/
def flushAcks (kcp : Ikcpcb) : List (UInt32 × UInt32) → IkcpSeg × OutBuf → IkcpSeg × OutBuf
  | [], (seg, out) => (seg, out)
  | (sn, ts) :: acks, (seg, out) =>
      let out := out.reserve kcp.mtu ikcpOverhead
      let seg := { seg with sn := sn, ts := ts }
      flushAcks kcp acks (seg, out.put (segBytes seg))

/-- The next `probe_wait`: half as long again, within its two limits. -/
def longerWait (probeWait : UInt32) : UInt32 :=
  let wait := imax probeWait ikcpProbeInit
  imin (wait + wait / 2) ikcpProbeLimit

/-- "probe window size (if remote window size equals zero)". -/
def probeWindow (kcp : Ikcpcb) : Ikcpcb :=
  if kcp.rmtWnd = 0 then
    if kcp.probeWait = 0 then
      { kcp with probeWait := ikcpProbeInit, tsProbe := kcp.current + ikcpProbeInit }
    else if itimediff kcp.current kcp.tsProbe ≥ 0 then
      { kcp with
        probeWait := longerWait kcp.probeWait
        tsProbe := kcp.current + longerWait kcp.probeWait
        probe := kcp.probe ||| ikcpAskSend }
    else kcp
  else { kcp with tsProbe := 0, probeWait := 0 }

/-- "flush window probing commands": the block for one flag and its command. -/
def flushProbe (kcp : Ikcpcb) (flag cmd : UInt32) : IkcpSeg × OutBuf → IkcpSeg × OutBuf
  | (seg, out) =>
      if kcp.probe &&& flag ≠ 0 then
        let seg := { seg with cmd := cmd }
        (seg, (out.reserve kcp.mtu ikcpOverhead).put (segBytes seg))
      else (seg, out)

/-! ## Data segments -/

/-- One turn of the loop below: the head of `snd_queue` gets its number and
goes to the tail of `snd_buf`. -/
def shiftSnd (wnd : UInt32) (kcp : Ikcpcb) (newseg : IkcpSeg) (rest : List IkcpSeg) : Ikcpcb :=
  let newseg :=
    { newseg with
      conv := kcp.conv
      cmd := ikcpCmdPush
      wnd := wnd
      ts := kcp.current
      sn := kcp.sndNxt
      una := kcp.rcvNxt
      resendts := kcp.current
      rto := kcp.rxRto.toUInt32
      fastack := 0
      xmit := 0 }
  { kcp with
    sndQueue := rest
    sndBuf := kcp.sndBuf ++ [newseg]
    nsndQue := kcp.nsndQue - 1
    nsndBuf := kcp.nsndBuf + 1
    sndNxt := kcp.sndNxt + 1 }

/-- "move data from snd_queue to snd_buf", run on `kcp->snd_queue`. -/
def moveSndQueue (cwnd wnd : UInt32) (kcp : Ikcpcb) : List IkcpSeg → Ikcpcb
  | [] => kcp
  | newseg :: rest =>
      if itimediff kcp.sndNxt (kcp.sndUna + cwnd) < 0 then
        moveSndQueue cwnd wnd (shiftSnd wnd kcp newseg rest) rest
      else kcp

/-- The locals of the data loop, with the two fields of the block it counts
in. -/
structure FlushSt where
  xmit : UInt32
  state : UInt32
  change : Bool := false
  lost : Bool := false
  out : OutBuf

/-- Whether a segment of `snd_buf` is due, with the timers that change then:
never sent, timed out, or acknowledged past often enough. -/
def flushDue (kcp : Ikcpcb) (resent rtomin : UInt32) (segment : IkcpSeg) (st : FlushSt) :
    Option (IkcpSeg × FlushSt) :=
  if segment.xmit = 0 then
    let rto := kcp.rxRto.toUInt32
    some
      ({ segment with
          xmit := segment.xmit + 1
          rto := rto
          resendts := kcp.current + rto + rtomin }, st)
  else if itimediff kcp.current segment.resendts ≥ 0 then
    let rto :=
      if kcp.nodelay = 0 then segment.rto + imax segment.rto kcp.rxRto.toUInt32
      else
        let step := if kcp.nodelay < 2 then segment.rto.toInt32 else kcp.rxRto
        segment.rto + (step / 2).toUInt32
    some
      ({ segment with xmit := segment.xmit + 1, rto := rto, resendts := kcp.current + rto },
        { st with xmit := st.xmit + 1, lost := true })
  else if segment.fastack ≥ resent then
    if segment.xmit.toInt32 ≤ kcp.fastlimit ∨ kcp.fastlimit ≤ 0 then
      some
        ({ segment with
            xmit := segment.xmit + 1
            fastack := 0
            resendts := kcp.current + segment.rto }, { st with change := true })
    else none
  else none

/-- "flush data segments": the loop over `snd_buf`. -/
def flushData (kcp : Ikcpcb) (resent rtomin wnd : UInt32) :
    List IkcpSeg → FlushSt → List IkcpSeg × FlushSt
  | [], st => ([], st)
  | segment :: p, st =>
      match flushDue kcp resent rtomin segment st with
      | none =>
          let (p, st) := flushData kcp resent rtomin wnd p st
          (segment :: p, st)
      | some (segment, st) =>
          let segment := { segment with ts := kcp.current, wnd := wnd, una := kcp.rcvNxt }
          let out := (st.out.reserve kcp.mtu (ikcpOverhead + segment.len)).put (segBytes segment)
          let state := if segment.xmit ≥ kcp.deadLink then 0xffffffff else st.state
          let (p, st) := flushData kcp resent rtomin wnd p { st with out := out, state := state }
          (segment :: p, st)

/-- "update ssthresh", behind a fast resend. -/
def flushChange (kcp : Ikcpcb) (resent : UInt32) : Ikcpcb :=
  let ssthresh := imax ((kcp.sndNxt - kcp.sndUna) / 2) ikcpThreshMin
  { kcp with
    ssthresh := ssthresh
    cwnd := ssthresh + resent
    incr := (ssthresh + resent) * kcp.mss }

/-- "update ssthresh", behind a timeout. -/
def flushLost (kcp : Ikcpcb) (cwnd : UInt32) : Ikcpcb :=
  { kcp with
    ssthresh := imax (cwnd / 2) ikcpThreshMin
    cwnd := 1
    incr := kcp.mss }

/-- The end of `ikcp_flush`: `ssthresh` and the lower bound on `cwnd`. -/
def flushWindow (kcp : Ikcpcb) (resent cwnd : UInt32) (change lost : Bool) : Ikcpcb :=
  let kcp := if change then flushChange kcp resent else kcp
  let kcp := if lost then flushLost kcp cwnd else kcp
  if kcp.cwnd < 1 then { kcp with cwnd := 1, incr := kcp.mss } else kcp

/-- The number of segments `ikcp_flush` allows in flight. -/
def flushCwnd (kcp : Ikcpcb) : UInt32 :=
  let cwnd := imin kcp.sndWnd kcp.rmtWnd
  if kcp.nocwnd = 0 then imin kcp.cwnd cwnd else cwnd

/-- `ikcp_flush` up to "calculate window size": acknowledgements and window
probes. The segment header goes on to the second half. -/
def flushControl (kcp : Ikcpcb) : Ikcpcb × IkcpSeg × OutBuf :=
  let acks := flushAcks kcp kcp.acklist (flushHead kcp, {})
  let kcp := probeWindow { kcp with acklist := [] }
  let wask := flushProbe kcp ikcpAskSend ikcpCmdWask acks
  let wins := flushProbe kcp ikcpAskTell ikcpCmdWins wask
  ({ kcp with probe := 0 }, wins)

/-- "calculate resent". -/
def flushResent (kcp : Ikcpcb) : UInt32 :=
  if kcp.fastresend > 0 then kcp.fastresend.toUInt32 else 0xffffffff

def flushRtomin (kcp : Ikcpcb) : UInt32 :=
  if kcp.nodelay = 0 then (kcp.rxRto >>> 3).toUInt32 else 0

/-- "flush data segments": the loop from the head of `snd_buf`. -/
def flushSndBuf (kcp : Ikcpcb) (wnd : UInt32) (out : OutBuf) : List IkcpSeg × FlushSt :=
  flushData kcp (flushResent kcp) (flushRtomin kcp) wnd kcp.sndBuf
    { xmit := kcp.xmit, state := kcp.state, out := out }

/-- `ikcp_flush` from "calculate window size" on. -/
def flushBuffers (kcp : Ikcpcb) (wnd : UInt32) (out : OutBuf) : Ikcpcb × List Bytes :=
  let cwnd := flushCwnd kcp
  let kcp := moveSndQueue cwnd wnd kcp kcp.sndQueue
  let data := flushSndBuf kcp wnd out
  let kcp := { kcp with sndBuf := data.1, xmit := data.2.xmit, state := data.2.state }
  (flushWindow kcp (flushResent kcp) cwnd data.2.change data.2.lost,
    ikcpOutput data.2.out.sent data.2.out.ptr)

/-- `ikcp_flush`: the new block and the datagrams passed to `kcp->output`. -/
def ikcpFlush (kcp : Ikcpcb) : Ikcpcb × List Bytes :=
  if kcp.updated = 0 then (kcp, [])
  else
    let control := flushControl kcp
    flushBuffers control.1 control.2.1.wnd control.2.2

/-- The block with its clock set; the first update also starts the flush
timer. -/
def updateClock (kcp : Ikcpcb) (current : UInt32) : Ikcpcb :=
  if kcp.updated = 0 then { kcp with current := current, updated := 1, tsFlush := current }
  else { kcp with current := current }

/-- `slap` is too far off, and the flush timer starts again. -/
def clockJumped (kcp : Ikcpcb) : Bool :=
  itimediff kcp.current kcp.tsFlush ≥ 10000 || itimediff kcp.current kcp.tsFlush < -10000

def nextFlush (kcp : Ikcpcb) : UInt32 :=
  if itimediff kcp.current (kcp.tsFlush + kcp.interval) ≥ 0 then kcp.current + kcp.interval
  else kcp.tsFlush + kcp.interval

/-- `ikcp_update`: the new block and the datagrams passed to `kcp->output`. -/
def ikcpUpdate (kcp : Ikcpcb) (current : UInt32) : Ikcpcb × List Bytes :=
  let kcp := updateClock kcp current
  let kcp := if clockJumped kcp then { kcp with tsFlush := kcp.current } else kcp
  if itimediff kcp.current kcp.tsFlush ≥ 0 then
    ikcpFlush { kcp with tsFlush := nextFlush kcp }
  else (kcp, [])

/-! ## What a flush sends -/

/-- A control segment as `ikcp_flush` fills it in. -/
structure IsControl (kcp : Ikcpcb) (seg : IkcpSeg) : Prop where
  conv : seg.conv = kcp.conv
  frg : seg.frg = 0
  wnd : seg.wnd = UInt32.ofNat (ikcpWndUnused kcp)
  una : seg.una = kcp.rcvNxt
  data : seg.data = []

/-- The segments a flush of `kcp` may send, `sndBuf` being the send buffer it
leaves behind: acknowledgements from the list, window probes, and copies of
buffered data segments. -/
def Flushed (kcp : Ikcpcb) (sndBuf : List IkcpSeg) (seg : IkcpSeg) : Prop :=
  (IsControl kcp seg ∧ seg.cmd = ikcpCmdAck ∧ ∃ ts, (seg.sn, ts) ∈ kcp.acklist) ∨
  (IsControl kcp seg ∧ (seg.cmd = ikcpCmdWask ∨ seg.cmd = ikcpCmdWins)) ∨
  (seg.una = kcp.rcvNxt ∧ seg.wnd = UInt32.ofNat (ikcpWndUnused kcp) ∧
    ∃ s ∈ sndBuf, s.core = seg.core)

theorem isControl_flushHead (kcp : Ikcpcb) : IsControl kcp (flushHead kcp) :=
  ⟨rfl, rfl, rfl, rfl, rfl⟩

theorem IsControl.need {kcp : Ikcpcb} {seg : IkcpSeg} (h : IsControl kcp seg) :
    ikcpOverhead = ikcpOverhead + seg.len := by
  rw [IkcpSeg.len, h.data]
  rfl

theorem flushAcks_spec {kcp : Ikcpcb} :
    ∀ {acks : List (UInt32 × UInt32)} {seg : IkcpSeg} {out : OutBuf} {log : List IkcpSeg},
      (∀ ack ∈ acks, ack ∈ kcp.acklist) → IsControl kcp seg → seg.cmd = ikcpCmdAck →
      ikcpOverhead ≤ kcp.mtu.toNat → out.Packs kcp.mtu log →
      ∃ segs, (flushAcks kcp acks (seg, out)).2.Packs kcp.mtu (log ++ segs) ∧
        IsControl kcp (flushAcks kcp acks (seg, out)).1 ∧
        ∀ s ∈ segs, IsControl kcp s ∧ s.cmd = ikcpCmdAck ∧ ∃ ts, (s.sn, ts) ∈ kcp.acklist
  | [], seg, out, log, _, hctl, _, _, hout =>
      ⟨[], by simpa [flushAcks] using hout, by simpa [flushAcks] using hctl, by simp⟩
  | (sn, ts) :: acks, seg, out, log, hacks, hctl, hcmd, hmtu, hout => by
      have hctl' : IsControl kcp { seg with sn := sn, ts := ts } :=
        ⟨hctl.conv, hctl.frg, hctl.wnd, hctl.una, hctl.data⟩
      obtain ⟨segs, hpacks, hend, hsegs⟩ := flushAcks_spec
        (fun ack hack => hacks ack (List.mem_cons_of_mem _ hack)) hctl' hcmd hmtu
        (hout.write hctl'.need hmtu)
      refine ⟨{ seg with sn := sn, ts := ts } :: segs, ?_, hend, ?_⟩
      · simpa [flushAcks] using hpacks
      · intro s hs
        rcases List.mem_cons.mp hs with rfl | hs
        · exact ⟨hctl', hcmd, ts, hacks _ (List.mem_cons_self ..)⟩
        · exact hsegs s hs

theorem flushProbe_spec (kcp : Ikcpcb) {kcp0 : Ikcpcb} (flag cmd : UInt32) {seg : IkcpSeg}
    {out : OutBuf} {log : List IkcpSeg} (hctl : IsControl kcp0 seg)
    (hmtu : ikcpOverhead ≤ kcp.mtu.toNat) (hout : out.Packs kcp.mtu log) :
    ∃ segs, (flushProbe kcp flag cmd (seg, out)).2.Packs kcp.mtu (log ++ segs) ∧
      IsControl kcp0 (flushProbe kcp flag cmd (seg, out)).1 ∧
      ∀ s ∈ segs, IsControl kcp0 s ∧ s.cmd = cmd := by
  have hctl' : IsControl kcp0 { seg with cmd := cmd } :=
    ⟨hctl.conv, hctl.frg, hctl.wnd, hctl.una, hctl.data⟩
  unfold flushProbe
  simp only
  split
  · refine ⟨[{ seg with cmd := cmd }], hout.write hctl'.need hmtu, hctl', ?_⟩
    intro s hs
    obtain rfl := List.mem_singleton.mp hs
    exact ⟨hctl', rfl⟩
  · exact ⟨[], by simpa using hout, hctl, by simp⟩

theorem probeWindow_frame (kcp : Ikcpcb) :
    ∃ wait ts probe, probeWindow kcp
      = { kcp with probeWait := wait, tsProbe := ts, probe := probe } := by
  unfold probeWindow
  split
  · split
    · exact ⟨_, _, _, rfl⟩
    · split
      · exact ⟨_, _, _, rfl⟩
      · exact ⟨_, _, _, rfl⟩
  · exact ⟨_, _, _, rfl⟩

/-! ## Numbering -/

/-- What queued segments look like once they are in `snd_buf`, up to timers:
data segments with consecutive numbers. -/
def numbered (conv : UInt32) : UInt32 → List IkcpSeg → List IkcpSeg
  | _, [] => []
  | sn, seg :: rest =>
      { conv := conv, cmd := ikcpCmdPush, frg := seg.frg, sn := sn, data := seg.data } ::
        numbered conv (sn + 1) rest

theorem numbered_getElem? (conv : UInt32) :
    ∀ (segs : List IkcpSeg) (sn : UInt32) (j : Nat),
      (numbered conv sn segs)[j]? = segs[j]?.map fun seg =>
        { conv := conv, cmd := ikcpCmdPush, frg := seg.frg, sn := sn + UInt32.ofNat j,
          data := seg.data }
  | [], _, _ => rfl
  | seg :: rest, sn, 0 => by simp [numbered]
  | seg :: rest, sn, j + 1 => by
      rw [numbered, List.getElem?_cons_succ, List.getElem?_cons_succ, numbered_getElem? conv rest,
        UInt32.add_assoc, ← UInt32.ofNat_one, ← UInt32.ofNat_add, Nat.add_comm 1 j]

/-- The moving loop numbers some front part of the queue. How much it moves
depends on the windows; that it moves from the front, in order and without a gap
in the numbers does not, and is all that the invariants need. -/
structure SndMoved (kcp kcp' : Ikcpcb) (moved : List IkcpSeg) : Prop where
  queue : kcp.sndQueue = moved ++ kcp'.sndQueue
  sndNxt : kcp'.sndNxt = kcp.sndNxt + UInt32.ofNat moved.length
  sndBuf : kcp'.sndBuf.map IkcpSeg.core
    = kcp.sndBuf.map IkcpSeg.core ++ numbered kcp.conv kcp.sndNxt moved

theorem moveSndQueue_spec (cwnd wnd : UInt32) :
    ∀ (queue : List IkcpSeg) (kcp : Ikcpcb), kcp.sndQueue = queue →
      (moveSndQueue cwnd wnd kcp queue).setup = kcp.setup ∧
      (moveSndQueue cwnd wnd kcp queue).rcvSide = kcp.rcvSide ∧
      (moveSndQueue cwnd wnd kcp queue).acklist = kcp.acklist ∧
      ∃ moved new, SndMoved kcp (moveSndQueue cwnd wnd kcp queue) moved ∧
        (moveSndQueue cwnd wnd kcp queue).sndBuf = kcp.sndBuf ++ new ∧
        new.map IkcpSeg.core = numbered kcp.conv kcp.sndNxt moved ∧ ∀ s ∈ new, s.xmit = 0
  | [], kcp, _ => by
      refine ⟨rfl, rfl, rfl, [], [], ?_, ?_, rfl, by simp⟩
      · exact ⟨by rw [moveSndQueue]; rfl, by simp [moveSndQueue],
          by simp [moveSndQueue, numbered]⟩
      · simp [moveSndQueue]
  | newseg :: rest, kcp, hq => by
      rw [moveSndQueue]
      split
      · obtain ⟨h1, h2, h3, moved, new, hmoved, hbuf, hnew, hxmit⟩ :=
          moveSndQueue_spec cwnd wnd rest (shiftSnd wnd kcp newseg rest) rfl
        obtain ⟨seg, hseg, hcore, hzero⟩ : ∃ seg,
            (shiftSnd wnd kcp newseg rest).sndBuf = kcp.sndBuf ++ [seg] ∧
            seg.core = { conv := kcp.conv, cmd := ikcpCmdPush, frg := newseg.frg,
                         sn := kcp.sndNxt, data := newseg.data } ∧ seg.xmit = 0 :=
          ⟨_, rfl, rfl, rfl⟩
        refine ⟨h1, h2, h3, newseg :: moved, seg :: new, ⟨?_, ?_, ?_⟩, ?_, ?_, ?_⟩
        · rw [hq, List.cons_append, ← hmoved.queue]
          rfl
        · rw [hmoved.sndNxt, List.length_cons]
          simp only [shiftSnd, UInt32.ofNat_add, UInt32.add_assoc]
          congr 1
          exact UInt32.add_comm _ _
        · rw [hmoved.sndBuf, hseg, List.map_append, List.append_assoc]
          exact congrArg (_ ++ · :: _) hcore
        · rw [hbuf, hseg, List.append_assoc]
          rfl
        · rw [List.map_cons, hnew, hcore]
          rfl
        · intro s hs
          rcases List.mem_cons.mp hs with rfl | hs
          · exact hzero
          · exact hxmit s hs
      · exact ⟨rfl, rfl, rfl, [], [], ⟨by simp, by simp, by simp [numbered]⟩, by simp, rfl,
          by simp⟩

/-! ## The data loop -/

theorem flushDue_core {kcp : Ikcpcb} {resent rtomin : UInt32} {segment seg' : IkcpSeg}
    {st st' : FlushSt} (h : flushDue kcp resent rtomin segment st = some (seg', st')) :
    seg'.core = segment.core ∧ st'.out = st.out := by
  unfold flushDue at h
  split at h
  · cases h
    exact ⟨rfl, rfl⟩
  · split at h
    · cases h
      exact ⟨rfl, rfl⟩
    · split at h
      · split at h
        · cases h
          exact ⟨rfl, rfl⟩
        · cases h
      · cases h

theorem flushDue_fresh {kcp : Ikcpcb} {resent rtomin : UInt32} {segment : IkcpSeg}
    {st : FlushSt} (h : segment.xmit = 0) : flushDue kcp resent rtomin segment st ≠ none := by
  simp [flushDue, h]

/-- The data loop rewrites timers only, sends copies of the segments it leaves
behind, and skips no segment that was never sent. -/
theorem flushData_spec (kcp : Ikcpcb) (resent rtomin wnd : UInt32) :
    ∀ (buf : List IkcpSeg) (st : FlushSt) {log : List IkcpSeg},
      (∀ s ∈ buf, ikcpOverhead + s.len ≤ kcp.mtu.toNat) → st.out.Packs kcp.mtu log →
      ∃ segs, (flushData kcp resent rtomin wnd buf st).2.out.Packs kcp.mtu (log ++ segs) ∧
        (flushData kcp resent rtomin wnd buf st).1.map IkcpSeg.core = buf.map IkcpSeg.core ∧
        (∀ s ∈ segs, s.una = kcp.rcvNxt ∧ s.wnd = wnd ∧
          s ∈ (flushData kcp resent rtomin wnd buf st).1) ∧
        ∀ s ∈ buf, s.xmit = 0 → ∃ s' ∈ segs, s'.core = s.core
  | [], st, log, _, hout => ⟨[], by simpa [flushData] using hout, rfl, by simp, by simp⟩
  | segment :: p, st, log, hfit, hout => by
      have hrest := fun s hs => hfit s (List.mem_cons_of_mem _ hs)
      rw [flushData]
      cases hdue : flushDue kcp resent rtomin segment st with
      | none =>
          obtain ⟨segs, hpacks, hcore, hsent, hfresh⟩ :=
            flushData_spec kcp resent rtomin wnd p st hrest hout
          refine ⟨segs, hpacks, congrArg (segment.core :: ·) hcore, ?_,
            ?_⟩
          · intro s hs
            obtain ⟨h1, h2, h3⟩ := hsent s hs
            exact ⟨h1, h2, List.mem_cons_of_mem _ h3⟩
          · intro s hs hx
            rcases List.mem_cons.mp hs with rfl | hs
            · exact absurd hdue (flushDue_fresh hx)
            · exact hfresh s hs hx
      | some due =>
          obtain ⟨seg', st'⟩ := due
          obtain ⟨hcore', hout'⟩ := flushDue_core hdue
          let sent : IkcpSeg := { seg' with ts := kcp.current, wnd := wnd, una := kcp.rcvNxt }
          have hlen : sent.len = segment.len :=
            congrArg (fun s => s.data.length) hcore'
          have hwrite : ((st'.out.reserve kcp.mtu (ikcpOverhead + sent.len)).put
              (segBytes sent)).Packs kcp.mtu (log ++ [sent]) :=
            (hout' ▸ hout).write rfl (hlen ▸ hfit segment (List.mem_cons_self ..))
          obtain ⟨segs, hpacks, hcore, hsent, hfresh⟩ :=
            flushData_spec kcp resent rtomin wnd p
              { st' with
                out := (st'.out.reserve kcp.mtu (ikcpOverhead + sent.len)).put (segBytes sent)
                state := if sent.xmit ≥ kcp.deadLink then 0xffffffff else st'.state }
              hrest hwrite
          refine ⟨sent :: segs, ?_, ?_, ?_, ?_⟩
          · simpa using hpacks
          · rw [List.map_cons, hcore]
            exact congrArg (· :: p.map IkcpSeg.core) hcore'
          · intro s hs
            rcases List.mem_cons.mp hs with rfl | hs
            · exact ⟨rfl, rfl, List.mem_cons_self ..⟩
            · obtain ⟨h1, h2, h3⟩ := hsent s hs
              exact ⟨h1, h2, List.mem_cons_of_mem _ h3⟩
          · intro s hs hx
            rcases List.mem_cons.mp hs with rfl | hs
            · exact ⟨sent, List.mem_cons_self .., hcore'⟩
            · obtain ⟨s', hs', heq⟩ := hfresh s hs hx
              exact ⟨s', List.mem_cons_of_mem _ hs', heq⟩

theorem flushWindow_frame (kcp : Ikcpcb) (resent cwnd : UInt32) (change lost : Bool) :
    ∃ ssthresh cw incr, flushWindow kcp resent cwnd change lost
      = { kcp with ssthresh := ssthresh, cwnd := cw, incr := incr } := by
  unfold flushWindow
  simp only
  split
  · split <;> split <;> exact ⟨_, _, _, rfl⟩
  · split <;> split <;> exact ⟨_, _, _, rfl⟩

/-! ## The whole flush -/

/-- Every segment waiting to be sent fits one datagram. -/
structure FitsMtu (kcp : Ikcpcb) : Prop where
  head : ikcpOverhead ≤ kcp.mtu.toNat
  queue : ∀ s ∈ kcp.sndQueue, ikcpOverhead + s.len ≤ kcp.mtu.toNat
  buf : ∀ s ∈ kcp.sndBuf, ikcpOverhead + s.len ≤ kcp.mtu.toNat

/-- The whole of `ikcp_flush` and `ikcp_update`, as far as the protocol is
concerned. -/
structure FlushSpec (kcp kcp' : Ikcpcb) (outs : List Bytes) (moved : List IkcpSeg) : Prop where
  setup : kcp'.setup = kcp.setup
  rcvSide : kcp'.rcvSide = kcp.rcvSide
  acklist : ∀ ack ∈ kcp'.acklist, ack ∈ kcp.acklist
  snd : SndMoved kcp kcp' moved
  outs : ∃ groups : List (List IkcpSeg), outs = groups.map datagram ∧
    (∀ group ∈ groups, group ≠ [] ∧ (datagram group).length ≤ kcp.mtu.toNat) ∧
    (∀ seg ∈ groups.flatten, Flushed kcp kcp'.sndBuf seg) ∧
    ∀ s ∈ numbered kcp.conv kcp.sndNxt moved, ∃ seg ∈ groups.flatten, seg.core = s

theorem SndMoved.none {kcp kcp' : Ikcpcb} (h : kcp'.sndSide = kcp.sndSide) :
    SndMoved kcp kcp' [] := by
  simp only [Ikcpcb.sndSide, SndSide.mk.injEq] at h
  obtain ⟨h1, -, h2, h3⟩ := h
  exact ⟨by rw [h2]; rfl, by simp [h1], by simp [h3, numbered]⟩

theorem FlushSpec.idle {kcp kcp' : Ikcpcb} (hsetup : kcp'.setup = kcp.setup)
    (hrcv : kcp'.rcvSide = kcp.rcvSide) (hsnd : kcp'.sndSide = kcp.sndSide)
    (hack : kcp'.acklist = kcp.acklist) : FlushSpec kcp kcp' [] [] :=
  ⟨hsetup, hrcv, fun ack h => hack ▸ h, .none hsnd, [], rfl, by simp, by simp,
    by simp [numbered]⟩

theorem mem_numbered {conv sn : UInt32} {moved : List IkcpSeg} {s : IkcpSeg}
    (h : s ∈ numbered conv sn moved) : ∃ seg ∈ moved, s.frag = seg.frag := by
  obtain ⟨j, hj⟩ := List.mem_iff_getElem?.mp h
  rw [numbered_getElem?] at hj
  obtain ⟨seg, hseg, rfl⟩ := Option.map_eq_some_iff.mp hj
  exact ⟨seg, List.mem_of_getElem? hseg, rfl⟩

/-- A flush only ever buffers what was queued or buffered before. -/
theorem FitsMtu.moved {kcp kcp' : Ikcpcb} {moved : List IkcpSeg} (h : FitsMtu kcp)
    (hmoved : SndMoved kcp kcp' moved) :
    ∀ s ∈ kcp'.sndBuf, ikcpOverhead + s.len ≤ kcp.mtu.toNat := by
  intro s hs
  have hcore : s.core ∈ kcp'.sndBuf.map IkcpSeg.core := List.mem_map_of_mem hs
  rw [hmoved.sndBuf, List.mem_append] at hcore
  rcases hcore with hcore | hcore
  · obtain ⟨old, hold, heq⟩ := List.mem_map.mp hcore
    have hlen : s.len = old.len := congrArg (fun s => s.data.length) heq.symm
    exact hlen ▸ h.buf old hold
  · obtain ⟨seg, hseg, hfrag⟩ := mem_numbered hcore
    have hlen : s.len = seg.len := congrArg (fun f => f.body.length) hfrag
    exact hlen ▸ h.queue seg (hmoved.queue ▸ List.mem_append_left _ hseg)

theorem flushControl_frame (kcp : Ikcpcb) :
    ∃ wait ts, (flushControl kcp).1 =
      { kcp with acklist := [], probeWait := wait, tsProbe := ts, probe := 0 } := by
  obtain ⟨wait, ts, probe, hprobe⟩ := probeWindow_frame { kcp with acklist := [] }
  exact ⟨wait, ts, by simp only [flushControl, hprobe]⟩

theorem flushControl_spec {kcp : Ikcpcb} (hmtu : ikcpOverhead ≤ kcp.mtu.toNat) :
    (flushControl kcp).2.1.wnd = UInt32.ofNat (ikcpWndUnused kcp) ∧
    ∃ segs, (flushControl kcp).2.2.Packs kcp.mtu segs ∧
      ∀ s ∈ segs, ∀ sndBuf, Flushed kcp sndBuf s := by
  obtain ⟨wait, ts, probe, hprobe⟩ := probeWindow_frame { kcp with acklist := [] }
  have hmtu' : ikcpOverhead ≤ (probeWindow { kcp with acklist := [] }).mtu.toNat := by
    rw [hprobe]
    exact hmtu
  obtain ⟨acks, hpacks, hctl, hacks⟩ := flushAcks_spec (fun _ h => h)
    (isControl_flushHead kcp) rfl hmtu (OutBuf.packs_empty kcp.mtu)
  obtain ⟨wasks, hpacks, hctl, hwasks⟩ := flushProbe_spec
    (probeWindow { kcp with acklist := [] }) ikcpAskSend ikcpCmdWask hctl hmtu'
    (by rw [hprobe]; exact hpacks)
  obtain ⟨winss, hpacks, hctl, hwinss⟩ := flushProbe_spec
    (probeWindow { kcp with acklist := [] }) ikcpAskTell ikcpCmdWins hctl hmtu' hpacks
  refine ⟨hctl.wnd, [] ++ acks ++ wasks ++ winss, ?_, ?_⟩
  · rw [hprobe] at hpacks
    unfold flushControl
    rw [hprobe]
    exact hpacks
  · intro s hs sndBuf
    rcases List.mem_append.mp hs with hs | hs
    · rcases List.mem_append.mp hs with hs | hs
      · exact Or.inl (hacks s (by simpa using hs))
      · exact Or.inr (Or.inl ⟨(hwasks s hs).1, Or.inl (hwasks s hs).2⟩)
    · exact Or.inr (Or.inl ⟨(hwinss s hs).1, Or.inr (hwinss s hs).2⟩)

theorem flushBuffers_eq (kcp : Ikcpcb) (wnd : UInt32) (out : OutBuf) :
    ∃ ssthresh cwnd incr,
      let moved := moveSndQueue (flushCwnd kcp) wnd kcp kcp.sndQueue
      let data := flushSndBuf moved wnd out
      flushBuffers kcp wnd out =
        ({ moved with
            sndBuf := data.1
            xmit := data.2.xmit
            state := data.2.state
            ssthresh := ssthresh
            cwnd := cwnd
            incr := incr }, ikcpOutput data.2.out.sent data.2.out.ptr) := by
  unfold flushBuffers
  simp only
  generalize moveSndQueue (flushCwnd kcp) wnd kcp kcp.sndQueue = k
  generalize flushSndBuf k wnd out = data
  obtain ⟨ssthresh, cw, incr, hwin⟩ := flushWindow_frame
    { k with sndBuf := data.1, xmit := data.2.xmit, state := data.2.state }
    (flushResent { k with sndBuf := data.1, xmit := data.2.xmit, state := data.2.state })
    (flushCwnd kcp) data.2.change data.2.lost
  exact ⟨ssthresh, cw, incr, by rw [hwin]⟩

theorem flushBuffers_frame (kcp : Ikcpcb) (wnd : UInt32) (out : OutBuf) :
    (flushBuffers kcp wnd out).1.setup = kcp.setup ∧
      (flushBuffers kcp wnd out).1.rcvSide = kcp.rcvSide ∧
      (flushBuffers kcp wnd out).1.acklist = kcp.acklist := by
  obtain ⟨hsetup, hrcv, hack, -⟩ :=
    moveSndQueue_spec (flushCwnd kcp) wnd kcp.sndQueue kcp rfl
  obtain ⟨ssthresh, cw, incr, heq⟩ := flushBuffers_eq kcp wnd out
  rw [heq]
  exact ⟨hsetup, hrcv, hack⟩

theorem flushBuffers_spec {kcp : Ikcpcb} (hfit : FitsMtu kcp) (wnd : UInt32) {out : OutBuf}
    {log : List IkcpSeg} (hout : out.Packs kcp.mtu log) :
    ∃ moved, SndMoved kcp (flushBuffers kcp wnd out).1 moved ∧
      ∃ groups : List (List IkcpSeg), ∃ segs : List IkcpSeg,
        (flushBuffers kcp wnd out).2 = groups.map datagram ∧
        (∀ group ∈ groups, group ≠ [] ∧ (datagram group).length ≤ kcp.mtu.toNat) ∧
        groups.flatten = log ++ segs ∧
        (∀ s ∈ segs, s.una = kcp.rcvNxt ∧ s.wnd = wnd ∧
          s ∈ (flushBuffers kcp wnd out).1.sndBuf) ∧
        ∀ s ∈ numbered kcp.conv kcp.sndNxt moved, ∃ seg ∈ segs, seg.core = s := by
  obtain ⟨hsetup, hrcv, -, moved, new, hmoved, hbuf, hnew, hxmit⟩ :=
    moveSndQueue_spec (flushCwnd kcp) wnd kcp.sndQueue kcp rfl
  obtain ⟨ssthresh, cw, incr, heq⟩ := flushBuffers_eq kcp wnd out
  rw [heq]
  -- the block the data loop runs in
  generalize moveSndQueue (flushCwnd kcp) wnd kcp kcp.sndQueue = k at *
  have hmtu : k.mtu = kcp.mtu := congrArg Setup.mtu hsetup
  have hnxt : k.rcvNxt = kcp.rcvNxt := congrArg RcvSide.rcvNxt hrcv
  have hout' : out.Packs k.mtu log := hmtu ▸ hout
  obtain ⟨segs, hpacks, hcore, hsent, hfresh⟩ := flushData_spec k (flushResent k)
    (flushRtomin k) wnd k.sndBuf { xmit := k.xmit, state := k.state, out := out }
    (hmtu ▸ hfit.moved hmoved) hout'
  obtain ⟨groups, hgroups, hcap, hflat⟩ := hpacks.output
  refine ⟨moved, ⟨hmoved.queue, hmoved.sndNxt, hcore.trans hmoved.sndBuf⟩,
    groups, segs, hgroups, hmtu ▸ hcap, hflat, hnxt ▸ hsent, ?_⟩
  intro s hs
  rw [← hnew] at hs
  obtain ⟨seg, hseg, rfl⟩ := List.mem_map.mp hs
  exact hfresh seg (hbuf ▸ List.mem_append_right _ hseg) (hxmit seg hseg)

theorem ikcpFlush_frame (kcp : Ikcpcb) :
    (ikcpFlush kcp).1.setup = kcp.setup ∧ (ikcpFlush kcp).1.rcvSide = kcp.rcvSide ∧
      ∀ ack ∈ (ikcpFlush kcp).1.acklist, ack ∈ kcp.acklist := by
  unfold ikcpFlush
  split
  · exact ⟨rfl, rfl, fun _ h => h⟩
  · obtain ⟨wait, ts, hctl⟩ := flushControl_frame kcp
    obtain ⟨h1, h2, h3⟩ := flushBuffers_frame (flushControl kcp).1
      (flushControl kcp).2.1.wnd (flushControl kcp).2.2
    have hnone : (flushControl kcp).1.acklist = [] := by rw [hctl]
    refine ⟨h1.trans (by rw [hctl]; rfl), h2.trans (by rw [hctl]; rfl), ?_⟩
    intro ack hack
    have hack : ack ∈ (flushControl kcp).1.acklist := h3 ▸ hack
    rw [hnone] at hack
    cases hack

theorem ikcpFlush_spec {kcp : Ikcpcb} (hfit : FitsMtu kcp) :
    ∃ moved, FlushSpec kcp (ikcpFlush kcp).1 (ikcpFlush kcp).2 moved := by
  unfold ikcpFlush
  split
  · exact ⟨[], .idle rfl rfl rfl rfl⟩
  · rename_i hupd
    obtain ⟨hsetup, hrcv, hack⟩ := ikcpFlush_frame kcp
    rw [ikcpFlush, if_neg hupd] at hsetup hrcv hack
    obtain ⟨wait, ts, hctl⟩ := flushControl_frame kcp
    obtain ⟨hwnd, log, hpacks, hlog⟩ := flushControl_spec hfit.head
    simp only [hwnd, hctl] at hsetup hrcv hack ⊢
    have hfit' : FitsMtu { kcp with acklist := [], probeWait := wait, tsProbe := ts, probe := 0 } :=
      ⟨hfit.head, hfit.queue, hfit.buf⟩
    obtain ⟨moved, h4, groups, segs, h5, h6, h7, h8, h9⟩ :=
      flushBuffers_spec hfit' (UInt32.ofNat (ikcpWndUnused kcp)) hpacks
    refine ⟨moved, hsetup, hrcv, hack, ⟨h4.queue, h4.sndNxt, h4.sndBuf⟩, groups, h5, h6, ?_, ?_⟩
    · intro seg hseg
      rw [h7] at hseg
      rcases List.mem_append.mp hseg with hseg | hseg
      · exact hlog seg hseg _
      · obtain ⟨huna, hwnd, hmem⟩ := h8 seg hseg
        exact Or.inr (Or.inr ⟨huna, hwnd, seg, hmem, rfl⟩)
    · intro s hs
      obtain ⟨seg, hseg, hcore⟩ := h9 s hs
      exact ⟨seg, h7 ▸ List.mem_append_right _ hseg, hcore⟩

theorem moveSndQueue_length_lt {cwnd wnd : UInt32} {kcp : Ikcpcb} {seg : IkcpSeg}
    {rest : List IkcpSeg} (hroom : itimediff kcp.sndNxt (kcp.sndUna + cwnd) < 0) :
    (moveSndQueue cwnd wnd kcp (seg :: rest)).sndQueue.length < (seg :: rest).length := by
  obtain ⟨-, -, -, moved, -, hmoved, -⟩ :=
    moveSndQueue_spec cwnd wnd rest (shiftSnd wnd kcp seg rest) rfl
  have hrest : rest = moved ++ (moveSndQueue cwnd wnd (shiftSnd wnd kcp seg rest) rest).sndQueue :=
    hmoved.queue
  have hlen := congrArg List.length hrest
  rw [List.length_append] at hlen
  rw [moveSndQueue, if_pos hroom, List.length_cons]
  omega

/-- With a segment waiting and room in the window, a flush sends. -/
theorem ikcpFlush_sends {kcp : Ikcpcb} (hfit : FitsMtu kcp) (hupdated : kcp.updated ≠ 0)
    (hqueue : kcp.sndQueue ≠ [])
    (hroom : itimediff kcp.sndNxt (kcp.sndUna + flushCwnd kcp) < 0) : (ikcpFlush kcp).2 ≠ [] := by
  obtain ⟨seg, rest, hcons⟩ := List.exists_cons_of_ne_nil hqueue
  obtain ⟨moved, hspec⟩ := ikcpFlush_spec hfit
  obtain ⟨groups, houts, -, -, hall⟩ := hspec.outs
  have hlt : (ikcpFlush kcp).1.sndQueue.length < kcp.sndQueue.length := by
    obtain ⟨wait, ts, hcontrol⟩ := flushControl_frame kcp
    obtain ⟨ssthresh, cwnd, incr, heq⟩ := flushBuffers_eq (flushControl kcp).1
      (flushControl kcp).2.1.wnd (flushControl kcp).2.2
    rw [ikcpFlush, if_neg hupdated]
    simp only
    rw [heq]
    simp only [hcontrol]
    rw [hcons]
    exact moveSndQueue_length_lt hroom
  intro hnone
  have hmoved : moved ≠ [] := by
    rintro rfl
    rw [hspec.snd.queue] at hlt
    exact Nat.lt_irrefl _ hlt
  obtain ⟨s, more, rfl⟩ := List.exists_cons_of_ne_nil hmoved
  obtain ⟨sent, hsent, -⟩ := hall _ (List.mem_cons_self ..)
  rw [hnone] at houts
  rw [List.map_eq_nil_iff.mp houts.symm] at hsent
  cases hsent

theorem updateClock_frame (kcp : Ikcpcb) (current : UInt32) :
    ∃ updated tsFlush, updateClock kcp current
      = { kcp with current := current, updated := updated, tsFlush := tsFlush } := by
  unfold updateClock
  split
  · exact ⟨_, _, rfl⟩
  · exact ⟨_, _, rfl⟩

/-- `ikcp_update` sets the clock and the flush timer, and then flushes or
not. -/
theorem ikcpUpdate_cases (kcp : Ikcpcb) (current : UInt32) :
    ∃ updated tsFlush,
      ikcpUpdate kcp current
        = ({ kcp with current := current, updated := updated, tsFlush := tsFlush }, []) ∨
      ikcpUpdate kcp current
        = ikcpFlush { kcp with current := current, updated := updated, tsFlush := tsFlush } := by
  obtain ⟨updated, tsFlush, hclock⟩ := updateClock_frame kcp current
  unfold ikcpUpdate
  simp only [hclock]
  refine ⟨updated, ?_⟩
  split
  · split
    · exact ⟨_, Or.inr rfl⟩
    · exact ⟨_, Or.inl rfl⟩
  · split
    · exact ⟨_, Or.inr rfl⟩
    · exact ⟨_, Or.inl rfl⟩

theorem ikcpUpdate_frame (kcp : Ikcpcb) (current : UInt32) :
    (ikcpUpdate kcp current).1.setup = kcp.setup ∧
      (ikcpUpdate kcp current).1.rcvSide = kcp.rcvSide ∧
      ∀ ack ∈ (ikcpUpdate kcp current).1.acklist, ack ∈ kcp.acklist := by
  obtain ⟨updated, tsFlush, heq | heq⟩ := ikcpUpdate_cases kcp current
  · rw [heq]
    exact ⟨rfl, rfl, fun _ h => h⟩
  · rw [heq]
    exact ikcpFlush_frame
      { kcp with current := current, updated := updated, tsFlush := tsFlush }

/-- What may be sent does not depend on the clock. -/
theorem Flushed.of_clock {kcp : Ikcpcb} {current updated tsFlush : UInt32}
    {sndBuf : List IkcpSeg} {seg : IkcpSeg}
    (h : Flushed { kcp with current := current, updated := updated, tsFlush := tsFlush }
      sndBuf seg) : Flushed kcp sndBuf seg := by
  have hctl (hc : IsControl
      { kcp with current := current, updated := updated, tsFlush := tsFlush } seg) :
      IsControl kcp seg := ⟨hc.conv, hc.frg, hc.wnd, hc.una, hc.data⟩
  exact h.imp (fun h => ⟨hctl h.1, h.2⟩) (.imp (fun h => ⟨hctl h.1, h.2⟩) id)

theorem ikcpUpdate_spec {kcp : Ikcpcb} (hfit : FitsMtu kcp) (current : UInt32) :
    ∃ moved, FlushSpec kcp (ikcpUpdate kcp current).1 (ikcpUpdate kcp current).2 moved := by
  obtain ⟨updated, tsFlush, heq | heq⟩ := ikcpUpdate_cases kcp current
  · rw [heq]
    exact ⟨[], .idle rfl rfl rfl rfl⟩
  · rw [heq]
    have hfit' :
        FitsMtu { kcp with current := current, updated := updated, tsFlush := tsFlush } :=
      ⟨hfit.head, hfit.queue, hfit.buf⟩
    obtain ⟨moved, h⟩ := ikcpFlush_spec hfit'
    obtain ⟨groups, houts, hcap, hsent, hall⟩ := h.outs
    exact ⟨moved, h.setup, h.rcvSide, h.acklist, ⟨h.snd.queue, h.snd.sndNxt, h.snd.sndBuf⟩,
      groups, houts, hcap, fun seg hseg => (hsent seg hseg).of_clock, hall⟩

end CppDemos
