import CppDemos.Kcp.Packing

/-!
# Clock readings

Each member of a conversation reads its own clock, and what goes over the
network of it is the timestamp of a data segment, which comes back in the
acknowledgement. `Ikcpcb.restamp` is a block with other clock readings and with
the timestamps of all data segments moved by one constant. Every function
commutes with it, as long as the block's own readings are moved by one constant
too, its `offset`; so a block cannot tell (`Ticks`) what its clock showed when it
was started.

A block that sends data takes round trip times from its own timestamps, so for
it the two constants must be the same one. A block that sends none may hear
acknowledgements that are meant for another, and learns nonsense from them; but
then it has no use for what it learns.
-/

namespace CppDemos

/-! ## Other readings, other timestamps -/

@[simps] def IkcpSeg.stamped (d : UInt32) (seg : IkcpSeg) : IkcpSeg := { seg with ts := seg.ts + d }

/-- A segment of `snd_buf`, sent and due at another time. -/
@[simps] def IkcpSeg.late (d : UInt32) (seg : IkcpSeg) : IkcpSeg :=
  { seg with ts := seg.ts + d, resendts := seg.resendts + d }

/-- What a block takes from its clock. -/
structure Clocks where
  current : UInt32
  tsFlush : UInt32
  tsProbe : UInt32
  rxRttval : Int32
  rxSrtt : Int32
  rxRto : Int32

/-- What the round trip times are kept in. -/
def Clocks.timing (x : Clocks) : Int32 × Int32 × Int32 := (x.rxRttval, x.rxSrtt, x.rxRto)

def Ikcpcb.timing (kcp : Ikcpcb) : Int32 × Int32 × Int32 := (kcp.rxRttval, kcp.rxSrtt, kcp.rxRto)

@[simps] def Ikcpcb.restamp (kcp : Ikcpcb) (d : UInt32) (x : Clocks) : Ikcpcb :=
  { kcp with
    current := x.current
    tsFlush := x.tsFlush
    tsProbe := x.tsProbe
    rxRttval := x.rxRttval
    rxSrtt := x.rxSrtt
    rxRto := x.rxRto
    acklist := kcp.acklist.map fun ack => (ack.1, ack.2 + d)
    sndBuf := kcp.sndBuf.map (IkcpSeg.late d)
    rcvBuf := kcp.rcvBuf.map (IkcpSeg.stamped d)
    rcvQueue := kcp.rcvQueue.map (IkcpSeg.stamped d) }

def Ikcpcb.readings (kcp : Ikcpcb) : Clocks :=
  ⟨kcp.current, kcp.tsFlush, kcp.tsProbe, kcp.rxRttval, kcp.rxSrtt, kcp.rxRto⟩

theorem restamp_readings {kcp : Ikcpcb} (d : UInt32) (hack : kcp.acklist = [])
    (hsnd : kcp.sndBuf = []) (hbuf : kcp.rcvBuf = []) (hqueue : kcp.rcvQueue = []) :
    kcp.restamp d kcp.readings = kcp := by
  cases kcp
  simp_all [Ikcpcb.restamp, Ikcpcb.readings]

/-- The clock behind these readings is ahead by `offset`. Before the first
update the readings are whatever the block was made with, so nothing is asked of
them. The round trip times agree unless the clock is another one than that of
the timestamps, and then there is nothing they could be used for. -/
structure Ticks (offset d : UInt32) (kcp : Ikcpcb) (x : Clocks) : Prop where
  running : kcp.updated ≠ 0 → x.current = kcp.current + offset ∧ x.tsFlush = kcp.tsFlush + offset
  fresh : kcp.updated = 0 → kcp.sndBuf = []
  probe : kcp.probeWait = 0 ∨ x.tsProbe = kcp.tsProbe + offset
  timed : offset = d ∧ x.timing = kcp.timing ∨
    offset ≠ d ∧ kcp.sndQueue = [] ∧ kcp.sndBuf = []

/-- The fields of `Ticks` that only an update changes. -/
def Ikcpcb.clock (kcp : Ikcpcb) : UInt32 × UInt32 × UInt32 × UInt32 × UInt32 :=
  (kcp.updated, kcp.current, kcp.tsFlush, kcp.tsProbe, kcp.probeWait)

/-- Only differences are looked at. -/
@[simp] theorem itimediff_late (a b d : UInt32) : itimediff (a + d) (b + d) = itimediff a b := by
  have h : a + d - (b + d) = a - b := by grind
  rw [itimediff, itimediff, h]

variable (kcp : Ikcpcb) (d : UInt32) (x : Clocks)

/-! ## Receiving -/

theorem moveRcvBuf_restamp :
    ∀ (buf : List IkcpSeg) (kcp : Ikcpcb),
      moveRcvBuf (kcp.restamp d x) (buf.map (IkcpSeg.stamped d)) = (moveRcvBuf kcp buf).restamp d x
  | [], _ => rfl
  | seg :: rest, kcp => by
      have hshift : shiftRcv (kcp.restamp d x) (seg.stamped d) (rest.map (IkcpSeg.stamped d))
          = (shiftRcv kcp seg rest).restamp d x := by
        simp [shiftRcv, Ikcpcb.restamp]
      simp only [List.map_cons, moveRcvBuf, Ikcpcb.restamp_rcvNxt, Ikcpcb.restamp_nrcvQue,
        Ikcpcb.restamp_rcvWnd, IkcpSeg.stamped_sn, hshift]
      split
      · exact moveRcvBuf_restamp rest (shiftRcv kcp seg rest)
      · rfl

theorem peekLength_stamped (queue : List IkcpSeg) :
    peekLength (queue.map (IkcpSeg.stamped d)) = peekLength queue := by
  induction queue with
  | nil => rfl
  | cons seg p ih =>
      simp only [List.map_cons, peekLength, ih]
      rfl

theorem peeksize_restamp : ikcpPeeksize (kcp.restamp d x) = ikcpPeeksize kcp := by
  unfold ikcpPeeksize
  rw [Ikcpcb.restamp_rcvQueue]
  cases kcp.rcvQueue with
  | nil => rfl
  | cons seg p =>
      have hlen := peekLength_stamped d (seg :: p)
      rw [List.map_cons] at hlen ⊢
      simp only [hlen]
      rfl

theorem mergeFragment_stamped :
    ∀ (queue : List IkcpSeg) (n : Nat), mergeFragment n (queue.map (IkcpSeg.stamped d))
      = ((mergeFragment n queue).1, (mergeFragment n queue).2.1.map (IkcpSeg.stamped d),
        (mergeFragment n queue).2.2)
  | [], _ => rfl
  | seg :: p, n => by
      simp only [List.map_cons, mergeFragment, IkcpSeg.stamped_frg, mergeFragment_stamped p]
      split <;> rfl

theorem recv_restamp {len : Int} (hlen : 0 ≤ len) :
    ikcpRecv (kcp.restamp d x) len
      = ((ikcpRecv kcp len).1.restamp d x, (ikcpRecv kcp len).2) := by
  have hmerge := mergeFragment_stamped d kcp.rcvQueue kcp.nrcvQue
  have hpop : popRcv (kcp.restamp d x) = (popRcv kcp).restamp d x := by
    simp [popRcv, Ikcpcb.restamp, hmerge]
  have hmove := moveRcvBuf_restamp d x (popRcv kcp).rcvBuf (popRcv kcp)
  unfold ikcpRecv
  simp only [if_neg (Int.not_lt.mpr hlen), peeksize_restamp, hpop, Ikcpcb.restamp_rcvQueue,
    List.map_eq_nil_iff, Ikcpcb.restamp_rcvBuf, hmove, Ikcpcb.restamp_nrcvQue,
    Ikcpcb.restamp_rcvWnd, hmerge]
  split
  · rfl
  · split
    · rfl
    · split
      · rfl
      · split <;> rfl

theorem rcvInsert_stamped (newseg : IkcpSeg) (buf : List IkcpSeg) :
    rcvInsert (newseg.stamped d) (buf.map (IkcpSeg.stamped d))
      = (rcvInsert newseg buf).map (List.map (IkcpSeg.stamped d)) := by
  have hback : ∀ rev : List IkcpSeg,
      insertBack (newseg.stamped d) (rev.map (IkcpSeg.stamped d))
        = (insertBack newseg rev).map (List.map (IkcpSeg.stamped d)) := by
    intro rev
    induction rev with
    | nil => rfl
    | cons seg prev ih =>
        simp only [List.map_cons, insertBack, IkcpSeg.stamped_sn, ih]
        split
        · rfl
        · split
          · rfl
          · cases insertBack newseg prev <;> rfl
  rw [rcvInsert, rcvInsert, ← List.map_reverse, hback]
  cases insertBack newseg buf.reverse <;> simp

theorem parseData_restamp (newseg : IkcpSeg) :
    ikcpParseData (kcp.restamp d x) (newseg.stamped d)
      = (ikcpParseData kcp newseg).restamp d x := by
  unfold ikcpParseData
  simp only [Ikcpcb.restamp_rcvNxt, Ikcpcb.restamp_rcvWnd, Ikcpcb.restamp_rcvBuf,
    IkcpSeg.stamped_sn, rcvInsert_stamped]
  split
  · rfl
  · cases rcvInsert newseg kcp.rcvBuf with
    | none => exact moveRcvBuf_restamp d x _ kcp
    | some rcvBuf =>
        exact moveRcvBuf_restamp d x _ { kcp with rcvBuf := rcvBuf, nrcvBuf := kcp.nrcvBuf + 1 }

theorem inputPush_restamp (conv : UInt32) (head : SegHead) (payload : Bytes) :
    inputPush (kcp.restamp d x) conv { head with ts := head.ts + d } payload
      = (inputPush kcp conv head payload).restamp d x := by
  have hpush : ikcpAckPush (kcp.restamp d x) head.sn (head.ts + d)
      = (ikcpAckPush kcp head.sn head.ts).restamp d x := by
    simp [ikcpAckPush, Ikcpcb.restamp]
  unfold inputPush
  simp only [hpush, Ikcpcb.restamp_rcvNxt, Ikcpcb.restamp_rcvWnd]
  split
  · split
    · exact parseData_restamp (ikcpAckPush kcp head.sn head.ts) d x
        { conv := conv, cmd := head.cmd.toUInt32, frg := head.frg.toUInt32,
          wnd := head.wnd.toUInt32, ts := head.ts, sn := head.sn, una := head.una,
          data := payload }
    · rfl
  · rfl

/-! ## Acknowledgements -/

theorem shrinkBuf_restamp : ikcpShrinkBuf (kcp.restamp d x) = (ikcpShrinkBuf kcp).restamp d x := by
  unfold ikcpShrinkBuf
  rw [Ikcpcb.restamp_sndBuf]
  cases h : kcp.sndBuf <;> simp [Ikcpcb.restamp, h]

theorem unaRemove_late (una : UInt32) (buf : List IkcpSeg) :
    unaRemove una (buf.map (IkcpSeg.late d)) = (unaRemove una buf).map (IkcpSeg.late d) := by
  induction buf with
  | nil => rfl
  | cons seg next ih =>
      simp only [List.map_cons, unaRemove, IkcpSeg.late_sn, ih]
      split <;> rfl

theorem inputUna_restamp (head : SegHead) :
    inputUna (kcp.restamp d x) head = (inputUna kcp head).restamp d x := by
  have huna : ikcpParseUna { kcp.restamp d x with rmtWnd := head.wnd.toUInt32 } head.una
      = (ikcpParseUna { kcp with rmtWnd := head.wnd.toUInt32 } head.una).restamp d x := by
    simp [ikcpParseUna, Ikcpcb.restamp, unaRemove_late]
  rw [inputUna, huna]
  exact shrinkBuf_restamp _ d x

theorem ackRemove_late (sn : UInt32) (buf : List IkcpSeg) :
    ackRemove sn (buf.map (IkcpSeg.late d))
      = (ackRemove sn buf).map (List.map (IkcpSeg.late d)) := by
  induction buf with
  | nil => rfl
  | cons seg next ih =>
      simp only [List.map_cons, ackRemove, IkcpSeg.late_sn, ih]
      split
      · rfl
      · split
        · rfl
        · cases ackRemove sn next <;> rfl

theorem parseAck_restamp (sn : UInt32) :
    ikcpParseAck (kcp.restamp d x) sn = (ikcpParseAck kcp sn).restamp d x := by
  unfold ikcpParseAck
  simp only [Ikcpcb.restamp_sndUna, Ikcpcb.restamp_sndNxt, Ikcpcb.restamp_sndBuf, ackRemove_late]
  split
  · rfl
  · cases ackRemove sn kcp.sndBuf <;> rfl

theorem fastackMark_late (sn ts : UInt32) (buf : List IkcpSeg) :
    fastackMark sn (ts + d) (buf.map (IkcpSeg.late d))
      = (fastackMark sn ts buf).map (IkcpSeg.late d) := by
  induction buf with
  | nil => rfl
  | cons seg next ih =>
      simp only [List.map_cons, fastackMark, IkcpSeg.late_sn, IkcpSeg.late_ts, itimediff_late, ih]
      split
      · rfl
      · split <;> rfl

theorem parseFastack_restamp (sn ts : UInt32) :
    ikcpParseFastack (kcp.restamp d x) sn (ts + d)
      = (ikcpParseFastack kcp sn ts).restamp d x := by
  unfold ikcpParseFastack
  simp only [Ikcpcb.restamp_sndUna, Ikcpcb.restamp_sndNxt, Ikcpcb.restamp_sndBuf, fastackMark_late]
  split <;> rfl

variable {kcp d x} {offset : UInt32}

theorem Ticks.trim {kcp' : Ikcpcb} {y : Clocks} (h : Ticks offset d kcp x)
    (hclock : kcp'.clock = kcp.clock)
    (hy : y.current = x.current ∧ y.tsFlush = x.tsFlush ∧ y.tsProbe = x.tsProbe)
    (hqueue : kcp'.sndQueue = kcp.sndQueue) (hbuf : kcp.sndBuf = [] → kcp'.sndBuf = [])
    (htimed : offset = d → x.timing = kcp.timing → y.timing = kcp'.timing) :
    Ticks offset d kcp' y := by
  simp only [Ikcpcb.clock, Prod.mk.injEq] at hclock
  obtain ⟨hupdated, hcurrent, hflush, hprobe, hwait⟩ := hclock
  refine ⟨?_, ?_, ?_, ?_⟩
  · rw [hupdated, hy.1, hy.2.1, hcurrent, hflush]
    exact h.running
  · rw [hupdated]
    exact fun hzero => hbuf (h.fresh hzero)
  · rw [hwait, hprobe, hy.2.2]
    exact h.probe
  · rw [hqueue]
    exact h.timed.imp (fun hsame => ⟨hsame.1, htimed hsame.1 hsame.2⟩)
      fun hidle => ⟨hidle.1, hidle.2.1, hbuf hidle.2.2⟩

theorem Ticks.same {kcp' : Ikcpcb} (h : Ticks offset d kcp x)
    (hclock : kcp'.clock = kcp.clock ∧ kcp'.timing = kcp.timing)
    (hqueue : kcp'.sndQueue = kcp.sndQueue) (hbuf : kcp.sndBuf = [] → kcp'.sndBuf = []) :
    Ticks offset d kcp' x :=
  h.trim hclock.1 ⟨rfl, rfl, rfl⟩ hqueue hbuf fun _ htimed => htimed.trans hclock.2.symm

theorem shrinkBuf_clock (kcp : Ikcpcb) :
    (ikcpShrinkBuf kcp).clock = kcp.clock ∧ (ikcpShrinkBuf kcp).timing = kcp.timing := by
  unfold ikcpShrinkBuf
  split <;> exact ⟨rfl, rfl⟩

theorem parseAck_clock (kcp : Ikcpcb) (sn : UInt32) :
    (ikcpParseAck kcp sn).clock = kcp.clock ∧ (ikcpParseAck kcp sn).timing = kcp.timing := by
  unfold ikcpParseAck
  split
  · exact ⟨rfl, rfl⟩
  · split <;> exact ⟨rfl, rfl⟩

theorem inputUna_clock (kcp : Ikcpcb) (head : SegHead) :
    (inputUna kcp head).clock = kcp.clock ∧ (inputUna kcp head).timing = kcp.timing :=
  shrinkBuf_clock (ikcpParseUna { kcp with rmtWnd := head.wnd.toUInt32 } head.una)

theorem inputPush_clock (kcp : Ikcpcb) (conv : UInt32) (head : SegHead) (payload : Bytes) :
    (inputPush kcp conv head payload).clock = kcp.clock ∧
      (inputPush kcp conv head payload).timing = kcp.timing := by
  have hmove (k : Ikcpcb) : (moveRcvBuf k k.rcvBuf).clock = k.clock ∧
      (moveRcvBuf k k.rcvBuf).timing = k.timing :=
    moveRcvBuf_induct (P := fun k' => k'.clock = k.clock ∧ k'.timing = k.timing)
      (fun _ _ _ _ _ _ h => h) ⟨rfl, rfl⟩
  unfold inputPush ikcpParseData
  split
  · simp only
    split
    · split
      · exact ⟨rfl, rfl⟩
      · split
        · exact hmove _
        · exact hmove (ikcpAckPush kcp head.sn head.ts)
    · exact ⟨rfl, rfl⟩
  · exact ⟨rfl, rfl⟩

/-- A round trip time changes what is derived from it, and nothing else. -/
theorem updateAck_eq (kcp : Ikcpcb) (rtt : Int32) : ∃ rttval srtt rto,
    ikcpUpdateAck kcp rtt = { kcp with rxRttval := rttval, rxSrtt := srtt, rxRto := rto } := by
  unfold ikcpUpdateAck
  split <;> exact ⟨_, _, _, rfl⟩

/-- The readings, with the round trip times of another block. -/
def Clocks.timed (x : Clocks) (kcp : Ikcpcb) : Clocks :=
  { x with rxRttval := kcp.rxRttval, rxSrtt := kcp.rxSrtt, rxRto := kcp.rxRto }

theorem updateAck_restamp (htiming : x.timing = kcp.timing) (rtt : Int32) :
    ikcpUpdateAck (kcp.restamp d x) rtt
      = (ikcpUpdateAck kcp rtt).restamp d (x.timed (ikcpUpdateAck kcp rtt)) := by
  simp only [Clocks.timing, Ikcpcb.timing, Prod.mk.injEq] at htiming
  obtain ⟨hrttval, hsrtt, -⟩ := htiming
  unfold ikcpUpdateAck
  simp only [Ikcpcb.restamp_rxSrtt, Ikcpcb.restamp_rxRttval, Ikcpcb.restamp_interval,
    Ikcpcb.restamp_rxMinrto, hrttval, hsrtt]
  split <;> rfl

/-- The first step of the ACK branch. -/
def inputRtt (kcp : Ikcpcb) (ts : UInt32) : Ikcpcb :=
  if itimediff kcp.current ts ≥ 0 then
    ikcpUpdateAck kcp (Int32.ofInt (itimediff kcp.current ts))
  else kcp

theorem inputRtt_eq (kcp : Ikcpcb) (ts : UInt32) : ∃ rttval srtt rto,
    inputRtt kcp ts = { kcp with rxRttval := rttval, rxSrtt := srtt, rxRto := rto } := by
  unfold inputRtt
  split
  · exact updateAck_eq kcp _
  · exact ⟨_, _, _, rfl⟩

/-- With the timestamp its own, the block computes the same round trip time;
otherwise it has nothing to send. -/
theorem inputRtt_restamp (h : Ticks offset d kcp x) (hupdated : kcp.updated ≠ 0) (ts : UInt32) :
    ∃ y, inputRtt (kcp.restamp d x) (ts + d) = (inputRtt kcp ts).restamp d y ∧
      Ticks offset d (inputRtt kcp ts) y := by
  obtain ⟨rttval, srtt, rto, heq⟩ := inputRtt_eq kcp ts
  have hclock : (inputRtt kcp ts).clock = kcp.clock := by rw [heq]; rfl
  have hqueue : (inputRtt kcp ts).sndQueue = kcp.sndQueue := by rw [heq]
  have hbuf : kcp.sndBuf = [] → (inputRtt kcp ts).sndBuf = [] := by rw [heq]; exact id
  rcases h.timed with ⟨rfl, htiming⟩ | hidle
  · refine ⟨x.timed (inputRtt kcp ts), ?_,
      h.trim hclock ⟨rfl, rfl, rfl⟩ hqueue hbuf fun _ _ => rfl⟩
    unfold inputRtt
    simp only [Ikcpcb.restamp_current, (h.running hupdated).1, itimediff_late,
      updateAck_restamp htiming]
    split
    · rfl
    · simp only [Clocks.timing, Ikcpcb.timing, Prod.mk.injEq] at htiming
      simp only [Clocks.timed, ← htiming]
  · obtain ⟨rttval', srtt', rto', heq'⟩ := inputRtt_eq (kcp.restamp d x) (ts + d)
    let y : Clocks := { x with rxRttval := rttval', rxSrtt := srtt', rxRto := rto' }
    refine ⟨y, by rw [heq, heq']; rfl, ?_⟩
    rw [heq]
    exact ⟨h.running, h.fresh, h.probe, Or.inr hidle⟩

theorem inputAck_clock (kcp : Ikcpcb) (head : SegHead) : (inputAck kcp head).clock = kcp.clock := by
  obtain ⟨rttval, srtt, rto, heq⟩ := inputRtt_eq kcp head.ts
  have hclock : (inputRtt kcp head.ts).clock = kcp.clock := by rw [heq]; rfl
  exact (shrinkBuf_clock _).1.trans ((parseAck_clock (inputRtt kcp head.ts) head.sn).1.trans hclock)

theorem inputAck_restamp (h : Ticks offset d kcp x) (hupdated : kcp.updated ≠ 0)
    (head : SegHead) :
    ∃ y, inputAck (kcp.restamp d x) { head with ts := head.ts + d }
        = (inputAck kcp head).restamp d y ∧ Ticks offset d (inputAck kcp head) y := by
  obtain ⟨y, hrtt, hticks⟩ := inputRtt_restamp h hupdated head.ts
  obtain ⟨-, -, hside, -⟩ := shrinkBuf_frame (ikcpParseAck (inputRtt kcp head.ts) head.sn)
  obtain ⟨htrim, -⟩ := parseAck_sndBuf (inputRtt kcp head.ts) head.sn
  have hclock := parseAck_clock (inputRtt kcp head.ts) head.sn
  have hshrink := shrinkBuf_clock (ikcpParseAck (inputRtt kcp head.ts) head.sn)
  refine ⟨y, ?_, hticks.same ⟨hshrink.1.trans hclock.1, hshrink.2.trans hclock.2⟩
    ((congrArg SndSide.sndQueue hside).trans htrim.sndQueue) fun hnil => ?_⟩
  · rw [inputAck, inputAck]
    change ikcpShrinkBuf (ikcpParseAck (inputRtt _ _) _)
      = (ikcpShrinkBuf (ikcpParseAck (inputRtt _ _) _)).restamp d y
    rw [hrtt, parseAck_restamp, shrinkBuf_restamp]
  · have hsub := htrim.sndBuf
    rw [hnil, List.map_nil, List.sublist_nil, List.map_eq_nil_iff] at hsub
    exact (congrArg SndSide.sndBuf hside).trans hsub

/-! ## A datagram -/

/-- The same segment on the wire, but for the timestamp. A window probe repeats
whatever timestamp was written last. -/
structure IkcpSeg.Restamped (d : UInt32) (seg seg' : IkcpSeg) : Prop where
  same : seg' = { seg with ts := seg'.ts, resendts := seg'.resendts }
  ts : seg.cmd = ikcpCmdPush ∨ seg.cmd = ikcpCmdAck → seg'.ts = seg.ts + d

/-- The state of the segment loop, with other readings and timestamps. -/
structure InputSt.Restamped (offset d : UInt32) (st st' : InputSt) : Prop where
  kcp : ∃ x, st'.kcp = st.kcp.restamp d x ∧ Ticks offset d st.kcp x
  updated : st.kcp.updated ≠ 0
  flag : st'.flag = st.flag
  maxack : st'.maxack = st.maxack
  latestTs : st.flag = true → st'.latestTs = st.latestTs + d

theorem inputSeg_eq (st : InputSt) (conv : UInt32) (head : SegHead) (payload : Bytes) :
    inputSeg st conv head payload =
      if head.cmd.toUInt32 = ikcpCmdAck then
        let kcp := inputAck (inputUna st.kcp head) head
        if st.flag = false then
          { kcp := kcp, flag := true, maxack := head.sn, latestTs := head.ts }
        else if itimediff head.ts st.latestTs > 0 then
          { st with kcp := kcp, maxack := head.sn, latestTs := head.ts }
        else { st with kcp := kcp }
      else if head.cmd.toUInt32 = ikcpCmdPush then
        { st with kcp := inputPush (inputUna st.kcp head) conv head payload }
      else if head.cmd.toUInt32 = ikcpCmdWask then
        { st with kcp := { inputUna st.kcp head with
            probe := (inputUna st.kcp head).probe ||| ikcpAskTell } }
      else { st with kcp := inputUna st.kcp head } := rfl

theorem Ticks.una (h : Ticks offset d kcp x) (head : SegHead) :
    Ticks offset d (inputUna kcp head) x := by
  obtain ⟨-, -, -, hside⟩ := inputUna_frame kcp head
  refine h.same (inputUna_clock kcp head) (congrArg SndSide.sndQueue hside) fun hnil => ?_
  have hbuf := congrArg SndSide.sndBuf hside
  rw [hnil] at hbuf
  exact hbuf

theorem Ticks.push (h : Ticks offset d kcp x) (conv : UInt32) (head : SegHead) (payload : Bytes) :
    Ticks offset d (inputPush kcp conv head payload) x := by
  obtain ⟨-, hside⟩ := inputPush_frame kcp conv head payload
  refine h.same (inputPush_clock kcp conv head payload) (congrArg SndSide.sndQueue hside) ?_
  exact fun hnil => (congrArg SndSide.sndBuf hside).trans hnil

theorem inputSeg_restamp {st st' : InputSt} (h : InputSt.Restamped offset d st st')
    (conv : UInt32) {head : SegHead} (payload : Bytes) (ts : UInt32)
    (hts : head.cmd.toUInt32 = ikcpCmdPush ∨ head.cmd.toUInt32 = ikcpCmdAck → ts = head.ts + d) :
    InputSt.Restamped offset d (inputSeg st conv head payload)
      (inputSeg st' conv { head with ts := ts } payload) := by
  obtain ⟨kcp', flag', maxack', latestTs'⟩ := st'
  obtain ⟨⟨x, hkcp, hticks⟩, hupdated, hflag, hmaxack, hlatest⟩ := h
  simp only at hkcp hflag hmaxack hlatest
  subst hkcp hflag hmaxack
  have huna : inputUna (st.kcp.restamp d x) { head with ts := ts }
      = (inputUna st.kcp head).restamp d x := inputUna_restamp st.kcp d x head
  have hticks := hticks.una head
  have hupdated' : (inputUna st.kcp head).updated ≠ 0 := by
    rw [show (inputUna st.kcp head).updated = st.kcp.updated from
      congrArg Prod.fst (inputUna_clock st.kcp head).1]
    exact hupdated
  rw [inputSeg_eq, inputSeg_eq]
  simp only [huna]
  by_cases hack : head.cmd.toUInt32 = ikcpCmdAck
  · obtain rfl := hts (Or.inr hack)
    obtain ⟨y, heq, hticks⟩ := inputAck_restamp hticks hupdated' head
    have hupdated : (inputAck (inputUna st.kcp head) head).updated ≠ 0 := by
      rw [show (inputAck (inputUna st.kcp head) head).updated = (inputUna st.kcp head).updated from
        congrArg Prod.fst (inputAck_clock _ head)]
      exact hupdated'
    simp only [if_pos hack, heq]
    split
    · exact ⟨⟨y, rfl, hticks⟩, hupdated, rfl, rfl, fun _ => rfl⟩
    · rename_i hflag
      rw [Bool.not_eq_false] at hflag
      rw [hlatest hflag, itimediff_late]
      split
      · exact ⟨⟨y, rfl, hticks⟩, hupdated, rfl, rfl, fun _ => rfl⟩
      · exact ⟨⟨y, rfl, hticks⟩, hupdated, rfl, rfl, fun _ => rfl⟩
  · simp only [if_neg hack]
    by_cases hpush : head.cmd.toUInt32 = ikcpCmdPush
    · obtain rfl := hts (Or.inl hpush)
      have hupdated : (inputPush (inputUna st.kcp head) conv head payload).updated ≠ 0 := by
        rw [show (inputPush (inputUna st.kcp head) conv head payload).updated
          = (inputUna st.kcp head).updated from congrArg Prod.fst (inputPush_clock _ _ _ _).1]
        exact hupdated'
      simp only [if_pos hpush, inputPush_restamp]
      exact ⟨⟨x, rfl, hticks.push conv head payload⟩, hupdated, rfl, rfl, hlatest⟩
    · simp only [if_neg hpush]
      split
      · exact ⟨⟨x, rfl, hticks.same ⟨rfl, rfl⟩ rfl id⟩, hupdated', rfl, rfl, hlatest⟩
      · exact ⟨⟨x, rfl, hticks⟩, hupdated', rfl, rfl, hlatest⟩

theorem growCwnd_restamp (prevUna : UInt32) (kcp : Ikcpcb) :
    growCwnd prevUna (kcp.restamp d x) = (growCwnd prevUna kcp).restamp d x := by
  have hnext : nextCwnd (kcp.restamp d x) = nextCwnd kcp := rfl
  unfold growCwnd
  simp only [hnext, Ikcpcb.restamp_sndUna, Ikcpcb.restamp_cwnd, Ikcpcb.restamp_rmtWnd,
    Ikcpcb.restamp_mss]
  split
  · split <;> rfl
  · rfl

theorem inputFinish_restamp {st st' : InputSt} (h : InputSt.Restamped offset d st st')
    (prevUna : UInt32) :
    ∃ x, inputFinish prevUna st' = (inputFinish prevUna st).restamp d x ∧
      Ticks offset d (inputFinish prevUna st) x ∧ (inputFinish prevUna st).updated ≠ 0 := by
  obtain ⟨x, hkcp, hticks⟩ := h.kcp
  have hfast : (if st'.flag then ikcpParseFastack st'.kcp st'.maxack st'.latestTs else st'.kcp)
      = (if st.flag then ikcpParseFastack st.kcp st.maxack st.latestTs
          else st.kcp).restamp d x := by
    rw [h.flag, h.maxack, hkcp]
    split
    · rw [h.latestTs ‹_›, parseFastack_restamp]
    · rfl
  obtain ⟨hframe, -, -, hcore⟩ := inputFinish_frame prevUna st
  have hclock : (inputFinish prevUna st).clock = st.kcp.clock ∧
      (inputFinish prevUna st).timing = st.kcp.timing := by
    obtain ⟨cwnd, incr, heq⟩ := growCwnd_frame prevUna
      (if st.flag then ikcpParseFastack st.kcp st.maxack st.latestTs else st.kcp)
    rw [inputFinish, heq]
    split
    · unfold ikcpParseFastack
      split <;> exact ⟨rfl, rfl⟩
    · exact ⟨rfl, rfl⟩
  refine ⟨x, ?_, hticks.same hclock hframe.sndQueue fun hnil => ?_, ?_⟩
  · rw [inputFinish, hfast, growCwnd_restamp]
    rfl
  · rw [hnil, List.map_nil, List.map_eq_nil_iff] at hcore
    exact hcore
  · rw [show (inputFinish prevUna st).updated = st.kcp.updated from congrArg Prod.fst hclock.1]
    exact h.updated

theorem IkcpSeg.Restamped.sendable {conv : UInt32} {seg seg' : IkcpSeg}
    (h : IkcpSeg.Restamped d seg seg') (hseg : seg.Sendable conv) : seg'.Sendable conv := by
  rw [h.same]
  exact ⟨⟨hseg.wire.cmd, hseg.wire.frg, hseg.wire.wnd, hseg.wire.len⟩, hseg.conv, hseg.cmd⟩

theorem sendable_of_restamped {conv : UInt32} {segs segs' : List IkcpSeg}
    (hsame : List.Forall₂ (IkcpSeg.Restamped d) segs segs')
    (hsegs : ∀ seg ∈ segs, seg.Sendable conv) : ∀ seg ∈ segs', seg.Sendable conv := by
  induction hsame with
  | nil => exact hsegs
  | cons hseg _ ih =>
      rw [List.forall_mem_cons] at hsegs ⊢
      exact ⟨hseg.sendable hsegs.1, ih hsegs.2⟩

theorem inputFold_restamp {segs segs' : List IkcpSeg}
    (hsame : List.Forall₂ (IkcpSeg.Restamped d) segs segs')
    (hwire : ∀ seg ∈ segs, seg.WireOk) :
    ∀ {st st' : InputSt}, InputSt.Restamped offset d st st' →
      InputSt.Restamped offset d
        (segs.foldl (fun st seg => inputSeg st seg.conv seg.head seg.data) st)
        (segs'.foldl (fun st seg => inputSeg st seg.conv seg.head seg.data) st') := by
  induction hsame with
  | nil => exact fun h => h
  | @cons seg seg' segs segs' hseg _ ih =>
      intro st st' h
      refine ih (fun s hs => hwire s (List.mem_cons_of_mem _ hs)) ?_
      have hhead := (hwire seg (List.mem_cons_self ..)).head_cmd
      have hstep := inputSeg_restamp h seg.conv seg.data seg'.ts
        fun hcmd => hseg.ts (hhead ▸ hcmd)
      rw [hseg.same]
      exact hstep

theorem input_restamp (h : Ticks offset d kcp x) (hupdated : kcp.updated ≠ 0)
    {segs segs' : List IkcpSeg} (hsegs : ∀ seg ∈ segs, seg.Sendable kcp.conv)
    (hsame : List.Forall₂ (IkcpSeg.Restamped d) segs segs') :
    ∃ y, (ikcpInput (kcp.restamp d x) (datagram segs')).1
        = (ikcpInput kcp (datagram segs)).1.restamp d y ∧
      Ticks offset d (ikcpInput kcp (datagram segs)).1 y ∧
      (ikcpInput kcp (datagram segs)).1.updated ≠ 0 := by
  cases hsame with
  | nil => exact ⟨x, rfl, h, hupdated⟩
  | @cons seg seg' segs segs' hseg hsame =>
      have hall := List.Forall₂.cons hseg hsame
      have hsegs' := sendable_of_restamped hall hsegs
      have hfold := inputFold_restamp hall (fun s hs => (hsegs s hs).wire)
        (⟨⟨x, rfl, h⟩, hupdated, rfl, rfl, fun hflag => by cases hflag⟩ :
          InputSt.Restamped offset d { kcp := kcp } { kcp := kcp.restamp d x })
      rw [ikcpInput_datagram (by simp) hsegs,
        @ikcpInput_datagram (kcp.restamp d x) _ (by simp) hsegs']
      exact inputFinish_restamp hfold kcp.sndUna

end CppDemos
