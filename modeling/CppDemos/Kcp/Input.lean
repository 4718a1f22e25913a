import CppDemos.Kcp.Recv
import CppDemos.Kcp.Wire

/-!
# ikcp_input

What a received datagram does to the control block: the acknowledgement
functions (`ikcp_update_ack`, `ikcp_shrink_buf`, `ikcp_parse_ack`,
`ikcp_parse_una`, `ikcp_parse_fastack`, `ikcp_ack_push`), the body of the
segment loop (`inputSeg`) and the loop itself with its error exits.

Three views of the result are enough for everything that follows. The settings
never change (`setup_input`). The send side only loses segments from
`snd_buf`, each for a reason (`inputSeg_sndBuf`). The receive side changes
only in a PUSH segment, through `ikcp_parse_data` (`inputSeg_rcv`). On a
datagram made of well-formed segments the loop is a fold over them
(`ikcpInput_datagram`).
-/

namespace CppDemos

/-! ## Acknowledgements -/

def ikcpUpdateAck (kcp : Ikcpcb) (rtt : Int32) : Ikcpcb :=
  let kcp :=
    if kcp.rxSrtt = 0 then { kcp with rxSrtt := rtt, rxRttval := rtt / 2 }
    else
      let delta := (rtt - kcp.rxSrtt).toInt
      let delta := if delta < 0 then -delta else delta
      let rxRttval := Int32.ofInt (((3 * kcp.rxRttval).toInt + delta).tdiv 4)
      let rxSrtt := (7 * kcp.rxSrtt + rtt) / 8
      { kcp with rxRttval := rxRttval, rxSrtt := if rxSrtt < 1 then 1 else rxSrtt }
  let rto := kcp.rxSrtt.toUInt32 + imax kcp.interval (4 * kcp.rxRttval).toUInt32
  { kcp with rxRto := (ibound kcp.rxMinrto.toUInt32 rto ikcpRtoMax).toInt32 }

def ikcpShrinkBuf (kcp : Ikcpcb) : Ikcpcb :=
  match kcp.sndBuf with
  | seg :: _ => { kcp with sndUna := seg.sn }
  | [] => { kcp with sndUna := kcp.sndNxt }

/-- The loop of `ikcp_parse_ack`: `none` when no segment is deleted. -/
def ackRemove (sn : UInt32) : List IkcpSeg → Option (List IkcpSeg)
  | [] => none
  | seg :: next =>
      if sn = seg.sn then some next
      else if itimediff sn seg.sn < 0 then none
      else (ackRemove sn next).map (seg :: ·)

def ikcpParseAck (kcp : Ikcpcb) (sn : UInt32) : Ikcpcb :=
  if itimediff sn kcp.sndUna < 0 ∨ itimediff sn kcp.sndNxt ≥ 0 then kcp
  else
    match ackRemove sn kcp.sndBuf with
    | some sndBuf => { kcp with sndBuf := sndBuf, nsndBuf := kcp.nsndBuf - 1 }
    | none => kcp

/-- The loop of `ikcp_parse_una`: segments in front of `una` are deleted. -/
def unaRemove (una : UInt32) : List IkcpSeg → List IkcpSeg
  | [] => []
  | seg :: next => if itimediff una seg.sn > 0 then unaRemove una next else seg :: next

def ikcpParseUna (kcp : Ikcpcb) (una : UInt32) : Ikcpcb :=
  let sndBuf := unaRemove una kcp.sndBuf
  { kcp with
    sndBuf := sndBuf
    nsndBuf := kcp.nsndBuf - (kcp.sndBuf.length - sndBuf.length) }

/-- The loop of `ikcp_parse_fastack`, compiled with `IKCP_FASTACK_CONSERVE`. -/
def fastackMark (sn ts : UInt32) : List IkcpSeg → List IkcpSeg
  | [] => []
  | seg :: next =>
      if itimediff sn seg.sn < 0 then seg :: next
      else if sn ≠ seg.sn ∧ itimediff ts seg.ts ≥ 0 then
        { seg with fastack := seg.fastack + 1 } :: fastackMark sn ts next
      else seg :: fastackMark sn ts next

def ikcpParseFastack (kcp : Ikcpcb) (sn ts : UInt32) : Ikcpcb :=
  if itimediff sn kcp.sndUna < 0 ∨ itimediff sn kcp.sndNxt ≥ 0 then kcp
  else { kcp with sndBuf := fastackMark sn ts kcp.sndBuf }

def ikcpAckPush (kcp : Ikcpcb) (sn ts : UInt32) : Ikcpcb :=
  { kcp with acklist := kcp.acklist ++ [(sn, ts)] }

/-! ## The segment loop -/

/-- The control block and the locals of `ikcp_input` that outlive one turn. -/
structure InputSt where
  kcp : Ikcpcb
  flag : Bool := false
  maxack : UInt32 := 0
  latestTs : UInt32 := 0

/-- The PUSH branch. -/
def inputPush (kcp : Ikcpcb) (conv : UInt32) (head : SegHead) (payload : Bytes) : Ikcpcb :=
  if itimediff head.sn (kcp.rcvNxt + kcp.rcvWnd) < 0 then
    let kcp := ikcpAckPush kcp head.sn head.ts
    if itimediff head.sn kcp.rcvNxt ≥ 0 then
      ikcpParseData kcp
        { conv := conv, cmd := head.cmd.toUInt32, frg := head.frg.toUInt32,
          wnd := head.wnd.toUInt32, ts := head.ts, sn := head.sn, una := head.una,
          data := payload }
    else kcp
  else kcp

/-- One turn of the loop behind the checks. -/
def inputSeg (st : InputSt) (conv : UInt32) (head : SegHead) (payload : Bytes) : InputSt :=
  let kcp := { st.kcp with rmtWnd := head.wnd.toUInt32 }
  let kcp := ikcpShrinkBuf (ikcpParseUna kcp head.una)
  if head.cmd.toUInt32 = ikcpCmdAck then
    let kcp :=
      if itimediff kcp.current head.ts ≥ 0 then
        ikcpUpdateAck kcp (Int32.ofInt (itimediff kcp.current head.ts))
      else kcp
    let kcp := ikcpShrinkBuf (ikcpParseAck kcp head.sn)
    if st.flag = false then
      { kcp := kcp, flag := true, maxack := head.sn, latestTs := head.ts }
    else if itimediff head.ts st.latestTs > 0 then
      { st with kcp := kcp, maxack := head.sn, latestTs := head.ts }
    else { st with kcp := kcp }
  else if head.cmd.toUInt32 = ikcpCmdPush then
    { st with kcp := inputPush kcp conv head payload }
  else if head.cmd.toUInt32 = ikcpCmdWask then
    { st with kcp := { kcp with probe := kcp.probe ||| ikcpAskTell } }
  else { st with kcp := kcp }

/-- The commands `ikcp_input` accepts. -/
def cmdKnown (cmd : UInt32) : Bool :=
  cmd == ikcpCmdPush || cmd == ikcpCmdAck || cmd == ikcpCmdWask || cmd == ikcpCmdWins

/-- The loop of `ikcp_input`; the second component is 0 for `break` and the
return value for an error exit. Every turn consumes a header, so `data.length`
turns are more than enough. -/
def inputLoop : Nat → InputSt → Bytes → InputSt × Int
  | 0, st, _ => (st, 0)
  | fuel + 1, st, data =>
      if data.length < ikcpOverhead then (st, 0)
      else
        let (conv, data) := ikcpDecode32u data
        if conv ≠ st.kcp.conv then (st, -1)
        else
          let (head, data) := decodeHead data
          if data.length < head.len.toNat ∨ 2 ^ 31 ≤ head.len.toNat then (st, -2)
          else if cmdKnown head.cmd.toUInt32 = false then (st, -3)
          else
            inputLoop fuel (inputSeg st conv head (data.take head.len.toNat))
              (data.drop head.len.toNat)

/-- Slow start or congestion avoidance: the next `cwnd` and `incr`. -/
def nextCwnd (kcp : Ikcpcb) : UInt32 × UInt32 :=
  let mss := kcp.mss
  if kcp.cwnd < kcp.ssthresh then (kcp.cwnd + 1, kcp.incr + mss)
  else
    let incr := if kcp.incr < mss then mss else kcp.incr
    let incr := incr + (mss * mss / incr + mss / 16)
    if (kcp.cwnd + 1) * mss ≤ incr then
      ((incr + mss - 1) / (if mss > 0 then mss else 1), incr)
    else (kcp.cwnd, incr)

/-- The congestion window update at the end of `ikcp_input`. -/
def growCwnd (prevUna : UInt32) (kcp : Ikcpcb) : Ikcpcb :=
  if itimediff kcp.sndUna prevUna > 0 ∧ kcp.cwnd < kcp.rmtWnd then
    if (nextCwnd kcp).1 > kcp.rmtWnd then
      { kcp with cwnd := kcp.rmtWnd, incr := kcp.rmtWnd * kcp.mss }
    else { kcp with cwnd := (nextCwnd kcp).1, incr := (nextCwnd kcp).2 }
  else kcp

/-- What follows the loop. -/
def inputFinish (prevUna : UInt32) (st : InputSt) : Ikcpcb :=
  growCwnd prevUna
    (if st.flag then ikcpParseFastack st.kcp st.maxack st.latestTs else st.kcp)

/-- `ikcp_input`: the new block and the return value. -/
def ikcpInput (kcp : Ikcpcb) (data : Bytes) : Ikcpcb × Int :=
  if data.length < ikcpOverhead then (kcp, -1)
  else
    let (st, ret) := inputLoop data.length { kcp := kcp } data
    if ret ≠ 0 then (st.kcp, ret) else (inputFinish kcp.sndUna st, 0)

/-! ## Removal from the send buffer -/

/-- The part of a segment that retransmission repeats unchanged. -/
def IkcpSeg.core (seg : IkcpSeg) : IkcpSeg :=
  { conv := seg.conv, cmd := seg.cmd, frg := seg.frg, sn := seg.sn, data := seg.data }

@[simp] theorem IkcpSeg.core_sn (seg : IkcpSeg) : seg.core.sn = seg.sn := rfl

@[simp] theorem IkcpSeg.core_frag (seg : IkcpSeg) : seg.core.frag = seg.frag := rfl

theorem unaRemove_suffix (una : UInt32) (buf : List IkcpSeg) : unaRemove una buf <:+ buf := by
  induction buf with
  | nil => exact List.suffix_refl _
  | cons seg next ih =>
      rw [unaRemove]
      split
      · exact ih.trans (List.suffix_cons ..)
      · exact List.suffix_refl _

theorem mem_unaRemove {una : UInt32} {buf : List IkcpSeg} {seg : IkcpSeg} (h : seg ∈ buf) :
    seg ∈ unaRemove una buf ∨ itimediff una seg.sn > 0 := by
  induction buf with
  | nil => cases h
  | cons s next ih =>
      rw [unaRemove]
      split
      · rename_i hpos
        rcases List.mem_cons.mp h with rfl | h
        · exact Or.inr hpos
        · exact ih h
      · exact Or.inl h

theorem ackRemove_sublist {sn : UInt32} {buf buf' : List IkcpSeg}
    (h : ackRemove sn buf = some buf') : buf'.Sublist buf := by
  induction buf generalizing buf' with
  | nil => cases h
  | cons seg next ih =>
      rw [ackRemove] at h
      split at h
      · exact Option.some.inj h ▸ List.sublist_cons_self ..
      · split at h
        · cases h
        · obtain ⟨l, hl, rfl⟩ := Option.map_eq_some_iff.mp h
          exact (ih hl).cons_cons seg

theorem mem_ackRemove {sn : UInt32} {buf buf' : List IkcpSeg} {seg : IkcpSeg}
    (h : ackRemove sn buf = some buf') (hseg : seg ∈ buf) : seg ∈ buf' ∨ seg.sn = sn := by
  induction buf generalizing buf' with
  | nil => cases h
  | cons s next ih =>
      rw [ackRemove] at h
      split at h
      · rename_i heq
        obtain rfl := Option.some.inj h
        rcases List.mem_cons.mp hseg with rfl | hseg
        · exact Or.inr heq.symm
        · exact Or.inl hseg
      · split at h
        · cases h
        · obtain ⟨l, hl, rfl⟩ := Option.map_eq_some_iff.mp h
          rcases List.mem_cons.mp hseg with rfl | hseg
          · exact Or.inl (List.mem_cons_self ..)
          · exact (ih hl hseg).imp (List.mem_cons_of_mem _) id

theorem map_core_fastackMark (sn ts : UInt32) (buf : List IkcpSeg) :
    (fastackMark sn ts buf).map IkcpSeg.core = buf.map IkcpSeg.core := by
  induction buf with
  | nil => rfl
  | cons seg next ih =>
      rw [fastackMark]
      split
      · rfl
      · split
        · rw [List.map_cons, List.map_cons, ih]
          rfl
        · rw [List.map_cons, List.map_cons, ih]

/-! ## What each function leaves alone -/

theorem updateAck_frame (kcp : Ikcpcb) (rtt : Int32) :
    (ikcpUpdateAck kcp rtt).setup = kcp.setup ∧
      (ikcpUpdateAck kcp rtt).rcvSide = kcp.rcvSide ∧
      (ikcpUpdateAck kcp rtt).sndSide = kcp.sndSide ∧
      (ikcpUpdateAck kcp rtt).acklist = kcp.acklist := by
  unfold ikcpUpdateAck
  split <;> exact ⟨rfl, rfl, rfl, rfl⟩

theorem shrinkBuf_frame (kcp : Ikcpcb) :
    (ikcpShrinkBuf kcp).setup = kcp.setup ∧
      (ikcpShrinkBuf kcp).rcvSide = kcp.rcvSide ∧
      (ikcpShrinkBuf kcp).sndSide = kcp.sndSide ∧
      (ikcpShrinkBuf kcp).acklist = kcp.acklist := by
  unfold ikcpShrinkBuf
  split <;> exact ⟨rfl, rfl, rfl, rfl⟩

theorem parseAck_frame (kcp : Ikcpcb) (sn : UInt32) :
    (ikcpParseAck kcp sn).setup = kcp.setup ∧
      (ikcpParseAck kcp sn).rcvSide = kcp.rcvSide ∧
      (ikcpParseAck kcp sn).acklist = kcp.acklist := by
  unfold ikcpParseAck
  split
  · exact ⟨rfl, rfl, rfl⟩
  · split <;> exact ⟨rfl, rfl, rfl⟩

/-- The parts of the block that `inputSeg` and `inputFinish` only change on
the send buffer. -/
structure SndTrimmed (kcp kcp' : Ikcpcb) : Prop where
  setup : kcp'.setup = kcp.setup
  sndNxt : kcp'.sndNxt = kcp.sndNxt
  nsndQue : kcp'.nsndQue = kcp.nsndQue
  sndQueue : kcp'.sndQueue = kcp.sndQueue
  sndBuf : (kcp'.sndBuf.map IkcpSeg.core).Sublist (kcp.sndBuf.map IkcpSeg.core)

theorem SndTrimmed.refl (kcp : Ikcpcb) : SndTrimmed kcp kcp :=
  ⟨rfl, rfl, rfl, rfl, List.Sublist.refl _⟩

theorem SndTrimmed.trans {a b c : Ikcpcb} (h1 : SndTrimmed a b) (h2 : SndTrimmed b c) :
    SndTrimmed a c :=
  ⟨h2.setup.trans h1.setup, h2.sndNxt.trans h1.sndNxt, h2.nsndQue.trans h1.nsndQue,
    h2.sndQueue.trans h1.sndQueue, h2.sndBuf.trans h1.sndBuf⟩

theorem SndTrimmed.of_eq {kcp kcp' : Ikcpcb} (hsetup : kcp'.setup = kcp.setup)
    (hsnd : kcp'.sndSide = kcp.sndSide) : SndTrimmed kcp kcp' := by
  simp only [Ikcpcb.sndSide, SndSide.mk.injEq] at hsnd
  obtain ⟨h1, h2, h3, h4⟩ := hsnd
  exact ⟨hsetup, h1, h2, h3, by rw [h4]⟩

theorem moveRcvBuf_frame (kcp : Ikcpcb) :
    (moveRcvBuf kcp kcp.rcvBuf).setup = kcp.setup ∧
      (moveRcvBuf kcp kcp.rcvBuf).sndSide = kcp.sndSide ∧
      (moveRcvBuf kcp kcp.rcvBuf).acklist = kcp.acklist :=
  moveRcvBuf_induct
    (P := fun k => k.setup = kcp.setup ∧ k.sndSide = kcp.sndSide ∧ k.acklist = kcp.acklist)
    (fun _ _ _ _ _ _ h => h) ⟨rfl, rfl, rfl⟩

theorem recv_frame (kcp : Ikcpcb) {len : Int} (hlen : 0 ≤ len) :
    (ikcpRecv kcp len).1.setup = kcp.setup ∧ (ikcpRecv kcp len).1.sndSide = kcp.sndSide ∧
      (ikcpRecv kcp len).1.acklist = kcp.acklist := by
  rcases ikcpRecv_cases kcp hlen with ⟨err, -, heq, -⟩ | ⟨-, -, -, probe, heq⟩
  · rw [heq]
    exact ⟨rfl, rfl, rfl⟩
  · rw [heq]
    exact moveRcvBuf_frame (popRcv kcp)

theorem parseData_frame (kcp : Ikcpcb) (newseg : IkcpSeg) :
    (ikcpParseData kcp newseg).setup = kcp.setup ∧
      (ikcpParseData kcp newseg).sndSide = kcp.sndSide ∧
      (ikcpParseData kcp newseg).acklist = kcp.acklist := by
  unfold ikcpParseData
  split
  · exact ⟨rfl, rfl, rfl⟩
  · split
    · exact moveRcvBuf_frame { kcp with rcvBuf := _, nrcvBuf := kcp.nrcvBuf + 1 }
    · exact moveRcvBuf_frame kcp

theorem inputPush_frame (kcp : Ikcpcb) (conv : UInt32) (head : SegHead) (payload : Bytes) :
    (inputPush kcp conv head payload).setup = kcp.setup ∧
      (inputPush kcp conv head payload).sndSide = kcp.sndSide := by
  unfold inputPush
  split
  · simp only
    split
    · obtain ⟨h1, h2, -⟩ := parseData_frame (ikcpAckPush kcp head.sn head.ts)
        { conv := conv, cmd := head.cmd.toUInt32, frg := head.frg.toUInt32,
          wnd := head.wnd.toUInt32, ts := head.ts, sn := head.sn, una := head.una,
          data := payload }
      exact ⟨h1, h2⟩
    · exact ⟨rfl, rfl⟩
  · exact ⟨rfl, rfl⟩

theorem growCwnd_frame (prevUna : UInt32) (kcp : Ikcpcb) :
    ∃ cwnd incr, growCwnd prevUna kcp = { kcp with cwnd := cwnd, incr := incr } := by
  unfold growCwnd
  split
  · split <;> exact ⟨_, _, rfl⟩
  · exact ⟨_, _, rfl⟩

theorem inputFinish_frame (prevUna : UInt32) (st : InputSt) :
    SndTrimmed st.kcp (inputFinish prevUna st) ∧
      (inputFinish prevUna st).rcvSide = st.kcp.rcvSide ∧
      (inputFinish prevUna st).acklist = st.kcp.acklist ∧
      (inputFinish prevUna st).sndBuf.map IkcpSeg.core = st.kcp.sndBuf.map IkcpSeg.core := by
  obtain ⟨cwnd, incr, heq⟩ := growCwnd_frame prevUna
    (if st.flag then ikcpParseFastack st.kcp st.maxack st.latestTs else st.kcp)
  rw [inputFinish, heq]
  split
  · unfold ikcpParseFastack
    split
    · exact ⟨.of_eq rfl rfl, rfl, rfl, rfl⟩
    · have hcore := map_core_fastackMark st.maxack st.latestTs st.kcp.sndBuf
      exact ⟨⟨rfl, rfl, rfl, rfl, hcore ▸ List.Sublist.refl _⟩, rfl, rfl, hcore⟩
  · exact ⟨.of_eq rfl rfl, rfl, rfl, rfl⟩

/-! ## One segment -/

/-- The header gives a reason to drop segment `sn` from the send buffer. -/
def SegHead.Acks (head : SegHead) (sn : UInt32) : Prop :=
  itimediff head.una sn > 0 ∨ (head.cmd.toUInt32 = ikcpCmdAck ∧ head.sn = sn)

/-- The block behind `ikcp_parse_una` and `ikcp_shrink_buf`. -/
def inputUna (kcp : Ikcpcb) (head : SegHead) : Ikcpcb :=
  ikcpShrinkBuf (ikcpParseUna { kcp with rmtWnd := head.wnd.toUInt32 } head.una)

/-- The block behind the ACK branch. -/
def inputAck (kcp : Ikcpcb) (head : SegHead) : Ikcpcb :=
  ikcpShrinkBuf (ikcpParseAck
    (if itimediff kcp.current head.ts ≥ 0 then
      ikcpUpdateAck kcp (Int32.ofInt (itimediff kcp.current head.ts)) else kcp) head.sn)

/-- Everything one turn of the loop can do to the block. -/
theorem inputSeg_cases (st : InputSt) (conv : UInt32) (head : SegHead) (payload : Bytes) :
    (head.cmd.toUInt32 = ikcpCmdAck ∧
      (inputSeg st conv head payload).kcp = inputAck (inputUna st.kcp head) head) ∨
    (head.cmd.toUInt32 = ikcpCmdPush ∧
      (inputSeg st conv head payload).kcp
        = inputPush (inputUna st.kcp head) conv head payload) ∨
    (head.cmd.toUInt32 ≠ ikcpCmdAck ∧ head.cmd.toUInt32 ≠ ikcpCmdPush ∧ ∃ probe,
      (inputSeg st conv head payload).kcp
        = { inputUna st.kcp head with probe := probe }) := by
  unfold inputSeg
  by_cases hack : head.cmd.toUInt32 = ikcpCmdAck
  · refine Or.inl ⟨hack, ?_⟩
    simp only [if_pos hack]
    split
    · rfl
    · split <;> rfl
  · refine Or.inr ?_
    simp only [if_neg hack]
    by_cases hpush : head.cmd.toUInt32 = ikcpCmdPush
    · exact Or.inl ⟨hpush, by rw [if_pos hpush]; rfl⟩
    · refine Or.inr ⟨hack, hpush, ?_⟩
      rw [if_neg hpush]
      split
      · exact ⟨_, rfl⟩
      · exact ⟨_, rfl⟩

theorem inputUna_frame (kcp : Ikcpcb) (head : SegHead) :
    (inputUna kcp head).setup = kcp.setup ∧ (inputUna kcp head).rcvSide = kcp.rcvSide ∧
      (inputUna kcp head).acklist = kcp.acklist ∧
      (inputUna kcp head).sndSide = ⟨kcp.sndNxt, kcp.nsndQue, kcp.sndQueue,
        unaRemove head.una kcp.sndBuf⟩ := by
  obtain ⟨h1, h2, h3, h4⟩ :=
    shrinkBuf_frame (ikcpParseUna { kcp with rmtWnd := head.wnd.toUInt32 } head.una)
  exact ⟨h1, h2, h4, h3⟩

theorem inputAck_frame (kcp : Ikcpcb) (head : SegHead) :
    (inputAck kcp head).setup = kcp.setup ∧ (inputAck kcp head).rcvSide = kcp.rcvSide ∧
      (inputAck kcp head).acklist = kcp.acklist := by
  unfold inputAck
  obtain ⟨h1, h2, -, h3⟩ := shrinkBuf_frame (ikcpParseAck
    (if itimediff kcp.current head.ts ≥ 0 then
      ikcpUpdateAck kcp (Int32.ofInt (itimediff kcp.current head.ts)) else kcp) head.sn)
  obtain ⟨h4, h5, h6⟩ := parseAck_frame
    (if itimediff kcp.current head.ts ≥ 0 then
      ikcpUpdateAck kcp (Int32.ofInt (itimediff kcp.current head.ts)) else kcp) head.sn
  rw [h1, h2, h3, h4, h5, h6]
  split
  · obtain ⟨h7, h8, -, h9⟩ :=
      updateAck_frame kcp (Int32.ofInt (itimediff kcp.current head.ts))
    exact ⟨h7, h8, h9⟩
  · exact ⟨rfl, rfl, rfl⟩

theorem parseAck_sndBuf (kcp : Ikcpcb) (sn : UInt32) :
    SndTrimmed kcp (ikcpParseAck kcp sn) ∧
      ∀ seg ∈ kcp.sndBuf, seg ∈ (ikcpParseAck kcp sn).sndBuf ∨ seg.sn = sn := by
  unfold ikcpParseAck
  split
  · exact ⟨.refl _, fun seg h => Or.inl h⟩
  · split
    · rename_i buf hrem
      exact ⟨⟨rfl, rfl, rfl, rfl, (ackRemove_sublist hrem).map _⟩,
        fun seg h => mem_ackRemove hrem h⟩
    · exact ⟨.refl _, fun seg h => Or.inl h⟩

theorem inputAck_sndBuf (kcp : Ikcpcb) (head : SegHead) :
    SndTrimmed kcp (inputAck kcp head) ∧
      ∀ seg ∈ kcp.sndBuf, seg ∈ (inputAck kcp head).sndBuf ∨ seg.sn = head.sn := by
  unfold inputAck
  have hupd : ∀ k : Ikcpcb, k = (if itimediff kcp.current head.ts ≥ 0 then
      ikcpUpdateAck kcp (Int32.ofInt (itimediff kcp.current head.ts)) else kcp) →
      k.setup = kcp.setup ∧ k.sndSide = kcp.sndSide := by
    rintro k rfl
    split
    · obtain ⟨h1, -, h2, -⟩ :=
        updateAck_frame kcp (Int32.ofInt (itimediff kcp.current head.ts))
      exact ⟨h1, h2⟩
    · exact ⟨rfl, rfl⟩
  generalize hk : (if itimediff kcp.current head.ts ≥ 0 then
      ikcpUpdateAck kcp (Int32.ofInt (itimediff kcp.current head.ts)) else kcp) = k
  obtain ⟨hsetup, hsnd⟩ := hupd k hk.symm
  obtain ⟨htrim, hmem⟩ := parseAck_sndBuf k head.sn
  obtain ⟨hs1, -, hs2, -⟩ := shrinkBuf_frame (ikcpParseAck k head.sn)
  have hbuf : k.sndBuf = kcp.sndBuf := congrArg SndSide.sndBuf hsnd
  have hbuf' : (ikcpShrinkBuf (ikcpParseAck k head.sn)).sndBuf
      = (ikcpParseAck k head.sn).sndBuf := congrArg SndSide.sndBuf hs2
  refine ⟨((SndTrimmed.of_eq hsetup hsnd).trans htrim).trans (.of_eq hs1 hs2),
    ?_⟩
  intro seg hseg
  rw [hbuf']
  exact hmem seg (hbuf ▸ hseg)

/-- One turn only deletes from the send buffer what its header acknowledges. -/
theorem inputSeg_sndBuf (st : InputSt) (conv : UInt32) (head : SegHead) (payload : Bytes) :
    SndTrimmed st.kcp (inputSeg st conv head payload).kcp ∧
      ∀ seg ∈ st.kcp.sndBuf,
        seg ∈ (inputSeg st conv head payload).kcp.sndBuf ∨ head.Acks seg.sn := by
  obtain ⟨hsetup, -, -, hside⟩ := inputUna_frame st.kcp head
  simp only [Ikcpcb.sndSide, SndSide.mk.injEq] at hside
  obtain ⟨hnxt, hnq, hq, hbuf⟩ := hside
  have huna : SndTrimmed st.kcp (inputUna st.kcp head) :=
    ⟨hsetup, hnxt, hnq, hq, by rw [hbuf]; exact (unaRemove_suffix _ _).sublist.map _⟩
  have hmem : ∀ seg ∈ st.kcp.sndBuf,
      seg ∈ (inputUna st.kcp head).sndBuf ∨ head.Acks seg.sn := fun seg hseg => by
    rw [hbuf]
    exact (mem_unaRemove hseg).imp id Or.inl
  rcases inputSeg_cases st conv head payload with ⟨hcmd, heq⟩ | ⟨-, heq⟩ | ⟨-, -, probe, heq⟩
  · rw [heq]
    obtain ⟨htrim, hack⟩ := inputAck_sndBuf (inputUna st.kcp head) head
    refine ⟨huna.trans htrim, ?_⟩
    intro seg hseg
    rcases hmem seg hseg with h | h
    · exact (hack seg h).imp id fun hsn => Or.inr ⟨hcmd, hsn.symm⟩
    · exact Or.inr h
  · rw [heq]
    obtain ⟨h1, h2⟩ := inputPush_frame (inputUna st.kcp head) conv head payload
    refine ⟨huna.trans (.of_eq h1 h2), ?_⟩
    intro seg hseg
    rw [show (inputPush _ conv head payload).sndBuf = _ from congrArg SndSide.sndBuf h2]
    exact hmem seg hseg
  · rw [heq]
    exact ⟨huna.trans (.of_eq rfl rfl), hmem⟩

/-- One turn touches the receive side and the list of acknowledgements to send
only in a PUSH segment. -/
theorem inputSeg_rcv (st : InputSt) (conv : UInt32) (head : SegHead) (payload : Bytes) :
    (head.cmd.toUInt32 = ikcpCmdPush ∧ ∃ kcp, kcp.setup = st.kcp.setup ∧
      kcp.rcvSide = st.kcp.rcvSide ∧ kcp.acklist = st.kcp.acklist ∧
      (inputSeg st conv head payload).kcp = inputPush kcp conv head payload) ∨
    (head.cmd.toUInt32 ≠ ikcpCmdPush ∧
      (inputSeg st conv head payload).kcp.rcvSide = st.kcp.rcvSide ∧
      (inputSeg st conv head payload).kcp.acklist = st.kcp.acklist) := by
  obtain ⟨h1, h2, h3, -⟩ := inputUna_frame st.kcp head
  rcases inputSeg_cases st conv head payload with ⟨hcmd, heq⟩ | ⟨hcmd, heq⟩ | ⟨-, hcmd, probe, heq⟩
  · obtain ⟨-, h5, h6⟩ := inputAck_frame (inputUna st.kcp head) head
    refine Or.inr ⟨?_, ?_, ?_⟩
    · rw [hcmd]
      decide
    · rw [heq, h5, h2]
    · rw [heq, h6, h3]
  · exact Or.inl ⟨hcmd, _, h1, h2, h3, heq⟩
  · refine Or.inr ⟨hcmd, ?_, ?_⟩
    · rw [heq]
      exact h2
    · rw [heq]
      exact h3

theorem inputPush_acklist (kcp : Ikcpcb) (conv : UInt32) (head : SegHead) (payload : Bytes) :
    (inputPush kcp conv head payload).acklist = kcp.acklist ∨
    ((inputPush kcp conv head payload).acklist = kcp.acklist ++ [(head.sn, head.ts)] ∧
      itimediff head.sn (kcp.rcvNxt + kcp.rcvWnd) < 0) := by
  unfold inputPush
  split
  · rename_i hwin
    refine Or.inr ⟨?_, hwin⟩
    simp only
    split
    · exact (parseData_frame (ikcpAckPush kcp head.sn head.ts) _).2.2
    · rfl
  · exact Or.inl rfl

/-- Only a data segment that is not beyond the window is acknowledged. -/
theorem inputSeg_acklist (st : InputSt) (conv : UInt32) (head : SegHead) (payload : Bytes) :
    ∀ ack ∈ (inputSeg st conv head payload).kcp.acklist, ack ∈ st.kcp.acklist ∨
      (head.cmd.toUInt32 = ikcpCmdPush ∧ ack.1 = head.sn ∧
        itimediff head.sn (st.kcp.rcvNxt + st.kcp.rcvWnd) < 0) := by
  intro ack hack
  rcases inputSeg_rcv st conv head payload with ⟨hcmd, k, -, hside, hk, heq⟩ | ⟨-, -, hk⟩
  · simp only [Ikcpcb.rcvSide, RcvSide.mk.injEq] at hside
    obtain ⟨hnxt, hwnd, -⟩ := hside
    rw [heq] at hack
    rcases inputPush_acklist k conv head payload with hsame | ⟨hnew, hwin⟩
    · exact Or.inl (hk ▸ hsame ▸ hack)
    · rw [hnew, hk, List.mem_append, List.mem_singleton] at hack
      exact hack.imp id fun h => ⟨hcmd, congrArg Prod.fst h, hnxt ▸ hwnd ▸ hwin⟩
  · exact Or.inl (hk ▸ hack)

/-! ## Whole datagrams -/

/-- A property of the block that every accepted segment keeps is kept by every
datagram, whatever its bytes and wherever it is rejected. -/
theorem ikcpInput_induct {P : Ikcpcb → Prop}
    (hseg : ∀ st conv head payload, P st.kcp → P (inputSeg st conv head payload).kcp)
    (hfinish : ∀ prevUna st, P st.kcp → P (inputFinish prevUna st))
    {kcp : Ikcpcb} (h : P kcp) (data : Bytes) : P (ikcpInput kcp data).1 := by
  have hloop : ∀ (fuel : Nat) (st : InputSt) (data : Bytes), P st.kcp →
      P (inputLoop fuel st data).1.kcp := by
    intro fuel
    induction fuel with
    | zero => exact fun st data hP => hP
    | succ fuel ih =>
        intro st data hP
        rw [inputLoop]
        split
        · exact hP
        · simp only
          split
          · exact hP
          · split
            · exact hP
            · split
              · exact hP
              · exact ih _ _ (hseg _ _ _ _ hP)
  unfold ikcpInput
  split
  · exact h
  · simp only
    have hst := hloop data.length { kcp := kcp } data h
    split
    · exact hst
    · exact hfinish _ _ hst

/-- A segment this loop accepts, as it is sent in conversation `conv`. -/
structure IkcpSeg.Sendable (conv : UInt32) (seg : IkcpSeg) : Prop where
  wire : seg.WireOk
  conv : seg.conv = conv
  cmd : cmdKnown seg.cmd = true

theorem setup_inputSeg (st : InputSt) (conv : UInt32) (head : SegHead) (payload : Bytes) :
    (inputSeg st conv head payload).kcp.setup = st.kcp.setup :=
  (inputSeg_sndBuf st conv head payload).1.setup

theorem setup_input (kcp : Ikcpcb) (data : Bytes) :
    (ikcpInput kcp data).1.setup = kcp.setup :=
  ikcpInput_induct (P := fun k => k.setup = kcp.setup)
    (fun st conv head payload h => (setup_inputSeg st conv head payload).trans h)
    (fun prevUna st h => (inputFinish_frame prevUna st).1.setup.trans h) rfl data

theorem inputLoop_datagram {segs : List IkcpSeg} :
    ∀ {st : InputSt} {fuel : Nat}, (∀ seg ∈ segs, seg.Sendable st.kcp.conv) →
      segs.length < fuel →
      inputLoop fuel st (datagram segs)
        = (segs.foldl (fun st seg => inputSeg st seg.conv seg.head seg.data) st, 0) := by
  induction segs with
  | nil =>
      intro st fuel _ hfuel
      obtain ⟨n, rfl⟩ := Nat.exists_eq_succ_of_ne_zero (Nat.ne_of_gt hfuel)
      rfl
  | cons seg segs ih =>
      intro st fuel hsegs hfuel
      obtain ⟨n, rfl⟩ := Nat.exists_eq_succ_of_ne_zero (Nat.ne_of_gt (Nat.zero_lt_of_lt hfuel))
      have hseg := hsegs seg (List.mem_cons_self ..)
      have hconv : (inputSeg st seg.conv seg.head seg.data).kcp.conv = st.kcp.conv :=
        congrArg Setup.conv (setup_inputSeg st seg.conv seg.head seg.data)
      obtain ⟨hdec1, hdec2⟩ := decode_segBytes seg (datagram segs)
      have hlen := hseg.wire.head_len
      rw [datagram_cons, inputLoop, if_neg (by rw [List.length_append, length_segBytes]; omega)]
      simp only [hdec1, hdec2]
      rw [if_neg (by simp [hseg.conv]), if_neg ?_, if_neg ?_, hlen, IkcpSeg.len,
        List.take_left, List.drop_left, List.foldl_cons]
      · refine ih (?_) (Nat.lt_of_succ_lt_succ hfuel)
        intro s hs
        rw [hconv]
        exact hsegs s (List.mem_cons_of_mem _ hs)
      · rw [hseg.wire.head_cmd, hseg.cmd]
        decide
      · have := hseg.wire.len
        rw [hlen, List.length_append, IkcpSeg.len]
        rw [IkcpSeg.len] at this
        omega

theorem length_datagram_ge (segs : List IkcpSeg) :
    ikcpOverhead * segs.length ≤ (datagram segs).length := by
  induction segs with
  | nil => simp
  | cons seg segs ih =>
      rw [datagram_cons, List.length_append, length_segBytes, List.length_cons, Nat.mul_succ]
      omega

theorem ikcpInput_datagram {kcp : Ikcpcb} {segs : List IkcpSeg} (hne : segs ≠ [])
    (hsegs : ∀ seg ∈ segs, seg.Sendable kcp.conv) :
    ikcpInput kcp (datagram segs) =
      (inputFinish kcp.sndUna (segs.foldl
        (fun st seg => inputSeg st seg.conv seg.head seg.data) { kcp := kcp }), 0) := by
  have hlen : 24 * segs.length ≤ (datagram segs).length := length_datagram_ge segs
  have hpos := List.length_pos_iff.mpr hne
  have hover : ikcpOverhead = 24 := rfl
  unfold ikcpInput
  rw [if_neg (by omega), inputLoop_datagram hsegs (by omega)]
  rfl

/-- Induction over the segments of a datagram. -/
theorem ikcpInput_datagram_induct {P : Ikcpcb → Prop} {kcp : Ikcpcb} {segs : List IkcpSeg}
    (hsegs : ∀ seg ∈ segs, seg.Sendable kcp.conv)
    (hseg : ∀ st : InputSt, ∀ seg ∈ segs, P st.kcp →
      P (inputSeg st seg.conv seg.head seg.data).kcp)
    (hfinish : ∀ prevUna st, P st.kcp → P (inputFinish prevUna st)) (h : P kcp) :
    P (ikcpInput kcp (datagram segs)).1 := by
  by_cases hne : segs = []
  · subst hne
    exact h
  · rw [ikcpInput_datagram hne hsegs]
    refine hfinish _ _ ?_
    have hfold : ∀ (l : List IkcpSeg) (st : InputSt), (∀ seg ∈ l, seg ∈ segs) → P st.kcp →
        P (l.foldl (fun st seg => inputSeg st seg.conv seg.head seg.data) st).kcp := by
      intro l
      induction l with
      | nil => exact fun st _ hP => hP
      | cons seg l ih =>
          intro st hl hP
          exact ih _ (fun s hs => hl s (List.mem_cons_of_mem _ hs))
            (hseg st seg (hl seg (List.mem_cons_self ..)) hP)
    exact hfold segs _ (fun _ hs => hs) h

end CppDemos
