import CppDemos.Kcp.Flush
import CppDemos.Kcp.Track
import CppDemos.Wrapper.Init

/-!
# KCPWrapper::send, update and handleReceive

The three entry points a wrapper is driven by. The kernel's side of `recvfrom`
is a list of results: datagrams and transient errors, after which the socket
would block and the loop ends. What a call hands to `udp_output` and to
`data_callback_` is part of its result.

The inner loop of `handleReceive` runs until `ikcp_recv` fails. It is given as
many turns as there are segments to take, and `drain_done` shows that this is
always enough, so the loop of the source ends and the model follows it to its
end. `drain_advances` and `handleReceive_advances` say what the loops do to a
receiving block: they hand over the tracked messages one after the other, each
once, and stop at the first that is incomplete or too large for the buffer.
-/

namespace CppDemos

/-! ## Definitions -/

def bufferSize : Nat := 65535

/-- `KCPWrapper::send`. The length is narrowed to `int` on the way to
`ikcp_send`; `data` is `none` for a null pointer. `kcp_` is set whenever
`initialized_` is. -/
def KCPWrapper.send (w : KCPWrapper) (data : Option Bytes) (len : UInt64) : KCPWrapper × Bool :=
  if w.initialized = false ∨ data = none ∨ len = 0 then (w, false)
  else
    match w.kcp, data with
    | some kcp, some data =>
        let (kcp, ret) := ikcpSend kcp data len.toUInt32.toInt32.toInt
        ({ w with kcp := some kcp }, ret ≥ 0)
    | _, _ => (w, false)

/-- What one `recvfrom` returns before the socket would block. -/
inductive RecvResult where
  | datagram (data : Bytes)
  | failed
deriving DecidableEq, Repr

/-- The inner loop of `handleReceive`: messages are taken until `ikcp_recv`
fails. -/
def drain : Nat → Ikcpcb → Ikcpcb × List Bytes
  | 0, kcp => (kcp, [])
  | fuel + 1, kcp =>
      let (kcp, kcpRecvLen, buffer) := ikcpRecv kcp bufferSize
      if kcpRecvLen < 0 then (kcp, [])
      else
        let (kcp, messages) := drain fuel kcp
        (kcp, buffer :: messages)

/-- Turns enough for the inner loop. -/
def drainFuel (kcp : Ikcpcb) : Nat := kcp.rcvQueue.length + kcp.rcvBuf.length + 1

/-- One datagram: `ikcp_input` and the inner loop. -/
def receiveDatagram (kcp : Ikcpcb) (data : Bytes) : Ikcpcb × List Bytes :=
  let kcp := (ikcpInput kcp (data.take bufferSize)).1
  drain (drainFuel kcp) kcp

/-- `handleReceive` on the block: the new block and the messages taken. -/
def handleReceive (kcp : Ikcpcb) : List RecvResult → Ikcpcb × List Bytes
  | [] => (kcp, [])
  | .failed :: results => handleReceive kcp results
  | .datagram data :: results =>
      let (kcp, messages) := receiveDatagram kcp data
      let (kcp, more) := handleReceive kcp results
      (kcp, messages ++ more)

/-- `KCPWrapper::update`: the new wrapper, the datagrams passed to `udp_output`
and the messages passed to `data_callback_`. -/
def KCPWrapper.update (w : KCPWrapper) (iclock : UInt32) (results : List RecvResult) :
    KCPWrapper × List Bytes × List Bytes :=
  if w.initialized = false then (w, [], [])
  else
    match w.kcp with
    | none => (w, [], [])
    | some kcp =>
        let (kcp, sent) := ikcpUpdate kcp iclock
        let (kcp, messages) := handleReceive kcp results
        ({ w with kcp := some kcp }, sent, if w.dataCallback then messages else [])

/-! ## The inner loop ends -/

/-- `ikcp_recv` has nothing more to hand over. -/
def Drained (kcp : Ikcpcb) : Prop := (ikcpRecv kcp bufferSize).2.1 < 0

theorem moveRcvBuf_length (kcp : Ikcpcb) :
    (moveRcvBuf kcp kcp.rcvBuf).rcvQueue.length + (moveRcvBuf kcp kcp.rcvBuf).rcvBuf.length
      = kcp.rcvQueue.length + kcp.rcvBuf.length := by
  refine moveRcvBuf_induct (P := fun k => k.rcvQueue.length + k.rcvBuf.length
    = kcp.rcvQueue.length + kcp.rcvBuf.length) (?_) rfl
  intro k seg rest hbuf _ _ hP
  rw [← hP, hbuf]
  simp [shiftRcv]
  omega

theorem recv_length_lt {kcp : Ikcpcb} (h : ¬ (ikcpRecv kcp bufferSize).2.1 < 0) :
    (ikcpRecv kcp bufferSize).1.rcvQueue.length + (ikcpRecv kcp bufferSize).1.rcvBuf.length
      < kcp.rcvQueue.length + kcp.rcvBuf.length := by
  rcases ikcpRecv_cases kcp (Int.natCast_nonneg bufferSize) with
    ⟨err, herr, heq, -⟩ | ⟨hne, -, -, probe, heq⟩
  · rw [heq] at h
    exact absurd herr h
  · have hpop : (popRcv kcp).rcvQueue.length < kcp.rcvQueue.length :=
      mergeFragment_length_lt hne
    have hmove := moveRcvBuf_length (popRcv kcp)
    rw [show (popRcv kcp).rcvBuf = kcp.rcvBuf from rfl] at hmove
    rw [heq]
    simp only
    omega

theorem drain_succ (fuel : Nat) (kcp : Ikcpcb) :
    drain (fuel + 1) kcp =
      if (ikcpRecv kcp bufferSize).2.1 < 0 then ((ikcpRecv kcp bufferSize).1, [])
      else ((drain fuel (ikcpRecv kcp bufferSize).1).1,
        (ikcpRecv kcp bufferSize).2.2 :: (drain fuel (ikcpRecv kcp bufferSize).1).2) := rfl

theorem recv_refused {kcp : Ikcpcb} (h : (ikcpRecv kcp bufferSize).2.1 < 0) :
    (ikcpRecv kcp bufferSize).1 = kcp := by
  rcases ikcpRecv_cases kcp (Int.natCast_nonneg bufferSize) with
    ⟨err, herr, heq, -⟩ | ⟨-, hpeek, -, probe, heq⟩
  · rw [heq]
  · rw [heq] at h
    exact absurd hpeek (Int.not_le.mpr h)

theorem drain_done :
    ∀ {fuel : Nat} {kcp : Ikcpcb}, kcp.rcvQueue.length + kcp.rcvBuf.length < fuel →
      Drained (drain fuel kcp).1
  | 0, _, h => absurd h (Nat.not_lt_zero _)
  | fuel + 1, kcp, h => by
      rw [drain_succ]
      split
      · rename_i hneg
        rw [recv_refused hneg]
        exact hneg
      · rename_i hpos
        have hlt := recv_length_lt hpos
        exact drain_done (by omega)

theorem drain_drained (kcp : Ikcpcb) : Drained (drain (drainFuel kcp) kcp).1 :=
  drain_done (Nat.lt_succ_self _)

theorem drain_length_le {fuel : Nat} {kcp : Ikcpcb} :
    ∀ m ∈ (drain fuel kcp).2, m.length ≤ bufferSize := by
  induction fuel generalizing kcp with
  | zero => exact fun m hm => nomatch hm
  | succ fuel ih =>
      intro m hm
      rw [drain_succ] at hm
      split at hm
      · cases hm
      · rename_i hpos
        rcases List.mem_cons.mp hm with rfl | hm
        · rcases ikcpRecv_cases kcp (Int.natCast_nonneg bufferSize) with
            ⟨err, herr, heq, -⟩ | ⟨-, hpeek, hle, probe, heq⟩
          · rw [heq] at hpos
            exact absurd herr hpos
          · rw [ikcpPeeksize_of_nonneg hpeek] at hle
            rw [heq]
            exact Int.ofNat_le.mp hle
        · exact ih m hm

theorem handleReceive_datagram (kcp : Ikcpcb) (data : Bytes) (results : List RecvResult) :
    handleReceive kcp (.datagram data :: results) =
      ((handleReceive (receiveDatagram kcp data).1 results).1, (receiveDatagram kcp data).2 ++
        (handleReceive (receiveDatagram kcp data).1 results).2) := rfl

theorem handleReceive_length_le :
    ∀ (results : List RecvResult) {kcp : Ikcpcb},
      ∀ m ∈ (handleReceive kcp results).2, m.length ≤ bufferSize
  | [], _, m, hm => nomatch hm
  | .failed :: results, _, m, hm => handleReceive_length_le results m hm
  | .datagram data :: results, kcp, m, hm => by
      rw [handleReceive_datagram] at hm
      rcases List.mem_append.mp hm with hm | hm
      · exact drain_length_le m hm
      · exact handleReceive_length_le results m hm

/-! ## What a receiving block hands over -/

section Advances

variable {mss : Nat} {base : UInt32} {kcp kcp' kcp'' : Ikcpcb}

/-- From collecting `taken ++ rest` to collecting `rest`, with nothing accepted
given up and nothing acknowledged that was not accepted. -/
structure Advances (mss : Nat) (base : UInt32) (taken rest : List Bytes)
    (kcp kcp' : Ikcpcb) : Prop where
  setup : kcp'.setup = kcp.setup
  receiving : Receiving mss (base + UInt32.ofNat (span mss taken)) rest kcp'
  has : ∀ sn, Has mss base (taken ++ rest) kcp sn →
    Has mss (base + UInt32.ofNat (span mss taken)) rest kcp' sn
  acks : AcksNew mss (base + UInt32.ofNat (span mss taken)) rest kcp kcp'

theorem Advances.refl {msgs : List Bytes} (h : Receiving mss base msgs kcp) :
    Advances mss base [] msgs kcp kcp := by
  have hbase : base + UInt32.ofNat (span mss []) = base := UInt32.add_zero base
  exact ⟨rfl, by rwa [hbase], fun sn h => by rwa [hbase], fun ack hack => Or.inl hack⟩

theorem Advances.trans {taken more rest : List Bytes}
    (h : Advances mss base taken (more ++ rest) kcp kcp')
    (h' : Advances mss (base + UInt32.ofNat (span mss taken)) more rest kcp' kcp'') :
    Advances mss base (taken ++ more) rest kcp kcp'' := by
  have hbase : base + UInt32.ofNat (span mss (taken ++ more))
      = base + UInt32.ofNat (span mss taken) + UInt32.ofNat (span mss more) := by
    rw [span, Fragment.stream_append, List.length_append, UInt32.ofNat_add, UInt32.add_assoc]
    rfl
  refine ⟨h'.setup.trans h.setup, ?_, ?_, ?_⟩
  · rw [hbase]
    exact h'.receiving
  · intro sn hsn
    rw [hbase]
    exact h'.has sn (h.has sn (by rwa [List.append_assoc] at hsn))
  · intro ack hack
    rw [hbase]
    rcases h'.acks ack hack with hold | hnew
    · exact (h.acks ack hold).imp id (h'.has _)
    · exact Or.inr hnew

theorem recv_advances {msgs : List Bytes} (hmss : 0 < mss) (h : Receiving mss base msgs kcp)
    (hfit : ∀ m ∈ msgs, Fragment.count mss m.length < ikcpWndRcv.toNat)
    (hspan : span mss msgs ≤ 2 ^ 31) (hpos : ¬ (ikcpRecv kcp bufferSize).2.1 < 0) :
    ∃ m rest, msgs = m :: rest ∧ (ikcpRecv kcp bufferSize).2.2 = m ∧
      Advances mss base [m] rest kcp (ikcpRecv kcp bufferSize).1 := by
  obtain ⟨hsetup, -, hack⟩ := recv_frame kcp (Int.natCast_nonneg bufferSize)
  rcases h.recv hmss hfit (Int.natCast_nonneg bufferSize) with
    ⟨err, herr, heq, -⟩ | ⟨m, rest, rfl, k, heq, -, hrec, hkeep⟩
  · rw [heq] at hpos
    exact absurd herr hpos
  · rw [heq] at hsetup hack ⊢
    rw [← span_singleton] at hrec hkeep
    exact ⟨m, rest, rfl, rfl, hsetup, hrec, fun sn hsn => hsn.advance hspan hkeep,
      fun ack hmem => Or.inl (hack ▸ hmem)⟩

theorem drain_advances (hmss : 0 < mss) :
    ∀ (fuel : Nat) {base : UInt32} {msgs : List Bytes} {kcp : Ikcpcb},
      Receiving mss base msgs kcp →
      (∀ m ∈ msgs, Fragment.count mss m.length < ikcpWndRcv.toNat) → span mss msgs ≤ 2 ^ 31 →
      ∃ rest, msgs = (drain fuel kcp).2 ++ rest ∧
        Advances mss base (drain fuel kcp).2 rest kcp (drain fuel kcp).1
  | 0, _, msgs, _, h, _, _ => ⟨msgs, rfl, .refl h⟩
  | fuel + 1, base, msgs, kcp, h, hfit, hspan => by
      rw [drain_succ]
      split
      · rename_i hneg
        rw [recv_refused hneg]
        exact ⟨msgs, rfl, .refl h⟩
      · rename_i hpos
        obtain ⟨m, rest, rfl, hm, hone⟩ := recv_advances hmss h hfit hspan hpos
        rw [← List.singleton_append, span_append] at hspan
        obtain ⟨rest', hrest, hmore⟩ := drain_advances hmss fuel hone.receiving
          (fun m' hm' => hfit m' (List.mem_cons_of_mem _ hm')) (by omega)
        rw [hm]
        refine ⟨rest', by rw [List.cons_append, ← hrest], ?_⟩
        rw [hrest] at hone
        exact hone.trans hmore

/-- `data` is made of these segments of the conversation, whose numbers stand
for fragments of `msgs` or lie behind `base`. -/
structure GenuineSegs (mss : Nat) (conv base : UInt32) (msgs : List Bytes) (data : Bytes)
    (segs : List IkcpSeg) : Prop where
  eq : data = datagram segs
  fits : data.length ≤ bufferSize
  sendable : ∀ seg ∈ segs, seg.Sendable conv
  genuine : ∀ seg ∈ segs, seg.GenuineIn mss base msgs

def GenuineDatagram (mss : Nat) (conv base : UInt32) (msgs : List Bytes) (data : Bytes) :
    Prop := ∃ segs, GenuineSegs mss conv base msgs data segs

/-- The datagram carries data segment `sn`. -/
def Carries (mss : Nat) (conv base : UInt32) (msgs : List Bytes) (data : Bytes)
    (sn : UInt32) : Prop :=
  ∃ segs, GenuineSegs mss conv base msgs data segs ∧
    ∃ seg ∈ segs, seg.cmd = ikcpCmdPush ∧ seg.sn = sn

theorem GenuineSegs.advance {conv : UInt32} {taken rest : List Bytes} {data : Bytes}
    {segs : List IkcpSeg} (hspan : span mss (taken ++ rest) ≤ 2 ^ 31)
    (h : GenuineSegs mss conv base (taken ++ rest) data segs) :
    GenuineSegs mss conv (base + UInt32.ofNat (span mss taken)) rest data segs :=
  ⟨h.eq, h.fits, h.sendable, fun seg hseg hcmd => (h.genuine seg hseg hcmd).advance hspan⟩

theorem input_advances {conv : UInt32} {msgs : List Bytes} {data : Bytes}
    {segs : List IkcpSeg} (h : Receiving mss base msgs kcp) (hspan : span mss msgs ≤ 2 ^ 31)
    (hconv : kcp.conv = conv) (hdata : GenuineSegs mss conv base msgs data segs) :
    Advances mss base [] msgs kcp (ikcpInput kcp (data.take bufferSize)).1 ∧
      ∀ seg ∈ segs, seg.cmd = ikcpCmdPush → snOffset base seg.sn < ikcpWndRcv.toNat →
        Has mss base msgs (ikcpInput kcp (data.take bufferSize)).1 seg.sn := by
  rw [List.take_of_length_le hdata.fits, hdata.eq]
  obtain ⟨hrec, hhas, hacks⟩ :=
    h.input hspan (hconv.symm ▸ hdata.sendable) hdata.genuine
  have hbase : base + UInt32.ofNat (span mss []) = base := UInt32.add_zero base
  refine ⟨⟨setup_input kcp _, ?_, ?_, ?_⟩, ?_⟩
  · rw [hbase]
    exact hrec
  · intro sn hsn
    rw [hbase]
    exact hhas sn (Or.inl hsn)
  · rw [hbase]
    exact hacks
  · intro seg hseg hcmd hlt
    exact hhas seg.sn (Or.inr ⟨hlt, seg, hseg, hcmd, rfl⟩)

/-- One datagram: some of the tracked messages are handed over, and every
segment carried that is less than a window ahead is accepted. -/
theorem receiveDatagram_advances {conv : UInt32} {msgs : List Bytes} {data : Bytes}
    (hmss : 0 < mss) (h : Receiving mss base msgs kcp)
    (hfit : ∀ m ∈ msgs, Fragment.count mss m.length < ikcpWndRcv.toNat)
    (hspan : span mss msgs ≤ 2 ^ 31) (hconv : kcp.conv = conv)
    (hdata : GenuineDatagram mss conv base msgs data) :
    ∃ rest, msgs = (receiveDatagram kcp data).2 ++ rest ∧
      Advances mss base (receiveDatagram kcp data).2 rest kcp (receiveDatagram kcp data).1 ∧
      ∀ sn, Carries mss conv base msgs data sn → snOffset base sn < ikcpWndRcv.toNat →
        Has mss (base + UInt32.ofNat (span mss (receiveDatagram kcp data).2)) rest
          (receiveDatagram kcp data).1 sn := by
  have hbase : base + UInt32.ofNat (span mss []) = base := UInt32.add_zero base
  obtain ⟨segs, hsegs⟩ := hdata
  obtain ⟨hinput, -⟩ := input_advances h hspan hconv hsegs
  have hrec := hinput.receiving
  rw [hbase] at hrec
  obtain ⟨rest, hrest, hdrain⟩ :=
    drain_advances hmss (drainFuel (ikcpInput kcp (data.take bufferSize)).1) hrec hfit hspan
  refine ⟨rest, hrest, ?_, ?_⟩
  · rw [hrest] at hinput
    exact hinput.trans (by rwa [hbase])
  · intro sn hsn hlt
    obtain ⟨segs', hsegs', seg, hseg, hcmd, rfl⟩ := hsn
    have hhas := (input_advances h hspan hconv hsegs').2 seg hseg hcmd hlt
    rw [hrest] at hhas
    exact hdrain.has _ hhas

theorem handleReceive_advances {conv : UInt32} (hmss : 0 < mss) :
    ∀ (results : List RecvResult) {base : UInt32} {msgs : List Bytes} {kcp : Ikcpcb},
      Receiving mss base msgs kcp →
      (∀ m ∈ msgs, Fragment.count mss m.length < ikcpWndRcv.toNat) → span mss msgs ≤ 2 ^ 31 →
      kcp.conv = conv →
      (∀ data, .datagram data ∈ results → GenuineDatagram mss conv base msgs data) →
      ∃ rest, msgs = (handleReceive kcp results).2 ++ rest ∧
        Advances mss base (handleReceive kcp results).2 rest kcp
          (handleReceive kcp results).1 ∧
        ∀ sn data, .datagram data ∈ results → Carries mss conv base msgs data sn →
          snOffset base sn < ikcpWndRcv.toNat →
          Has mss (base + UInt32.ofNat (span mss (handleReceive kcp results).2)) rest
            (handleReceive kcp results).1 sn
  | [], base, msgs, kcp, h, _, _, _, _ => ⟨msgs, rfl, .refl h, by simp⟩
  | .failed :: results, base, msgs, kcp, h, hfit, hspan, hconv, hdata => by
      obtain ⟨rest, hrest, hadv, hhas⟩ := handleReceive_advances hmss results h hfit
        hspan hconv fun data hmem => hdata data (List.mem_cons_of_mem _ hmem)
      refine ⟨rest, hrest, hadv, fun sn data hmem => hhas sn data ?_⟩
      rcases List.mem_cons.mp hmem with hfail | hmem
      · cases hfail
      · exact hmem
  | .datagram data :: results, base, msgs, kcp, h, hfit, hspan, hconv, hdata => by
      obtain ⟨rest, hrest, hone, hnew⟩ := receiveDatagram_advances hmss h hfit hspan hconv
        (hdata data (List.mem_cons_self ..))
      rw [handleReceive_datagram]
      rw [hrest] at hspan hdata
      have hspan' := hspan
      rw [span_append] at hspan'
      obtain ⟨rest', hrest', hmore, hnew'⟩ := handleReceive_advances hmss
        results hone.receiving
        (fun m hm => hfit m (hrest ▸ List.mem_append_right _ hm)) (by omega)
        ((congrArg Setup.conv hone.setup).trans hconv) fun d hmem =>
          let ⟨segs, hsegs⟩ := hdata d (List.mem_cons_of_mem _ hmem)
          ⟨segs, hsegs.advance hspan⟩
      have hbase (xs ys : List Bytes) : base + UInt32.ofNat (span mss (xs ++ ys))
          = base + UInt32.ofNat (span mss xs) + UInt32.ofNat (span mss ys) := by
        rw [span_append, UInt32.ofNat_add, UInt32.add_assoc]
      refine ⟨rest', by rw [List.append_assoc, ← hrest', ← hrest], ?_, ?_⟩
      · rw [hrest'] at hone
        exact hone.trans hmore
      · intro sn d hmem hsn hlt
        rw [hbase]
        rcases List.mem_cons.mp hmem with heq | hmem
        · obtain rfl : d = data := RecvResult.datagram.inj heq
          have hhas := hnew sn hsn hlt
          rw [hrest'] at hhas
          exact hmore.has sn hhas
        · by_cases hle : span mss (receiveDatagram kcp data).2 ≤ snOffset base sn
          · obtain ⟨segs, hsegs, hseg⟩ := hsn
            rw [hrest] at hsegs
            refine hnew' sn d hmem ⟨segs, hsegs.advance hspan, hseg⟩ ?_
            rw [snOffset_sub hle]
            omega
          · -- the number belongs to a message already handed over
            have hbehind := Behind.advance hspan (Or.inr (Nat.lt_of_not_le hle))
            rw [hrest'] at hbehind
            exact hmore.has sn (Or.inl hbehind)

end Advances

/-! ## What stops being resent -/

/-- `data` is made of segments with property `P`, and short enough for the
buffer. -/
def DatagramOf (P : IkcpSeg → Prop) (data : Bytes) : Prop :=
  ∃ segs, data = datagram segs ∧ data.length ≤ bufferSize ∧ ∀ seg ∈ segs, P seg

theorem DatagramOf.imp {P Q : IkcpSeg → Prop} {data : Bytes} (h : DatagramOf P data)
    (hpq : ∀ seg, P seg → Q seg) : DatagramOf Q data := by
  obtain ⟨segs, heq, hlen, hsegs⟩ := h
  exact ⟨segs, heq, hlen, fun seg hseg => hpq seg (hsegs seg hseg)⟩

theorem input_sndBuf (kcp : Ikcpcb) (segs : List IkcpSeg)
    (hsegs : ∀ seg ∈ segs, seg.Sendable kcp.conv) :
    SndTrimmed kcp (ikcpInput kcp (datagram segs)).1 ∧
      ∀ c ∈ kcp.sndBuf.map IkcpSeg.core,
        c ∈ (ikcpInput kcp (datagram segs)).1.sndBuf.map IkcpSeg.core ∨
          ∃ seg ∈ segs, seg.head.Acks c.sn := by
  refine ikcpInput_datagram_induct (P := fun k => SndTrimmed kcp k ∧
    ∀ c ∈ kcp.sndBuf.map IkcpSeg.core, c ∈ k.sndBuf.map IkcpSeg.core ∨
      ∃ seg ∈ segs, seg.head.Acks c.sn) hsegs ?_ ?_ ⟨.refl kcp, fun c hc => Or.inl hc⟩
  · rintro st seg hseg ⟨htrim, hkeep⟩
    obtain ⟨htrim', hkeep'⟩ := inputSeg_sndBuf st seg.conv seg.head seg.data
    refine ⟨htrim.trans htrim', ?_⟩
    intro c hc
    rcases hkeep c hc with hin | hacked
    · obtain ⟨s, hs, rfl⟩ := List.mem_map.mp hin
      rcases hkeep' s hs with hin' | hacks
      · exact Or.inl (List.mem_map_of_mem hin')
      · exact Or.inr ⟨seg, hseg, hacks⟩
    · exact Or.inr hacked
  · rintro prevUna st ⟨htrim, hkeep⟩
    obtain ⟨htrim', -, -, hcore⟩ := inputFinish_frame prevUna st
    exact ⟨htrim.trans htrim', fun c hc => hcore ▸ hkeep c hc⟩

theorem drain_frame :
    ∀ (fuel : Nat) (kcp : Ikcpcb), (drain fuel kcp).1.setup = kcp.setup ∧
      (drain fuel kcp).1.sndSide = kcp.sndSide
  | 0, _ => ⟨rfl, rfl⟩
  | fuel + 1, kcp => by
      obtain ⟨hsetup, hsnd, -⟩ := recv_frame kcp (Int.natCast_nonneg bufferSize)
      rw [drain_succ]
      split
      · exact ⟨hsetup, hsnd⟩
      · obtain ⟨hsetup', hsnd'⟩ := drain_frame fuel (ikcpRecv kcp bufferSize).1
        exact ⟨hsetup'.trans hsetup, hsnd'.trans hsnd⟩

/-- `handleReceive` drops from the send buffer only what was acknowledged by
one of the segments read. -/
theorem handleReceive_sndBuf {conv : UInt32} {P : IkcpSeg → Prop}
    (hP : ∀ seg, P seg → seg.Sendable conv) :
    ∀ (results : List RecvResult) {kcp : Ikcpcb}, kcp.conv = conv →
      (∀ data, .datagram data ∈ results → DatagramOf P data) →
      SndTrimmed kcp (handleReceive kcp results).1 ∧
        ∀ c ∈ kcp.sndBuf.map IkcpSeg.core,
          c ∈ (handleReceive kcp results).1.sndBuf.map IkcpSeg.core ∨
            ∃ seg, P seg ∧ seg.head.Acks c.sn
  | [], kcp, _, _ => ⟨.refl kcp, fun c hc => Or.inl hc⟩
  | .failed :: results, kcp, hconv, hdata =>
      handleReceive_sndBuf hP results hconv
        fun data hmem => hdata data (List.mem_cons_of_mem _ hmem)
  | .datagram data :: results, kcp, hconv, hdata => by
      obtain ⟨segs, rfl, hlen, hsegs⟩ := hdata _ (List.mem_cons_self ..)
      obtain ⟨htrim, hkeep⟩ := input_sndBuf kcp segs
        fun seg hseg => hconv.symm ▸ hP seg (hsegs seg hseg)
      -- the inner loop does not touch the send side
      have hone : SndTrimmed kcp (receiveDatagram kcp (datagram segs)).1 ∧
          (receiveDatagram kcp (datagram segs)).1.sndBuf
            = (ikcpInput kcp (datagram segs)).1.sndBuf := by
        unfold receiveDatagram
        rw [List.take_of_length_le hlen]
        obtain ⟨hsetup, hsnd⟩ := drain_frame
          (drainFuel (ikcpInput kcp (datagram segs)).1) (ikcpInput kcp (datagram segs)).1
        exact ⟨htrim.trans (.of_eq hsetup hsnd), congrArg SndSide.sndBuf hsnd⟩
      obtain ⟨htrim', hkeep'⟩ := handleReceive_sndBuf hP results
        ((congrArg Setup.conv hone.1.setup).trans hconv)
        fun data hmem => hdata data (List.mem_cons_of_mem _ hmem)
      rw [handleReceive_datagram]
      refine ⟨hone.1.trans htrim', ?_⟩
      intro c hc
      rcases hkeep c hc with hin | ⟨seg, hseg, hacks⟩
      · rw [← hone.2] at hin
        exact hkeep' c hin
      · exact Or.inr ⟨seg, hsegs seg hseg, hacks⟩

end CppDemos
