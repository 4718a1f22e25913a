import CppDemos.Kcp.Window

/-!
# What no datagram can do to a control block

Three more invariants that hold whatever bytes `ikcp_input` is given. The
receive queues stay within the window and their counters count (`RcvBounded`).
The retransmission timeout stays between its two limits, although the round
trip times it is computed from are the sender's own timestamps as any datagram
repeats them (`RtoOk`). And what waits to be sent is what `ikcp_send` queued:
data segments that fit a datagram and the wire (`Unsent`).

From the last one, `Unsent.accepted`: whatever a block sends, every block of the
same conversation parses to the end without an error.
-/

namespace CppDemos

variable {kcp kcp' : Ikcpcb}

/-! ## The receive queues -/

structure RcvBounded (kcp : Ikcpcb) : Prop where
  ok : RcvOk kcp
  bufCount : kcp.nrcvBuf = kcp.rcvBuf.length
  room : kcp.rcvQueue.length ≤ kcp.rcvWnd.toNat

theorem RcvBounded.congr (h : RcvBounded kcp) (heq : kcp'.rcvSide = kcp.rcvSide) :
    RcvBounded kcp' := by
  have hok : RcvOk kcp' := by
    simp only [Ikcpcb.rcvSide, RcvSide.mk.injEq] at heq
    obtain ⟨hnxt, hwnd, -, hcount, hqueue, hbuf⟩ := heq
    exact ⟨hwnd.trans h.ok.wnd, by rw [hcount, hqueue, h.ok.count],
      by rw [hnxt, hbuf]; exact h.ok.sorted, by rw [hnxt, hwnd, hbuf]; exact h.ok.inWindow⟩
  simp only [Ikcpcb.rcvSide, RcvSide.mk.injEq] at heq
  obtain ⟨-, hwnd, hbufCount, -, hqueue, hbuf⟩ := heq
  refine ⟨hok, ?_, ?_⟩
  · rw [hbufCount, hbuf, h.bufCount]
  · rw [hqueue, hwnd]
    exact h.room

/-- The reorder buffer holds at most a window of segments. -/
theorem RcvBounded.rcvBuf_le (h : RcvBounded kcp) : kcp.rcvBuf.length ≤ kcp.rcvWnd.toNat := by
  have hnodup : (kcp.rcvBuf.map fun seg => snOffset kcp.rcvNxt seg.sn).Nodup :=
    List.pairwise_map.mpr (h.ok.sorted.1.imp fun hlt => Nat.ne_of_lt hlt)
  have hsub : (kcp.rcvBuf.map fun seg => snOffset kcp.rcvNxt seg.sn)
      ⊆ List.range kcp.rcvWnd.toNat := by
    intro n hn
    obtain ⟨seg, hseg, rfl⟩ := List.mem_map.mp hn
    exact List.mem_range.mpr (h.ok.inWindow seg hseg)
  simpa using hnodup.length_le_of_subset hsub

theorem RcvBounded.moveRcvBuf (h : RcvBounded kcp) : RcvBounded (moveRcvBuf kcp kcp.rcvBuf) := by
  refine moveRcvBuf_induct (fun k seg rest hbuf _ hroom hk => ?_) h
  refine ⟨hk.ok.shift hbuf, ?_, ?_⟩
  · have hcount := hk.bufCount
    rw [hbuf, List.length_cons] at hcount
    simp only [shiftRcv]
    omega
  · have hcount := hk.ok.count
    simp only [shiftRcv, List.length_append, List.length_singleton]
    omega

theorem RcvBounded.parseData (h : RcvBounded kcp) (newseg : IkcpSeg) :
    RcvBounded (ikcpParseData kcp newseg) := by
  unfold ikcpParseData
  split
  · exact h
  · rename_i hwin
    have hwin := (inWindow_iff h.ok.wnd _).mp hwin
    cases hins : rcvInsert newseg kcp.rcvBuf with
    | none => exact h.moveRcvBuf
    | some buf =>
        have hlen := (rcvInsert_perm hins).length_eq
        rw [List.length_cons] at hlen
        have hnext : RcvBounded { kcp with rcvBuf := buf, nrcvBuf := kcp.nrcvBuf + 1 } :=
          ⟨h.ok.insert hwin hins, by rw [hlen, h.bufCount], h.room⟩
        exact hnext.moveRcvBuf

theorem RcvBounded.inputPush (h : RcvBounded kcp) (conv : UInt32) (head : SegHead)
    (payload : Bytes) : RcvBounded (inputPush kcp conv head payload) := by
  -- the acknowledgement is not on the receive side
  have hpush : RcvBounded (ikcpAckPush kcp head.sn head.ts) := h.congr rfl
  unfold CppDemos.inputPush
  split
  · simp only
    split
    · exact hpush.parseData _
    · exact hpush
  · exact h

theorem RcvBounded.input (h : RcvBounded kcp) (data : Bytes) :
    RcvBounded (ikcpInput kcp data).1 := by
  refine ikcpInput_induct (fun st conv head payload hst => ?_)
    (fun prevUna st hst => hst.congr (inputFinish_frame prevUna st).2.1) h data
  rcases inputSeg_rcv st conv head payload with ⟨-, k, -, hside, -, heq⟩ | ⟨-, hside, -⟩
  · rw [heq]
    exact (hst.congr hside).inputPush conv head payload
  · exact hst.congr hside

theorem RcvBounded.recv (h : RcvBounded kcp) {len : Int} (hlen : 0 ≤ len) :
    RcvBounded (ikcpRecv kcp len).1 := by
  rcases ikcpRecv_cases kcp hlen with ⟨err, -, heq, -⟩ | ⟨-, -, -, probe, heq⟩
  · rw [heq]
    exact h
  · have hpop : RcvBounded (popRcv kcp) :=
      ⟨h.ok.popRcv, h.bufCount,
        Nat.le_trans (mergeFragment_suffix kcp.nrcvQue kcp.rcvQueue).length_le h.room⟩
    rw [heq]
    exact hpop.moveRcvBuf.congr rfl

/-! ## The retransmission timeout -/

structure RtoOk (kcp : Ikcpcb) : Prop where
  min : ikcpRtoNdl ≤ kcp.rxMinrto ∧ kcp.rxMinrto ≤ ikcpRtoMin
  low : ikcpRtoNdl ≤ kcp.rxRto
  high : kcp.rxRto ≤ ikcpRtoMax.toInt32

/-- The fields the timeout is made of. -/
def Ikcpcb.rto (kcp : Ikcpcb) : Int32 × Int32 := (kcp.rxRto, kcp.rxMinrto)

theorem RtoOk.congr (h : RtoOk kcp) (heq : kcp'.rto = kcp.rto) : RtoOk kcp' := by
  obtain ⟨h1, h2⟩ := Prod.mk.inj heq
  exact ⟨h2 ▸ h.min, h1 ▸ h.low, h1 ▸ h.high⟩

theorem ibound_between {lower upper : UInt32} (middle : UInt32) (h : lower ≤ upper) :
    lower ≤ ibound lower middle upper ∧ ibound lower middle upper ≤ upper := by
  simp only [UInt32.le_iff_toNat_le] at *
  unfold ibound imin imax
  simp only [UInt32.le_iff_toNat_le, ge_iff_le]
  split
  · omega
  · split <;> omega

theorem toInt_toInt32 {a : UInt32} (h : a.toNat < 2 ^ 31) : a.toInt32.toInt = a.toNat := by
  rw [Int32.toInt, UInt32.toBitVec_toInt32, BitVec.toInt_eq_toNat_of_lt]
  · rw [UInt32.toNat_toBitVec]
  · rw [UInt32.toNat_toBitVec]
    omega

theorem toNat_toUInt32 {a : Int32} (h : 0 ≤ a.toInt) : (a.toUInt32.toNat : Int) = a.toInt := by
  have hback : a.toUInt32.toInt32 = a := Int32.toInt32_toUInt32 a
  have hlt : a.toUInt32.toNat < 2 ^ 31 := by
    by_contra hge
    have hneg := a.toUInt32.toNat_lt
    have hint : a.toInt = a.toUInt32.toBitVec.toInt := rfl
    rw [BitVec.toInt_eq_toNat_cond, UInt32.toNat_toBitVec, if_neg (by omega)] at hint
    omega
  rw [← toInt_toInt32 hlt, hback]

theorem RtoOk.updateAck (h : RtoOk kcp) (rtt : Int32) : RtoOk (ikcpUpdateAck kcp rtt) := by
  obtain ⟨hmin, hmax⟩ := h.min
  have hmin := Int32.le_iff_toInt_le.mp hmin
  have hmax := Int32.le_iff_toInt_le.mp hmax
  have hndl : ikcpRtoNdl.toInt = 30 := rfl
  have hdef : ikcpRtoMin.toInt = 100 := rfl
  have hlimit : ikcpRtoMax.toNat = 60000 := rfl
  have hword := toNat_toUInt32 (a := kcp.rxMinrto) (by omega)
  have hle : kcp.rxMinrto.toUInt32 ≤ ikcpRtoMax := UInt32.le_iff_toNat_le.mpr (by omega)
  have hsame : (ikcpUpdateAck kcp rtt).rxMinrto = kcp.rxMinrto := by
    unfold ikcpUpdateAck
    split <;> rfl
  obtain ⟨middle, hrto⟩ : ∃ middle, (ikcpUpdateAck kcp rtt).rxRto
      = (ibound kcp.rxMinrto.toUInt32 middle ikcpRtoMax).toInt32 := by
    unfold ikcpUpdateAck
    split <;> exact ⟨_, rfl⟩
  obtain ⟨hlow, hhigh⟩ := ibound_between middle hle
  rw [UInt32.le_iff_toNat_le] at hlow hhigh
  have hint := toInt_toInt32 (a := ibound kcp.rxMinrto.toUInt32 middle ikcpRtoMax) (by omega)
  have hcap : ikcpRtoMax.toInt32.toInt = 60000 := rfl
  refine ⟨hsame ▸ h.min, ?_, ?_⟩
  · rw [hrto, Int32.le_iff_toInt_le, hint]
    omega
  · rw [hrto, Int32.le_iff_toInt_le, hint]
    omega

theorem shrinkBuf_rto (kcp : Ikcpcb) : (ikcpShrinkBuf kcp).rto = kcp.rto := by
  unfold ikcpShrinkBuf
  split <;> rfl

theorem parseAck_rto (kcp : Ikcpcb) (sn : UInt32) : (ikcpParseAck kcp sn).rto = kcp.rto := by
  unfold ikcpParseAck
  split
  · rfl
  · split <;> rfl

theorem inputPush_rto (kcp : Ikcpcb) (conv : UInt32) (head : SegHead) (payload : Bytes) :
    (inputPush kcp conv head payload).rto = kcp.rto := by
  have hmove (k : Ikcpcb) : (moveRcvBuf k k.rcvBuf).rto = k.rto :=
    moveRcvBuf_induct (P := fun k' => k'.rto = k.rto) (fun _ _ _ _ _ _ h => h) rfl
  have hparse (k : Ikcpcb) (newseg : IkcpSeg) : (ikcpParseData k newseg).rto = k.rto := by
    unfold ikcpParseData
    split
    · rfl
    · split
      · exact hmove { k with rcvBuf := _, nrcvBuf := k.nrcvBuf + 1 }
      · exact hmove k
  unfold inputPush
  split
  · simp only
    split
    · exact hparse (ikcpAckPush kcp head.sn head.ts) _
    · rfl
  · rfl

theorem RtoOk.inputSeg {st : InputSt} (h : RtoOk st.kcp) (conv : UInt32) (head : SegHead)
    (payload : Bytes) : RtoOk (inputSeg st conv head payload).kcp := by
  have huna : RtoOk (inputUna st.kcp head) := h.congr (shrinkBuf_rto _)
  rcases inputSeg_cases st conv head payload with ⟨-, heq⟩ | ⟨-, heq⟩ | ⟨-, -, probe, heq⟩
  · rw [heq, inputAck]
    split
    · exact (huna.updateAck _).congr ((shrinkBuf_rto _).trans (parseAck_rto _ _))
    · exact huna.congr ((shrinkBuf_rto _).trans (parseAck_rto _ _))
  · rw [heq]
    exact huna.congr (inputPush_rto _ conv head payload)
  · rw [heq]
    exact huna.congr rfl

theorem RtoOk.input (h : RtoOk kcp) (data : Bytes) : RtoOk (ikcpInput kcp data).1 := by
  refine ikcpInput_induct (fun st conv head payload hst => hst.inputSeg conv head payload)
    (fun prevUna st hst => hst.congr ?_) h data
  obtain ⟨cwnd, incr, heq⟩ := growCwnd_frame prevUna
    (if st.flag then ikcpParseFastack st.kcp st.maxack st.latestTs else st.kcp)
  rw [inputFinish, heq]
  split
  · unfold ikcpParseFastack
    split <;> rfl
  · rfl

theorem RtoOk.recv (h : RtoOk kcp) {len : Int} (hlen : 0 ≤ len) : RtoOk (ikcpRecv kcp len).1 := by
  rcases ikcpRecv_cases kcp hlen with ⟨err, -, heq, -⟩ | ⟨-, -, -, probe, heq⟩
  · rw [heq]
    exact h
  · rw [heq]
    refine h.congr ?_
    exact moveRcvBuf_induct (P := fun k => k.rto = kcp.rto)
      (fun _ _ _ _ _ _ h => h) (show (popRcv kcp).rto = kcp.rto from rfl)

theorem RtoOk.send (h : RtoOk kcp) (buffer : Bytes) (len : Int) :
    RtoOk (ikcpSend kcp buffer len).1 := by
  obtain ⟨queue, count, heq⟩ := ikcpSend_queue kcp buffer len
  rw [heq]
  exact h.congr rfl

theorem flush_rto (kcp : Ikcpcb) : (ikcpFlush kcp).1.rto = kcp.rto := by
  unfold ikcpFlush
  split
  · rfl
  · obtain ⟨wait, ts, hctl⟩ := flushControl_frame kcp
    obtain ⟨ssthresh, cwnd, incr, heq⟩ := flushBuffers_eq (flushControl kcp).1
      (flushControl kcp).2.1.wnd (flushControl kcp).2.2
    obtain ⟨_, _, _, _, _, hmove⟩ := moveSndQueue_frame (flushCwnd (flushControl kcp).1)
      (flushControl kcp).2.1.wnd (flushControl kcp).1.sndQueue (flushControl kcp).1
    rw [heq]
    simp only [hmove, Ikcpcb.rto]
    rw [hctl]

theorem RtoOk.update (h : RtoOk kcp) (current : UInt32) : RtoOk (ikcpUpdate kcp current).1 := by
  obtain ⟨updated, tsFlush, heq | heq⟩ := ikcpUpdate_cases kcp current
  · rw [heq]
    exact h.congr rfl
  · rw [heq]
    exact h.congr
      (flush_rto { kcp with current := current, updated := updated, tsFlush := tsFlush })

/-! ## What waits to be sent -/

/-- A piece that `ikcp_send` may queue. -/
structure IkcpSeg.Piece (mss : UInt32) (seg : IkcpSeg) : Prop where
  len : seg.len ≤ mss.toNat
  frg : seg.frg.toNat < 2 ^ 8

/-- `snd_queue` holds pieces, and `snd_buf` pieces numbered as data segments of
the conversation. -/
structure Unsent (kcp : Ikcpcb) : Prop where
  mtu : ikcpOverhead + kcp.mss.toNat ≤ kcp.mtu.toNat
  mss : kcp.mss.toNat < 2 ^ 31
  queue : ∀ seg ∈ kcp.sndQueue, seg.Piece kcp.mss
  buf : ∀ c ∈ kcp.sndBuf.map IkcpSeg.core,
    c.Piece kcp.mss ∧ c.conv = kcp.conv ∧ c.cmd = ikcpCmdPush

theorem Unsent.trim (h : Unsent kcp) (htrim : SndTrimmed kcp kcp') : Unsent kcp' := by
  have hconv : kcp'.conv = kcp.conv := congrArg Setup.conv htrim.setup
  have hmtu : kcp'.mtu = kcp.mtu := congrArg Setup.mtu htrim.setup
  have hmss : kcp'.mss = kcp.mss := congrArg Setup.mss htrim.setup
  refine ⟨?_, ?_, ?_, ?_⟩
  · rw [hmss, hmtu]
    exact h.mtu
  · rw [hmss]
    exact h.mss
  · rw [htrim.sndQueue, hmss]
    exact h.queue
  · rw [hconv, hmss]
    exact fun c hc => h.buf c (htrim.sndBuf.subset hc)

theorem Unsent.fitsMtu (h : Unsent kcp) : FitsMtu kcp := by
  have hmtu := h.mtu
  refine ⟨by omega, fun s hs => ?_, fun s hs => ?_⟩
  · have hlen := (h.queue s hs).len
    omega
  · have hlen := (h.buf s.core (List.mem_map_of_mem hs)).1.len
    have hsame : s.core.len = s.len := rfl
    omega

/-- What the loop queues are pieces. -/
theorem sendLoop_pieces :
    ∀ (n : Nat) {kcp : Ikcpcb} (buffer : Bytes) (len sent : Nat), n ≤ 2 ^ 8 →
      ∀ seg ∈ (sendLoop kcp n buffer len sent).1.sndQueue,
        seg ∈ kcp.sndQueue ∨ seg.Piece kcp.mss
  | 0, _, _, _, _, _ => fun _ hseg => Or.inl hseg
  | n + 1, kcp, buffer, len, sent, hn => by
      rw [sendLoop]
      intro seg hseg
      rcases sendLoop_pieces n _ _ _ (by omega) seg hseg with hseg | hpiece
      · rcases List.mem_append.mp hseg with hseg | hseg
        · exact Or.inl hseg
        · rw [List.mem_singleton.mp hseg]
          refine Or.inr ⟨?_, ?_⟩
          · simp only [IkcpSeg.len, List.length_take]
            split <;> omega
          · simp only
            split
            · rw [UInt32.toNat_ofNat', Nat.mod_eq_of_lt (by omega)]
              omega
            · decide
      · exact Or.inr hpiece

theorem extendLast_pieces {buffer : Bytes} {len : Nat} :
    ∀ seg ∈ (extendLast kcp buffer len).1.sndQueue, seg ∈ kcp.sndQueue ∨ seg.Piece kcp.mss := by
  unfold extendLast
  split
  · exact fun seg hseg => Or.inl hseg
  · rename_i old hlast
    split
    · intro seg hseg
      rcases List.mem_append.mp hseg with hseg | hseg
      · exact Or.inl (List.mem_of_mem_dropLast hseg)
      · rw [List.mem_singleton.mp hseg]
        refine Or.inr ⟨?_, (by decide : (0 : UInt32).toNat < 2 ^ 8)⟩
        have hextend : (if len < kcp.mss.toNat - old.len then len else kcp.mss.toNat - old.len)
            ≤ kcp.mss.toNat - old.len := by
          split <;> omega
        simp only [IkcpSeg.len, List.length_append, List.length_take] at *
        omega
    · exact fun seg hseg => Or.inl hseg

theorem ikcpSend_pieces (kcp : Ikcpcb) (buffer : Bytes) (len : Int) :
    ∀ seg ∈ (ikcpSend kcp buffer len).1.sndQueue, seg ∈ kcp.sndQueue ∨ seg.Piece kcp.mss := by
  unfold ikcpSend
  split
  · exact fun seg hseg => Or.inl hseg
  · simp only
    generalize hst : (if kcp.stream ≠ 0 then extendLast kcp buffer len.toNat
      else (kcp, buffer, len.toNat, 0)) = st
    have hqueue : ∀ seg ∈ st.1.sndQueue, seg ∈ kcp.sndQueue ∨ seg.Piece kcp.mss := by
      rw [← hst]
      split
      · exact extendLast_pieces
      · exact fun seg hseg => Or.inl hseg
    have hmss : st.1.mss = kcp.mss := by
      rw [← hst]
      split
      · obtain ⟨queue, heq⟩ := extendLast_queue kcp buffer len.toNat
        rw [heq]
      · rfl
    have hw : ikcpWndRcv.toNat = 128 := rfl
    split
    · exact hqueue
    · split
      · split <;> exact hqueue
      · intro seg hseg
        rcases sendLoop_pieces _ _ _ _ (by split <;> omega) seg hseg with hseg | hpiece
        · exact hqueue seg hseg
        · exact Or.inr (hmss ▸ hpiece)

theorem Unsent.send (h : Unsent kcp) (buffer : Bytes) (len : Int) :
    Unsent (ikcpSend kcp buffer len).1 := by
  have hpieces := ikcpSend_pieces kcp buffer len
  obtain ⟨queue, count, heq⟩ := ikcpSend_queue kcp buffer len
  rw [heq] at hpieces ⊢
  exact ⟨h.mtu, h.mss, fun seg hseg => (hpieces seg hseg).elim (h.queue seg) id, h.buf⟩

theorem Unsent.moved (h : Unsent kcp) {moved : List IkcpSeg} (hsetup : kcp'.setup = kcp.setup)
    (hmoved : SndMoved kcp kcp' moved) : Unsent kcp' := by
  have hconv : kcp'.conv = kcp.conv := congrArg Setup.conv hsetup
  have hmtu : kcp'.mtu = kcp.mtu := congrArg Setup.mtu hsetup
  have hmss : kcp'.mss = kcp.mss := congrArg Setup.mss hsetup
  have hqueue := h.queue
  rw [hmoved.queue] at hqueue
  refine ⟨?_, ?_, ?_, ?_⟩
  · rw [hmss, hmtu]
    exact h.mtu
  · rw [hmss]
    exact h.mss
  · rw [hmss]
    exact fun seg hseg => hqueue seg (List.mem_append_right _ hseg)
  · rw [hmoved.sndBuf, hconv, hmss]
    intro c hc
    rcases List.mem_append.mp hc with hc | hc
    · exact h.buf c hc
    · obtain ⟨j, hj⟩ := List.mem_iff_getElem?.mp hc
      rw [numbered_getElem?] at hj
      obtain ⟨seg, hseg, rfl⟩ := Option.map_eq_some_iff.mp hj
      have hpiece := hqueue seg (List.mem_append_left _ (List.mem_of_getElem? hseg))
      exact ⟨⟨hpiece.len, hpiece.frg⟩, rfl, rfl⟩

theorem Unsent.update (h : Unsent kcp) (current : UInt32) :
    Unsent (ikcpUpdate kcp current).1 := by
  obtain ⟨moved, hspec⟩ := ikcpUpdate_spec h.fitsMtu current
  exact h.moved hspec.setup hspec.snd

theorem Unsent.input (h : Unsent kcp) (data : Bytes) : Unsent (ikcpInput kcp data).1 :=
  ikcpInput_induct
    (fun st conv head payload hst => hst.trim (inputSeg_sndBuf st conv head payload).1)
    (fun prevUna st hst => hst.trim (inputFinish_frame prevUna st).1) h data

theorem Unsent.recv (h : Unsent kcp) {len : Int} (hlen : 0 ≤ len) :
    Unsent (ikcpRecv kcp len).1 := by
  obtain ⟨hsetup, hsnd, -⟩ := recv_frame kcp hlen
  exact h.trim (.of_eq hsetup hsnd)

/-! ## What every block of the conversation makes of it -/

theorem wndUnused_lt (h : RcvOk kcp) : (UInt32.ofNat (ikcpWndUnused kcp)).toNat < 2 ^ 16 := by
  have hw : kcp.rcvWnd.toNat = 128 := by rw [h.wnd]; rfl
  rw [UInt32.toNat_ofNat', ikcpWndUnused]
  split <;> omega

theorem IsControl.sendable {seg : IkcpSeg} (h : IsControl kcp seg)
    (hcmd : seg.cmd = ikcpCmdAck ∨ seg.cmd = ikcpCmdWask ∨ seg.cmd = ikcpCmdWins)
    (hwnd : seg.wnd.toNat < 2 ^ 16) : seg.Sendable kcp.conv := by
  have hknown : cmdKnown seg.cmd = true ∧ seg.cmd.toNat < 2 ^ 8 := by
    rcases hcmd with hcmd | hcmd | hcmd <;> rw [hcmd] <;> decide
  refine ⟨⟨hknown.2, ?_, hwnd, ?_⟩, h.conv, hknown.1⟩
  · rw [h.frg]
    decide
  · rw [IkcpSeg.len, h.data]
    decide

theorem Unsent.sendable (h : Unsent kcp') (hconv : kcp'.conv = kcp.conv) (hok : RcvOk kcp)
    {seg : IkcpSeg} (hseg : Flushed kcp kcp'.sndBuf seg) : seg.Sendable kcp.conv := by
  have hwnd := wndUnused_lt hok
  rcases hseg with ⟨hctl, hcmd, -⟩ | ⟨hctl, hcmd⟩ | ⟨-, hwin, s, hs, hcore⟩
  · exact hctl.sendable (Or.inl hcmd) (hctl.wnd ▸ hwnd)
  · exact hctl.sendable (Or.inr hcmd) (hctl.wnd ▸ hwnd)
  · obtain ⟨hpiece, hc, hcmd⟩ := h.buf seg.core (hcore ▸ List.mem_map_of_mem hs)
    have hlen : seg.len ≤ kcp'.mss.toNat := hpiece.len
    have hcmd : seg.cmd = ikcpCmdPush := hcmd
    have hmss := h.mss
    refine ⟨⟨?_, hpiece.frg, hwin ▸ hwnd, by omega⟩, hc.trans hconv, ?_⟩
    · rw [hcmd]
      decide
    · rw [hcmd]
      decide

/-- A datagram of the conversation as far as parsing goes: well-formed segments,
no longer than the MTU. -/
structure Parses (conv mtu : UInt32) (data : Bytes) : Prop where
  length : data.length ≤ mtu.toNat
  segs : ∃ segs : List IkcpSeg, segs ≠ [] ∧ data = datagram segs ∧ ∀ seg ∈ segs, seg.Sendable conv

theorem Unsent.outs (h : Unsent kcp) (hok : RcvOk kcp) (current : UInt32) :
    ∀ data ∈ (ikcpUpdate kcp current).2, Parses kcp.conv kcp.mtu data := by
  obtain ⟨moved, hspec⟩ := ikcpUpdate_spec h.fitsMtu current
  have hnext := h.update current
  obtain ⟨groups, houts, hcap, hsegs, -⟩ := hspec.outs
  have hconv : (ikcpUpdate kcp current).1.conv = kcp.conv := congrArg Setup.conv hspec.setup
  intro data hdata
  rw [houts] at hdata
  obtain ⟨group, hgroup, rfl⟩ := List.mem_map.mp hdata
  obtain ⟨hne, hlen⟩ := hcap group hgroup
  exact ⟨hlen, group, hne, rfl, fun seg hseg =>
    hnext.sendable hconv hok (hsegs seg (List.mem_flatten.mpr ⟨group, hgroup, hseg⟩))⟩

theorem Parses.getconv {conv mtu : UInt32} {data : Bytes} (h : Parses conv mtu data) :
    ikcpGetconv data = conv := by
  obtain ⟨segs, hne, rfl, hsegs⟩ := h.segs
  obtain ⟨seg, rest, rfl⟩ := List.exists_cons_of_ne_nil hne
  rw [ikcpGetconv, datagram_cons, (decode_segBytes seg (datagram rest)).1]
  exact (hsegs seg (List.mem_cons_self ..)).conv

/-- The blocks that read such a datagram to its end are those of the
conversation. -/
theorem Parses.accepted_iff {conv mtu : UInt32} {data : Bytes} (h : Parses conv mtu data)
    (kcp : Ikcpcb) : (ikcpInput kcp data).2 = 0 ↔ kcp.conv = conv := by
  obtain ⟨segs, hne, rfl, hsegs⟩ := h.segs
  constructor
  · intro hzero
    by_contra hconv
    have hget := h.getconv
    rw [ikcpGetconv] at hget
    have hlen : 24 * segs.length ≤ (datagram segs).length := length_datagram_ge segs
    have hpos := List.length_pos_iff.mpr hne
    have hover : ikcpOverhead = 24 := rfl
    obtain ⟨n, hn⟩ := Nat.exists_eq_succ_of_ne_zero (n := (datagram segs).length) (by omega)
    unfold ikcpInput at hzero
    rw [if_neg (by omega), hn, inputLoop, if_neg (by omega)] at hzero
    simp only [hget, ne_eq, Ne.symm hconv, not_false_eq_true, if_true] at hzero
    exact absurd hzero (by decide : (-1 : Int) ≠ 0)
  · intro hconv
    rw [ikcpInput_datagram hne (hconv ▸ hsegs)]

end CppDemos
