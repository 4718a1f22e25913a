import CppDemos.Lib.Flight
import CppDemos.Kcp.Packing

/-!
# The send window under any traffic

What holds of the send side of a control block whatever bytes it has been given
to read. `SndOk`: the counters count, the numbers in `snd_buf` are a flight
from `snd_una` to `snd_nxt`, and the flight is no wider than `snd_wnd`. Only two
things happen to the numbers: acknowledgements, genuine or not, take some out
and `ikcp_shrink_buf` moves `snd_una` up (`SndOk.shrink`), and `ikcp_flush`
gives out the next one while the window has room (`SndOk.shiftSnd`).

`RtoOk` is the bound on the retransmission timeout that `ikcp_update_ack` keeps
whatever round trip time it is told.
-/

namespace CppDemos

open Serial (Flight)

variable {kcp kcp' : Ikcpcb}

/-! ## The invariant -/

/-- The part of the block that the window is made of. -/
structure SndBook where
  sndUna : UInt32
  sndNxt : UInt32
  sndWnd : UInt32
  nsndQue : Nat
  nsndBuf : Nat
  sndQueue : List IkcpSeg
  sns : List UInt32

def Ikcpcb.sndBook (kcp : Ikcpcb) : SndBook :=
  ⟨kcp.sndUna, kcp.sndNxt, kcp.sndWnd, kcp.nsndQue, kcp.nsndBuf, kcp.sndQueue,
    kcp.sndBuf.map IkcpSeg.sn⟩

structure SndOk (kcp : Ikcpcb) : Prop where
  count : kcp.nsndQue = kcp.sndQueue.length
  bufCount : kcp.nsndBuf = kcp.sndBuf.length
  flight : Flight kcp.sndUna.toBitVec kcp.sndNxt.toBitVec
    ((kcp.sndBuf.map IkcpSeg.sn).map UInt32.toBitVec)
  window : snOffset kcp.sndUna kcp.sndNxt ≤ kcp.sndWnd.toNat
  wnd : kcp.sndWnd.toNat < 2 ^ 31

theorem SndOk.congr (h : SndOk kcp) (heq : kcp'.sndBook = kcp.sndBook) : SndOk kcp' := by
  simp only [Ikcpcb.sndBook, SndBook.mk.injEq] at heq
  obtain ⟨h1, h2, h3, h4, h5, h6, h7⟩ := heq
  have hlen := congrArg List.length h7
  rw [List.length_map, List.length_map] at hlen
  refine ⟨?_, ?_, ?_, ?_, ?_⟩
  · rw [h4, h6, h.count]
  · rw [h5, h.bufCount, hlen]
  · rw [h1, h2, h7]
    exact h.flight
  · rw [h1, h2, h3]
    exact h.window
  · rw [h3]
    exact h.wnd

theorem SndOk.length_le (h : SndOk kcp) : kcp.sndBuf.length ≤ kcp.sndWnd.toNat := by
  have hlen := h.flight.length_le
  rw [List.length_map, List.length_map, ← snOffset_eq_offset] at hlen
  exact Nat.le_trans hlen h.window

theorem SndOk.head (h : SndOk kcp) {seg : IkcpSeg} {rest : List IkcpSeg}
    (hbuf : kcp.sndBuf = seg :: rest) : kcp.sndUna = seg.sn := by
  have hfirst := h.flight.first
  rw [hbuf] at hfirst
  exact UInt32.toBitVec_inj.mp hfirst

theorem SndOk.empty (h : SndOk kcp) (hbuf : kcp.sndBuf = []) : kcp.sndUna = kcp.sndNxt := by
  have hfirst := h.flight.first
  rw [hbuf] at hfirst
  exact UInt32.toBitVec_inj.mp hfirst

/-! ## Acknowledgements -/

/-- Segments are taken out of `snd_buf`, and `ikcp_shrink_buf` moves `snd_una`
up to the first that is left. -/
theorem SndOk.shrink (h : SndOk kcp) (hnxt : kcp'.sndNxt = kcp.sndNxt)
    (hwnd : kcp'.sndWnd = kcp.sndWnd) (hnque : kcp'.nsndQue = kcp.nsndQue)
    (hque : kcp'.sndQueue = kcp.sndQueue) (hcount : kcp'.nsndBuf = kcp'.sndBuf.length)
    (hsub : (kcp'.sndBuf.map IkcpSeg.sn).Sublist (kcp.sndBuf.map IkcpSeg.sn)) :
    SndOk (ikcpShrinkBuf kcp') := by
  obtain ⟨hflight, hle⟩ := h.flight.sublist (hsub.map UInt32.toBitVec)
  have hwindow := h.window
  have hwnd' := h.wnd
  rw [snOffset_eq_offset] at hwindow
  rw [← hnxt] at hflight hle hwindow
  rw [← hwnd] at hwindow hwnd'
  unfold ikcpShrinkBuf
  split
  · rename_i seg rest hbuf
    rw [hbuf] at hflight hle
    refine ⟨?_, hcount, by rw [hbuf]; exact hflight, ?_, hwnd'⟩
    · rw [hnque, hque, h.count]
    · exact Nat.le_trans hle hwindow
  · rename_i hbuf
    rw [hbuf] at hflight hle
    refine ⟨?_, hcount, by rw [hbuf]; exact hflight, ?_, hwnd'⟩
    · rw [hnque, hque, h.count]
    · exact Nat.le_trans hle hwindow

theorem SndOk.inputUna (h : SndOk kcp) (head : SegHead) : SndOk (inputUna kcp head) := by
  have hsuffix := unaRemove_suffix head.una kcp.sndBuf
  have hle := hsuffix.length_le
  have hcount : kcp.nsndBuf - (kcp.sndBuf.length - (unaRemove head.una kcp.sndBuf).length)
      = (unaRemove head.una kcp.sndBuf).length := by
    rw [h.bufCount]
    omega
  exact h.shrink rfl rfl rfl rfl hcount (hsuffix.sublist.map _)

theorem ackRemove_length {sn : UInt32} {buf buf' : List IkcpSeg}
    (h : ackRemove sn buf = some buf') : buf'.length + 1 = buf.length := by
  induction buf generalizing buf' with
  | nil => cases h
  | cons seg next ih =>
      rw [ackRemove] at h
      split at h
      · rw [← Option.some.inj h, List.length_cons]
      · split at h
        · cases h
        · obtain ⟨l, hl, rfl⟩ := Option.map_eq_some_iff.mp h
          rw [List.length_cons, List.length_cons, ih hl]

theorem SndOk.parseAck (h : SndOk kcp) (sn : UInt32) :
    SndOk (ikcpShrinkBuf (ikcpParseAck kcp sn)) := by
  unfold ikcpParseAck
  split
  · exact h.shrink rfl rfl rfl rfl h.bufCount (List.Sublist.refl _)
  · split
    · rename_i buf hrem
      have hlen := ackRemove_length hrem
      refine h.shrink rfl rfl rfl rfl ?_ ((ackRemove_sublist hrem).map _)
      show kcp.nsndBuf - 1 = buf.length
      rw [h.bufCount]
      omega
    · exact h.shrink rfl rfl rfl rfl h.bufCount (List.Sublist.refl _)

theorem updateAck_sndBook (kcp : Ikcpcb) (rtt : Int32) :
    (ikcpUpdateAck kcp rtt).sndBook = kcp.sndBook := by
  unfold ikcpUpdateAck
  split <;> rfl

theorem SndOk.inputAck (h : SndOk kcp) (head : SegHead) : SndOk (inputAck kcp head) := by
  unfold CppDemos.inputAck
  split
  · exact (h.congr (updateAck_sndBook kcp _)).parseAck head.sn
  · exact h.parseAck head.sn

/-! ## Input -/

theorem parseData_sndBook (kcp : Ikcpcb) (newseg : IkcpSeg) :
    (ikcpParseData kcp newseg).sndBook = kcp.sndBook := by
  have hmove (k : Ikcpcb) : (moveRcvBuf k k.rcvBuf).sndBook = k.sndBook :=
    moveRcvBuf_induct (P := fun k' => k'.sndBook = k.sndBook) (fun _ _ _ _ _ _ h => h) rfl
  unfold ikcpParseData
  split
  · rfl
  · split
    · exact hmove { kcp with rcvBuf := _, nrcvBuf := kcp.nrcvBuf + 1 }
    · exact hmove kcp

theorem inputPush_sndBook (kcp : Ikcpcb) (conv : UInt32) (head : SegHead) (payload : Bytes) :
    (inputPush kcp conv head payload).sndBook = kcp.sndBook := by
  unfold inputPush
  split
  · simp only
    split
    · exact parseData_sndBook (ikcpAckPush kcp head.sn head.ts) _
    · rfl
  · rfl

theorem SndOk.inputSeg {st : InputSt} (h : SndOk st.kcp) (conv : UInt32) (head : SegHead)
    (payload : Bytes) : SndOk (inputSeg st conv head payload).kcp := by
  have huna := h.inputUna head
  rcases inputSeg_cases st conv head payload with ⟨-, heq⟩ | ⟨-, heq⟩ | ⟨-, -, probe, heq⟩
  · rw [heq]
    exact huna.inputAck head
  · rw [heq]
    exact huna.congr (inputPush_sndBook _ conv head payload)
  · rw [heq]
    exact huna.congr rfl

theorem map_sn_fastackMark (sn ts : UInt32) (buf : List IkcpSeg) :
    (fastackMark sn ts buf).map IkcpSeg.sn = buf.map IkcpSeg.sn := by
  have hcore := congrArg (List.map IkcpSeg.sn) (map_core_fastackMark sn ts buf)
  rwa [List.map_map, List.map_map] at hcore

theorem parseFastack_sndBook (kcp : Ikcpcb) (sn ts : UInt32) :
    (ikcpParseFastack kcp sn ts).sndBook = kcp.sndBook := by
  unfold ikcpParseFastack
  split
  · rfl
  · simp only [Ikcpcb.sndBook, map_sn_fastackMark]

theorem inputFinish_sndBook (prevUna : UInt32) (st : InputSt) :
    (inputFinish prevUna st).sndBook = st.kcp.sndBook := by
  obtain ⟨cwnd, incr, heq⟩ := growCwnd_frame prevUna
    (if st.flag then ikcpParseFastack st.kcp st.maxack st.latestTs else st.kcp)
  rw [inputFinish, heq]
  split
  · exact parseFastack_sndBook st.kcp st.maxack st.latestTs
  · rfl

theorem SndOk.input (h : SndOk kcp) (data : Bytes) : SndOk (ikcpInput kcp data).1 :=
  ikcpInput_induct (fun _ conv head payload hst => hst.inputSeg conv head payload)
    (fun prevUna st hst => hst.congr (inputFinish_sndBook prevUna st)) h data

theorem recv_sndBook (kcp : Ikcpcb) {len : Int} (hlen : 0 ≤ len) :
    (ikcpRecv kcp len).1.sndBook = kcp.sndBook := by
  rcases ikcpRecv_cases kcp hlen with ⟨err, -, heq, -⟩ | ⟨-, -, -, probe, heq⟩
  · rw [heq]
  · rw [heq]
    exact moveRcvBuf_induct (P := fun k => k.sndBook = kcp.sndBook)
      (fun _ _ _ _ _ _ h => h) (show (popRcv kcp).sndBook = kcp.sndBook from rfl)

/-! ## Sending -/

theorem sendLoop_count :
    ∀ (n : Nat) {kcp : Ikcpcb} (buffer : Bytes) (len sent : Nat),
      kcp.nsndQue = kcp.sndQueue.length →
      (sendLoop kcp n buffer len sent).1.nsndQue
        = (sendLoop kcp n buffer len sent).1.sndQueue.length
  | 0, _, _, _, _, h => h
  | n + 1, kcp, buffer, len, sent, h => by
      rw [sendLoop]
      exact sendLoop_count n _ _ _ (by simp [h])

theorem extendLast_count {buffer : Bytes} {len : Nat} (h : kcp.nsndQue = kcp.sndQueue.length) :
    (extendLast kcp buffer len).1.nsndQue = (extendLast kcp buffer len).1.sndQueue.length := by
  unfold extendLast
  split
  · exact h
  · rename_i old hlast
    split
    · have hne : kcp.sndQueue ≠ [] := by
        intro hnil
        rw [hnil] at hlast
        cases hlast
      have hpos := List.length_pos_iff.mpr hne
      simp only [List.length_append, List.length_dropLast, List.length_singleton, h]
      omega
    · exact h

theorem ikcpSend_count (buffer : Bytes) (len : Int) (h : kcp.nsndQue = kcp.sndQueue.length) :
    (ikcpSend kcp buffer len).1.nsndQue = (ikcpSend kcp buffer len).1.sndQueue.length := by
  unfold ikcpSend
  split
  · exact h
  · simp only
    generalize hst : (if kcp.stream ≠ 0 then extendLast kcp buffer len.toNat
      else (kcp, buffer, len.toNat, 0)) = st
    have hcount : st.1.nsndQue = st.1.sndQueue.length := by
      rw [← hst]
      split
      · exact extendLast_count h
      · exact h
    split
    · exact hcount
    · split
      · split <;> exact hcount
      · exact sendLoop_count _ _ _ _ hcount

theorem SndOk.send (h : SndOk kcp) (buffer : Bytes) (len : Int) :
    SndOk (ikcpSend kcp buffer len).1 := by
  have hcount := ikcpSend_count buffer len h.count
  obtain ⟨queue, count, heq⟩ := ikcpSend_queue kcp buffer len
  rw [heq] at hcount ⊢
  exact ⟨hcount, h.bufCount, h.flight, h.window, h.wnd⟩

theorem SndOk.shiftSnd (h : SndOk kcp) {cwnd wnd : UInt32} {newseg : IkcpSeg}
    {rest : List IkcpSeg} (hcwnd : cwnd.toNat ≤ kcp.sndWnd.toNat)
    (hqueue : kcp.sndQueue = newseg :: rest)
    (hroom : itimediff kcp.sndNxt (kcp.sndUna + cwnd) < 0) :
    SndOk (shiftSnd wnd kcp newseg rest) := by
  have hwnd := h.wnd
  have hwindow := h.window
  have hin : snOffset kcp.sndUna kcp.sndNxt < cwnd.toNat :=
    (itimediff_window (by omega)).mp
      ⟨hroom, (itimediff_nonneg_iff _ _).mpr (by omega)⟩
  have hnext : snOffset kcp.sndUna (kcp.sndNxt + 1) = snOffset kcp.sndUna kcp.sndNxt + 1 := by
    rw [snOffset_eq_offset, snOffset_eq_offset, UInt32.toBitVec_add]
    exact Serial.offset_next _ _ (by rw [← snOffset_eq_offset]; omega)
  refine ⟨?_, ?_, ?_, ?_, hwnd⟩
  · have hcount := h.count
    rw [hqueue, List.length_cons] at hcount
    show kcp.nsndQue - 1 = rest.length
    omega
  · show kcp.nsndBuf + 1 = (kcp.sndBuf ++ [_]).length
    rw [List.length_append, List.length_singleton, h.bufCount]
  · have hpush := h.flight.push (by rw [← snOffset_eq_offset]; omega)
    simp only [CppDemos.shiftSnd, List.map_append, List.map_cons, List.map_nil,
      UInt32.toBitVec_add]
    exact hpush
  · show snOffset kcp.sndUna (kcp.sndNxt + 1) ≤ kcp.sndWnd.toNat
    omega

theorem SndOk.moveSndQueue {cwnd wnd : UInt32} :
    ∀ (queue : List IkcpSeg) {kcp : Ikcpcb}, SndOk kcp → kcp.sndQueue = queue →
      cwnd.toNat ≤ kcp.sndWnd.toNat → SndOk (moveSndQueue cwnd wnd kcp queue)
  | [], _, h, _, _ => h
  | newseg :: rest, kcp, h, hqueue, hcwnd => by
      rw [CppDemos.moveSndQueue]
      split
      · rename_i hroom
        exact SndOk.moveSndQueue rest (h.shiftSnd hcwnd hqueue hroom) rfl hcwnd
      · exact h

theorem flushCwnd_le (kcp : Ikcpcb) : (flushCwnd kcp).toNat ≤ kcp.sndWnd.toNat := by
  have hmin (a b : UInt32) : (imin a b).toNat ≤ a.toNat ∧ (imin a b).toNat ≤ b.toNat := by
    unfold imin
    split
    · rename_i hle
      exact ⟨Nat.le_refl _, UInt32.le_iff_toNat_le.mp hle⟩
    · rename_i hle
      have hlt := UInt32.le_iff_toNat_le.not.mp hle
      omega
  unfold flushCwnd
  simp only
  split
  · exact Nat.le_trans (hmin _ _).2 (hmin _ _).1
  · exact (hmin _ _).1

theorem dueSeg_getD_sn (kcp : Ikcpcb) (resent rtomin wnd : UInt32) (segment : IkcpSeg) :
    ((dueSeg kcp resent rtomin wnd segment).getD segment).sn = segment.sn := by
  cases hdue : dueSeg kcp resent rtomin wnd segment with
  | none => rfl
  | some due =>
      have hcore := (dueSeg_core hdue).1
      exact (congrArg IkcpSeg.sn hcore : due.core.sn = segment.core.sn)

theorem SndOk.flushBuffers (h : SndOk kcp) (wnd : UInt32) (out : OutBuf) :
    SndOk (flushBuffers kcp wnd out).1 := by
  obtain ⟨ssthresh, cwnd, incr, heq⟩ := flushBuffers_eq kcp wnd out
  have hmoved : SndOk (CppDemos.moveSndQueue (flushCwnd kcp) wnd kcp kcp.sndQueue) :=
    h.moveSndQueue kcp.sndQueue rfl (flushCwnd_le kcp)
  rw [heq]
  generalize CppDemos.moveSndQueue (flushCwnd kcp) wnd kcp kcp.sndQueue = k at *
  refine hmoved.congr ?_
  have hbuf := (flushData_eq k (flushResent k) (flushRtomin k) wnd k.sndBuf
    { xmit := k.xmit, state := k.state, out := out }).1
  have hsns : (flushSndBuf k wnd out).1.map IkcpSeg.sn = k.sndBuf.map IkcpSeg.sn := by
    rw [flushSndBuf, hbuf, List.map_map]
    exact List.map_congr_left fun s _ => dueSeg_getD_sn ..
  simp only [Ikcpcb.sndBook, hsns]

theorem SndOk.flush (h : SndOk kcp) : SndOk (ikcpFlush kcp).1 := by
  unfold ikcpFlush
  split
  · exact h
  · obtain ⟨wait, ts, hctl⟩ := flushControl_frame kcp
    have hk : SndOk (flushControl kcp).1 := by
      rw [hctl]
      exact h.congr rfl
    exact hk.flushBuffers _ _

theorem SndOk.update (h : SndOk kcp) (current : UInt32) : SndOk (ikcpUpdate kcp current).1 := by
  obtain ⟨updated, tsFlush, heq | heq⟩ := ikcpUpdate_cases kcp current
  · rw [heq]
    exact h.congr rfl
  · rw [heq]
    have hclock : SndOk
        { kcp with current := current, updated := updated, tsFlush := tsFlush } := h.congr rfl
    exact hclock.flush

end CppDemos
