import CppDemos.Kcp.Restamp
import CppDemos.Group.Progress

/-!
# Windows stay open

KCP probes a peer whose window is shut. In a group whose messages all fit the
buffer of `handleReceive` no window ever shuts: what a member has not taken off
`rcv_queue` is a part of one message, and a message has fewer segments than the
queue has room for. So every segment sent announces room, the timer of the probe
is never started and no probe is ever sent (`windows_stay_open`).
-/

namespace CppDemos

/-! ## One block -/

variable {kcp kcp' : Ikcpcb}

def Ikcpcb.asked (kcp : Ikcpcb) : UInt32 × UInt32 := (kcp.probe, kcp.probeWait)

/-- No probe is due, and none is being waited for. `probe` may still hold the
flag that tells the own window, which a flush answers without any timer. -/
structure Unasked (kcp : Ikcpcb) : Prop where
  probe : kcp.probe &&& ikcpAskSend = 0
  wait : kcp.probeWait = 0

theorem Unasked.congr (h : Unasked kcp) (heq : kcp'.asked = kcp.asked) : Unasked kcp' := by
  obtain ⟨hprobe, hwait⟩ := Prod.mk.inj heq
  have hprobe : kcp'.probe = kcp.probe := hprobe
  have hwait : kcp'.probeWait = kcp.probeWait := hwait
  exact ⟨hprobe ▸ h.probe, hwait ▸ h.wait⟩

theorem Unasked.tell (h : Unasked kcp) :
    Unasked { kcp with probe := kcp.probe ||| ikcpAskTell } := by
  have htell : (kcp.probe ||| ikcpAskTell) &&& ikcpAskSend
      = kcp.probe &&& ikcpAskSend ||| ikcpAskTell &&& ikcpAskSend := by
    simp only [← UInt32.toBitVec_inj, UInt32.toBitVec_and, UInt32.toBitVec_or,
      BitVec.and_or_distrib_right]
  refine ⟨?_, h.wait⟩
  simp only [htell, h.probe]
  decide

theorem moveRcvBuf_asked (kcp : Ikcpcb) : (moveRcvBuf kcp kcp.rcvBuf).asked = kcp.asked :=
  moveRcvBuf_induct (P := fun k => k.asked = kcp.asked) (fun _ _ _ _ _ _ h => h) rfl

theorem shrinkBuf_asked (kcp : Ikcpcb) : (ikcpShrinkBuf kcp).asked = kcp.asked := by
  unfold ikcpShrinkBuf
  split <;> rfl

theorem inputUna_asked (kcp : Ikcpcb) (head : SegHead) : (inputUna kcp head).asked = kcp.asked :=
  shrinkBuf_asked (ikcpParseUna { kcp with rmtWnd := head.wnd.toUInt32 } head.una)

theorem inputAck_asked (kcp : Ikcpcb) (head : SegHead) : (inputAck kcp head).asked = kcp.asked := by
  obtain ⟨rttval, srtt, rto, hrtt⟩ := inputRtt_eq kcp head.ts
  have hack (k : Ikcpcb) : (ikcpParseAck k head.sn).asked = k.asked := by
    unfold ikcpParseAck
    split
    · rfl
    · split <;> rfl
  refine (shrinkBuf_asked _).trans ((hack (inputRtt kcp head.ts)).trans ?_)
  rw [hrtt]
  rfl

theorem inputPush_asked (kcp : Ikcpcb) (conv : UInt32) (head : SegHead) (payload : Bytes) :
    (inputPush kcp conv head payload).asked = kcp.asked := by
  unfold inputPush ikcpParseData
  split
  · simp only
    split
    · split
      · rfl
      · split
        · exact moveRcvBuf_asked _
        · exact moveRcvBuf_asked (ikcpAckPush kcp head.sn head.ts)
    · rfl
  · rfl

theorem Unasked.inputSeg {st : InputSt} (h : Unasked st.kcp) (conv : UInt32) (head : SegHead)
    (payload : Bytes) : Unasked (inputSeg st conv head payload).kcp := by
  have huna : Unasked (inputUna st.kcp head) := h.congr (inputUna_asked _ _)
  rw [inputSeg_eq]
  split
  · have hack : Unasked (inputAck (inputUna st.kcp head) head) := huna.congr (inputAck_asked _ _)
    simp only
    split
    · exact hack
    · split <;> exact hack
  · split
    · exact huna.congr (inputPush_asked _ _ _ _)
    · split
      · exact huna.tell
      · exact huna

theorem Unasked.input (h : Unasked kcp) (data : Bytes) : Unasked (ikcpInput kcp data).1 := by
  refine ikcpInput_induct (fun st conv head payload hst => hst.inputSeg conv head payload)
    (fun prevUna st hst => hst.congr ?_) h data
  obtain ⟨cwnd, incr, heq⟩ := growCwnd_frame prevUna
    (if st.flag then ikcpParseFastack st.kcp st.maxack st.latestTs else st.kcp)
  rw [inputFinish, heq]
  split
  · unfold ikcpParseFastack
    split <;> rfl
  · rfl

theorem Unasked.recv (h : Unasked kcp) {len : Int} (hlen : 0 ≤ len) :
    Unasked (ikcpRecv kcp len).1 := by
  have hmove : Unasked (moveRcvBuf (popRcv kcp) (popRcv kcp).rcvBuf) :=
    h.congr (moveRcvBuf_asked (popRcv kcp))
  unfold ikcpRecv
  simp only [if_neg (Int.not_lt.mpr hlen)]
  split
  · exact h
  · split
    · exact h
    · split
      · exact h
      · split
        · exact hmove.tell
        · exact hmove

/-- With the peer's window open, a flush takes nothing up. -/
theorem Unasked.flush (h : Unasked kcp) (hrmt : kcp.rmtWnd ≠ 0) : Unasked (ikcpFlush kcp).1 := by
  unfold ikcpFlush
  split
  · exact h
  · have hnone : (0 : UInt32) &&& ikcpAskSend = 0 := by decide
    have hcontrol : Unasked (flushControl kcp).1 := by
      simp only [flushControl, probeWindow, if_neg hrmt]
      exact ⟨hnone, rfl⟩
    obtain ⟨ssthresh, cwnd, incr, heq⟩ := flushBuffers_eq (flushControl kcp).1
      (flushControl kcp).2.1.wnd (flushControl kcp).2.2
    obtain ⟨_, _, _, _, _, hmove⟩ := moveSndQueue_frame (flushCwnd (flushControl kcp).1)
      (flushControl kcp).2.1.wnd (flushControl kcp).1.sndQueue (flushControl kcp).1
    rw [heq, hmove]
    exact hcontrol.congr rfl

theorem Unasked.update (h : Unasked kcp) (hrmt : kcp.rmtWnd ≠ 0) (current : UInt32) :
    Unasked (ikcpUpdate kcp current).1 := by
  obtain ⟨updated, tsFlush, heq | heq⟩ := ikcpUpdate_cases kcp current
  · rw [heq]
    exact h.congr rfl
  · rw [heq]
    have hclock : Unasked { kcp with current := current, updated := updated, tsFlush := tsFlush } :=
      h.congr rfl
    exact hclock.flush hrmt

theorem Unasked.flushSegs (h : Unasked kcp) (hrmt : kcp.rmtWnd ≠ 0) (hupdated : kcp.updated ≠ 0)
    (hunsent : Unsent (ikcpFlush kcp).1) : ∀ seg ∈ flushSegs kcp, seg.cmd ≠ ikcpCmdWask := by
  have hprobing : (probeWindow { kcp with acklist := [] }).probe &&& ikcpAskSend = 0 := by
    simp only [probeWindow, if_neg hrmt]
    exact h.probe
  have hack : ∀ seg ∈ ackSegs (flushHead kcp) kcp.acklist, seg.cmd ≠ ikcpCmdWask := by
    intro seg hseg
    obtain ⟨ack, -, rfl⟩ := List.mem_map.mp hseg
    exact (by decide : ikcpCmdAck ≠ ikcpCmdWask)
  intro seg hseg
  rcases List.mem_append.mp hseg with hctl | hdata
  · rcases List.mem_append.mp hctl with hctl | hwins
    · rcases List.mem_append.mp hctl with hacks | hwask
      · exact hack seg hacks
      · rw [probeSegs, if_neg (not_not.mpr hprobing)] at hwask
        cases hwask
    · unfold probeSegs at hwins
      split at hwins
      · rw [List.mem_singleton.mp hwins]
        exact (by decide : ikcpCmdWins ≠ ikcpCmdWask)
      · cases hwins
  · obtain ⟨segment, hmem, hdue⟩ := List.mem_filterMap.mp hdata
    obtain ⟨-, -, hbuf⟩ := ikcpFlush_block hupdated
    have hcore : seg.core ∈ (ikcpFlush kcp).1.sndBuf.map IkcpSeg.core := by
      rw [hbuf]
      exact List.mem_map_of_mem (List.mem_map.mpr ⟨segment, hmem, by rw [hdue]; rfl⟩)
    have hcmd : seg.cmd = ikcpCmdPush := (hunsent.buf _ hcore).2.2
    rw [hcmd]
    decide

/-! ## The group -/

variable {ι : Type} {hears : Member ι → Member ι → Bool} {conv : UInt32} {g g' : Group ι}
  {log : List Bytes} {k : Nat}

/-- A segment of somebody with room who does not ask for room. -/
structure IkcpSeg.Plain (conv : UInt32) (seg : IkcpSeg) : Prop where
  sendable : seg.Sendable conv
  room : seg.wnd ≠ 0
  cmd : seg.cmd ≠ ikcpCmdWask

/-- Everything a member writes is plain. -/
theorem NodeInv.sent_plain (h : NodeInv log conv k kcp) (hfits : ∀ m ∈ log, Fits m)
    (hshort : ∀ m ∈ log, m.length ≤ bufferSize) (hsound : Sound conv kcp) (hopen : Unasked kcp)
    (hrmt : kcp.rmtWnd ≠ 0) (iclock : UInt32) :
    ∀ data ∈ (ikcpUpdate kcp iclock).2, DatagramOf (IkcpSeg.Plain conv) data := by
  have hwnd := h.wndUnused_ne_zero hfits hshort
  have hparses := hsound.unsent.outs hsound.rcv.ok iclock
  have hafter := hsound.unsent.update iclock
  have hconv : kcp.conv = conv := congrArg Setup.conv h.setup
  have hmtu : kcp.mtu.toNat < bufferSize := by
    rw [show kcp.mtu = 1400 from congrArg Setup.mtu h.setup]
    decide
  have hconv' : (ikcpUpdate kcp iclock).1.conv = kcp.conv :=
    congrArg Setup.conv (ikcpUpdate_frame kcp iclock).1
  by_cases hflush : Flushes kcp iclock
  · obtain ⟨updated, tsFlush, hupdated, heq⟩ := ikcpUpdate_of_flushes hflush
    rw [heq] at hparses hafter hconv' ⊢
    have hclock : Unasked { kcp with current := iclock, updated := updated, tsFlush := tsFlush } :=
      hopen.congr rfl
    have hplain := hclock.flushSegs hrmt hupdated hafter
    obtain ⟨groups, hpack, -, hflat, -⟩ := pack_groups kcp.mtu
      (flushSegs { kcp with current := iclock, updated := updated, tsFlush := tsFlush })
    have houts : (ikcpFlush
        { kcp with current := iclock, updated := updated, tsFlush := tsFlush }).2
          = groups.map datagram := (ikcpFlush_outs hupdated).trans hpack
    intro data hdata
    have hlen := (hparses data hdata).length
    rw [houts] at hdata
    obtain ⟨group, hgroup, rfl⟩ := List.mem_map.mp hdata
    refine ⟨group, rfl, by omega, fun seg hseg => ?_⟩
    have hmem : seg ∈ flushSegs
        { kcp with current := iclock, updated := updated, tsFlush := tsFlush } :=
      hflat ▸ List.mem_flatten.mpr ⟨group, hgroup, hseg⟩
    exact ⟨hconv ▸ hafter.sendable hconv' hsound.rcv.ok (flushSegs_flushed hupdated hmem).of_clock,
      (flushSegs_head hmem).2 ▸ hwnd, hplain seg hmem⟩
  · rw [ikcpUpdate_of_not_flushes hflush]
    simp

/-- A healthy group in which nobody asks anybody for room. A window is only
asked for once a segment has told of none, and while every message fits the
buffer of `handleReceive` no segment ever does. -/
structure Open (hears : Member ι → Member ι → Bool) (conv : UInt32) (g : Group ι) : Prop where
  healthy : Healthy hears conv g
  unasked : ∀ m kcp, (g.node m).kcp = some kcp → Unasked kcp
  net : ∀ o data, (o, data) ∈ g.net → DatagramOf (IkcpSeg.Plain conv) data

theorem Group.Fresh.open (h : g.Fresh conv) : Open hears conv g := by
  refine ⟨h.healthy, fun m kcp hkcp => ?_, fun o data hmem => ?_⟩
  · obtain ⟨env, ip, port, c, w, hinit, -, hnode⟩ := h.init m
    obtain ⟨mem, hlive⟩ := live_of_init hinit
    have hblock : (g.node m).kcp = some (freshKcp (actualConv c) mem) := by
      rcases hnode with hnode | hnode <;> rw [hnode] <;> exact hlive.block
    obtain rfl := Option.some.inj (hblock.symm.trans hkcp)
    have hnone : (0 : UInt32) &&& ikcpAskSend = 0 := by decide
    rw [freshKcp_eq]
    exact ⟨hnone, rfl⟩
  · rw [h.net] at hmem
    cases hmem

theorem Unasked.handleReceive (results : List RecvResult) :
    ∀ {kcp : Ikcpcb}, Unasked kcp → Unasked (handleReceive kcp results).1 := by
  have hdrain : ∀ (fuel : Nat) {kcp : Ikcpcb}, Unasked kcp → Unasked (drain fuel kcp).1 := by
    intro fuel
    induction fuel with
    | zero => exact fun h => h
    | succ fuel ih =>
        intro kcp h
        have hrecv := h.recv (Int.natCast_nonneg bufferSize)
        rw [drain_succ]
        split
        · exact hrecv
        · exact ih hrecv
  induction results with
  | nil => exact fun h => h
  | cons r results ih =>
      intro kcp h
      cases r with
      | failed => exact ih h
      | datagram data =>
          rw [handleReceive_datagram]
          exact ih (hdrain _ (h.input _))

variable [DecidableEq ι]

theorem Open.step (h : Open hears conv g) {e : Event ι} (hstep : g.step hears e = some g')
    (hload : g'.load < 2 ^ 31) : Open hears conv g' := by
  have hhealthy := h.healthy.step hstep hload
  obtain ⟨hbound, hshort⟩ := Group.load_lt_iff.mp
    (Nat.lt_of_le_of_lt (Group.load_mono hstep) hload)
  obtain ⟨pos, hsending⟩ := h.healthy.sending
  cases e with
  | send data =>
      simp only [Group.step, Option.ite_none_right_eq_some, Option.some.injEq] at hstep
      obtain ⟨hlen, rfl⟩ := hstep
      obtain ⟨kcp, hlive, -⟩ := hsending.inv.member .sender
      refine ⟨hhealthy, fun o kcp' hkcp' => ?_, h.net⟩
      rcases hlive.send data hlen with ⟨-, -, segs, -, heq⟩ | ⟨-, heq⟩
      · have hsend : g.send data = g.queued kcp segs data := by
          rw [Group.send, heq]
          rfl
        rw [hsend] at hkcp'
        by_cases ho : o = .sender
        · subst ho
          obtain rfl := Option.some.inj (hkcp'.symm.trans Group.queued_sender)
          exact (h.unasked .sender kcp hlive.block).congr rfl
        · rw [Group.queued_other ho] at hkcp'
          exact h.unasked o kcp' hkcp'
      · rw [Group.send_refused heq] at hkcp'
        exact h.unasked o kcp' hkcp'
  | update m iclock results =>
      simp only [Group.step, Option.ite_none_right_eq_some, Option.some.injEq] at hstep
      obtain ⟨hread, rfl⟩ := hstep
      obtain ⟨kcp, hlive, hnode⟩ := hsending.inv.member m
      obtain ⟨snd, hsnd, -⟩ := hsending.inv.member .sender
      obtain ⟨hlive', hnet⟩ := @Group.update_block conv ι g _ m iclock results kcp hlive
      have hrmt := (h.healthy.abreast snd hsnd.block m kcp hlive.block).room
      have hopen := h.unasked m kcp hlive.block
      refine ⟨hhealthy, fun o kcp' hkcp' => ?_, fun o data hmem => ?_⟩
      · by_cases ho : o = m
        · subst ho
          obtain rfl := Option.some.inj (hlive'.block.symm.trans hkcp')
          exact (hopen.update hrmt iclock).handleReceive results
        · rw [Group.update_other ho] at hkcp'
          exact h.unasked o kcp' hkcp'
      · rw [hnet] at hmem
        rcases List.mem_append.mp hmem with hold | hnew
        · exact h.net o data hold
        · obtain ⟨data', hdata', heq⟩ := List.mem_map.mp hnew
          obtain ⟨-, rfl⟩ := Prod.mk.inj heq
          exact hnode.sent_plain hsending.inv.fits hshort (h.healthy.sound m kcp hlive.block)
            hopen hrmt iclock data' hdata'

/-- While every message fits the buffer of `handleReceive`, in every run each member
has room and sees its peer's window open, never waits for it to open, and every
segment on the network announces room and none asks for it. -/
theorem windows_stay_open {es : List (Event ι)} (hfresh : g.Fresh conv)
    (hrun : Machine.run (Group.step hears) g es = some g') (hbound : g'.created < 2 ^ 31)
    (hshort : ∀ m ∈ g'.accepted, m.length ≤ bufferSize) :
    (∀ m kcp, (g'.node m).kcp = some kcp →
      kcp.rmtWnd ≠ 0 ∧ ikcpWndUnused kcp ≠ 0 ∧ kcp.probeWait = 0) ∧
    ∀ o data, (o, data) ∈ g'.net →
      DatagramOf (fun seg => seg.Sendable conv ∧ seg.wnd ≠ 0 ∧ seg.cmd ≠ ikcpCmdWask) data := by
  have hopen : Open hears conv g' := Machine.run_invariant_below (fun _ _ _ => Group.load_mono)
    (fun _ _ _ h hstep hload => h.step hstep hload) hrun hfresh.open
    (Group.load_lt_iff.mpr ⟨hbound, hshort⟩)
  obtain ⟨pos, hsending⟩ := hopen.healthy.sending
  obtain ⟨snd, hsnd, -⟩ := hsending.inv.member .sender
  refine ⟨fun m kcp hkcp => ?_, fun o data hmem => ?_⟩
  · obtain ⟨kcp', hlive, hnode⟩ := hsending.inv.member m
    obtain rfl := Option.some.inj (hlive.block.symm.trans hkcp)
    refine ⟨(hopen.healthy.abreast snd hsnd.block m _ hkcp).room, ?_, (hopen.unasked m _ hkcp).wait⟩
    intro hzero
    exact hnode.wndUnused_ne_zero hsending.inv.fits hshort (by rw [hzero]; rfl)
  · exact (hopen.net o data hmem).imp fun seg hseg => ⟨hseg.sendable, hseg.room, hseg.cmd⟩

/-- One message is sent and flushed, and the receiver reads it. -/
def oneByteRun : List (Event (Fin 1)) :=
  let push := datagram [{ conv := mainConv, cmd := ikcpCmdPush, wnd := 128, data := [1] }]
  [.send [1], .update .sender 0 [], .update (.receiver ⟨0, Nat.one_pos⟩) 0 [.datagram push]]

theorem windows_stay_open_one :
    ∃ g', Machine.run (Group.step hearsOthers) (programs (Fin 1)) oneByteRun = some g' ∧
      g'.delivered (.receiver 0) = [[1]] ∧ (∀ m kcp, (g'.node m).kcp = some kcp →
        kcp.rmtWnd ≠ 0 ∧ ikcpWndUnused kcp ≠ 0 ∧ kcp.probeWait = 0) ∧
      ∀ o data, (o, data) ∈ g'.net → DatagramOf
        (fun seg => seg.Sendable mainConv ∧ seg.wnd ≠ 0 ∧ seg.cmd ≠ ikcpCmdWask) data := by
  have hobs : (Machine.run (Group.step hearsOthers) (programs (Fin 1)) oneByteRun).map
      (fun g => (g.accepted, g.delivered (.receiver 0))) = some ([[1]], [[1]]) := by
    decide +kernel
  obtain ⟨g', hrun, heq⟩ := Option.map_eq_some_iff.mp hobs
  obtain ⟨haccepted, hcalled⟩ := Prod.mk.inj heq
  have hbound : g'.created < 2 ^ 31 := by
    rw [Group.created, haccepted]
    decide +kernel
  have hshort : ∀ m ∈ g'.accepted, m.length ≤ bufferSize := by
    rw [haccepted]
    decide
  obtain ⟨hblocks, hnet⟩ := windows_stay_open (programs_fresh _) hrun hbound hshort
  exact ⟨g', hrun, hcalled, hblocks, hnet⟩

end CppDemos
