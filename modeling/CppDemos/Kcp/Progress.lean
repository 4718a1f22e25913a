import CppDemos.Kcp.Bounds
import CppDemos.Kcp.Timers

/-!
# What one exchange achieves

The steps from which a transmission recovers, each for a single block. A due
flush writes every segment of `snd_buf` whose timer has run out and carries
`rcv_nxt` in all it writes (`ikcpUpdate_outs`), and with nothing in flight it
numbers something new (`ikcpUpdate_moves`). A block that reads a data segment
not beyond its window has an acknowledgement to send (`acklist_of_input`), and
one that reads its peer's `rcv_nxt` drops all below it (`sndBuf_of_input`).

`Abreast n` is the invariant these steps need of both ends: nobody has got
ahead of the `n` segments numbered so far, and no peer's window is shut.
-/

namespace CppDemos

variable {kcp kcp' : Ikcpcb}

/-! ## A due flush -/

theorem flushSegs_control {seg : IkcpSeg} (h : seg ∈ controlSegs kcp) (sndBuf : List IkcpSeg) :
    Flushed kcp sndBuf seg := by
  have hack (acks : List (UInt32 × UInt32)) :
      ∀ {head : IkcpSeg}, IsControl kcp head → IsControl kcp (ackHead head acks) := by
    induction acks with
    | nil => exact fun h => h
    | cons ack acks ih => exact fun h => ih ⟨h.conv, h.frg, h.wnd, h.una, h.data⟩
  have hprobe {k : Ikcpcb} {flag cmd : UInt32} {head : IkcpSeg} (hhead : IsControl kcp head)
      (hseg : seg ∈ probeSegs k flag cmd head) : IsControl kcp seg ∧ seg.cmd = cmd := by
    unfold probeSegs at hseg
    split at hseg
    · rw [List.mem_singleton.mp hseg]
      exact ⟨⟨hhead.conv, hhead.frg, hhead.wnd, hhead.una, hhead.data⟩, rfl⟩
    · cases hseg
  have hhead : IsControl kcp (flushedHead kcp) := hack kcp.acklist (isControl_flushHead kcp)
  have hnext (k : Ikcpcb) (flag cmd : UInt32) :
      IsControl kcp (probeHead k flag cmd (flushedHead kcp)) := by
    unfold probeHead
    split
    · exact ⟨hhead.conv, hhead.frg, hhead.wnd, hhead.una, hhead.data⟩
    · exact hhead
  rcases List.mem_append.mp h with h | hwins
  · rcases List.mem_append.mp h with hacks | hwask
    · obtain ⟨ack, hmem, rfl⟩ := List.mem_map.mp hacks
      exact Or.inl ⟨⟨rfl, rfl, rfl, rfl, rfl⟩, rfl, ack.2, hmem⟩
    · obtain ⟨hctl, hcmd⟩ := hprobe hhead hwask
      exact Or.inr (Or.inl ⟨hctl, Or.inl hcmd⟩)
  · obtain ⟨hctl, hcmd⟩ := hprobe (hnext _ _ _) hwins
    exact Or.inr (Or.inl ⟨hctl, Or.inr hcmd⟩)

theorem ikcpFlush_block (h : kcp.updated ≠ 0) :
    ((ikcpFlush kcp).1.updated = kcp.updated ∧ (ikcpFlush kcp).1.rmtWnd = kcp.rmtWnd) ∧
      (ikcpFlush kcp).1.sndQueue = (flushing kcp).sndQueue ∧
      (ikcpFlush kcp).1.sndBuf = (flushing kcp).sndBuf.map fun s =>
        (dueSeg (flushing kcp) (flushResent (flushing kcp)) (flushRtomin (flushing kcp))
          (UInt32.ofNat (ikcpWndUnused kcp)) s).getD s := by
  obtain ⟨wait, ts, hctl⟩ := flushControl_frame kcp
  obtain ⟨hwnd, -⟩ := flushControl_out kcp
  obtain ⟨ssthresh, cwnd, incr, heq⟩ := flushBuffers_eq (flushControl kcp).1
    (flushControl kcp).2.1.wnd (flushControl kcp).2.2
  obtain ⟨_, _, _, _, _, hmove⟩ := moveSndQueue_frame (flushCwnd (flushControl kcp).1)
    (UInt32.ofNat (ikcpWndUnused kcp)) (flushControl kcp).1.sndQueue (flushControl kcp).1
  have hdata := (flushData_eq (flushing kcp) (flushResent (flushing kcp))
    (flushRtomin (flushing kcp)) (UInt32.ofNat (ikcpWndUnused kcp)) (flushing kcp).sndBuf
    { xmit := (flushing kcp).xmit, state := (flushing kcp).state,
      out := (flushControl kcp).2.2 }).1
  have hframe : (flushing kcp).updated = kcp.updated ∧ (flushing kcp).rmtWnd = kcp.rmtWnd := by
    rw [flushing, hmove, hctl]
    exact ⟨rfl, rfl⟩
  rw [ikcpFlush, if_neg h, heq]
  simp only [hwnd]
  exact ⟨hframe, rfl, hdata⟩

theorem flushSegs_flushed (h : kcp.updated ≠ 0) {seg : IkcpSeg} (hseg : seg ∈ flushSegs kcp) :
    Flushed kcp (ikcpFlush kcp).1.sndBuf seg := by
  rcases List.mem_append.mp hseg with hctl | hdata
  · exact flushSegs_control hctl _
  · obtain ⟨huna, hwnd⟩ := flushSegs_head hseg
    obtain ⟨segment, hmem, hdue⟩ := List.mem_filterMap.mp hdata
    obtain ⟨-, -, hbuf⟩ := ikcpFlush_block h
    refine Or.inr (Or.inr ⟨huna, hwnd, seg, ?_, rfl⟩)
    rw [hbuf]
    exact List.mem_map.mpr ⟨segment, hmem, by rw [hdue]; rfl⟩

/-- What an update at a time when a flush is due passes to `udp_output`. -/
structure Outs (kcp : Ikcpcb) (current : UInt32) (groups : List (List IkcpSeg)) : Prop where
  outs : (ikcpUpdate kcp current).2 = groups.map datagram
  length : ∀ group ∈ groups, (datagram group).length ≤ kcp.mtu.toNat
  flushed : ∀ seg ∈ groups.flatten, Flushed kcp (ikcpUpdate kcp current).1.sndBuf seg
  due : ∀ segment ∈ kcp.sndBuf, 0 ≤ itimediff current segment.resendts →
    ∃ seg ∈ groups.flatten, seg.core = segment.core
  ack : kcp.acklist ≠ [] → ∃ seg ∈ groups.flatten, seg.una = kcp.rcvNxt

theorem ikcpUpdate_outs (hfit : FitsMtu kcp) {current : UInt32} (h : Flushes kcp current) :
    ∃ groups, Outs kcp current groups := by
  obtain ⟨updated, tsFlush, hupdated, heq⟩ := ikcpUpdate_of_flushes h
  obtain ⟨moved, hspec⟩ := ikcpUpdate_spec hfit current
  obtain ⟨groups, hpack, hgroups, hflat, -⟩ := pack_groups kcp.mtu
    (flushSegs { kcp with current := current, updated := updated, tsFlush := tsFlush })
  have houts : (ikcpUpdate kcp current).2 = groups.map datagram := by
    rw [heq]
    exact (ikcpFlush_outs hupdated).trans hpack
  have hflushed : ∀ seg ∈ groups.flatten, Flushed kcp (ikcpUpdate kcp current).1.sndBuf seg := by
    intro seg hseg
    rw [hflat] at hseg
    have hclock := flushSegs_flushed hupdated hseg
    rw [heq]
    exact hclock.of_clock
  refine ⟨groups, houts, ?_, hflushed, ?_, ?_⟩
  · intro group hgroup
    rcases (hgroups group hgroup).2 with hle | ⟨seg, rfl⟩
    · exact hle
    · -- a single segment fits, too
      have hlen : (datagram [seg]).length = ikcpOverhead + seg.len := by
        simp [datagram, length_segBytes]
      rw [hlen]
      rcases hflushed seg (List.mem_flatten.mpr ⟨_, hgroup, List.mem_singleton_self seg⟩) with
        ⟨hctl, -⟩ | ⟨hctl, -⟩ | ⟨-, -, s, hs, hcore⟩
      · exact hctl.need ▸ hfit.head
      · exact hctl.need ▸ hfit.head
      · have hsame : s.len = seg.len := congrArg (fun s => s.data.length) hcore
        exact hsame ▸ hfit.moved hspec.snd s hs
  · intro segment hmem hdue
    rw [hflat]
    exact flushSegs_due hmem (Or.inr hdue)
  · intro hne
    obtain ⟨ack, hack⟩ := List.exists_mem_of_ne_nil _ hne
    rw [hflat]
    exact ⟨_, flushSegs_ack hack, rfl⟩

/-- With nothing in flight and the peer's window open, a flush numbers
something. -/
theorem ikcpUpdate_moves (h : SndOk kcp) {current : UInt32} (hflush : Flushes kcp current)
    (hbuf : kcp.sndBuf = []) (hqueue : kcp.sndQueue ≠ []) (hnocwnd : kcp.nocwnd ≠ 0)
    (hsnd : kcp.sndWnd ≠ 0) (hrmt : kcp.rmtWnd ≠ 0) :
    (ikcpUpdate kcp current).1.sndQueue.length < kcp.sndQueue.length := by
  obtain ⟨updated, tsFlush, hupdated, heq⟩ := ikcpUpdate_of_flushes hflush
  have hcwnd : flushCwnd kcp ≠ 0 := by
    have himin (a b : UInt32) (ha : a ≠ 0) (hb : b ≠ 0) : imin a b ≠ 0 := by
      unfold imin
      split
      · exact ha
      · exact hb
    unfold flushCwnd
    simp only [if_neg hnocwnd]
    exact himin _ _ hsnd hrmt
  have hle := flushCwnd_le kcp
  have hwnd := h.wnd
  have hpos : (flushCwnd kcp).toNat ≠ 0 := fun hzero => hcwnd (UInt32.toNat_inj.mp hzero)
  have hroom : itimediff kcp.sndNxt (kcp.sndUna + flushCwnd kcp) < 0 := by
    refine ((itimediff_window (by omega)).mpr ?_).1
    rw [h.empty hbuf, snOffset_eq_zero.mpr rfl]
    omega
  obtain ⟨seg, rest, hcons⟩ := List.exists_cons_of_ne_nil hqueue
  obtain ⟨-, hmoved, -⟩ := @ikcpFlush_block
    { kcp with current := current, updated := updated, tsFlush := tsFlush } hupdated
  obtain ⟨wait, ts, hctl⟩ := flushControl_frame
    { kcp with current := current, updated := updated, tsFlush := tsFlush }
  rw [heq, hmoved, flushing, hctl]
  simp only
  rw [hcons]
  exact moveSndQueue_length_lt hroom

/-- The first flush starts the timer for good. -/
theorem ikcpUpdate_updated {current : UInt32} (h : Flushes kcp current) :
    (ikcpUpdate kcp current).1.updated ≠ 0 := by
  obtain ⟨updated, tsFlush, hupdated, heq⟩ := ikcpUpdate_of_flushes h
  obtain ⟨⟨hsame, -⟩, -⟩ := @ikcpFlush_block
    { kcp with current := current, updated := updated, tsFlush := tsFlush } hupdated
  rw [heq, hsame]
  exact hupdated

/-! ## Keeping abreast -/

/-- The block expects a number from `low` to `high`, what it has got ahead of
that is below `high`, and its peer's window is open. -/
structure Abreast (low high : Nat) (kcp : Ikcpcb) : Prop where
  room : kcp.rmtWnd ≠ 0
  wnd : kcp.rcvWnd = ikcpWndRcv
  got : low ≤ kcp.rcvNxt.toNat
  nxt : kcp.rcvNxt.toNat ≤ high
  buf : ∀ seg ∈ kcp.rcvBuf, seg.sn.toNat < high

/-- A segment from somebody with room, numbered below `high` if it carries
data. -/
structure IkcpSeg.Within (high : Nat) (seg : IkcpSeg) : Prop where
  room : seg.wnd ≠ 0
  sn : seg.cmd = ikcpCmdPush → seg.sn.toNat < high

variable {low high : Nat}

theorem Abreast.congr (h : Abreast low high kcp) (hrcv : kcp'.rcvSide = kcp.rcvSide)
    (hrmt : kcp'.rmtWnd = kcp.rmtWnd) : Abreast low high kcp' := by
  simp only [Ikcpcb.rcvSide, RcvSide.mk.injEq] at hrcv
  obtain ⟨hnxt, hwnd, -, -, -, hbuf⟩ := hrcv
  exact ⟨hrmt ▸ h.room, hwnd.trans h.wnd, hnxt ▸ h.got, hnxt ▸ h.nxt, hbuf ▸ h.buf⟩

theorem Abreast.mono (h : Abreast low high kcp) {high' : Nat} (hle : high ≤ high') :
    Abreast low high' kcp :=
  ⟨h.room, h.wnd, h.got, Nat.le_trans h.nxt hle,
    fun seg hseg => Nat.lt_of_lt_of_le (h.buf seg hseg) hle⟩

theorem Abreast.shift (h : Abreast low high kcp) (hhigh : high < 2 ^ 32) {seg : IkcpSeg}
    {rest : List IkcpSeg} (hbuf : kcp.rcvBuf = seg :: rest) (hsn : seg.sn = kcp.rcvNxt) :
    Abreast low high (shiftRcv kcp seg rest) := by
  have hlt := h.buf seg (hbuf ▸ List.mem_cons_self ..)
  have hlow := h.got
  rw [hsn] at hlt
  have hnext : (kcp.rcvNxt + 1).toNat = kcp.rcvNxt.toNat + 1 := by
    rw [UInt32.toNat_add, UInt32.toNat_one, Nat.mod_eq_of_lt (by omega)]
  refine ⟨h.room, h.wnd, ?_, ?_, fun s hs => h.buf s (hbuf ▸ List.mem_cons_of_mem _ hs)⟩
  · simp only [shiftRcv, hnext]
    omega
  · simp only [shiftRcv, hnext]
    omega

theorem Abreast.moveRcvBuf (h : Abreast low high kcp) (hhigh : high < 2 ^ 32) :
    Abreast low high (moveRcvBuf kcp kcp.rcvBuf) :=
  moveRcvBuf_induct (fun _ _ _ hbuf hsn _ hk => hk.shift hhigh hbuf hsn) h

theorem Abreast.recv (h : Abreast low high kcp) (hhigh : high < 2 ^ 32) {len : Int}
    (hlen : 0 ≤ len) : Abreast low high (ikcpRecv kcp len).1 := by
  rcases ikcpRecv_cases kcp hlen with ⟨err, -, heq, -⟩ | ⟨-, -, -, probe, heq⟩
  · rw [heq]
    exact h
  · have hpop : Abreast low high (popRcv kcp) := ⟨h.room, h.wnd, h.got, h.nxt, h.buf⟩
    rw [heq]
    exact (hpop.moveRcvBuf hhigh).congr rfl rfl

theorem Abreast.parseData (h : Abreast low high kcp) (hhigh : high < 2 ^ 32) {newseg : IkcpSeg}
    (hsn : newseg.sn.toNat < high) : Abreast low high (ikcpParseData kcp newseg) := by
  unfold ikcpParseData
  split
  · exact h
  · cases hins : rcvInsert newseg kcp.rcvBuf with
    | none => exact h.moveRcvBuf hhigh
    | some buf =>
        have hnext : Abreast low high { kcp with rcvBuf := buf, nrcvBuf := kcp.nrcvBuf + 1 } := by
          refine ⟨h.room, h.wnd, h.got, h.nxt, fun s hs => ?_⟩
          rcases List.mem_cons.mp ((rcvInsert_perm hins).mem_iff.mp hs) with rfl | hs
          · exact hsn
          · exact h.buf s hs
        exact hnext.moveRcvBuf hhigh

theorem Abreast.inputPush (h : Abreast low high kcp) (hhigh : high < 2 ^ 32) (conv : UInt32)
    {head : SegHead} (payload : Bytes) (hsn : head.sn.toNat < high) :
    Abreast low high (inputPush kcp conv head payload) := by
  have hpush : Abreast low high (ikcpAckPush kcp head.sn head.ts) := h.congr rfl rfl
  unfold CppDemos.inputPush
  split
  · simp only
    split
    · exact hpush.parseData hhigh hsn
    · exact hpush
  · exact h

theorem shrinkBuf_rmtWnd (kcp : Ikcpcb) : (ikcpShrinkBuf kcp).rmtWnd = kcp.rmtWnd := by
  unfold ikcpShrinkBuf
  split <;> rfl

theorem inputAck_rmtWnd (kcp : Ikcpcb) (head : SegHead) :
    (inputAck kcp head).rmtWnd = kcp.rmtWnd := by
  have hparse (k : Ikcpcb) (sn : UInt32) : (ikcpParseAck k sn).rmtWnd = k.rmtWnd := by
    unfold ikcpParseAck
    split
    · rfl
    · split <;> rfl
  have hack (k : Ikcpcb) (rtt : Int32) : (ikcpUpdateAck k rtt).rmtWnd = k.rmtWnd := by
    unfold ikcpUpdateAck
    split <;> rfl
  rw [inputAck, shrinkBuf_rmtWnd, hparse]
  split
  · exact hack kcp _
  · rfl

theorem inputFinish_rmtWnd (prevUna : UInt32) (st : InputSt) :
    (inputFinish prevUna st).rmtWnd = st.kcp.rmtWnd := by
  obtain ⟨cwnd, incr, heq⟩ := growCwnd_frame prevUna
    (if st.flag then ikcpParseFastack st.kcp st.maxack st.latestTs else st.kcp)
  rw [inputFinish, heq]
  split
  · unfold ikcpParseFastack
    split <;> rfl
  · rfl

theorem IkcpSeg.WireOk.head_wnd {seg : IkcpSeg} (h : seg.WireOk) :
    seg.head.wnd.toUInt32 = seg.wnd := by
  apply UInt32.toNat_inj.mp
  have := h.wnd
  simp [IkcpSeg.head]
  omega

theorem Abreast.inputSeg {st : InputSt} (h : Abreast low high st.kcp) (hhigh : high < 2 ^ 32)
    {seg : IkcpSeg} (hwire : seg.WireOk) (hseg : seg.Within high) :
    Abreast low high (inputSeg st seg.conv seg.head seg.data).kcp := by
  have huna : Abreast low high (inputUna st.kcp seg.head) := by
    have hopen : Abreast low high { st.kcp with rmtWnd := seg.head.wnd.toUInt32 } :=
      ⟨hwire.head_wnd ▸ hseg.room, h.wnd, h.got, h.nxt, h.buf⟩
    exact hopen.congr (inputUna_frame st.kcp seg.head).2.1 (shrinkBuf_rmtWnd _)
  rcases inputSeg_cases st seg.conv seg.head seg.data with
    ⟨-, heq⟩ | ⟨hcmd, heq⟩ | ⟨-, -, probe, heq⟩
  · rw [heq]
    exact huna.congr (inputAck_frame _ _).2.1 (inputAck_rmtWnd _ _)
  · rw [heq]
    exact huna.inputPush hhigh _ _ (hseg.sn (hwire.head_cmd ▸ hcmd))
  · rw [heq]
    exact huna.congr rfl rfl

theorem Abreast.finish {prevUna : UInt32} {st : InputSt} (h : Abreast low high st.kcp) :
    Abreast low high (inputFinish prevUna st) :=
  h.congr (inputFinish_frame prevUna st).2.1 (inputFinish_rmtWnd prevUna st)

/-! ## What reading one segment achieves -/

/-- What one segment of a datagram brings about and the others keep holds when
the datagram has been read. -/
theorem ikcpInput_datagram_reaches {P Q : Ikcpcb → Prop} {segs : List IkcpSeg} {seg : IkcpSeg}
    (hsegs : ∀ seg ∈ segs, seg.Sendable kcp.conv)
    (hkeep : ∀ st : InputSt, ∀ seg ∈ segs, P st.kcp →
      P (inputSeg st seg.conv seg.head seg.data).kcp)
    (hmem : seg ∈ segs)
    (hreach : ∀ st : InputSt, P st.kcp → Q (inputSeg st seg.conv seg.head seg.data).kcp)
    (hstay : ∀ (st : InputSt) (seg : IkcpSeg), Q st.kcp →
      Q (inputSeg st seg.conv seg.head seg.data).kcp)
    (hfinish : ∀ prevUna st, Q st.kcp → Q (inputFinish prevUna st)) (h : P kcp) :
    Q (ikcpInput kcp (datagram segs)).1 := by
  rw [ikcpInput_datagram (List.ne_nil_of_mem hmem) hsegs]
  refine hfinish _ _ ?_
  obtain ⟨front, rest, rfl⟩ := List.append_of_mem hmem
  have hfront : ∀ (l : List IkcpSeg) (st : InputSt), (∀ s ∈ l, s ∈ front ++ seg :: rest) →
      P st.kcp → P (l.foldl (fun st s => inputSeg st s.conv s.head s.data) st).kcp := by
    intro l
    induction l with
    | nil => exact fun _ _ hP => hP
    | cons s l ih =>
        exact fun st hl hP => ih _ (fun s' hs' => hl s' (List.mem_cons_of_mem _ hs'))
          (hkeep st s (hl s (List.mem_cons_self ..)) hP)
  have hrest : ∀ (l : List IkcpSeg) (st : InputSt), Q st.kcp →
      Q (l.foldl (fun st s => inputSeg st s.conv s.head s.data) st).kcp := by
    intro l
    induction l with
    | nil => exact fun _ hQ => hQ
    | cons s l ih => exact fun st hQ => ih _ (hstay st s hQ)
  rw [List.foldl_append, List.foldl_cons]
  exact hrest rest _ (hreach _ (hfront front _ (fun s hs => List.mem_append_left _ hs) h))

theorem Abreast.input (h : Abreast low high kcp) (hhigh : high < 2 ^ 32) {segs : List IkcpSeg}
    (hsegs : ∀ seg ∈ segs, seg.Sendable kcp.conv) (hwithin : ∀ seg ∈ segs, seg.Within high) :
    Abreast low high (ikcpInput kcp (datagram segs)).1 :=
  ikcpInput_datagram_induct hsegs
    (fun _ seg hseg hst => hst.inputSeg hhigh (hsegs seg hseg).wire (hwithin seg hseg))
    (fun _ _ hst => hst.finish) h

theorem inputSeg_acklist_ne_nil {st : InputSt} (seg : IkcpSeg) (h : st.kcp.acklist ≠ []) :
    (inputSeg st seg.conv seg.head seg.data).kcp.acklist ≠ [] := by
  rcases inputSeg_rcv st seg.conv seg.head seg.data with ⟨-, k, -, -, hk, heq⟩ | ⟨-, -, hk⟩
  · rw [heq]
    rcases inputPush_acklist k seg.conv seg.head seg.data with hsame | ⟨hnew, -⟩
    · rw [hsame, hk]
      exact h
    · rw [hnew]
      simp
  · rw [hk]
    exact h

theorem acklist_of_input (h : Abreast low high kcp) (hhigh : high < 2 ^ 31)
    {segs : List IkcpSeg} (hsegs : ∀ seg ∈ segs, seg.Sendable kcp.conv)
    (hwithin : ∀ seg ∈ segs, seg.Within high) {seg : IkcpSeg} (hmem : seg ∈ segs)
    (hcmd : seg.cmd = ikcpCmdPush) (hsn : seg.sn.toNat < low) (hnear : high ≤ seg.sn.toNat + 128) :
    (ikcpInput kcp (datagram segs)).1.acklist ≠ [] := by
  refine ikcpInput_datagram_reaches (Q := fun k => k.acklist ≠ []) hsegs
    (fun st s hs hst => hst.inputSeg (by omega) (hsegs s hs).wire (hwithin s hs)) hmem ?_
    (fun _ s hst => inputSeg_acklist_ne_nil s hst)
    (fun prevUna st hst => ?_) h
  · intro st hst
    have hwire := (hsegs seg hmem).wire
    rcases inputSeg_rcv st seg.conv seg.head seg.data with ⟨-, k, -, hside, -, heq⟩ | ⟨hne, -⟩
    · have hgot := hst.got
      have hnxt := hst.nxt
      simp only [Ikcpcb.rcvSide, RcvSide.mk.injEq] at hside
      have hin : itimediff seg.sn (k.rcvNxt + k.rcvWnd) < 0 := by
        have hiff := itimediff_nonneg_iff (k.rcvNxt + k.rcvWnd) seg.sn
        have hw : ikcpWndRcv.toNat = 128 := rfl
        rw [snOffset, UInt32.toNat_sub, UInt32.toNat_add, hside.1, hside.2.1, hst.wnd] at hiff
        rw [hside.1, hside.2.1, hst.wnd]
        omega
      rw [heq]
      unfold CppDemos.inputPush
      rw [if_pos (show itimediff seg.head.sn _ < 0 from hin)]
      simp only
      split
      · rw [(parseData_frame (ikcpAckPush k seg.head.sn seg.head.ts) _).2.2]
        simp [ikcpAckPush]
      · simp [ikcpAckPush]
    · exact absurd (hwire.head_cmd.trans hcmd) hne
  · rw [(inputFinish_frame prevUna st).2.2.1]
    exact hst

theorem unaRemove_nil {una : UInt32} {buf : List IkcpSeg}
    (h : ∀ seg ∈ buf, 0 < itimediff una seg.sn) : unaRemove una buf = [] := by
  induction buf with
  | nil => rfl
  | cons seg next ih =>
      rw [unaRemove, if_pos (h seg (List.mem_cons_self ..))]
      exact ih fun s hs => h s (List.mem_cons_of_mem _ hs)

theorem sndBuf_of_input {segs : List IkcpSeg} (hsegs : ∀ seg ∈ segs, seg.Sendable kcp.conv)
    {n : Nat} (h : ∀ c ∈ kcp.sndBuf.map IkcpSeg.core, c.sn.toNat < n) {seg : IkcpSeg}
    (hmem : seg ∈ segs) (hle : n ≤ seg.una.toNat) (hbound : seg.una.toNat < 2 ^ 31) :
    (ikcpInput kcp (datagram segs)).1.sndBuf = [] := by
  have hnil {st : InputSt} (s : IkcpSeg) (hst : st.kcp.sndBuf = []) :
      (inputSeg st s.conv s.head s.data).kcp.sndBuf = [] := by
    have hsub := (inputSeg_sndBuf st s.conv s.head s.data).1.sndBuf
    rw [hst, List.map_nil, List.sublist_nil, List.map_eq_nil_iff] at hsub
    exact hsub
  refine ikcpInput_datagram_reaches
    (P := fun k => ∀ c ∈ k.sndBuf.map IkcpSeg.core, c.sn.toNat < n)
    (Q := fun k => k.sndBuf = []) hsegs ?_ hmem ?_
    (fun _ s hst => hnil s hst) (fun prevUna st hst => ?_) h
  · intro st s _ hst c hc
    exact hst c ((inputSeg_sndBuf st s.conv s.head s.data).1.sndBuf.subset hc)
  · intro st hst
    -- `ikcp_parse_una` comes first in the turn
    have huna : (inputUna st.kcp seg.head).sndBuf = [] := by
      have hside := (inputUna_frame st.kcp seg.head).2.2.2
      rw [show (inputUna st.kcp seg.head).sndBuf = _ from congrArg SndSide.sndBuf hside]
      refine unaRemove_nil fun s hs => ?_
      have hlt := hst s.core (List.mem_map_of_mem hs)
      have hlt : s.sn.toNat < n := hlt
      have hdiff : itimediff seg.una s.sn = _ := itimediff_eq_sub hbound (by omega)
      show 0 < itimediff seg.una s.sn
      omega
    have hnone {k : Ikcpcb} (hk : SndTrimmed (inputUna st.kcp seg.head) k) : k.sndBuf = [] := by
      have hsub := hk.sndBuf
      rw [huna, List.map_nil, List.sublist_nil, List.map_eq_nil_iff] at hsub
      exact hsub
    rcases inputSeg_cases st seg.conv seg.head seg.data with
      ⟨-, heq⟩ | ⟨-, heq⟩ | ⟨-, -, probe, heq⟩
    · rw [heq]
      exact hnone (inputAck_sndBuf _ _).1
    · rw [heq]
      obtain ⟨hsetup, hsnd⟩ := inputPush_frame (inputUna st.kcp seg.head) seg.conv seg.head seg.data
      exact hnone (.of_eq hsetup hsnd)
    · rw [heq]
      exact huna
  · have hsub := (inputFinish_frame prevUna st).1.sndBuf
    rw [hst, List.map_nil, List.sublist_nil, List.map_eq_nil_iff] at hsub
    exact hsub

end CppDemos
