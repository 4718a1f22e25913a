import CppDemos.Lib.OrderedLog
import CppDemos.Kcp.Input

/-!
# Reassembly

What a receiving control block means in terms of messages. `Tracks mss base
msgs kcp` says that `kcp` has handed over everything before segment `base` and
is now collecting the fragments of `msgs`, numbered from `base` on: the first
few wait in `rcv_queue`, others in `rcv_buf`, and nothing else is in either.

Numbers are compared by their distance from `base`, so nothing here depends on
how far the sequence space has been used up. All that is asked of a data
segment is that, unless its number lies behind `base`, it carries the fragment
that number stands for (`Genuine`).

`Receiving` adds what holds between two calls. Its three results are that input
of genuine segments keeps it and accepts them (`Receiving.input`), that
`ikcp_recv` hands over exactly the first message and moves `base` behind it
(`Receiving.recv`), and that this message is complete in `rcv_queue` as soon as
all its fragments have been accepted (`Receiving.complete`).
-/

namespace CppDemos

open Fragment (Frag)

variable {mss : Nat} {base : UInt32} {msgs : List Bytes} {kcp kcp' : Ikcpcb}

/-! ## The relation -/

/-- How many fragments `msgs` has. -/
def span (mss : Nat) (msgs : List Bytes) : Nat := (Fragment.stream mss msgs).length

/-- The number lies behind `base`: it is in the half of the number space that
ends there, less the part the messages may still use. -/
def Behind (mss : Nat) (base : UInt32) (msgs : List Bytes) (sn : UInt32) : Prop :=
  2 ^ 31 + span mss msgs ≤ snOffset base sn

/-- Unless it lies behind `base`, number `sn` stands for this fragment. -/
def Genuine (mss : Nat) (base : UInt32) (msgs : List Bytes) (sn : UInt32)
    (frag : Frag UInt8) : Prop :=
  Behind mss base msgs sn ∨ (Fragment.stream mss msgs)[snOffset base sn]? = some frag

/-- `kcp` collects the fragments of `msgs`, the first of which has number
`base`. -/
structure Tracks (mss : Nat) (base : UInt32) (msgs : List Bytes) (kcp : Ikcpcb) : Prop where
  ok : RcvOk kcp
  room : kcp.rcvQueue.length ≤ ikcpWndRcv.toNat
  nxt : kcp.rcvNxt = base + UInt32.ofNat kcp.rcvQueue.length
  queue : kcp.rcvQueue.map IkcpSeg.frag <+: Fragment.stream mss msgs
  buf : ∀ seg ∈ kcp.rcvBuf,
    (Fragment.stream mss msgs)[snOffset base seg.sn]? = some seg.frag

/-- The fragment at distance `j` from `base` has been accepted. -/
def HeldAt (base : UInt32) (kcp : Ikcpcb) (j : Nat) : Prop :=
  j < kcp.rcvQueue.length ∨ ∃ seg ∈ kcp.rcvBuf, snOffset base seg.sn = j

theorem Tracks.congr (h : Tracks mss base msgs kcp) (heq : kcp'.rcvSide = kcp.rcvSide) :
    Tracks mss base msgs kcp' := by
  simp only [Ikcpcb.rcvSide, RcvSide.mk.injEq] at heq
  obtain ⟨h1, h2, -, h3, h4, h5⟩ := heq
  refine ⟨⟨?_, ?_, ?_, ?_⟩, ?_, ?_, ?_, ?_⟩
  · rw [h2, h.ok.wnd]
  · rw [h3, h4, h.ok.count]
  · rw [h1, h5]
    exact h.ok.sorted
  · rw [h1, h2, h5]
    exact h.ok.inWindow
  · rw [h4]
    exact h.room
  · rw [h1, h4]
    exact h.nxt
  · rw [h4]
    exact h.queue
  · rw [h5]
    exact h.buf

theorem NoGap.congr (h : NoGap kcp) (heq : kcp'.rcvSide = kcp.rcvSide) : NoGap kcp' := by
  simp only [Ikcpcb.rcvSide, RcvSide.mk.injEq] at heq
  obtain ⟨h1, h2, -, h3, -, h5⟩ := heq
  unfold NoGap
  rw [h1, h2, h3, h5]
  exact h

theorem HeldAt.congr {j : Nat} (h : HeldAt base kcp j) (heq : kcp'.rcvSide = kcp.rcvSide) :
    HeldAt base kcp' j := by
  simp only [Ikcpcb.rcvSide, RcvSide.mk.injEq] at heq
  obtain ⟨-, -, -, -, h4, h5⟩ := heq
  unfold HeldAt
  rw [h4, h5]
  exact h

/-- More messages behind the ones being collected change nothing. -/
theorem Tracks.extend (h : Tracks mss base msgs kcp) (more : List Bytes) :
    Tracks mss base (msgs ++ more) kcp := by
  refine ⟨h.ok, h.room, h.nxt, ?_, ?_⟩
  · rw [Fragment.stream_append]
    exact h.queue.trans (List.prefix_append _ _)
  · intro seg hseg
    have hget := h.buf seg hseg
    rw [Fragment.stream_append, List.getElem?_append_left ?_, hget]
    exact (List.getElem?_eq_some_iff.mp hget).1

theorem Tracks.offset (h : Tracks mss base msgs kcp) (sn : UInt32)
    (hsn : snOffset kcp.rcvNxt sn < 2 ^ 31) :
    snOffset base sn = snOffset kcp.rcvNxt sn + kcp.rcvQueue.length := by
  have hroom := h.room
  have hw : ikcpWndRcv.toNat = 128 := rfl
  rw [h.nxt] at hsn ⊢
  exact snOffset_add (by omega)

/-! ## Storing segments -/

theorem Tracks.shift (h : Tracks mss base msgs kcp) {seg : IkcpSeg} {rest : List IkcpSeg}
    (hbuf : kcp.rcvBuf = seg :: rest) (hsn : seg.sn = kcp.rcvNxt)
    (hroom : kcp.nrcvQue < kcp.rcvWnd.toNat) :
    Tracks mss base msgs (shiftRcv kcp seg rest) := by
  have hlen : (shiftRcv kcp seg rest).rcvQueue.length = kcp.rcvQueue.length + 1 := by
    simp [shiftRcv]
  have hzero : snOffset kcp.rcvNxt seg.sn = 0 := snOffset_eq_zero.mpr hsn
  -- the head of `rcv_buf` is the next fragment of the stream
  have hget : (Fragment.stream mss msgs)[(kcp.rcvQueue.map IkcpSeg.frag).length]?
      = some seg.frag := by
    have hoff := h.offset seg.sn (by omega)
    rw [hzero, Nat.zero_add] at hoff
    rw [List.length_map, ← hoff]
    exact h.buf seg (hbuf ▸ List.mem_cons_self ..)
  refine ⟨h.ok.shift hbuf, ?_, ?_, ?_, ?_⟩
  · rw [hlen, ← h.ok.count, ← h.ok.wnd]
    exact hroom
  · rw [hlen, UInt32.ofNat_add, ← UInt32.add_assoc, ← h.nxt]
    rfl
  · simpa [shiftRcv] using OrderedLog.prefix_snoc h.queue hget
  · intro s hs
    exact h.buf s (hbuf ▸ List.mem_cons_of_mem _ hs)

theorem Tracks.moveRcvBuf (h : Tracks mss base msgs kcp) :
    Tracks mss base msgs (moveRcvBuf kcp kcp.rcvBuf) :=
  moveRcvBuf_induct (fun _ _ _ hbuf hsn hroom hP => hP.shift hbuf hsn hroom) h

theorem Tracks.insert (h : Tracks mss base msgs kcp) {newseg : IkcpSeg} {buf : List IkcpSeg}
    (hnew : Genuine mss base msgs newseg.sn newseg.frag)
    (hwin : snOffset kcp.rcvNxt newseg.sn < kcp.rcvWnd.toNat)
    (hins : rcvInsert newseg kcp.rcvBuf = some buf) :
    Tracks mss base msgs { kcp with rcvBuf := buf, nrcvBuf := kcp.nrcvBuf + 1 } := by
  refine ⟨h.ok.insert hwin hins, h.room, h.nxt, h.queue, ?_⟩
  intro s hs
  rcases List.mem_cons.mp ((rcvInsert_perm hins).mem_iff.mp hs) with rfl | hs
  · have hw : kcp.rcvWnd.toNat = 128 := by rw [h.ok.wnd]; rfl
    have hroom : kcp.rcvQueue.length ≤ 128 := h.room
    have hoff := h.offset s.sn (by omega)
    exact hnew.resolve_left fun hbehind => by unfold Behind at hbehind; omega
  · exact h.buf s hs

theorem Tracks.parseData (h : Tracks mss base msgs kcp) {newseg : IkcpSeg}
    (hnew : Genuine mss base msgs newseg.sn newseg.frag) :
    Tracks mss base msgs (ikcpParseData kcp newseg) := by
  unfold ikcpParseData
  split
  · exact h
  · rename_i hwin
    have hwin := (inWindow_iff h.ok.wnd _).mp hwin
    cases hins : rcvInsert newseg kcp.rcvBuf with
    | none => exact h.moveRcvBuf
    | some buf => exact (h.insert hnew hwin hins).moveRcvBuf

/-- A segment that moves to `rcv_queue` stays accepted. -/
theorem HeldAt.moveRcvBuf {j : Nat} (h : Tracks mss base msgs kcp) (hj : HeldAt base kcp j) :
    HeldAt base (moveRcvBuf kcp kcp.rcvBuf) j := by
  have hboth := moveRcvBuf_induct
    (P := fun k => Tracks mss base msgs k ∧ HeldAt base k j) ?_ ⟨h, hj⟩
  · exact hboth.2
  · rintro k seg rest hbuf hsn hroom ⟨hk, hkj⟩
    refine ⟨hk.shift hbuf hsn hroom, ?_⟩
    have hlen : (shiftRcv k seg rest).rcvQueue.length = k.rcvQueue.length + 1 := by
      simp [shiftRcv]
    rcases hkj with hlt | ⟨s, hs, hsj⟩
    · exact Or.inl (by omega)
    · rw [hbuf] at hs
      rcases List.mem_cons.mp hs with rfl | hs
      · have hzero : snOffset k.rcvNxt s.sn = 0 := snOffset_eq_zero.mpr hsn
        have hoff := hk.offset s.sn (by omega)
        exact Or.inl (by omega)
      · exact Or.inr ⟨s, hs, hsj⟩

/-- A data segment not beyond the window is accepted, and nothing that was is
given up. -/
theorem HeldAt.parseData {j : Nat} (h : Tracks mss base msgs kcp) {newseg : IkcpSeg}
    (hnew : Genuine mss base msgs newseg.sn newseg.frag)
    (hj : HeldAt base kcp j ∨
      (j < kcp.rcvQueue.length + ikcpWndRcv.toNat ∧ snOffset base newseg.sn = j)) :
    HeldAt base (ikcpParseData kcp newseg) j := by
  have hw : kcp.rcvWnd.toNat = 128 := by rw [h.ok.wnd]; rfl
  have hwin := inWindow_iff h.ok.wnd newseg.sn
  unfold ikcpParseData
  split
  · rename_i hout
    rcases hj with hj | ⟨hlt, hj⟩
    · exact hj
    · -- outside the window: the number is already in `rcv_queue`
      refine Or.inl (Nat.lt_of_not_le fun hge => hwin.mpr ?_ hout)
      have hoff := snOffset_sub (hj.symm ▸ hge : kcp.rcvQueue.length ≤ snOffset base newseg.sn)
      rw [← h.nxt] at hoff
      have hlt : j < kcp.rcvQueue.length + 128 := hlt
      omega
  · rename_i hin
    cases hins : rcvInsert newseg kcp.rcvBuf with
    | none =>
        refine HeldAt.moveRcvBuf h ?_
        rcases hj with hj | ⟨-, hj⟩
        · exact hj
        · obtain ⟨seg, hseg, heq⟩ := rcvInsert_none hins
          exact Or.inr ⟨seg, hseg, by rw [heq, hj]⟩
    | some buf =>
        have hperm := rcvInsert_perm hins
        refine HeldAt.moveRcvBuf (h.insert hnew (hwin.mp hin) hins) ?_
        rcases hj with (hj | ⟨seg, hseg, hj⟩) | ⟨-, hj⟩
        · exact Or.inl hj
        · exact Or.inr ⟨seg, hperm.mem_iff.mpr (List.mem_cons_of_mem _ hseg), hj⟩
        · exact Or.inr ⟨newseg, hperm.mem_iff.mpr (List.mem_cons_self ..), hj⟩

/-! ## Input -/

/-- A data segment carries the fragment its number stands for. -/
def IkcpSeg.GenuineIn (mss : Nat) (base : UInt32) (msgs : List Bytes) (seg : IkcpSeg) : Prop :=
  seg.cmd = ikcpCmdPush → Genuine mss base msgs seg.sn seg.frag

/-- The state of a receiver between two calls: it tracks the messages, and
nothing is left to move to `rcv_queue`. -/
structure Receiving (mss : Nat) (base : UInt32) (msgs : List Bytes) (kcp : Ikcpcb) : Prop where
  tracks : Tracks mss base msgs kcp
  gap : NoGap kcp

theorem Receiving.congr (h : Receiving mss base msgs kcp) (heq : kcp'.rcvSide = kcp.rcvSide) :
    Receiving mss base msgs kcp' := ⟨h.tracks.congr heq, h.gap.congr heq⟩

theorem receiving_empty {n : Nat} (h : kcp.rcvSide = ⟨base, ikcpWndRcv, n, 0, [], []⟩)
    (mss : Nat) (msgs : List Bytes) : Receiving mss base msgs kcp := by
  simp only [Ikcpcb.rcvSide, RcvSide.mk.injEq] at h
  obtain ⟨hnxt, hwnd, -, hcount, hqueue, hbuf⟩ := h
  refine ⟨⟨⟨hwnd, ?_, ⟨?_, ?_⟩, ?_⟩, ?_, ?_, ?_, ?_⟩, Or.inl ?_⟩
  · rw [hcount, hqueue]
    rfl
  · rw [hbuf]
    exact List.Pairwise.nil
  · simp [hbuf]
  · simp [hbuf]
  · simp [hqueue]
  · simp [hqueue, hnxt]
  · simp [hqueue]
  · simp [hbuf]
  · simp [hbuf]

/-- The PUSH branch does nothing to the receive side that `ikcp_parse_data`
alone would not do. -/
theorem Receiving.inputPush (h : Receiving mss base msgs kcp) (conv : UInt32) {seg : IkcpSeg}
    (hseg : seg.WireOk) (hgen : Genuine mss base msgs seg.sn seg.frag) :
    Receiving mss base msgs (inputPush kcp conv seg.head seg.data) ∧
      ∀ j, (HeldAt base kcp j ∨
          (j < kcp.rcvQueue.length + ikcpWndRcv.toNat ∧ snOffset base seg.sn = j)) →
        HeldAt base (inputPush kcp conv seg.head seg.data) j := by
  have hgen' : Genuine mss base msgs seg.head.sn
      (IkcpSeg.frag { frg := seg.head.frg.toUInt32, data := seg.data }) := by
    rw [IkcpSeg.frag, hseg.head_frg]
    exact hgen
  -- outside the window `ikcp_parse_data` would do nothing either
  have hout (newseg : IkcpSeg) (hsn : newseg.sn = seg.sn)
      (hfrag : newseg.frag = IkcpSeg.frag { frg := seg.head.frg.toUInt32, data := seg.data })
      (hwin : itimediff seg.sn (kcp.rcvNxt + kcp.rcvWnd) ≥ 0 ∨ itimediff seg.sn kcp.rcvNxt < 0)
      (j : Nat) (hj : HeldAt base kcp j ∨
        (j < kcp.rcvQueue.length + ikcpWndRcv.toNat ∧ snOffset base seg.sn = j)) :
      HeldAt base kcp j := by
    have hnew : Genuine mss base msgs newseg.sn newseg.frag := by
      rw [hsn, hfrag]
      exact hgen'
    have hheld := HeldAt.parseData h.tracks hnew (by rw [hsn]; exact hj)
    unfold ikcpParseData at hheld
    rwa [hsn, if_pos hwin] at hheld
  unfold CppDemos.inputPush
  split
  · simp only
    split
    · have hack : (ikcpAckPush kcp seg.head.sn seg.head.ts).rcvSide = kcp.rcvSide := rfl
      have h' := h.congr hack
      refine ⟨⟨h'.tracks.parseData hgen', noGap_parseData h'.tracks.ok h'.gap _⟩, ?_⟩
      intro j hj
      exact HeldAt.parseData h'.tracks hgen' (hj.imp (fun hj => hj.congr hack) id)
    · rename_i hlow
      refine ⟨h.congr rfl, ?_⟩
      intro j hj
      exact (hout { seg with frg := seg.head.frg.toUInt32 } rfl rfl
        (Or.inr (Int.not_le.mp hlow)) j hj).congr rfl
  · rename_i hhigh
    refine ⟨h, ?_⟩
    intro j hj
    exact hout { seg with frg := seg.head.frg.toUInt32 } rfl rfl (Or.inl (Int.not_lt.mp hhigh))
      j hj

/-- Number `sn` has been accepted, now or in an earlier message. -/
def Has (mss : Nat) (base : UInt32) (msgs : List Bytes) (kcp : Ikcpcb) (sn : UInt32) : Prop :=
  Behind mss base msgs sn ∨ HeldAt base kcp (snOffset base sn)

/-- From `kcp` to `kcp'` only numbers accepted were put on the list of
acknowledgements to send. -/
def AcksNew (mss : Nat) (base : UInt32) (msgs : List Bytes) (kcp kcp' : Ikcpcb) : Prop :=
  ∀ ack ∈ kcp'.acklist, ack ∈ kcp.acklist ∨ Has mss base msgs kcp' ack.1

theorem Has.congr {sn : UInt32} (h : Has mss base msgs kcp sn)
    (heq : kcp'.rcvSide = kcp.rcvSide) : Has mss base msgs kcp' sn :=
  h.imp id fun h => h.congr heq

theorem Tracks.near (h : Tracks mss base msgs kcp) (hspan : span mss msgs ≤ 2 ^ 31)
    {sn : UInt32} {frag : Frag UInt8} (hgen : Genuine mss base msgs sn frag)
    (hwin : itimediff sn (kcp.rcvNxt + kcp.rcvWnd) < 0) :
    Behind mss base msgs sn ∨
      snOffset base sn < kcp.rcvQueue.length + ikcpWndRcv.toNat := by
  refine hgen.imp id fun hget => Nat.lt_of_not_le fun hfar => ?_
  have hlt : snOffset base sn < span mss msgs := (List.getElem?_eq_some_iff.mp hget).1
  have hw : ikcpWndRcv = UInt32.ofNat 128 := rfl
  have hw' : ikcpWndRcv.toNat = 128 := rfl
  have h1 : snOffset kcp.rcvNxt sn = snOffset base sn - kcp.rcvQueue.length := by
    rw [h.nxt]
    exact snOffset_sub (by omega)
  have h2 : snOffset (kcp.rcvNxt + kcp.rcvWnd) sn = snOffset kcp.rcvNxt sn - 128 := by
    rw [h.ok.wnd, hw]
    exact snOffset_sub (by omega)
  have hnonneg := itimediff_nonneg_iff (kcp.rcvNxt + kcp.rcvWnd) sn
  omega

/-- One turn of the input loop: the block receives on, keeps what it accepted,
accepts the segment at hand if that is near, and acknowledges nothing else. -/
theorem Receiving.inputSeg {st : InputSt} (h : Receiving mss base msgs st.kcp)
    (hspan : span mss msgs ≤ 2 ^ 31) {seg : IkcpSeg} (hseg : seg.WireOk)
    (hgen : seg.GenuineIn mss base msgs) :
    Receiving mss base msgs (inputSeg st seg.conv seg.head seg.data).kcp ∧
      (∀ sn, (Has mss base msgs st.kcp sn ∨
          (seg.cmd = ikcpCmdPush ∧ seg.sn = sn ∧ snOffset base sn < ikcpWndRcv.toNat)) →
        Has mss base msgs (CppDemos.inputSeg st seg.conv seg.head seg.data).kcp sn) ∧
      AcksNew mss base msgs st.kcp
        (CppDemos.inputSeg st seg.conv seg.head seg.data).kcp := by
  have hcmd := hseg.head_cmd
  rcases inputSeg_rcv st seg.conv seg.head seg.data with ⟨hpush, k, -, hk, -, heq⟩ | ⟨hne, hk, hack⟩
  · have hpush : seg.cmd = ikcpCmdPush := hcmd ▸ hpush
    have hq : k.rcvQueue = st.kcp.rcvQueue := congrArg RcvSide.rcvQueue hk
    obtain ⟨hrec, hheld⟩ := (h.congr hk).inputPush seg.conv hseg (hgen hpush)
    rw [← heq] at hrec hheld
    refine ⟨hrec, ?_, ?_⟩
    · intro sn hsn
      rcases hsn with (hbehind | hheld') | ⟨-, rfl, hlt⟩
      · exact Or.inl hbehind
      · exact Or.inr (hheld _ (Or.inl (hheld'.congr hk)))
      · exact Or.inr (hheld _ (Or.inr ⟨Nat.lt_add_left _ hlt, rfl⟩))
    · intro ack hack
      rcases inputSeg_acklist _ _ _ _ ack hack with hold | ⟨-, hsn, hwin⟩
      · exact Or.inl hold
      · refine Or.inr ?_
        rw [hsn]
        refine (h.tracks.near hspan (hgen hpush) hwin).imp id ?_
        intro hlt
        exact hheld _ (Or.inr ⟨hq ▸ hlt, rfl⟩)
  · refine ⟨h.congr hk, ?_, fun ack h' => Or.inl (hack ▸ h')⟩
    intro sn hsn
    rcases hsn with hsn | ⟨hpush, -⟩
    · exact hsn.congr hk
    · exact absurd (hcmd.trans hpush) hne

theorem Receiving.foldSegs (hspan : span mss msgs ≤ 2 ^ 31) :
    ∀ (segs : List IkcpSeg) {st : InputSt}, Receiving mss base msgs st.kcp →
      (∀ seg ∈ segs, seg.WireOk ∧ seg.GenuineIn mss base msgs) →
      ∃ st', segs.foldl (fun st seg => CppDemos.inputSeg st seg.conv seg.head seg.data) st = st' ∧
        Receiving mss base msgs st'.kcp ∧
        (∀ sn, (Has mss base msgs st.kcp sn ∨ (snOffset base sn < ikcpWndRcv.toNat ∧
            ∃ seg ∈ segs, seg.cmd = ikcpCmdPush ∧ seg.sn = sn)) →
          Has mss base msgs st'.kcp sn) ∧
        AcksNew mss base msgs st.kcp st'.kcp
  | [], st, h, _ => by
      refine ⟨st, rfl, h, ?_, fun ack hack => Or.inl hack⟩
      intro sn hsn
      rcases hsn with hsn | ⟨-, seg, hseg, -⟩
      · exact hsn
      · cases hseg
  | seg :: segs, st, h, hsegs => by
      obtain ⟨hwire, hgen⟩ := hsegs seg (List.mem_cons_self ..)
      obtain ⟨hnext, hhas, hacks⟩ := h.inputSeg hspan hwire hgen
      obtain ⟨st', hfold, hend, hhas', hacks'⟩ := Receiving.foldSegs hspan segs hnext
        fun s hs => hsegs s (List.mem_cons_of_mem _ hs)
      refine ⟨st', hfold, hend, fun sn hsn => hhas' sn ?_, fun ack hack => ?_⟩
      · rcases hsn with hsn | ⟨hlt, s, hs, hcmd, heq⟩
        · exact Or.inl (hhas sn (Or.inl hsn))
        · rcases List.mem_cons.mp hs with rfl | hs
          · exact Or.inl (hhas sn (Or.inr ⟨hcmd, heq, hlt⟩))
          · exact Or.inr ⟨hlt, s, hs, hcmd, heq⟩
      · rcases hacks' ack hack with hack | hnew
        · exact (hacks ack hack).imp id fun h => hhas' _ (Or.inl h)
        · exact Or.inr hnew

/-- Input of a datagram of genuine segments: the block receives on, keeps what
it accepted, accepts every segment that is less than a window ahead, and
acknowledges only what it accepted. -/
theorem Receiving.input (h : Receiving mss base msgs kcp) (hspan : span mss msgs ≤ 2 ^ 31)
    {segs : List IkcpSeg} (hsegs : ∀ seg ∈ segs, seg.Sendable kcp.conv)
    (hgen : ∀ seg ∈ segs, seg.GenuineIn mss base msgs) :
    Receiving mss base msgs (ikcpInput kcp (datagram segs)).1 ∧
      (∀ sn, (Has mss base msgs kcp sn ∨ (snOffset base sn < ikcpWndRcv.toNat ∧
          ∃ seg ∈ segs, seg.cmd = ikcpCmdPush ∧ seg.sn = sn)) →
        Has mss base msgs (ikcpInput kcp (datagram segs)).1 sn) ∧
      AcksNew mss base msgs kcp (ikcpInput kcp (datagram segs)).1 := by
  by_cases hne : segs = []
  · subst hne
    refine ⟨h, ?_, fun ack hack => Or.inl hack⟩
    intro sn hsn
    rcases hsn with hsn | ⟨-, seg, hseg, -⟩
    · exact hsn
    · cases hseg
  · rw [ikcpInput_datagram hne hsegs]
    have hstart : Receiving mss base msgs { kcp := kcp : InputSt }.kcp := h
    obtain ⟨st', hfold, hend, hhas, hacks⟩ := Receiving.foldSegs hspan segs hstart
      fun seg hseg => ⟨(hsegs seg hseg).wire, hgen seg hseg⟩
    rw [hfold]
    obtain ⟨-, hside, hack, -⟩ := inputFinish_frame kcp.sndUna st'
    exact ⟨hend.congr hside, fun sn hsn => (hhas sn hsn).congr hside,
      fun ack h' => (hacks ack (hack ▸ h')).imp id fun h => h.congr hside⟩

/-! ## Handing a message over -/

section Deliver

variable {m : Bytes} {rest : List Bytes}

/-- The head of `rcv_queue` says how many fragments the first message has. -/
theorem Tracks.head_frg (hmss : 0 < mss) (h : Tracks mss base (m :: rest) kcp)
    {seg : IkcpSeg} {p : List IkcpSeg} (hq : kcp.rcvQueue = seg :: p) :
    seg.frg.toNat + 1 = Fragment.count mss m.length := by
  obtain ⟨f, fs, hfs, hnum⟩ := Fragment.head_num hmss m
  have hpre := h.queue
  rw [hq, Fragment.stream_cons, hfs, List.map_cons, List.cons_append,
    List.cons_prefix_cons] at hpre
  rw [← hnum, ← hpre.1]
  rfl

/-- With all fragments of the first message in `rcv_queue`, they are its front
part, and the merge loop yields the message. -/
theorem Tracks.merge (hmss : 0 < mss) (h : Tracks mss base (m :: rest) kcp)
    (hq : Fragment.count mss m.length ≤ kcp.rcvQueue.length) :
    ∃ t, t <+: Fragment.stream mss rest ∧
      kcp.rcvQueue.map IkcpSeg.frag = Fragment.fragments mss m ++ t ∧
      Fragment.merge (kcp.rcvQueue.map IkcpSeg.frag) = (m, t) := by
  have hpre := h.queue
  rw [Fragment.stream_cons] at hpre
  obtain ⟨t, ht⟩ := List.prefix_of_prefix_length_le
    (List.prefix_append (Fragment.fragments mss m) (Fragment.stream mss rest)) hpre
    (by simpa using hq)
  refine ⟨t, ?_, ht.symm, ?_⟩
  · rwa [← ht, List.prefix_append_right_inj] at hpre
  · rw [← ht]
    exact Fragment.merge_fragments hmss m t

/-- While fragments of the first message are missing, `ikcp_peeksize` finds no
message; once they are all there it finds that message. -/
theorem Tracks.peeksize (hmss : 0 < mss) (h : Tracks mss base (m :: rest) kcp)
    (hfit : Fragment.count mss m.length < ikcpWndRcv.toNat) :
    (kcp.rcvQueue.length < Fragment.count mss m.length ∧ ikcpPeeksize kcp < 0) ∨
    (Fragment.count mss m.length ≤ kcp.rcvQueue.length ∧ ikcpPeeksize kcp = m.length) := by
  have hw : ikcpWndRcv.toNat = 128 := rfl
  have hcpos := Fragment.count_pos hmss m.length
  cases hq : kcp.rcvQueue with
  | nil =>
      refine Or.inl ⟨by simpa using hcpos, ?_⟩
      simp [ikcpPeeksize, hq]
  | cons seg p =>
      have hnum := h.head_frg hmss hq
      have hcount : kcp.nrcvQue = (seg :: p).length := hq ▸ h.ok.count
      have hsucc : (seg.frg + 1).toNat = Fragment.count mss m.length := by
        rw [UInt32.toNat_add, UInt32.toNat_one, hnum, Nat.mod_eq_of_lt (by omega)]
      have hzero : seg.frg = 0 ↔ Fragment.count mss m.length = 1 := by
        rw [← UInt32.toNat_inj, UInt32.toNat_zero]
        omega
      by_cases hlt : (seg :: p).length < Fragment.count mss m.length
      · refine Or.inl ⟨hlt, ?_⟩
        have hlen : 0 < (seg :: p).length := Nat.succ_pos _
        simp only [ikcpPeeksize, hq]
        rw [if_neg (fun hfrg => by have := hzero.mp hfrg; omega), if_pos (by omega)]
        decide
      · refine Or.inr ⟨Nat.le_of_not_lt hlt, ?_⟩
        have hnonneg : 0 ≤ ikcpPeeksize kcp := by
          simp only [ikcpPeeksize, hq]
          split
          · omega
          · rw [if_neg (by omega)]
            omega
        rw [ikcpPeeksize_of_nonneg hnonneg, (mergeFragment_merge _ _).1]
        obtain ⟨t, -, -, hmerge⟩ := h.merge hmss (by rw [hq]; exact Nat.le_of_not_lt hlt)
        rw [hmerge]

theorem Tracks.popRcv_queue (hmss : 0 < mss) (h : Tracks mss base (m :: rest) kcp)
    (hq : Fragment.count mss m.length ≤ kcp.rcvQueue.length) :
    (popRcv kcp).rcvQueue.map IkcpSeg.frag <+: Fragment.stream mss rest ∧
      (popRcv kcp).rcvQueue.length + Fragment.count mss m.length = kcp.rcvQueue.length := by
  obtain ⟨t, hpre, hqueue, hmerge⟩ := h.merge hmss hq
  have hpop : (popRcv kcp).rcvQueue.map IkcpSeg.frag = t :=
    ((mergeFragment_merge kcp.nrcvQue kcp.rcvQueue).2).trans (congrArg Prod.snd hmerge)
  refine ⟨hpop ▸ hpre, ?_⟩
  have hlen := congrArg List.length hqueue
  have hlen' := congrArg List.length hpop
  rw [List.length_append, Fragment.length_fragments, List.length_map] at hlen
  rw [List.length_map] at hlen'
  omega

theorem Tracks.offset_pop (h : Tracks mss base (m :: rest) kcp)
    (hq : Fragment.count mss m.length ≤ kcp.rcvQueue.length) {seg : IkcpSeg}
    (hseg : seg ∈ kcp.rcvBuf) :
    snOffset (base + UInt32.ofNat (Fragment.count mss m.length)) seg.sn
        + Fragment.count mss m.length = snOffset base seg.sn := by
  have hoff := h.offset seg.sn (h.ok.sorted.2 seg hseg)
  rw [snOffset_sub (by omega)]
  omega

theorem Tracks.popRcv (hmss : 0 < mss) (h : Tracks mss base (m :: rest) kcp)
    (hq : Fragment.count mss m.length ≤ kcp.rcvQueue.length) :
    Tracks mss (base + UInt32.ofNat (Fragment.count mss m.length)) rest (popRcv kcp) := by
  obtain ⟨hpre, hlen⟩ := h.popRcv_queue hmss hq
  have hroom := h.room
  refine ⟨h.ok.popRcv, by omega, ?_, hpre, ?_⟩
  · rw [UInt32.add_assoc, ← UInt32.ofNat_add, Nat.add_comm, hlen]
    exact h.nxt
  · intro seg hseg
    have hoff := h.offset_pop hq hseg
    have hget := h.buf seg hseg
    rw [Fragment.stream_cons, List.getElem?_append_right (by simp; omega),
      Fragment.length_fragments] at hget
    rw [← hget]
    congr 1
    omega

theorem HeldAt.popRcv (hmss : 0 < mss) (h : Tracks mss base (m :: rest) kcp)
    (hq : Fragment.count mss m.length ≤ kcp.rcvQueue.length) {j : Nat}
    (hj : HeldAt base kcp (j + Fragment.count mss m.length)) :
    HeldAt (base + UInt32.ofNat (Fragment.count mss m.length)) (popRcv kcp) j := by
  have hlen := (h.popRcv_queue hmss hq).2
  rcases hj with hj | ⟨seg, hseg, hj⟩
  · exact Or.inl (by omega)
  · have hoff := h.offset_pop hq hseg
    exact Or.inr ⟨seg, hseg, by omega⟩

end Deliver

/-- What `ikcp_recv` does to a receiving block: either it refuses, because the
first message is not complete or does not fit the buffer, and changes nothing;
or it hands over the first message, and the block goes on with the rest. -/
theorem Receiving.recv (hmss : 0 < mss) (h : Receiving mss base msgs kcp)
    (hfit : ∀ m ∈ msgs, Fragment.count mss m.length < ikcpWndRcv.toNat) {len : Int}
    (hlen : 0 ≤ len) :
    (∃ err, err < 0 ∧ ikcpRecv kcp len = (kcp, err, []) ∧ ∀ m rest, msgs = m :: rest →
      kcp.rcvQueue.length < Fragment.count mss m.length ∨ len < m.length) ∨
    (∃ m rest, msgs = m :: rest ∧ ∃ kcp', ikcpRecv kcp len = (kcp', (m.length : Int), m) ∧
      (m.length : Int) ≤ len ∧
      Receiving mss (base + UInt32.ofNat (Fragment.count mss m.length)) rest kcp' ∧
      ∀ j, HeldAt base kcp (j + Fragment.count mss m.length) →
        HeldAt (base + UInt32.ofNat (Fragment.count mss m.length)) kcp' j) := by
  rcases ikcpRecv_cases kcp hlen with ⟨err, herr, heq, hwhy⟩ | ⟨hne, hpeek, hle, probe, heq⟩
  · refine Or.inl ⟨err, herr, heq, ?_⟩
    rintro m rest rfl
    rcases h.tracks.peeksize hmss (hfit m (List.mem_cons_self ..)) with ⟨hlt, -⟩ | ⟨hge, hpeek⟩
    · exact Or.inl hlt
    · have hcpos := Fragment.count_pos hmss m.length
      rcases hwhy with hnil | hneg | hbig
      · rw [hnil] at hge
        exact absurd hge (by simpa using hcpos.ne')
      · omega
      · exact Or.inr (by omega)
  · -- a message was found, so there is one to track
    cases hm : msgs with
    | nil =>
        have hq := h.tracks.queue
        rw [hm, Fragment.stream_nil, List.prefix_nil, List.map_eq_nil_iff] at hq
        exact absurd hq hne
    | cons m rest =>
        subst hm
        rcases h.tracks.peeksize hmss (hfit m (List.mem_cons_self ..)) with ⟨-, hneg⟩ | ⟨hge, hsize⟩
        · omega
        · obtain ⟨t, -, -, hmerge⟩ := h.tracks.merge hmss hge
          have hbuf : (mergeFragment kcp.nrcvQue kcp.rcvQueue).1 = m :=
            ((mergeFragment_merge _ _).1).trans (congrArg Prod.fst hmerge)
          have hpop := h.tracks.popRcv hmss hge
          rw [hbuf, hsize] at heq
          refine Or.inr ⟨m, rest, rfl, _, heq, by omega, ?_, ?_⟩
          · have hmove : Receiving mss (base + UInt32.ofNat (Fragment.count mss m.length)) rest
                (moveRcvBuf (popRcv kcp) (popRcv kcp).rcvBuf) :=
              ⟨hpop.moveRcvBuf, noGap_moveRcvBuf hpop.ok⟩
            exact hmove.congr rfl
          · intro j hj
            exact (HeldAt.moveRcvBuf hpop (hj.popRcv hmss h.tracks hge)).congr rfl

/-! ## Moving on -/

section Advance

variable {taken rest : List Bytes} {sn : UInt32}

theorem span_append (xs ys : List Bytes) :
    span mss (xs ++ ys) = span mss xs + span mss ys := by
  rw [span, Fragment.stream_append, List.length_append]
  rfl

theorem span_singleton (m : Bytes) : span mss [m] = Fragment.count mss m.length := by
  simp [span, Fragment.stream_cons]

theorem Behind.advance (hspan : span mss (taken ++ rest) ≤ 2 ^ 31)
    (h : Behind mss base (taken ++ rest) sn ∨ snOffset base sn < span mss taken) :
    Behind mss (base + UInt32.ofNat (span mss taken)) rest sn := by
  rw [span_append] at hspan
  unfold Behind
  rcases h with hbehind | hlt
  · rw [Behind, span_append] at hbehind
    rw [snOffset_sub (by omega)]
    omega
  · rw [snOffset_sub_of_lt hlt (by omega)]
    omega

theorem Has.advance (hspan : span mss (taken ++ rest) ≤ 2 ^ 31)
    (h : Has mss base (taken ++ rest) kcp sn)
    (hkeep : ∀ j, HeldAt base kcp (j + span mss taken) →
      HeldAt (base + UInt32.ofNat (span mss taken)) kcp' j) :
    Has mss (base + UInt32.ofNat (span mss taken)) rest kcp' sn := by
  rcases h with hbehind | hheld
  · exact Or.inl (Behind.advance hspan (Or.inl hbehind))
  · by_cases hle : span mss taken ≤ snOffset base sn
    · refine Or.inr ?_
      rw [snOffset_sub hle]
      exact hkeep _ (by rwa [Nat.sub_add_cancel hle])
    · exact Or.inl (Behind.advance hspan (Or.inr (Nat.lt_of_not_le hle)))

theorem Genuine.advance {frag : Frag UInt8} (hspan : span mss (taken ++ rest) ≤ 2 ^ 31)
    (h : Genuine mss base (taken ++ rest) sn frag) :
    Genuine mss (base + UInt32.ofNat (span mss taken)) rest sn frag := by
  rcases h with hbehind | hget
  · exact Or.inl (Behind.advance hspan (Or.inl hbehind))
  · by_cases hle : span mss taken ≤ snOffset base sn
    · refine Or.inr ?_
      rw [snOffset_sub hle]
      rwa [Fragment.stream_append, List.getElem?_append_right hle] at hget
    · exact Or.inl (Behind.advance hspan (Or.inr (Nat.lt_of_not_le hle)))

end Advance

/-! ## Completeness -/

/-- When every fragment of the first message has been accepted, all of them
are in `rcv_queue`. -/
theorem Receiving.complete {m : Bytes} {rest : List Bytes}
    (h : Receiving mss base (m :: rest) kcp)
    (hfit : Fragment.count mss m.length < ikcpWndRcv.toNat)
    (hheld : ∀ j < Fragment.count mss m.length, HeldAt base kcp j) :
    Fragment.count mss m.length ≤ kcp.rcvQueue.length := by
  refine Nat.le_of_not_lt ?_
  intro hlt
  rcases hheld _ hlt with hself | ⟨seg, hseg, hoff⟩
  · exact Nat.lt_irrefl _ hself
  · have hnext : seg.sn = kcp.rcvNxt := by
      have := h.tracks.offset seg.sn (h.tracks.ok.sorted.2 seg hseg)
      exact snOffset_eq_zero.mp (by omega)
    rcases h.gap with hgap | hfull
    · exact hgap seg hseg hnext
    · rw [h.tracks.ok.wnd, h.tracks.ok.count] at hfull
      omega

end CppDemos
