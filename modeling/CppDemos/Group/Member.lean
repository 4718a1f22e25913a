import CppDemos.Wrapper.Deliver

/-!
# One member of a group

The invariant of one control block in a group whose sender has had the
messages `log` accepted, as long as fewer than `2 ^ 31` segments have been
created: then every sequence number is simply a position in the fragment
stream of `log`, and comparing numbers is comparing positions.

`RcvInv log k` is the receiving half: `k` messages have been handed over and
the block collects the rest. `SndInv log` is the sending half: what is queued
and what is buffered are the right pieces of the stream. `NetSeg` is what can
be said of a segment on the network, in terms of what its origin has accepted.
Each operation of the block keeps all three.
-/

namespace CppDemos

open Fragment (stream)

variable {log : List Bytes} {conv : UInt32} {k : Nat} {kcp kcp' : Ikcpcb}

/-! ## Positions -/

/-- The number of the first segment behind the first `k` messages. -/
def position (log : List Bytes) (k : Nat) : Nat := span groupMss (log.take k)

theorem position_add_span (log : List Bytes) (k : Nat) :
    position log k + span groupMss (log.drop k) = span groupMss log := by
  rw [position, ← span_append, List.take_append_drop]

/-- The block has accepted segment `sn`: it is below `rcv_nxt` or in
`rcv_buf`. -/
def Taken (kcp : Ikcpcb) (sn : UInt32) : Prop :=
  sn.toNat < kcp.rcvNxt.toNat ∨ ∃ seg ∈ kcp.rcvBuf, seg.sn = sn

instance (kcp : Ikcpcb) (sn : UInt32) : Decidable (Taken kcp sn) :=
  inferInstanceAs (Decidable (_ ∨ _))

theorem Taken.congr {sn : UInt32} (h : Taken kcp sn) (heq : kcp'.rcvSide = kcp.rcvSide) :
    Taken kcp' sn := by
  have hnxt : kcp'.rcvNxt = kcp.rcvNxt := congrArg RcvSide.rcvNxt heq
  have hbuf : kcp'.rcvBuf = kcp.rcvBuf := congrArg RcvSide.rcvBuf heq
  rw [Taken, hnxt, hbuf]
  exact h

theorem toNat_ofNat_of_lt {n : Nat} (h : n < 2 ^ 31) : (UInt32.ofNat n).toNat = n := by
  rw [UInt32.toNat_ofNat', Nat.mod_eq_of_lt (by omega)]

theorem snOffset_position {b : Nat} (hb : b < 2 ^ 31) (sn : UInt32) :
    snOffset (UInt32.ofNat b) sn =
      if b ≤ sn.toNat then sn.toNat - b else 2 ^ 32 - b + sn.toNat := by
  rw [snOffset_eq_offset, Serial.offset_eq, toNat_toBitVec_ofNat (by omega),
    UInt32.toNat_toBitVec]

section Receiving

variable {msgs : List Bytes} {b : Nat}

theorem Receiving.rcvNxt (h : Receiving groupMss (UInt32.ofNat b) msgs kcp)
    (hb : b + span groupMss msgs < 2 ^ 31) :
    kcp.rcvNxt.toNat = b + kcp.rcvQueue.length ∧
      kcp.rcvNxt.toNat ≤ b + span groupMss msgs := by
  have hle : kcp.rcvQueue.length ≤ span groupMss msgs := by
    have := h.tracks.queue.length_le
    rwa [List.length_map] at this
  have hnxt : kcp.rcvNxt.toNat = b + kcp.rcvQueue.length := by
    rw [h.tracks.nxt, ← UInt32.ofNat_add, toNat_ofNat_of_lt (by omega)]
  exact ⟨hnxt, by omega⟩

theorem Receiving.has_iff_taken (h : Receiving groupMss (UInt32.ofNat b) msgs kcp)
    (hb : b + span groupMss msgs < 2 ^ 31) {sn : UInt32} (hsn : sn.toNat < 2 ^ 31) :
    Has groupMss (UInt32.ofNat b) msgs kcp sn ↔ Taken kcp sn := by
  obtain ⟨hnxt, -⟩ := h.rcvNxt hb
  have hoff := snOffset_position (show b < 2 ^ 31 by omega) sn
  constructor
  · rintro (hbehind | hlt | ⟨seg, hseg, heq⟩)
    · rw [Behind, hoff] at hbehind
      split at hbehind
      · omega
      · exact Or.inl (by omega)
    · rw [hoff] at hlt
      split at hlt
      · exact Or.inl (by omega)
      · exact Or.inl (by omega)
    · exact Or.inr ⟨seg, hseg, snOffset_injective heq⟩
  · rintro (hlt | ⟨seg, hseg, rfl⟩)
    · by_cases hle : b ≤ sn.toNat
      · rw [if_pos hle] at hoff
        exact Or.inr (Or.inl (by omega))
      · rw [if_neg hle] at hoff
        exact Or.inl (by rw [Behind]; omega)
    · exact Or.inr (Or.inr ⟨seg, hseg, rfl⟩)

end Receiving

/-! ## Segments on the network -/

/-- A segment on the network, `taken` being what its origin has accepted. What
it acknowledges matters only where it is `heard`. -/
structure NetSeg (log : List Bytes) (conv : UInt32) (heard : Prop) (taken : UInt32 → Prop)
    (seg : IkcpSeg) : Prop where
  sendable : seg.Sendable conv
  push : seg.cmd = ikcpCmdPush → (stream groupMss log)[seg.sn.toNat]? = some seg.frag
  una : heard → seg.una.toNat ≤ span groupMss log
  unaTaken : heard → ∀ sn : UInt32, sn.toNat < seg.una.toNat → taken sn
  ackTaken : heard → seg.cmd = ikcpCmdAck → seg.sn.toNat < 2 ^ 31 → taken seg.sn

section NetSeg

variable {heard : Prop} {taken taken' : UInt32 → Prop} {seg : IkcpSeg}

/-- A member may accept more, and the sender may have more messages
accepted. -/
theorem NetSeg.mono {log' : List Bytes} (h : NetSeg log conv heard taken seg)
    (hlog : log <+: log') (htaken : ∀ sn : UInt32, sn.toNat < 2 ^ 31 → taken sn → taken' sn)
    (hbound : span groupMss log < 2 ^ 31) : NetSeg log' conv heard taken' seg := by
  obtain ⟨more, rfl⟩ := hlog
  refine ⟨h.sendable, ?_, ?_, ?_, ?_⟩
  · intro hcmd
    have hget := h.push hcmd
    rw [Fragment.stream_append, List.getElem?_append_left
      (List.getElem?_eq_some_iff.mp hget).1]
    exact hget
  · intro hh
    rw [span_append]
    exact Nat.le_add_right_of_le (h.una hh)
  · intro hh sn hsn
    have huna := h.una hh
    exact htaken sn (by omega) (h.unaTaken hh sn hsn)
  · intro hh hcmd hsn
    exact htaken seg.sn hsn (h.ackTaken hh hcmd hsn)

/-- Whatever nobody hears acknowledges nothing. -/
theorem NetSeg.unheard (h : NetSeg log conv heard taken seg) (hnot : ¬ heard) :
    NetSeg log conv heard taken' seg :=
  ⟨h.sendable, h.push, fun hh => absurd hh hnot, fun hh => absurd hh hnot,
    fun hh => absurd hh hnot⟩

theorem NetSeg.acks (h : NetSeg log conv heard taken seg) (hheard : heard)
    (hbound : span groupMss log < 2 ^ 31) {sn : UInt32} (hsn : sn.toNat < 2 ^ 31)
    (hacks : seg.head.Acks sn) : taken sn := by
  have huna := h.una hheard
  rcases hacks with hpos | ⟨hcmd, heq⟩
  · have hsub : itimediff seg.una sn = _ := itimediff_eq_sub (by omega) hsn
    have hpos : itimediff seg.una sn > 0 := hpos
    exact h.unaTaken hheard sn (by omega)
  · have heq : seg.sn = sn := heq
    rw [h.sendable.wire.head_cmd] at hcmd
    exact heq ▸ h.ackTaken hheard hcmd (heq ▸ hsn)

theorem NetSeg.genuineIn (h : NetSeg log conv heard taken seg)
    (hbound : span groupMss log < 2 ^ 31) (k : Nat) :
    seg.GenuineIn groupMss (UInt32.ofNat (position log k)) (log.drop k) := by
  intro hcmd
  have hget := h.push hcmd
  have hpos := position_add_span log k
  have hlt : seg.sn.toNat < span groupMss log := (List.getElem?_eq_some_iff.mp hget).1
  have hoff := snOffset_position (show position log k < 2 ^ 31 by omega) seg.sn
  by_cases hle : position log k ≤ seg.sn.toNat
  · rw [if_pos hle] at hoff
    refine Or.inr ?_
    rw [hoff]
    rw [← List.take_append_drop k log, Fragment.stream_append,
      List.getElem?_append_right hle] at hget
    exact hget
  · rw [if_neg hle] at hoff
    exact Or.inl (by rw [Behind]; omega)

def OnNet (log : List Bytes) (conv : UInt32) (seg : IkcpSeg) : Prop :=
  ∃ heard taken, NetSeg log conv heard taken seg

end NetSeg

/-! ## The receiving half -/

/-- `k` messages have been handed over, the block collects the rest, and it
acknowledges only what it has accepted. -/
structure RcvInv (log : List Bytes) (k : Nat) (kcp : Ikcpcb) : Prop where
  le : k ≤ log.length
  receiving : Receiving groupMss (UInt32.ofNat (position log k)) (log.drop k) kcp
  acks : ∀ ack ∈ kcp.acklist, ack.1.toNat < 2 ^ 31 → Taken kcp ack.1

theorem RcvInv.fresh {n : Nat} (hrcv : kcp.rcvSide = ⟨0, ikcpWndRcv, n, 0, [], []⟩)
    (hack : ∀ ack ∈ kcp.acklist, ack.1.toNat < 2 ^ 31 → Taken kcp ack.1) (log : List Bytes) :
    RcvInv log 0 kcp :=
  ⟨Nat.zero_le _, receiving_empty hrcv _ _, hack⟩

theorem RcvInv.rcvNxt_le (h : RcvInv log k kcp) (hbound : span groupMss log < 2 ^ 31) :
    kcp.rcvNxt.toNat ≤ span groupMss log := by
  have hpos := position_add_span log k
  have hle := (h.receiving.rcvNxt (by omega)).2
  omega

theorem RcvInv.congr (h : RcvInv log k kcp) (heq : kcp'.rcvSide = kcp.rcvSide)
    (hack : ∀ ack ∈ kcp'.acklist, ack ∈ kcp.acklist) : RcvInv log k kcp' :=
  ⟨h.le, h.receiving.congr heq, fun ack hmem hlt => (h.acks ack (hack ack hmem) hlt).congr heq⟩

/-- The sender has one more message accepted. -/
theorem RcvInv.extend (h : RcvInv log k kcp) (m : Bytes) : RcvInv (log ++ [m]) k kcp := by
  have hle := h.le
  have hdrop : (log ++ [m]).drop k = log.drop k ++ [m] := List.drop_append_of_le_length hle
  have hpos : position (log ++ [m]) k = position log k := by
    rw [position, List.take_append_of_le_length hle, position]
  refine ⟨by simp; omega, ?_, h.acks⟩
  rw [hdrop, hpos]
  exact ⟨h.receiving.tracks.extend [m], h.receiving.gap⟩

/-- A run of `handleReceive` on datagrams of the group: the next few messages
are handed over, and nothing accepted is given up. -/
theorem RcvInv.handleReceive (h : RcvInv log k kcp) (hbound : span groupMss log < 2 ^ 31)
    (hfits : ∀ m ∈ log, Fits m) (hconv : kcp.conv = conv) {results : List RecvResult}
    (hdata : ∀ data, .datagram data ∈ results → DatagramOf (OnNet log conv) data) :
    ∃ k', RcvInv log k' (handleReceive kcp results).1 ∧
      log.take k' = log.take k ++ (handleReceive kcp results).2 ∧
      ∀ sn : UInt32, sn.toNat < 2 ^ 31 → Taken kcp sn →
        Taken (handleReceive kcp results).1 sn := by
  have hpos := position_add_span log k
  have hgenuine : ∀ data, .datagram data ∈ results →
      GenuineDatagram groupMss conv (UInt32.ofNat (position log k)) (log.drop k) data := by
    intro data hmem
    obtain ⟨segs, heq, hlen, hsegs⟩ := hdata data hmem
    refine ⟨segs, heq, hlen, ?_, ?_⟩
    · intro seg hseg
      obtain ⟨heard, taken, hnet⟩ := hsegs seg hseg
      exact hnet.sendable
    · intro seg hseg
      obtain ⟨heard, taken, hnet⟩ := hsegs seg hseg
      exact hnet.genuineIn hbound k
  obtain ⟨rest, hrest, hadv, -⟩ := handleReceive_advances (by decide) results h.receiving
    (fun m hm => hfits m (List.mem_of_mem_drop hm)) (by omega) hconv hgenuine
  generalize CppDemos.handleReceive kcp results = out at *
  -- the messages handed over are the next ones of the log
  have hk : k + out.2.length ≤ log.length := by
    have := congrArg List.length hrest
    rw [List.length_drop, List.length_append] at this
    have := h.le
    omega
  have htake : log.take (k + out.2.length) = log.take k ++ out.2 := by
    rw [List.take_add, hrest, List.take_left]
  have hdrop : log.drop (k + out.2.length) = rest := by
    rw [← List.drop_drop, hrest, List.drop_left]
  have hposition : position log (k + out.2.length) = position log k + span groupMss out.2 := by
    rw [position, htake, span_append]
    rfl
  have hsum := position_add_span log (k + out.2.length)
  have hrec := hadv.receiving
  rw [← UInt32.ofNat_add, ← hposition, ← hdrop] at hrec
  have hmono : ∀ sn : UInt32, sn.toNat < 2 ^ 31 → Taken kcp sn → Taken out.1 sn := by
    intro sn hsn htaken
    have hhas := hadv.has sn (hrest ▸ (h.receiving.has_iff_taken (by omega) hsn).mpr htaken)
    rw [← UInt32.ofNat_add, ← hposition, ← hdrop] at hhas
    exact (hrec.has_iff_taken (by omega) hsn).mp hhas
  refine ⟨k + out.2.length, ⟨hk, hrec, ?_⟩, htake, hmono⟩
  intro ack hack hsn
  rcases hadv.acks ack hack with hold | hnew
  · exact hmono _ hsn (h.acks ack hold hsn)
  · rw [← UInt32.ofNat_add, ← hposition, ← hdrop] at hnew
    exact (hrec.has_iff_taken (by omega) hsn).mp hnew

/-! ## The sending half -/

/-- What is queued and buffered are pieces of the fragment stream of `log`:
behind `snd_nxt` the whole rest of the stream waits in `snd_queue`, in order, and
before it each buffered segment is the piece of its number. Segment numbers are
positions in the stream here, which is why the bound on the fragments matters. -/
structure SndInv (log : List Bytes) (conv : UInt32) (kcp : Ikcpcb) : Prop where
  nxt : kcp.sndNxt.toNat ≤ span groupMss log
  queue : kcp.sndQueue.map IkcpSeg.frag = (stream groupMss log).drop kcp.sndNxt.toNat
  buf : ∀ c ∈ kcp.sndBuf.map IkcpSeg.core, c.conv = conv ∧ c.cmd = ikcpCmdPush ∧
    c.sn.toNat < kcp.sndNxt.toNat ∧ (stream groupMss log)[c.sn.toNat]? = some c.frag

theorem SndInv.fresh (hsnd : kcp.sndSide = ⟨0, 0, [], []⟩) : SndInv [] conv kcp := by
  simp only [Ikcpcb.sndSide, SndSide.mk.injEq] at hsnd
  obtain ⟨hnxt, -, hqueue, hbuf⟩ := hsnd
  refine ⟨by rw [hnxt]; exact Nat.zero_le _, by simp [hqueue], ?_⟩
  intro c hc
  rw [hbuf] at hc
  cases hc

theorem SndInv.send (h : SndInv log conv kcp) {m : Bytes} {segs : List IkcpSeg}
    (hsegs : segs.map IkcpSeg.frag = Fragment.fragments groupMss m) :
    SndInv (log ++ [m]) conv (queueSnd kcp segs) := by
  refine ⟨?_, ?_, ?_⟩
  · exact Nat.le_trans h.nxt (by rw [span_append]; omega)
  · have hnxt : (queueSnd kcp segs).sndNxt = kcp.sndNxt := rfl
    rw [hnxt, Fragment.stream_concat, List.drop_append_of_le_length h.nxt, ← hsegs, ← h.queue]
    exact List.map_append
  · intro c hc
    obtain ⟨h1, h2, h3, h4⟩ := h.buf c hc
    refine ⟨h1, h2, h3, ?_⟩
    rw [Fragment.stream_concat, List.getElem?_append_left
      (List.getElem?_eq_some_iff.mp h4).1]
    exact h4

theorem SndInv.trim (h : SndInv log conv kcp) (htrim : SndTrimmed kcp kcp') :
    SndInv log conv kcp' := by
  refine ⟨?_, ?_, ?_⟩
  · rw [htrim.sndNxt]
    exact h.nxt
  · rw [htrim.sndNxt, htrim.sndQueue]
    exact h.queue
  · intro c hc
    rw [htrim.sndNxt]
    exact h.buf c (htrim.sndBuf.subset hc)

theorem SndInv.length_queue (h : SndInv log conv kcp) :
    kcp.sndNxt.toNat + kcp.sndQueue.length = span groupMss log := by
  have hnxt := h.nxt
  have hlen := congrArg List.length h.queue
  rw [List.length_map, List.length_drop] at hlen
  rw [span] at *
  omega

/-- No number is given twice. -/
theorem SndInv.nxt_of_move (h : SndInv log conv kcp) (hbound : span groupMss log < 2 ^ 31)
    {moved : List IkcpSeg} (hmoved : SndMoved kcp kcp' moved) :
    kcp'.sndNxt.toNat = kcp.sndNxt.toNat + moved.length := by
  have hlen := h.length_queue
  rw [hmoved.queue, List.length_append] at hlen
  rw [hmoved.sndNxt, UInt32.toNat_add, UInt32.toNat_ofNat']
  omega

theorem SndInv.move (h : SndInv log conv kcp) (hbound : span groupMss log < 2 ^ 31)
    (hconv : kcp.conv = conv) {moved : List IkcpSeg} (hmoved : SndMoved kcp kcp' moved) :
    SndInv log conv kcp' := by
  have hnxt' := h.nxt_of_move hbound hmoved
  have hlen := h.length_queue
  rw [hmoved.queue, List.length_append] at hlen
  have hqueue := h.queue
  rw [hmoved.queue, List.map_append] at hqueue
  refine ⟨by omega, ?_, ?_⟩
  · rw [hnxt', ← List.drop_drop, ← hqueue, ← List.length_map (f := IkcpSeg.frag),
      List.drop_left]
  · intro c hc
    rw [hmoved.sndBuf] at hc
    rcases List.mem_append.mp hc with hc | hc
    · obtain ⟨h1, h2, h3, h4⟩ := h.buf c hc
      exact ⟨h1, h2, by omega, h4⟩
    · obtain ⟨j, hj⟩ := List.mem_iff_getElem?.mp hc
      rw [numbered_getElem?] at hj
      obtain ⟨seg, hseg, rfl⟩ := Option.map_eq_some_iff.mp hj
      have hjlt : j < moved.length := (List.getElem?_eq_some_iff.mp hseg).1
      have hsn : (kcp.sndNxt + UInt32.ofNat j).toNat = kcp.sndNxt.toNat + j := by
        rw [UInt32.toNat_add, UInt32.toNat_ofNat']
        omega
      refine ⟨hconv, rfl, by simp only; omega, ?_⟩
      have hget : (moved.map IkcpSeg.frag ++ kcp'.sndQueue.map IkcpSeg.frag)[j]?
          = some seg.frag := by
        rw [List.getElem?_append_left (by simpa using hjlt), List.getElem?_map, hseg]
        rfl
      rw [hqueue, List.getElem?_drop] at hget
      simp only [hsn]
      exact hget

/-- Nothing is queued or buffered. -/
structure Idle (kcp : Ikcpcb) : Prop where
  queue : kcp.sndQueue = []
  buf : kcp.sndBuf = []

theorem Idle.trim (h : Idle kcp) (htrim : SndTrimmed kcp kcp') : Idle kcp' := by
  refine ⟨htrim.sndQueue.trans h.queue, ?_⟩
  have hsub := htrim.sndBuf
  rw [h.buf] at hsub
  exact List.map_eq_nil_iff.mp (List.sublist_nil.mp hsub)

theorem Idle.move (h : Idle kcp) {moved : List IkcpSeg} (hmoved : SndMoved kcp kcp' moved) :
    moved = [] ∧ Idle kcp' := by
  have hqueue := hmoved.queue
  rw [h.queue] at hqueue
  obtain ⟨rfl, hrest⟩ := List.append_eq_nil_iff.mp hqueue.symm
  have hbuf := hmoved.sndBuf
  rw [h.buf] at hbuf
  exact ⟨rfl, hrest, List.map_eq_nil_iff.mp hbuf⟩

theorem sndInv_nil_iff : SndInv [] conv kcp ↔ Idle kcp ∧ kcp.sndNxt.toNat = 0 := by
  constructor
  · intro h
    have hlen := h.length_queue
    have hspan : span groupMss [] = 0 := rfl
    refine ⟨⟨List.length_eq_zero_iff.mp (by omega), ?_⟩, by omega⟩
    refine List.eq_nil_iff_forall_not_mem.mpr ?_
    intro seg hseg
    obtain ⟨-, -, -, hget⟩ := h.buf seg.core (List.mem_map_of_mem hseg)
    cases hget
  · rintro ⟨hidle, hnxt⟩
    refine ⟨Nat.le_of_eq hnxt, by rw [hidle.queue]; simp, ?_⟩
    intro c hc
    rw [hidle.buf] at hc
    cases hc

/-- The sending half of a member: pieces of the stream, or nothing at all. -/
def Sends (log : List Bytes) (conv : UInt32) (kcp : Ikcpcb) : Prop :=
  SndInv log conv kcp ∨ Idle kcp

/-- Segment `sn` is numbered and no longer in `snd_buf`. -/
def Freed (kcp : Ikcpcb) (sn : UInt32) : Prop :=
  sn.toNat < kcp.sndNxt.toNat ∧ ∀ seg ∈ kcp.sndBuf, seg.sn ≠ sn

instance (kcp : Ikcpcb) (sn : UInt32) : Decidable (Freed kcp sn) :=
  inferInstanceAs (Decidable (_ ∧ _))

/-- Numbering frees nothing: what is newly numbered is in the buffer. -/
theorem Sends.freed_of_move (h : Sends log conv kcp) (hbound : span groupMss log < 2 ^ 31)
    {moved : List IkcpSeg} (hmoved : SndMoved kcp kcp' moved) {sn : UInt32}
    (hfreed : Freed kcp' sn) : Freed kcp sn := by
  obtain ⟨hlt, hnone⟩ := hfreed
  have hnxt' : kcp'.sndNxt.toNat = kcp.sndNxt.toNat + moved.length := by
    rcases h with h | h
    · exact h.nxt_of_move hbound hmoved
    · obtain ⟨rfl, -⟩ := h.move hmoved
      rw [hmoved.sndNxt]
      exact congrArg UInt32.toNat (UInt32.add_zero _)
  have hnot (c : IkcpSeg) (hc : c ∈ kcp'.sndBuf.map IkcpSeg.core) : c.sn ≠ sn := by
    obtain ⟨seg, hseg, rfl⟩ := List.mem_map.mp hc
    exact hnone seg hseg
  rw [hmoved.sndBuf] at hnot
  refine ⟨Nat.lt_of_not_le ?_, fun seg hseg =>
    hnot seg.core (List.mem_append_left _ (List.mem_map_of_mem hseg))⟩
  intro hle
  -- a number past the old `snd_nxt` was given to one of the moved segments
  have hj : sn.toNat - kcp.sndNxt.toNat < moved.length := by omega
  have hget := numbered_getElem? kcp.conv moved kcp.sndNxt (sn.toNat - kcp.sndNxt.toNat)
  rw [List.getElem?_eq_getElem hj, Option.map_some] at hget
  refine hnot _ (List.mem_append_right _ (List.mem_of_getElem? hget)) (UInt32.toNat_inj.mp ?_)
  have hsn := sn.toNat_lt
  rw [UInt32.toNat_add, UInt32.toNat_ofNat']
  omega

/-! ## A flush -/

theorem stream_fits {f : Fragment.Frag UInt8} (hfits : ∀ m ∈ log, Fits m)
    (h : f ∈ stream groupMss log) : f.body.length ≤ groupMss ∧ f.num < 2 ^ 8 := by
  obtain ⟨m, hm, hf⟩ := List.mem_flatMap.mp h
  obtain ⟨hbody, hnum⟩ := Fragment.fragments_body_le hf
  have hlt : Fragment.count groupMss m.length < 128 := hfits m hm
  exact ⟨hbody, by omega⟩

theorem Sends.fitsMtu (h : Sends log conv kcp) (hfits : ∀ m ∈ log, Fits m)
    (hsetup : kcp.setup = groupSetup conv) : FitsMtu kcp := by
  have hmtu : kcp.mtu.toNat = 1400 := by
    rw [show kcp.mtu = 1400 from congrArg Setup.mtu hsetup]
    rfl
  have hover : ikcpOverhead = 24 := rfl
  have hmss : groupMss = 1376 := rfl
  rcases h with h | h
  · refine ⟨by omega, ?_, ?_⟩
    · intro s hs
      have hmem : s.frag ∈ (stream groupMss log).drop kcp.sndNxt.toNat :=
        h.queue ▸ List.mem_map_of_mem hs
      have hbody : s.len ≤ groupMss := (stream_fits hfits (List.mem_of_mem_drop hmem)).1
      omega
    · intro s hs
      obtain ⟨-, -, -, hget⟩ := h.buf s.core (List.mem_map_of_mem hs)
      have hbody : s.len ≤ groupMss := (stream_fits hfits (List.mem_of_getElem? hget)).1
      omega
  · refine ⟨by omega, ?_, ?_⟩
    · intro s hs
      rw [h.queue] at hs
      cases hs
    · intro s hs
      rw [h.buf] at hs
      cases hs

theorem netSeg_of_control (hrcv : RcvInv log k kcp) (hbound : span groupMss log < 2 ^ 31)
    (hconv : kcp.conv = conv) {heard : Prop} {seg : IkcpSeg} (hctl : IsControl kcp seg)
    (hcmd : seg.cmd = ikcpCmdAck ∨ seg.cmd = ikcpCmdWask ∨ seg.cmd = ikcpCmdWins)
    (hack : seg.cmd = ikcpCmdAck → ∃ ts, (seg.sn, ts) ∈ kcp.acklist)
    (hwnd : seg.wnd.toNat < 2 ^ 16) : NetSeg log conv heard (Taken kcp) seg := by
  have hknown : cmdKnown seg.cmd = true ∧ seg.cmd.toNat < 2 ^ 8 ∧ seg.cmd ≠ ikcpCmdPush := by
    rcases hcmd with hcmd | hcmd | hcmd <;> rw [hcmd] <;> decide
  obtain ⟨hknown, hlt, hpush⟩ := hknown
  refine ⟨⟨⟨hlt, ?_, hwnd, ?_⟩, hctl.conv.trans hconv, hknown⟩, fun h => absurd h hpush,
    ?_, ?_, ?_⟩
  · rw [hctl.frg]
    decide
  · rw [IkcpSeg.len, hctl.data]
    decide
  · intro _
    rw [hctl.una]
    exact hrcv.rcvNxt_le hbound
  · intro _ sn hsn
    exact Or.inl (hctl.una ▸ hsn)
  · intro _ h hsn
    obtain ⟨ts, hmem⟩ := hack h
    exact hrcv.acks _ hmem hsn

theorem netSeg_of_flushed (hrcv : RcvInv log k kcp) (hsnd : Sends log conv kcp')
    (hbound : span groupMss log < 2 ^ 31) (hfits : ∀ m ∈ log, Fits m)
    (hconv : kcp.conv = conv) {heard : Prop} {seg : IkcpSeg}
    (h : Flushed kcp kcp'.sndBuf seg) : NetSeg log conv heard (Taken kcp) seg := by
  have hwnd : (UInt32.ofNat (ikcpWndUnused kcp)).toNat < 2 ^ 16 := by
    have hw : kcp.rcvWnd.toNat = 128 := by rw [hrcv.receiving.tracks.ok.wnd]; rfl
    rw [UInt32.toNat_ofNat', ikcpWndUnused]
    split <;> omega
  rcases h with ⟨hctl, hcmd, hack⟩ | ⟨hctl, hcmd⟩ | ⟨huna, hwin, s, hs, hcore⟩
  · exact netSeg_of_control hrcv hbound hconv hctl (Or.inl hcmd) (fun _ => hack)
      (hctl.wnd ▸ hwnd)
  · refine netSeg_of_control hrcv hbound hconv hctl (Or.inr hcmd) (fun h => ?_)
      (hctl.wnd ▸ hwnd)
    rcases hcmd with hcmd | hcmd
    · exact absurd (hcmd.symm.trans h) (by decide)
    · exact absurd (hcmd.symm.trans h) (by decide)
  · have hnotIdle : ¬ Idle kcp' := fun hidle => by
      rw [hidle.buf] at hs
      cases hs
    obtain ⟨hc, hcmd, -, hget⟩ :=
      (hsnd.resolve_right hnotIdle).buf seg.core (hcore ▸ List.mem_map_of_mem hs)
    have hcmd : seg.cmd = ikcpCmdPush := hcmd
    have hget : (stream groupMss log)[seg.sn.toNat]? = some seg.frag := hget
    obtain ⟨hbody, hnum⟩ := stream_fits hfits (List.mem_of_getElem? hget)
    have hbody : seg.len ≤ 1376 := hbody
    refine ⟨⟨⟨?_, hnum, hwin ▸ hwnd, by omega⟩, hc, ?_⟩, fun _ => hget,
      fun _ => huna ▸ hrcv.rcvNxt_le hbound, fun _ sn hsn => Or.inl (huna ▸ hsn), ?_⟩
    · rw [hcmd]
      decide
    · rw [hcmd]
      decide
    · intro _ h
      exact absurd (hcmd.symm.trans h) (by decide)

/-! ## One update of a member -/

/-- The control block of a member between two calls, of which the first `k`
messages of `log` have been handed over. The inner loop of `handleReceive` has
left nothing to deliver, and a send side that is not filled from `log` is idle. -/
structure NodeInv (log : List Bytes) (conv : UInt32) (k : Nat) (kcp : Ikcpcb) : Prop where
  setup : kcp.setup = groupSetup conv
  rcv : RcvInv log k kcp
  drained : Drained kcp
  sends : Sends log conv kcp

theorem NodeInv.fresh (log : List Bytes) (conv : UInt32) (mem : Leftover) :
    NodeInv log conv 0 (freshKcp conv mem) ∧ SndInv [] conv (freshKcp conv mem) := by
  obtain ⟨hsetup, hrcv, hsnd, hack⟩ := freshKcp_spec conv mem
  have hsend : SndInv [] conv (freshKcp conv mem) := .fresh hsnd
  refine ⟨⟨hsetup, .fresh hrcv (?_) log, drained_empty hrcv,
    Or.inr (sndInv_nil_iff.mp hsend).1⟩, hsend⟩
  intro ack hmem
  rw [hack] at hmem
  cases hmem

theorem NodeInv.send (h : NodeInv log conv k kcp) (hsnd : SndInv log conv kcp) {m : Bytes}
    {segs : List IkcpSeg} (hsegs : segs.map IkcpSeg.frag = Fragment.fragments groupMss m) :
    NodeInv (log ++ [m]) conv k (queueSnd kcp segs) :=
  ⟨h.setup, (h.rcv.extend m).congr rfl fun _ hack => hack, h.drained.congr rfl,
    Or.inl (hsnd.send hsegs)⟩

theorem NodeInv.extend (h : NodeInv log conv k kcp) (hidle : Idle kcp) (m : Bytes) :
    NodeInv (log ++ [m]) conv k kcp :=
  ⟨h.setup, h.rcv.extend m, h.drained, Or.inr hidle⟩

theorem NodeInv.flush (h : NodeInv log conv k kcp) (hbound : span groupMss log < 2 ^ 31)
    (hfits : ∀ m ∈ log, Fits m) (iclock : UInt32) :
    NodeInv log conv k (ikcpUpdate kcp iclock).1 ∧
      (∀ log', span groupMss log' < 2 ^ 31 → SndInv log' conv kcp →
        SndInv log' conv (ikcpUpdate kcp iclock).1) ∧
      (Idle kcp → Idle (ikcpUpdate kcp iclock).1) ∧
      ∀ sn, Freed (ikcpUpdate kcp iclock).1 sn → Freed kcp sn := by
  obtain ⟨moved, hflush⟩ := ikcpUpdate_spec (h.sends.fitsMtu hfits h.setup) iclock
  generalize ikcpUpdate kcp iclock = out at *
  have hconv : kcp.conv = conv := congrArg Setup.conv h.setup
  have hsnd (log' : List Bytes) (hbound' : span groupMss log' < 2 ^ 31)
      (hs : SndInv log' conv kcp) : SndInv log' conv out.1 := hs.move hbound' hconv hflush.snd
  have hidle : Idle kcp → Idle out.1 := fun hi => (hi.move hflush.snd).2
  exact ⟨⟨hflush.setup.trans h.setup, h.rcv.congr hflush.rcvSide hflush.acklist,
    h.drained.congr hflush.rcvSide, h.sends.imp (hsnd log hbound) hidle⟩, hsnd, hidle,
    fun sn => h.sends.freed_of_move hbound hflush.snd⟩

/-- What an update hands to `udp_output`; an idle member sends no data. -/
theorem NodeInv.sent (h : NodeInv log conv k kcp) (hbound : span groupMss log < 2 ^ 31)
    (hfits : ∀ m ∈ log, Fits m) (iclock : UInt32) (heard : Prop) :
    ∀ data ∈ (ikcpUpdate kcp iclock).2,
      DatagramOf (fun seg => NetSeg log conv heard (Taken kcp) seg ∧
        (Idle kcp → seg.cmd ≠ ikcpCmdPush)) data := by
  obtain ⟨moved, hflush⟩ := ikcpUpdate_spec (h.sends.fitsMtu hfits h.setup) iclock
  obtain ⟨hnext, -, hidle, -⟩ := h.flush hbound hfits iclock
  generalize ikcpUpdate kcp iclock = out at *
  obtain ⟨groups, houts, hcap, hsegs, -⟩ := hflush.outs
  intro data hdata
  rw [houts] at hdata
  obtain ⟨group, hgroup, rfl⟩ := List.mem_map.mp hdata
  have hmtu : kcp.mtu.toNat = 1400 := by
    rw [show kcp.mtu = 1400 from congrArg Setup.mtu h.setup]
    rfl
  have hlen := (hcap group hgroup).2
  refine ⟨group, rfl, by rw [bufferSize]; omega, ?_⟩
  intro seg hseg
  have hflushed := hsegs seg (List.mem_flatten.mpr ⟨group, hgroup, hseg⟩)
  refine ⟨netSeg_of_flushed h.rcv hnext.sends hbound hfits (congrArg Setup.conv h.setup)
    hflushed, ?_⟩
  intro hi
  rcases hflushed with ⟨-, hcmd, -⟩ | ⟨-, hcmd | hcmd⟩ | ⟨-, -, s, hs, -⟩
  · rw [hcmd]
    decide
  · rw [hcmd]
    decide
  · rw [hcmd]
    decide
  · rw [(hidle hi).buf] at hs
    cases hs

/-- What one `update` of a member does, `P` being what is known of the segments
it reads and `new` the messages it takes. -/
structure NodeUpdate (log : List Bytes) (conv : UInt32) (P : IkcpSeg → Prop) (k k' : Nat)
    (kcp kcp' : Ikcpcb) (new : List Bytes) : Prop where
  inv : NodeInv log conv k' kcp'
  new : log.take k' = log.take k ++ new
  taken : ∀ sn : UInt32, sn.toNat < 2 ^ 31 → Taken kcp sn → Taken kcp' sn
  snd : ∀ log', span groupMss log' < 2 ^ 31 → SndInv log' conv kcp → SndInv log' conv kcp'
  idle : Idle kcp → Idle kcp'
  quiet : (∀ seg, P seg → OnNet [] conv seg) → RcvInv [] 0 kcp → RcvInv [] 0 kcp'
  freed : ∀ sn, Freed kcp' sn → Freed kcp sn ∨ ∃ seg, P seg ∧ seg.head.Acks sn

theorem NodeInv.update (h : NodeInv log conv k kcp) (hbound : span groupMss log < 2 ^ 31)
    (hfits : ∀ m ∈ log, Fits m) (iclock : UInt32) {results : List RecvResult}
    {P : IkcpSeg → Prop} (hP : ∀ seg, P seg → OnNet log conv seg)
    (hdata : ∀ data, .datagram data ∈ results → DatagramOf P data) :
    ∃ k', NodeUpdate log conv P k k' kcp (handleReceive (ikcpUpdate kcp iclock).1 results).1
      (handleReceive (ikcpUpdate kcp iclock).1 results).2 := by
  obtain ⟨hinv, hsnd, hidle, hfreed⟩ := h.flush hbound hfits iclock
  obtain ⟨-, hside, hack⟩ := ikcpUpdate_frame kcp iclock
  generalize ikcpUpdate kcp iclock = out at *
  have hconv : out.1.conv = conv := congrArg Setup.conv hinv.setup
  obtain ⟨k', hrcv, hnew, htaken⟩ := hinv.rcv.handleReceive hbound hfits hconv
    fun data hmem => (hdata data hmem).imp hP
  have hsendable (seg : IkcpSeg) (hseg : P seg) : seg.Sendable conv := by
    obtain ⟨heard, taken, hnet⟩ := hP seg hseg
    exact hnet.sendable
  obtain ⟨htrim, hkeep⟩ := handleReceive_sndBuf hsendable results hconv hdata
  have hdrained := handleReceive_drained results hinv.drained
  have hquiet (hnone : ∀ seg, P seg → OnNet [] conv seg) (hq : RcvInv [] 0 kcp) :
      RcvInv [] 0 (CppDemos.handleReceive out.1 results).1 := by
    obtain ⟨k'', hrcv', -⟩ := (hq.congr hside hack).handleReceive (by decide)
      (fun m hm => nomatch hm) hconv fun data hmem => (hdata data hmem).imp hnone
    obtain rfl : k'' = 0 := Nat.le_zero.mp hrcv'.le
    exact hrcv'
  generalize CppDemos.handleReceive out.1 results = last at *
  have hidle' : Idle out.1 → Idle last.1 := fun hi => hi.trim htrim
  refine ⟨k', ⟨htrim.setup.trans hinv.setup, hrcv, hdrained,
      hinv.sends.imp (fun hs => hs.trim htrim) hidle'⟩,
    hnew, fun sn hsn ht => htaken sn hsn (ht.congr hside),
    fun log' hb hs => (hsnd log' hb hs).trim htrim, fun hi => hidle' (hidle hi), hquiet,
    fun sn ⟨hlt, hnone⟩ => ?_⟩
  rw [htrim.sndNxt] at hlt
  by_cases hbuf : ∃ seg ∈ out.1.sndBuf, seg.sn = sn
  · obtain ⟨seg, hseg, rfl⟩ := hbuf
    rcases hkeep seg.core (List.mem_map_of_mem hseg) with hin | hacked
    · obtain ⟨seg', hseg', heq⟩ := List.mem_map.mp hin
      exact absurd (congrArg IkcpSeg.sn heq) (hnone seg' hseg')
    · exact Or.inr hacked
  · exact Or.inl (hfreed sn ⟨hlt, fun seg hseg heq => hbuf ⟨seg, hseg, heq⟩⟩)

/-- Once a member has accepted everything, and no message is too long for its
buffer, it has handed everything over. -/
theorem NodeInv.take_eq (h : NodeInv log conv k kcp) (hbound : span groupMss log < 2 ^ 31)
    (hfits : ∀ m ∈ log, Fits m) (hshort : ∀ m ∈ log, m.length ≤ bufferSize)
    (htaken : ∀ sn : UInt32, sn.toNat < span groupMss log → Taken kcp sn) : log.take k = log := by
  refine List.take_of_length_le (Nat.le_of_not_lt ?_)
  intro hk
  have hpos := position_add_span log k
  have hdrop := List.drop_eq_getElem_cons hk
  have hmem : log[k] ∈ log := List.getElem_mem hk
  have hspan : span groupMss (log.drop k)
      = Fragment.count groupMss log[k].length + span groupMss (log.drop (k + 1)) := by
    rw [hdrop, ← List.singleton_append, span_append, span_singleton]
  have hrec := h.rcv.receiving
  have hhead : Receiving groupMss (UInt32.ofNat (position log k)) (log[k] :: log.drop (k + 1))
      kcp := hdrop ▸ hrec
  refine h.drained.not_complete hhead (hfits _ hmem) (hshort _ hmem) ?_
  intro j hj
  have hsn : (UInt32.ofNat (position log k + j)).toNat = position log k + j :=
    toNat_ofNat_of_lt (by omega)
  have hhas := (hrec.has_iff_taken (by omega) (by omega)).mpr
    (htaken (UInt32.ofNat (position log k + j)) (by omega))
  have hoff : snOffset (UInt32.ofNat (position log k)) (UInt32.ofNat (position log k + j)) = j := by
    rw [UInt32.ofNat_add]
    exact snOffset_ofNat _ (by omega)
  rcases hhas with hbehind | hheld
  · rw [Behind, hoff] at hbehind
    omega
  · rwa [hoff] at hheld

end CppDemos
