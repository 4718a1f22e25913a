import CppDemos.Lib.NextFit
import CppDemos.Kcp.Flush

/-!
# What a flush writes

`flushSegs` lists the segments `ikcp_flush` encodes, in the order it encodes
them: one acknowledgement for each entry of `acklist`, the window probes that
are asked for, and a copy of each segment of `snd_buf` that is due.
`ikcpFlush_outs` says that the datagrams are this list and nothing else, packed
by the rule of `OutBuf.reserve`; the three loops and the two probe blocks are
first written as appends to one log (`flushAcks_eq`, `flushProbe_eq`,
`flushData_eq`).

`pack_groups` is what the packing rule amounts to for any list of segments: an
unbroken division into datagrams, none longer than the MTU but those made of a
single segment that is, and none with room for the segment behind it. So a flush
takes as few datagrams as can be (`flush_packs_best`).
-/

namespace CppDemos

/-! ## Packing -/

/-- Room is made if need be, and one segment is written. -/
def OutBuf.write (mtu : UInt32) (out : OutBuf) (seg : IkcpSeg) : OutBuf :=
  (out.reserve mtu (ikcpOverhead + seg.len)).put (segBytes seg)

def OutBuf.writeAll (mtu : UInt32) (out : OutBuf) (segs : List IkcpSeg) : OutBuf :=
  segs.foldl (OutBuf.write mtu) out

/-- The datagrams in which segments written to an empty buffer are handed over. -/
def pack (mtu : UInt32) (segs : List IkcpSeg) : List Bytes :=
  ikcpOutput (OutBuf.writeAll mtu {} segs).sent (OutBuf.writeAll mtu {} segs).ptr

@[simp] theorem OutBuf.writeAll_nil (mtu : UInt32) (out : OutBuf) : out.writeAll mtu [] = out := rfl

@[simp] theorem OutBuf.writeAll_cons (mtu : UInt32) (out : OutBuf) (seg : IkcpSeg)
    (segs : List IkcpSeg) :
    out.writeAll mtu (seg :: segs) = (out.write mtu seg).writeAll mtu segs := rfl

theorem OutBuf.writeAll_append (mtu : UInt32) (out : OutBuf) (segs more : List IkcpSeg) :
    out.writeAll mtu (segs ++ more) = (out.writeAll mtu segs).writeAll mtu more :=
  List.foldl_append

/-- A datagram of the packing rule: within the MTU, or a single segment. -/
def IsGroup (mtu : UInt32) (group : List IkcpSeg) : Prop :=
  group ≠ [] ∧ ((datagram group).length ≤ mtu.toNat ∨ ∃ seg, group = [seg])

def IkcpSeg.size (seg : IkcpSeg) : Nat := ikcpOverhead + seg.len

theorem length_datagram (segs : List IkcpSeg) :
    (datagram segs).length = NextFit.total IkcpSeg.size segs := by
  induction segs with
  | nil => rfl
  | cons seg segs ih =>
      rw [NextFit.total_cons, ← ih, datagram, List.flatMap_cons, List.length_append,
        length_segBytes]
      rfl

theorem isGroup_iff {mtu : UInt32} {group : List IkcpSeg} :
    IsGroup mtu group ↔ NextFit.IsBlock IkcpSeg.size mtu.toNat group := by
  rw [IsGroup, NextFit.IsBlock, length_datagram]

/-- The datagrams and the rest of the buffer are the segments of `log`, cut by
the packing rule. -/
structure OutBuf.Cuts (mtu : UInt32) (out : OutBuf) (groups : List (List IkcpSeg))
    (pending log : List IkcpSeg) : Prop where
  sent : out.sent = groups.map datagram
  ptr : out.ptr = datagram pending
  written : ∀ group ∈ groups, IsGroup mtu group
  last : pending = [] ∧ groups = [] ∨ IsGroup mtu pending
  tight : (groups ++ [pending]).IsChain (NextFit.Tight IkcpSeg.size mtu.toNat)
  log : groups.flatten ++ pending = log

theorem OutBuf.Cuts.output {mtu : UInt32} {out : OutBuf} {groups : List (List IkcpSeg)}
    {pending log : List IkcpSeg} (h : out.Cuts mtu groups pending log) :
    pending = [] ∧ groups = [] ∧ ikcpOutput out.sent out.ptr = [] ∨
      pending ≠ [] ∧ ikcpOutput out.sent out.ptr = (groups ++ [pending]).map datagram ∧
        ∀ group ∈ groups ++ [pending], IsGroup mtu group := by
  rw [ikcpOutput, h.sent, h.ptr]
  rcases h.last with ⟨rfl, rfl⟩ | hgroup
  · exact Or.inl ⟨rfl, rfl, rfl⟩
  · refine Or.inr ⟨hgroup.1, ?_, fun group hmem => ?_⟩
    · rw [if_neg fun hzero => hgroup.1 (datagram_eq_nil hzero)]
      simp
    · rcases List.mem_append.mp hmem with hmem | hmem
      · exact h.written group hmem
      · exact List.mem_singleton.mp hmem ▸ hgroup

theorem OutBuf.Cuts.write {mtu : UInt32} {out : OutBuf} {groups : List (List IkcpSeg)}
    {pending log : List IkcpSeg} (h : out.Cuts mtu groups pending log) (seg : IkcpSeg) :
    ∃ groups' pending', (out.write mtu seg).Cuts mtu groups' pending' (log ++ [seg]) := by
  have hlog := h.log
  have halone : IsGroup mtu [seg] := ⟨by simp, Or.inr ⟨seg, rfl⟩⟩
  unfold OutBuf.write OutBuf.reserve OutBuf.put
  split
  · rename_i hover
    rcases h.output with ⟨rfl, rfl, hsent⟩ | ⟨hne, hsent, hgroups⟩
    · obtain rfl : log = [] := hlog.symm
      exact ⟨[], [seg], hsent, by simp [datagram], by simp, Or.inr halone, .singleton _, rfl⟩
    · -- the segment stands alone in the new buffer, as it did not fit in the old one
      refine ⟨groups ++ [pending], [seg], hsent, by simp [datagram], hgroups, Or.inr halone, ?_,
        by simp [← hlog]⟩
      refine List.isChain_append.mpr ⟨h.tight, .singleton _, ?_⟩
      simp only [List.getLast?_append, List.getLast?_singleton, Option.some_or, Option.mem_def,
        Option.some.injEq, List.head?_cons, forall_eq']
      intro x hx
      obtain rfl : seg = x := Option.some.inj hx
      rw [h.ptr, length_datagram] at hover
      exact hover
  · rename_i hroom
    refine ⟨groups, pending ++ [seg], h.sent, ?_, h.written, Or.inr ⟨by simp, Or.inl ?_⟩, ?_,
      by simp [← hlog]⟩
    · rw [datagram_concat, ← h.ptr]
    · rw [datagram_concat, ← h.ptr, List.length_append, length_segBytes]
      omega
    · rcases h.last with ⟨rfl, rfl⟩ | hgroup
      · exact .singleton _
      · -- the first segment of the buffer is the same
        obtain ⟨x, pending, rfl⟩ := List.exists_cons_of_ne_nil hgroup.1
        obtain ⟨hchain, -, hlast⟩ := List.isChain_append.mp h.tight
        refine List.isChain_append.mpr ⟨hchain, .singleton _, fun block hblock next hnext => ?_⟩
        obtain rfl := Option.some.inj hnext
        exact hlast block hblock (x :: pending) rfl

theorem OutBuf.Cuts.writeAll {mtu : UInt32} (segs : List IkcpSeg) :
    ∀ {out : OutBuf} {groups : List (List IkcpSeg)} {pending log : List IkcpSeg},
      out.Cuts mtu groups pending log → ∃ groups' pending',
        (out.writeAll mtu segs).Cuts mtu groups' pending' (log ++ segs) := by
  induction segs with
  | nil => exact fun h => ⟨_, _, by simpa using h⟩
  | cons seg segs ih =>
      intro out groups pending log h
      obtain ⟨groups', pending', hwrite⟩ := h.write seg
      simpa using ih hwrite

theorem OutBuf.cuts_empty (mtu : UInt32) : OutBuf.Cuts mtu {} [] [] [] :=
  ⟨rfl, rfl, by simp, Or.inl ⟨rfl, rfl⟩, .singleton _, rfl⟩

/-- The datagrams are the segments in order, unbroken; only a segment that is too
long by itself makes a datagram longer than the MTU, and none has room for the
segment behind it. -/
theorem pack_groups (mtu : UInt32) (segs : List IkcpSeg) :
    ∃ groups : List (List IkcpSeg), pack mtu segs = groups.map datagram ∧
      (∀ group ∈ groups, IsGroup mtu group) ∧ groups.flatten = segs ∧
      groups.IsChain (NextFit.Tight IkcpSeg.size mtu.toNat) := by
  obtain ⟨groups, pending, h⟩ := (OutBuf.cuts_empty mtu).writeAll segs
  have hlog := h.log
  rw [List.nil_append] at hlog
  rcases h.output with ⟨rfl, rfl, hsent⟩ | ⟨-, hsent, hgroups⟩
  · exact ⟨[], hsent, by simp, hlog, .nil⟩
  · exact ⟨groups ++ [pending], hsent, hgroups, by simpa using hlog, h.tight⟩

/-! ## The loops as one log -/

/-- The acknowledgements "flush acknowledges" writes, each with the header. -/
def ackSegs (seg : IkcpSeg) (acks : List (UInt32 × UInt32)) : List IkcpSeg :=
  acks.map fun ack => { seg with sn := ack.1, ts := ack.2 }

/-- The header behind the acknowledgements keeps the last of them. -/
def ackHead (seg : IkcpSeg) (acks : List (UInt32 × UInt32)) : IkcpSeg :=
  acks.foldl (fun seg ack => { seg with sn := ack.1, ts := ack.2 }) seg

theorem flushAcks_eq (kcp : Ikcpcb) :
    ∀ (acks : List (UInt32 × UInt32)) {seg : IkcpSeg} (out : OutBuf), seg.data = [] →
      flushAcks kcp acks (seg, out)
        = (ackHead seg acks, out.writeAll kcp.mtu (ackSegs seg acks))
  | [], _, _, _ => rfl
  | (sn, ts) :: acks, seg, out, hdata => by
      have hlen : ({ seg with sn := sn, ts := ts } : IkcpSeg).len = 0 := by
        rw [IkcpSeg.len, hdata]
        rfl
      rw [flushAcks]
      have hdata' : ({ seg with sn := sn, ts := ts } : IkcpSeg).data = [] := hdata
      refine (flushAcks_eq kcp acks _ hdata').trans ?_
      simp only [ackHead, ackSegs, List.foldl_cons, List.map_cons, OutBuf.writeAll_cons,
        OutBuf.write, hlen, Nat.add_zero]

/-- The probe that is written when its flag is set. -/
def probeSegs (kcp : Ikcpcb) (flag cmd : UInt32) (seg : IkcpSeg) : List IkcpSeg :=
  if kcp.probe &&& flag ≠ 0 then [{ seg with cmd := cmd }] else []

def probeHead (kcp : Ikcpcb) (flag cmd : UInt32) (seg : IkcpSeg) : IkcpSeg :=
  if kcp.probe &&& flag ≠ 0 then { seg with cmd := cmd } else seg

theorem flushProbe_eq (kcp : Ikcpcb) (flag cmd : UInt32) {seg : IkcpSeg} (out : OutBuf)
    (hdata : seg.data = []) :
    flushProbe kcp flag cmd (seg, out)
      = (probeHead kcp flag cmd seg, out.writeAll kcp.mtu (probeSegs kcp flag cmd seg)) := by
  have hlen : ({ seg with cmd := cmd } : IkcpSeg).len = 0 := by
    rw [IkcpSeg.len, hdata]
    rfl
  simp only [flushProbe, probeHead, probeSegs]
  split
  · simp only [OutBuf.writeAll_cons, OutBuf.writeAll_nil, OutBuf.write, hlen, Nat.add_zero]
  · rfl

/-- What becomes of a segment of `snd_buf` in the data loop, `none` if it is not
due. -/
def dueSeg (kcp : Ikcpcb) (resent rtomin wnd : UInt32) (segment : IkcpSeg) : Option IkcpSeg :=
  (flushDue kcp resent rtomin segment { xmit := 0, state := 0, out := {} }).map fun due =>
    { due.1 with ts := kcp.current, wnd := wnd, una := kcp.rcvNxt }

/-- Whether a segment is due does not depend on what the loop has counted so
far. -/
theorem flushDue_fst (kcp : Ikcpcb) (resent rtomin : UInt32) (segment : IkcpSeg)
    (st st' : FlushSt) :
    (flushDue kcp resent rtomin segment st).map Prod.fst
      = (flushDue kcp resent rtomin segment st').map Prod.fst := by
  unfold flushDue
  split
  · rfl
  · split
    · rfl
    · split
      · split <;> rfl
      · rfl

theorem dueSeg_eq (kcp : Ikcpcb) (resent rtomin wnd : UInt32) (segment : IkcpSeg)
    (st : FlushSt) :
    dueSeg kcp resent rtomin wnd segment
      = (flushDue kcp resent rtomin segment st).map fun due =>
        { due.1 with ts := kcp.current, wnd := wnd, una := kcp.rcvNxt } := by
  have hfst := flushDue_fst kcp resent rtomin segment { xmit := 0, state := 0, out := {} } st
  have hcomp (o : Option (IkcpSeg × FlushSt)) : (o.map fun due =>
      ({ due.1 with ts := kcp.current, wnd := wnd, una := kcp.rcvNxt } : IkcpSeg))
      = (o.map Prod.fst).map fun seg =>
        ({ seg with ts := kcp.current, wnd := wnd, una := kcp.rcvNxt } : IkcpSeg) := by
    cases o <;> rfl
  rw [dueSeg, hcomp, hfst, ← hcomp]

/-- The data loop writes the due segments and leaves them updated in their
places. -/
theorem flushData_eq (kcp : Ikcpcb) (resent rtomin wnd : UInt32) :
    ∀ (buf : List IkcpSeg) (st : FlushSt),
      (flushData kcp resent rtomin wnd buf st).1
        = buf.map (fun s => (dueSeg kcp resent rtomin wnd s).getD s) ∧
      (flushData kcp resent rtomin wnd buf st).2.out
        = st.out.writeAll kcp.mtu (buf.filterMap (dueSeg kcp resent rtomin wnd))
  | [], _ => ⟨rfl, rfl⟩
  | segment :: p, st => by
      have heq := dueSeg_eq kcp resent rtomin wnd segment st
      rw [flushData]
      cases hdue : flushDue kcp resent rtomin segment st with
      | none =>
          obtain ⟨hbuf, hout⟩ := flushData_eq kcp resent rtomin wnd p st
          rw [hdue, Option.map_none] at heq
          simp only [List.map_cons, List.filterMap_cons, heq, Option.getD_none]
          exact ⟨by rw [hbuf], hout⟩
      | some due =>
          obtain ⟨seg', st'⟩ := due
          obtain ⟨-, hout'⟩ := flushDue_core hdue
          obtain ⟨hbuf, hout⟩ := flushData_eq kcp resent rtomin wnd p
            { st' with
              out := (st'.out.reserve kcp.mtu (ikcpOverhead + seg'.len)).put
                (segBytes { seg' with ts := kcp.current, wnd := wnd, una := kcp.rcvNxt })
              state := if seg'.xmit ≥ kcp.deadLink then 0xffffffff else st'.state }
          rw [hdue, Option.map_some] at heq
          simp only [List.map_cons, List.filterMap_cons, heq, Option.getD_some,
            OutBuf.writeAll_cons]
          refine ⟨congrArg (_ :: ·) hbuf, hout.trans ?_⟩
          rw [hout']
          rfl

/-! ## The whole flush -/

/-- The header behind the acknowledgements. -/
def flushedHead (kcp : Ikcpcb) : IkcpSeg := ackHead (flushHead kcp) kcp.acklist

/-- The block in which "flush data segments" runs. -/
def flushing (kcp : Ikcpcb) : Ikcpcb :=
  moveSndQueue (flushCwnd (flushControl kcp).1) (UInt32.ofNat (ikcpWndUnused kcp))
    (flushControl kcp).1 (flushControl kcp).1.sndQueue

/-- Acknowledgements and window probes, as `ikcp_flush` writes them. -/
def controlSegs (kcp : Ikcpcb) : List IkcpSeg :=
  let probing := probeWindow { kcp with acklist := [] }
  let head := flushedHead kcp
  ackSegs (flushHead kcp) kcp.acklist ++ probeSegs probing ikcpAskSend ikcpCmdWask head ++
    probeSegs probing ikcpAskTell ikcpCmdWins (probeHead probing ikcpAskSend ikcpCmdWask head)

/-- The due segments of `snd_buf`, as `ikcp_flush` writes them. -/
def dataSegs (kcp : Ikcpcb) : List IkcpSeg :=
  (flushing kcp).sndBuf.filterMap (dueSeg (flushing kcp) (flushResent (flushing kcp))
    (flushRtomin (flushing kcp)) (UInt32.ofNat (ikcpWndUnused kcp)))

def flushSegs (kcp : Ikcpcb) : List IkcpSeg := controlSegs kcp ++ dataSegs kcp

theorem ackHead_data (acks : List (UInt32 × UInt32)) :
    ∀ {seg : IkcpSeg}, seg.data = [] → (ackHead seg acks).data = [] ∧
      (ackHead seg acks).wnd = seg.wnd := by
  induction acks with
  | nil => exact fun h => ⟨h, rfl⟩
  | cons ack acks ih =>
      intro seg h
      have hnext : ({ seg with sn := ack.1, ts := ack.2 } : IkcpSeg).data = [] := h
      exact ih hnext

theorem probeHead_data {kcp : Ikcpcb} {flag cmd : UInt32} {seg : IkcpSeg} :
    (probeHead kcp flag cmd seg).data = seg.data ∧ (probeHead kcp flag cmd seg).wnd = seg.wnd := by
  unfold probeHead
  split <;> exact ⟨rfl, rfl⟩

theorem probeWindow_mtu (kcp : Ikcpcb) : (probeWindow kcp).mtu = kcp.mtu := by
  obtain ⟨wait, ts, probe, heq⟩ := probeWindow_frame kcp
  rw [heq]

theorem flushControl_out (kcp : Ikcpcb) :
    (flushControl kcp).2.1.wnd = UInt32.ofNat (ikcpWndUnused kcp) ∧
      (flushControl kcp).2.2 = OutBuf.writeAll kcp.mtu {} (controlSegs kcp) := by
  have hmtu := probeWindow_mtu { kcp with acklist := [] }
  have hhead : (flushHead kcp).data = [] := rfl
  have hacks := flushAcks_eq kcp kcp.acklist {} hhead
  obtain ⟨hdata, hwnd⟩ := ackHead_data kcp.acklist hhead
  have hwask := flushProbe_eq (probeWindow { kcp with acklist := [] }) ikcpAskSend ikcpCmdWask
    (OutBuf.writeAll kcp.mtu {} (ackSegs (flushHead kcp) kcp.acklist)) hdata
  obtain ⟨hdata', hwnd'⟩ := @probeHead_data (probeWindow { kcp with acklist := [] })
    ikcpAskSend ikcpCmdWask (ackHead (flushHead kcp) kcp.acklist)
  simp only [flushControl, hacks, hwask, flushProbe_eq _ _ _ _ (hdata'.trans hdata), controlSegs,
    flushedHead, OutBuf.writeAll_append, hmtu]
  exact ⟨(probeHead_data.2.trans hwnd').trans hwnd, trivial⟩

theorem flushing_mtu (kcp : Ikcpcb) : (flushing kcp).mtu = kcp.mtu := by
  obtain ⟨wait, ts, hctl⟩ := flushControl_frame kcp
  obtain ⟨hsetup, -⟩ := moveSndQueue_spec (flushCwnd (flushControl kcp).1)
    (UInt32.ofNat (ikcpWndUnused kcp)) (flushControl kcp).1.sndQueue (flushControl kcp).1 rfl
  have hmtu := congrArg Setup.mtu hsetup
  exact hmtu.trans (by rw [hctl]; rfl)

/-- The datagrams of a flush are exactly its segments, packed. -/
theorem ikcpFlush_outs {kcp : Ikcpcb} (hupdated : kcp.updated ≠ 0) :
    (ikcpFlush kcp).2 = pack kcp.mtu (flushSegs kcp) := by
  obtain ⟨hwnd, hout⟩ := flushControl_out kcp
  obtain ⟨ssthresh, cwnd, incr, heq⟩ := flushBuffers_eq (flushControl kcp).1
    (flushControl kcp).2.1.wnd (flushControl kcp).2.2
  have hdata := (flushData_eq (flushing kcp) (flushResent (flushing kcp))
    (flushRtomin (flushing kcp)) (UInt32.ofNat (ikcpWndUnused kcp)) (flushing kcp).sndBuf
    { xmit := (flushing kcp).xmit, state := (flushing kcp).state,
      out := OutBuf.writeAll kcp.mtu {} (controlSegs kcp) }).2
  rw [ikcpFlush, if_neg hupdated, heq]
  simp only [flushSndBuf, hwnd, hout]
  rw [pack, flushSegs, OutBuf.writeAll_append]
  rw [flushing_mtu] at hdata
  have hend : ∀ out out' : OutBuf, out = out' →
      ikcpOutput out.sent out.ptr = ikcpOutput out'.sent out'.ptr := by
    rintro out _ rfl
    rfl
  exact hend _ _ hdata

/-- A flush hands over its segments in order, in datagrams within the MTU but for a
segment that is longer by itself, and in as few such datagrams as there can be. -/
theorem flush_packs_best {kcp : Ikcpcb} (hupdated : kcp.updated ≠ 0) :
    ∃ groups : List (List IkcpSeg), (ikcpFlush kcp).2 = groups.map datagram ∧
      groups.flatten = flushSegs kcp ∧ (∀ group ∈ groups, IsGroup kcp.mtu group) ∧
      ∀ others : List (List IkcpSeg), others.flatten = flushSegs kcp →
        (∀ group ∈ others, IsGroup kcp.mtu group) → groups.length ≤ others.length := by
  obtain ⟨groups, houts, hgroups, hflat, htight⟩ := pack_groups kcp.mtu (flushSegs kcp)
  refine ⟨groups, (ikcpFlush_outs hupdated).trans houts, hflat, hgroups,
    fun others hsame hothers => ?_⟩
  refine NextFit.length_le (fun group hgroup => (hgroups group hgroup).1) htight
    (fun group hgroup => isGroup_iff.mp (hothers group hgroup)) ?_
  rw [hflat, hsame]

/-- A block that has been updated before, with two acknowledgements to send. -/
def ackingKcp : Ikcpcb := { ikcpInit 1 ⟨0, 0, 1⟩ with acklist := [(0, 7), (1, 8)] }

theorem flush_packs_best_acks :
    ∃ groups : List (List IkcpSeg), (ikcpFlush ackingKcp).2 = groups.map datagram ∧
      groups.flatten = flushSegs ackingKcp ∧ (∀ group ∈ groups, IsGroup ackingKcp.mtu group) ∧
      ∀ others : List (List IkcpSeg), others.flatten = flushSegs ackingKcp →
        (∀ group ∈ others, IsGroup ackingKcp.mtu group) → groups.length ≤ others.length :=
  flush_packs_best (by decide)

/-! ## What is certain to be sent -/

theorem moveSndQueue_frame (cwnd wnd : UInt32) :
    ∀ (queue : List IkcpSeg) (kcp : Ikcpcb), ∃ sndQueue sndBuf nsndQue nsndBuf sndNxt,
      moveSndQueue cwnd wnd kcp queue = { kcp with
        sndQueue := sndQueue
        sndBuf := sndBuf
        nsndQue := nsndQue
        nsndBuf := nsndBuf
        sndNxt := sndNxt }
  | [], _ => ⟨_, _, _, _, _, rfl⟩
  | newseg :: rest, kcp => by
      rw [moveSndQueue]
      split
      · obtain ⟨_, _, _, _, _, heq⟩ :=
          moveSndQueue_frame cwnd wnd rest (shiftSnd wnd kcp newseg rest)
        exact ⟨_, _, _, _, _, heq⟩
      · exact ⟨_, _, _, _, _, rfl⟩

theorem flushing_frame (kcp : Ikcpcb) :
    (flushing kcp).current = kcp.current ∧ (flushing kcp).rcvNxt = kcp.rcvNxt ∧
      ∃ new, (flushing kcp).sndBuf = kcp.sndBuf ++ new := by
  obtain ⟨wait, ts, hctl⟩ := flushControl_frame kcp
  obtain ⟨-, hrcv, -, moved, new, -, hbuf, -⟩ := moveSndQueue_spec (flushCwnd (flushControl kcp).1)
    (UInt32.ofNat (ikcpWndUnused kcp)) (flushControl kcp).1.sndQueue (flushControl kcp).1 rfl
  obtain ⟨_, _, _, _, _, hmove⟩ := moveSndQueue_frame (flushCwnd (flushControl kcp).1)
    (UInt32.ofNat (ikcpWndUnused kcp)) (flushControl kcp).1.sndQueue (flushControl kcp).1
  have hnxt := congrArg RcvSide.rcvNxt hrcv
  refine ⟨?_, ?_, new, ?_⟩
  · rw [flushing, hmove, hctl]
  · exact hnxt.trans (by rw [hctl]; rfl)
  · exact hbuf.trans (by rw [hctl])

theorem dueSeg_core {kcp : Ikcpcb} {resent rtomin wnd : UInt32} {segment due : IkcpSeg}
    (h : dueSeg kcp resent rtomin wnd segment = some due) :
    due.core = segment.core ∧ due.una = kcp.rcvNxt ∧ due.wnd = wnd := by
  obtain ⟨⟨seg, st⟩, hdue, rfl⟩ := Option.map_eq_some_iff.mp h
  exact ⟨(flushDue_core hdue).1, rfl, rfl⟩

theorem dueSeg_of_due {kcp : Ikcpcb} {segment : IkcpSeg}
    (h : segment.xmit = 0 ∨ 0 ≤ itimediff kcp.current segment.resendts)
    (resent rtomin wnd : UInt32) : ∃ due, dueSeg kcp resent rtomin wnd segment = some due := by
  unfold dueSeg flushDue
  by_cases hfresh : segment.xmit = 0
  · rw [if_pos hfresh]
    exact ⟨_, rfl⟩
  · rw [if_neg hfresh, if_pos (h.resolve_left hfresh)]
    exact ⟨_, rfl⟩

theorem flushSegs_due {kcp : Ikcpcb} {segment : IkcpSeg} (hmem : segment ∈ kcp.sndBuf)
    (h : segment.xmit = 0 ∨ 0 ≤ itimediff kcp.current segment.resendts) :
    ∃ due ∈ flushSegs kcp, due.core = segment.core := by
  obtain ⟨hcurrent, -, new, hbuf⟩ := flushing_frame kcp
  rw [← hcurrent] at h
  obtain ⟨due, hdue⟩ := dueSeg_of_due h (flushResent (flushing kcp)) (flushRtomin (flushing kcp))
    (UInt32.ofNat (ikcpWndUnused kcp))
  refine ⟨due, List.mem_append_right _ ?_, (dueSeg_core hdue).1⟩
  exact List.mem_filterMap.mpr ⟨segment, hbuf ▸ List.mem_append_left _ hmem, hdue⟩

theorem flushSegs_ack {kcp : Ikcpcb} {ack : UInt32 × UInt32} (h : ack ∈ kcp.acklist) :
    { flushHead kcp with sn := ack.1, ts := ack.2 } ∈ flushSegs kcp :=
  List.mem_append_left _ (List.mem_append_left _ (List.mem_append_left _
    (List.mem_map_of_mem h)))

/-- All segments of a flush carry the same window and the same `una`. -/
theorem flushSegs_head {kcp : Ikcpcb} {seg : IkcpSeg} (h : seg ∈ flushSegs kcp) :
    seg.una = kcp.rcvNxt ∧ seg.wnd = UInt32.ofNat (ikcpWndUnused kcp) := by
  have hack (acks : List (UInt32 × UInt32)) : (ackHead (flushHead kcp) acks).una = kcp.rcvNxt ∧
      (ackHead (flushHead kcp) acks).wnd = UInt32.ofNat (ikcpWndUnused kcp) := by
    suffices hfold : ∀ {seg : IkcpSeg}, (ackHead seg acks).una = seg.una ∧
        (ackHead seg acks).wnd = seg.wnd from hfold
    induction acks with
    | nil => exact ⟨rfl, rfl⟩
    | cons ack acks ih =>
        intro seg
        exact @ih { seg with sn := ack.1, ts := ack.2 }
  have hprobe {k : Ikcpcb} {flag cmd : UInt32} {head seg : IkcpSeg}
      (hseg : seg ∈ probeSegs k flag cmd head) : seg.una = head.una ∧ seg.wnd = head.wnd := by
    unfold probeSegs at hseg
    split at hseg
    · rw [List.mem_singleton.mp hseg]
      exact ⟨rfl, rfl⟩
    · cases hseg
  have hhead (k : Ikcpcb) (flag cmd : UInt32) (seg : IkcpSeg) :
      (probeHead k flag cmd seg).una = seg.una ∧ (probeHead k flag cmd seg).wnd = seg.wnd := by
    unfold probeHead
    split <;> exact ⟨rfl, rfl⟩
  obtain ⟨huna, hwnd⟩ := hack kcp.acklist
  rcases List.mem_append.mp h with hctl | hdata
  · rcases List.mem_append.mp hctl with hctl | hwins
    · rcases List.mem_append.mp hctl with hacks | hwask
      · obtain ⟨ack, -, rfl⟩ := List.mem_map.mp hacks
        exact ⟨rfl, rfl⟩
      · obtain ⟨h1, h2⟩ := hprobe hwask
        exact ⟨h1.trans huna, h2.trans hwnd⟩
    · obtain ⟨h1, h2⟩ := hprobe hwins
      obtain ⟨h3, h4⟩ := hhead (probeWindow { kcp with acklist := [] }) ikcpAskSend ikcpCmdWask
        (flushedHead kcp)
      exact ⟨(h1.trans h3).trans huna, (h2.trans h4).trans hwnd⟩
  · obtain ⟨segment, -, hdue⟩ := List.mem_filterMap.mp hdata
    obtain ⟨-, h1, h2⟩ := dueSeg_core hdue
    exact ⟨h1.trans (flushing_frame kcp).2.1, h2⟩

end CppDemos
