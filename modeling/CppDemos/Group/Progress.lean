import CppDemos.Group.Healthy

/-!
# A group recovers

The safety results hold however little the network delivers. This is the other
half, for a sender that hears one receiver: whatever has happened, nothing that
was accepted has become undeliverable (`delivery_possible`). Even if every
datagram under way is lost, some further updates, which read only what is sent
from then on, hand over to the receiver all the sender has accepted and leave the
sender with nothing to do.

What is left is measured by three numbers (`Pair.finish`), and in each state one of
three exchanges lowers them: the sender repeats the segment the receiver waits
for (`Pair.retransmit`), it repeats one the receiver has, to be told so
(`Pair.acknowledge`), or it numbers something new (`Pair.number`).
-/

namespace CppDemos

variable {ι : Type} {hears : Member ι → Member ι → Bool} {conv : UInt32}
  {g g' g'' : Group ι} {i : ι} {snd rcv : Ikcpcb}

/-! ## The sender and its receiver -/

/-- The two blocks a transmission is between, in a healthy group. -/
structure Pair (hears : Member ι → Member ι → Bool) (conv : UInt32) (i : ι) (g : Group ι)
    (snd rcv : Ikcpcb) : Prop where
  healthy : Healthy hears conv g
  bound : g.created < 2 ^ 31
  short : ∀ m ∈ g.accepted, m.length ≤ bufferSize
  sender : (g.node .sender).Live conv snd
  receiver : (g.node (.receiver i)).Live conv rcv

namespace Pair

/-- What the joint invariant says of the two. -/
structure Nodes (hears : Member ι → Member ι → Bool) (conv : UInt32) (i : ι) (g : Group ι)
    (snd rcv : Ikcpcb) (pos : Member ι → Nat) : Prop where
  sending : Sending hears conv pos g
  fits : ∀ m ∈ g.accepted, Fits m
  sndNode : NodeInv g.accepted conv (pos .sender) snd
  rcvNode : NodeInv g.accepted conv (pos (.receiver i)) rcv
  numbers : SndInv g.accepted conv snd
  idle : Idle rcv

theorem nodes (h : Pair hears conv i g snd rcv) : ∃ pos, Nodes hears conv i g snd rcv pos := by
  obtain ⟨pos, hsending⟩ := h.healthy.sending
  obtain ⟨snd', hsnd, hsndNode⟩ := hsending.inv.member .sender
  obtain ⟨rcv', hrcv, hrcvNode⟩ := hsending.inv.member (.receiver i)
  obtain rfl := Option.some.inj (h.sender.block.symm.trans hsnd.block)
  obtain rfl := Option.some.inj (h.receiver.block.symm.trans hrcv.block)
  exact ⟨pos, hsending, hsending.inv.fits, hsndNode, hrcvNode, hsending.sender snd hsnd.block,
    hsending.inv.idle i rcv hrcv.block⟩

/-- A receiver that reads a datagram expects no smaller number behind it. -/
theorem read_abreast (iclock : UInt32) {pos : Member ι → Nat} (h : Pair hears conv i g snd rcv)
    (hnodes : Nodes hears conv i g snd rcv pos) {high : Nat}
    (hle : snd.sndNxt.toNat ≤ high) (hhigh : high < 2 ^ 31) {segs : List IkcpSeg}
    (hlen : (datagram segs).length ≤ bufferSize)
    (hsegs : ∀ seg ∈ segs, OnNet g.accepted conv seg ∧ seg.Within high) :
    Abreast rcv.rcvNxt.toNat high
      (handleReceive (ikcpUpdate rcv iclock).1 [.datagram (datagram segs)]).1 := by
  have hnow := h.healthy.abreast snd h.sender.block (.receiver i) rcv h.receiver.block
  have hfrom : Abreast rcv.rcvNxt.toNat snd.sndNxt.toNat rcv :=
    ⟨hnow.room, hnow.wnd, Nat.le_refl _, hnow.nxt, hnow.buf⟩
  refine hnodes.rcvNode.abreast hfrom hle (by omega) fun data hdata => ?_
  rw [RecvResult.datagram.inj (List.mem_singleton.mp hdata)]
  refine ⟨segs, rfl, hlen, fun seg hseg => ?_⟩
  obtain ⟨⟨heard, taken, hnet⟩, hwithin⟩ := hsegs seg hseg
  exact ⟨hnet.sendable, hwithin⟩

theorem acklist_of_read (iclock : UInt32) {pos : Member ι → Nat}
    (h : Pair hears conv i g snd rcv) (hnodes : Nodes hears conv i g snd rcv pos) {high : Nat}
    (hle : snd.sndNxt.toNat ≤ high) (hhigh : high < 2 ^ 31) {segs : List IkcpSeg}
    (hlen : (datagram segs).length ≤ bufferSize)
    (hsegs : ∀ seg ∈ segs, OnNet g.accepted conv seg ∧ seg.Within high) {seg : IkcpSeg}
    (hmem : seg ∈ segs) (hcmd : seg.cmd = ikcpCmdPush) (hsn : seg.sn.toNat < rcv.rcvNxt.toNat)
    (hnear : high ≤ seg.sn.toNat + 128) :
    (handleReceive (ikcpUpdate rcv iclock).1 [.datagram (datagram segs)]).1.acklist ≠ [] := by
  have hnow := h.healthy.abreast snd h.sender.block (.receiver i) rcv h.receiver.block
  have hfrom : Abreast rcv.rcvNxt.toNat snd.sndNxt.toNat rcv :=
    ⟨hnow.room, hnow.wnd, Nat.le_refl _, hnow.nxt, hnow.buf⟩
  have hflushed : Abreast rcv.rcvNxt.toNat high (handleReceive (ikcpUpdate rcv iclock).1 []).1 :=
    hnodes.rcvNode.abreast hfrom hle (by omega) fun data hdata => nomatch hdata
  have hconv : (ikcpUpdate rcv iclock).1.conv = conv :=
    congrArg Setup.conv ((ikcpUpdate_frame rcv iclock).1.trans h.receiver.setup)
  have hsendable : ∀ s ∈ segs, s.Sendable (ikcpUpdate rcv iclock).1.conv := by
    intro s hs
    obtain ⟨⟨heard, taken, hseg⟩, -⟩ := hsegs s hs
    exact hconv ▸ hseg.sendable
  rw [handleReceive_one hlen, drain_acklist]
  exact acklist_of_input hflushed hhigh hsendable (fun s hs => (hsegs s hs).2) hmem hcmd hsn hnear

theorem near_of_flight (h : Pair hears conv i g snd rcv) {segment : IkcpSeg}
    (hmem : segment ∈ snd.sndBuf) :
    snd.sndNxt.toNat ≤ segment.sn.toNat + 128 := by
  have hok := (h.healthy.sound .sender snd h.sender.block).snd
  have hwnd : snd.sndWnd = 128 := congrArg Setup.sndWnd h.sender.setup
  have hwidth := hok.window
  have hbelow := hok.flight.below _ (List.mem_map_of_mem (List.mem_map_of_mem hmem))
  rw [← snOffset_eq_offset, ← snOffset_eq_offset] at hbelow
  rw [hwnd] at hwidth
  have hwidth : snOffset snd.sndUna snd.sndNxt ≤ 128 := hwidth
  simp only [snOffset, UInt32.toNat_sub] at hbelow hwidth
  have h1 := snd.sndNxt.toNat_lt
  have h2 := snd.sndUna.toNat_lt
  omega

/-- What the receiver waits for, the sender still has. -/
theorem next_buffered {pos : Member ι → Nat} (h : Pair hears conv i g snd rcv)
    (hnodes : Nodes hears conv i g snd rcv pos)
    (hfrom : ∀ o, hears .sender o = true → o = .receiver i)
    (hlt : rcv.rcvNxt.toNat < snd.sndNxt.toNat) : ∃ seg ∈ snd.sndBuf, seg.sn = rcv.rcvNxt := by
  by_contra hnone
  have hfreed : Freed snd rcv.rcvNxt := ⟨hlt, fun seg hseg heq => hnone ⟨seg, hseg, heq⟩⟩
  obtain ⟨m, hhear, kcp, hkcp, htaken⟩ :=
    hnodes.sending.released _ ⟨snd, h.sender.block, hfreed⟩
  obtain rfl := hfrom m hhear
  obtain rfl := Option.some.inj (h.receiver.block.symm.trans hkcp)
  exact hnodes.rcvNode.not_taken_next hnodes.fits h.short htaken

end Pair

variable [DecidableEq ι]

/-! ## Further updates -/

/-- Updates of members, and nothing else, lead from one state to the other. -/
def Group.Updates (hears : Member ι → Member ι → Bool) (g g' : Group ι) : Prop :=
  ∃ es, (∀ e ∈ es, ∃ m iclock results, e = .update m iclock results) ∧
    Machine.run (Group.step hears) g es = some g'

theorem Group.Updates.refl (g : Group ι) : Group.Updates hears g g := ⟨[], by simp, rfl⟩

theorem Group.Updates.trans (h : Group.Updates hears g g') (h' : Group.Updates hears g' g'') :
    Group.Updates hears g g'' := by
  obtain ⟨es, hes, hrun⟩ := h
  obtain ⟨es', hes', hrun'⟩ := h'
  refine ⟨es ++ es', fun e he => ?_, Machine.run_append.mpr ⟨g', hrun, hrun'⟩⟩
  exact (List.mem_append.mp he).elim (hes e) (hes' e)

theorem Group.Updates.single {m : Member ι} {iclock : UInt32} {results : List RecvResult}
    (hread : results.all (readable hears (g.update m iclock results).net m) = true) :
    Group.Updates hears g (g.update m iclock results) := by
  refine ⟨[.update m iclock results],
    fun e he => ⟨m, iclock, results, List.mem_singleton.mp he⟩, ?_⟩
  rw [Machine.run_cons_eq_some]
  exact ⟨_, if_pos hread, rfl⟩

theorem Group.Updates.accepted (h : Group.Updates hears g g') : g'.accepted = g.accepted := by
  obtain ⟨es, hes, hrun⟩ := h
  induction es generalizing g with
  | nil => rw [Option.some.inj hrun]
  | cons e es ih =>
      obtain ⟨g1, hstep, hrun⟩ := Machine.run_cons_eq_some.mp hrun
      refine (ih (fun e he => hes e (List.mem_cons_of_mem _ he)) hrun).trans ?_
      obtain ⟨m, iclock, results, rfl⟩ := hes e (List.mem_cons_self ..)
      simp only [Group.step, Option.ite_none_right_eq_some, Option.some.injEq] at hstep
      obtain ⟨-, rfl⟩ := hstep
      rfl

namespace Pair

theorem update_sender (h : Pair hears conv i g snd rcv) (iclock : UInt32)
    (results : List RecvResult)
    (hread : results.all (readable hears (g.update .sender iclock results).net .sender) = true) :
    Pair hears conv i (g.update .sender iclock results)
        (handleReceive (ikcpUpdate snd iclock).1 results).1 rcv ∧
      Group.Updates hears g (g.update .sender iclock results) := by
  refine ⟨⟨h.healthy.update h.bound h.short hread, h.bound, h.short,
    (Group.update_block h.sender).1, ?_⟩, .single hread⟩
  rw [Group.update_other (by simp)]
  exact h.receiver

theorem update_receiver (h : Pair hears conv i g snd rcv) (iclock : UInt32)
    (results : List RecvResult)
    (hread : results.all
      (readable hears (g.update (.receiver i) iclock results).net (.receiver i)) = true) :
    Pair hears conv i (g.update (.receiver i) iclock results) snd
        (handleReceive (ikcpUpdate rcv iclock).1 results).1 ∧
      Group.Updates hears g (g.update (.receiver i) iclock results) := by
  refine ⟨⟨h.healthy.update h.bound h.short hread, h.bound, h.short, ?_,
    (Group.update_block h.receiver).1⟩, .single hread⟩
  rw [Group.update_other (by simp)]
  exact h.sender

theorem readable_of_mem {iclock : UInt32} {m o : Member ι} {kcp : Ikcpcb}
    (hlive : (g.node m).Live conv kcp)
    {data : Bytes} (hmem : (o, data) ∈ g.net) (hhear : hears m o = true) :
    [RecvResult.datagram data].all
      (readable hears (g.update m iclock [.datagram data]).net m) = true := by
  rw [(Group.update_block hlive).2]
  simp only [List.all_cons, List.all_nil, Bool.and_true, readable, List.any_append,
    Bool.or_eq_true]
  exact Or.inl (List.any_eq_true.mpr ⟨_, hmem, by simp [hhear]⟩)

theorem flushed {iclock : UInt32} {m : Member ι} {kcp : Ikcpcb} {k high : Nat}
    (h : Pair hears conv i g snd rcv)
    (hlive : (g.node m).Live conv kcp) (hnode : NodeInv g.accepted conv k kcp)
    (hfits : ∀ m ∈ g.accepted, Fits m) (hflush : Flushes kcp iclock)
    (hsn : ∀ c ∈ (ikcpUpdate kcp iclock).1.sndBuf.map IkcpSeg.core, c.sn.toNat < high) :
    ∃ groups, Outs kcp iclock groups ∧ ∀ group ∈ groups,
      (m, datagram group) ∈ (g.update m iclock []).net ∧
      (datagram group).length ≤ bufferSize ∧
      ∀ seg ∈ group, OnNet g.accepted conv seg ∧ seg.Within high := by
  obtain ⟨groups, houts, hgroups⟩ := hnode.outs h.bound hfits h.short hsn hflush
  refine ⟨groups, houts, fun group hgroup => ⟨?_, hgroups group hgroup⟩⟩
  rw [(Group.update_block hlive).2, houts.outs]
  exact List.mem_append_right _ (List.mem_map_of_mem (List.mem_map_of_mem hgroup))

/-! ## The three exchanges -/

theorem retransmit (h : Pair hears conv i g snd rcv)
    (hto : hears (.receiver i) .sender = true)
    (hfrom : ∀ o, hears .sender o = true → o = .receiver i)
    (hlt : rcv.rcvNxt.toNat < snd.sndNxt.toNat) :
    ∃ g' snd' rcv', Group.Updates hears g g' ∧ Pair hears conv i g' snd' rcv' ∧
      rcv.rcvNxt.toNat < rcv'.rcvNxt.toNat := by
  obtain ⟨pos, hnodes⟩ := h.nodes
  obtain ⟨segment, hmem, hnext⟩ := h.next_buffered hnodes hfrom hlt
  obtain ⟨iclock, hflush, hdue⟩ := exists_flush_due snd segment.resendts
  obtain ⟨hle, hhigh, hsn⟩ :=
    hnodes.numbers.numbered_update hnodes.sndNode h.bound hnodes.fits iclock
  obtain ⟨groups, houts, hgroups⟩ := h.flushed h.sender hnodes.sndNode hnodes.fits hflush hsn
  obtain ⟨seg, hseg, hcore⟩ := houts.due segment hmem hdue
  obtain ⟨group, hgroup, hin⟩ := List.mem_flatten.mp hseg
  obtain ⟨hnet, hlen, hsegs⟩ := hgroups group hgroup
  -- the sender repeats the segment, the receiver reads it
  obtain ⟨h1, hupd1⟩ := h.update_sender iclock [] rfl
  obtain ⟨h2, hupd2⟩ := h1.update_receiver 0 _ (readable_of_mem h1.receiver hnet hto)
  refine ⟨_, _, _, hupd1.trans hupd2, h2, ?_⟩
  have hgot := (h.read_abreast 0 hnodes hle hhigh hlen hsegs).got
  have hcmd : seg.cmd = ikcpCmdPush :=
    (congrArg IkcpSeg.cmd hcore).trans (hnodes.numbers.buf _ (List.mem_map_of_mem hmem)).2.1
  have hsame : seg.sn = rcv.rcvNxt := (congrArg IkcpSeg.sn hcore).trans hnext
  obtain ⟨hrcv, -⟩ := hnodes.rcvNode.flush h.bound hnodes.fits 0
  have hside := (ikcpUpdate_frame rcv 0).2.1
  have hnxt : (ikcpUpdate rcv 0).1.rcvNxt = rcv.rcvNxt := congrArg RcvSide.rcvNxt hside
  have htaken := hrcv.rcv.taken_next h.bound hnodes.fits (congrArg Setup.conv hrcv.setup) hlen
    (fun s hs => (hsegs s hs).1) (hrcv.room hnodes.fits h.short) hin hcmd (hsame.trans hnxt.symm)
  rw [hsame] at htaken
  refine Nat.lt_of_le_of_ne hgot fun heq => ?_
  obtain ⟨pos', hnodes'⟩ := h2.nodes
  have hnot := hnodes'.rcvNode.not_taken_next hnodes'.fits h2.short
  rw [UInt32.toNat_inj] at heq
  rw [← heq] at hnot
  exact hnot htaken

theorem number (h : Pair hears conv i g snd rcv) (hbuf : snd.sndBuf = [])
    (hqueue : snd.sndQueue ≠ []) :
    ∃ g' snd', Group.Updates hears g g' ∧ Pair hears conv i g' snd' rcv ∧
      snd'.sndQueue.length < snd.sndQueue.length := by
  obtain ⟨iclock, hflush, -⟩ := exists_flush_due snd 0
  obtain ⟨h1, hupd1⟩ := h.update_sender iclock [] rfl
  have hnocwnd : snd.nocwnd = 1 := congrArg Setup.nocwnd h.sender.setup
  have hwnd : snd.sndWnd = 128 := congrArg Setup.sndWnd h.sender.setup
  have hroom := (h.healthy.abreast snd h.sender.block .sender snd h.sender.block).room
  refine ⟨_, _, hupd1, h1, ?_⟩
  refine ikcpUpdate_moves (h.healthy.sound .sender snd h.sender.block).snd hflush hbuf hqueue ?_ ?_
    hroom
  · rw [hnocwnd]
    decide
  · rw [hwnd]
    decide

/-- With acknowledgements to send for all that is numbered, the receiver sends
them, and the sender has nothing in flight any more. -/
theorem answer (h : Pair hears conv i g snd rcv) (hback : hears .sender (.receiver i) = true)
    (hack : rcv.acklist ≠ []) (hupdated : snd.updated ≠ 0)
    (hle : snd.sndNxt.toNat ≤ rcv.rcvNxt.toNat) :
    ∃ g' snd' rcv', Group.Updates hears g g' ∧ Pair hears conv i g' snd' rcv' ∧
      rcv'.rcvNxt = rcv.rcvNxt ∧ snd'.sndQueue = snd.sndQueue ∧ snd'.sndBuf = [] := by
  obtain ⟨pos, hnodes⟩ := h.nodes
  obtain ⟨c, hflush, -⟩ := exists_flush_due rcv 0
  obtain ⟨-, -, hidle, -⟩ := hnodes.rcvNode.flush h.bound hnodes.fits c
  have hnone : ∀ s ∈ (ikcpUpdate rcv c).1.sndBuf.map IkcpSeg.core, s.sn.toNat < 0 := by
    rw [(hidle hnodes.idle).buf]
    simp
  obtain ⟨groups, houts, hgroups⟩ := h.flushed h.receiver hnodes.rcvNode hnodes.fits hflush hnone
  obtain ⟨seg, hseg, huna⟩ := houts.ack hack
  obtain ⟨group, hgroup, hin⟩ := List.mem_flatten.mp hseg
  obtain ⟨hnet, hlen, hsegs⟩ := hgroups group hgroup
  obtain ⟨h1, hupd1⟩ := h.update_receiver c [] rfl
  -- the sender reads the answer at a time when it does not flush
  obtain ⟨c', hquiet⟩ := exists_not_flushes hupdated
  obtain ⟨h2, hupd2⟩ := h1.update_sender c' _ (readable_of_mem h1.sender hnet hback)
  refine ⟨_, _, _, hupd1.trans hupd2, h2, ?_, ?_⟩
  · exact congrArg RcvSide.rcvNxt (ikcpUpdate_frame rcv c).2.1
  · rw [ikcpUpdate_of_not_flushes hquiet, handleReceive_one hlen]
    have hconv : snd.conv = conv := congrArg Setup.conv h.sender.setup
    have hsendable : ∀ s ∈ group, s.Sendable conv := by
      intro s hs
      obtain ⟨⟨heard, taken, hseg⟩, -⟩ := hsegs s hs
      exact hseg.sendable
    have hbelow : ∀ s ∈ snd.sndBuf.map IkcpSeg.core, s.sn.toNat < snd.sndNxt.toNat :=
      fun s hs => (hnodes.numbers.buf s hs).2.2.1
    have hbound : seg.una.toNat < 2 ^ 31 := by
      rw [huna]
      exact Nat.lt_of_le_of_lt (hnodes.rcvNode.rcv.rcvNxt_le h.bound) h.bound
    obtain ⟨htrim, -⟩ := input_sndBuf { snd with current := c' } group (hconv ▸ hsendable)
    have hempty : (ikcpInput { snd with current := c' } (datagram group)).1.sndBuf = [] :=
      sndBuf_of_input (hconv ▸ hsendable) hbelow hin (huna ▸ hle) hbound
    generalize ikcpInput { snd with current := c' } (datagram group) = out at *
    have hside := (drain_frame (drainFuel out.1) out.1).2
    exact ⟨(congrArg SndSide.sndQueue hside).trans htrim.sndQueue,
      (congrArg SndSide.sndBuf hside).trans hempty⟩

/-- The receiver has all that is numbered: it is sent something it has, and its
answer says so. -/
theorem acknowledge (h : Pair hears conv i g snd rcv)
    (hto : hears (.receiver i) .sender = true) (hback : hears .sender (.receiver i) = true)
    (hle : snd.sndNxt.toNat ≤ rcv.rcvNxt.toNat) (hbuf : snd.sndBuf ≠ []) :
    ∃ g' snd' rcv', Group.Updates hears g g' ∧ Pair hears conv i g' snd' rcv' ∧
      rcv.rcvNxt.toNat ≤ rcv'.rcvNxt.toNat ∧
      (snd'.sndQueue.length < snd.sndQueue.length ∨
        snd'.sndQueue.length = snd.sndQueue.length ∧
          snd'.sndBuf.length < snd.sndBuf.length) := by
  obtain ⟨pos, hnodes⟩ := h.nodes
  obtain ⟨segment, hmem⟩ := List.exists_mem_of_ne_nil _ hbuf
  obtain ⟨iclock, hflush, hdue⟩ := exists_flush_due snd segment.resendts
  obtain ⟨hge, hhigh, hsn⟩ :=
    hnodes.numbers.numbered_update hnodes.sndNode h.bound hnodes.fits iclock
  obtain ⟨moved, hspec⟩ := ikcpUpdate_spec
    (hnodes.sndNode.sends.fitsMtu hnodes.fits hnodes.sndNode.setup) iclock
  have hqueue := congrArg List.length hspec.snd.queue
  rw [List.length_append] at hqueue
  obtain ⟨h1, hupd1⟩ := h.update_sender iclock [] rfl
  by_cases hmoved : moved = []
  · -- nothing new is numbered
    subst hmoved
    have hnxt : (ikcpUpdate snd iclock).1.sndNxt = snd.sndNxt :=
      hspec.snd.sndNxt.trans (UInt32.add_zero _)
    obtain ⟨groups, houts, hgroups⟩ := h.flushed h.sender hnodes.sndNode hnodes.fits hflush hsn
    obtain ⟨seg, hseg, hcore⟩ := houts.due segment hmem hdue
    obtain ⟨group, hgroup, hin⟩ := List.mem_flatten.mp hseg
    obtain ⟨hnet, hlen, hsegs⟩ := hgroups group hgroup
    obtain ⟨h2, hupd2⟩ := h1.update_receiver 0 _ (readable_of_mem h1.receiver hnet hto)
    have hread := h.read_abreast 0 hnodes hge hhigh hlen hsegs
    have hold := hnodes.numbers.buf _ (List.mem_map_of_mem hmem)
    have hcmd : seg.cmd = ikcpCmdPush := (congrArg IkcpSeg.cmd hcore).trans hold.2.1
    have hsame : seg.core.sn = segment.core.sn := congrArg IkcpSeg.sn hcore
    have hsame : seg.sn = segment.sn := hsame
    have hack := h.acklist_of_read 0 hnodes hge hhigh hlen hsegs hin hcmd
      (by rw [hsame]; exact Nat.lt_of_lt_of_le hold.2.2.1 hle)
      (by rw [hnxt, hsame]; exact h.near_of_flight hmem)
    obtain ⟨g', snd', rcv', hupd', h', hrcv, hq, hnil⟩ := h2.answer hback hack
      (ikcpUpdate_updated hflush) (by
        show (ikcpUpdate snd iclock).1.sndNxt.toNat ≤ _
        rw [hnxt]
        exact Nat.le_trans hle hread.got)
    refine ⟨g', snd', rcv', (hupd1.trans hupd2).trans hupd', h', ?_, Or.inr ⟨?_, ?_⟩⟩
    · rw [hrcv]
      exact hread.got
    · rw [hq]
      exact congrArg List.length hspec.snd.queue.symm
    · rw [hnil]
      exact List.length_pos_iff.mpr hbuf
  · have hpos := List.length_pos_iff.mpr hmoved
    refine ⟨_, _, _, hupd1, h1, Nat.le_refl _, Or.inl ?_⟩
    show (ikcpUpdate snd iclock).1.sndQueue.length < _
    omega

/-! ## Recovery -/

/-- Exchange by exchange the receiver gets everything: it never expects less, and
if it expects no more, then less is queued, or as much and less in flight. -/
theorem finish {g : Group ι} {snd rcv : Ikcpcb} (h : Pair hears conv i g snd rcv)
    (hto : hears (.receiver i) .sender = true)
    (hfrom : ∀ o, hears .sender o = true ↔ o = .receiver i) :
    ∃ g' snd' rcv', Group.Updates hears g g' ∧ Pair hears conv i g' snd' rcv' ∧ Idle snd' ∧
      snd'.sndNxt.toNat ≤ rcv'.rcvNxt.toNat := by
  obtain ⟨pos, hnodes⟩ := h.nodes
  have hend := hnodes.rcvNode.rcv.rcvNxt_le h.bound
  by_cases hlt : rcv.rcvNxt.toNat < snd.sndNxt.toNat
  · obtain ⟨g1, snd1, rcv1, hupd, h1, hgrow⟩ := h.retransmit hto (fun o => (hfrom o).mp) hlt
    obtain ⟨pos1, hnodes1⟩ := h1.nodes
    have hend1 := hnodes1.rcvNode.rcv.rcvNxt_le h1.bound
    rw [hupd.accepted] at hend1
    obtain ⟨g', snd', rcv', hupd', hrest⟩ := h1.finish hto hfrom
    exact ⟨g', snd', rcv', hupd.trans hupd', hrest⟩
  · by_cases hbuf : snd.sndBuf = []
    · by_cases hqueue : snd.sndQueue = []
      · exact ⟨g, snd, rcv, .refl g, h, ⟨hqueue, hbuf⟩, Nat.le_of_not_lt hlt⟩
      · obtain ⟨g1, snd1, hupd, h1, hless⟩ := h.number hbuf hqueue
        obtain ⟨g', snd', rcv', hupd', hrest⟩ := h1.finish hto hfrom
        exact ⟨g', snd', rcv', hupd.trans hupd', hrest⟩
    · obtain ⟨g1, snd1, rcv1, hupd, h1, hgot, hless⟩ :=
        h.acknowledge hto ((hfrom _).mpr rfl) (Nat.le_of_not_lt hlt) hbuf
      obtain ⟨g', snd', rcv', hupd', hrest⟩ := h1.finish hto hfrom
      exact ⟨g', snd', rcv', hupd.trans hupd', hrest⟩
termination_by (span groupMss g.accepted - rcv.rcvNxt.toNat, snd.sndQueue.length,
  snd.sndBuf.length)
decreasing_by
  all_goals
    have hsame := congrArg (span groupMss) hupd.accepted
    simp only [Prod.lex_def]
    omega

end Pair

omit [DecidableEq ι] in
/-- Losing all that is under way does a group no harm. -/
theorem Healthy.lose (h : Healthy hears conv g) : Healthy hears conv { g with net := [] } := by
  obtain ⟨pos, hsending⟩ := h.sending
  have hinv := hsending.inv
  exact ⟨⟨pos, ⟨hinv.fits, hinv.member, hinv.callback, hinv.idle, fun _ _ hmem => nomatch hmem⟩,
    hsending.sender, hsending.delivered, hsending.released⟩, h.sound, h.abreast,
    fun _ _ _ _ hmem => nomatch hmem⟩

/-- From a healthy group on, some updates deliver all that is accepted. -/
theorem Healthy.recover (h : Healthy hears conv g) (hbound : g.created < 2 ^ 31)
    (hshort : ∀ m ∈ g.accepted, m.length ≤ bufferSize)
    (hto : hears (.receiver i) .sender = true)
    (hfrom : ∀ o, hears .sender o = true ↔ o = .receiver i) :
    ∃ g', Group.Updates hears g g' ∧ g'.accepted = g.accepted ∧
      g'.delivered (.receiver i) = g.accepted ∧
      ∃ snd, (g'.node .sender).kcp = some snd ∧ Idle snd := by
  obtain ⟨pos, hsending⟩ := h.sending
  obtain ⟨snd, hsnd, -⟩ := hsending.inv.member .sender
  obtain ⟨rcv, hrcv, -⟩ := hsending.inv.member (.receiver i)
  have hpair : Pair hears conv i g snd rcv := ⟨h, hbound, hshort, hsnd, hrcv⟩
  obtain ⟨g', snd', rcv', hupd, h', hidle, hle⟩ := hpair.finish hto hfrom
  have haccepted : g'.accepted = g.accepted := hupd.accepted
  refine ⟨g', hupd, haccepted, ?_, snd', h'.sender.block, hidle⟩
  obtain ⟨pos', hnodes⟩ := h'.nodes
  have hlen := hnodes.numbers.length_queue
  rw [hidle.queue, List.length_nil, Nat.add_zero] at hlen
  rw [hnodes.sending.delivered i, ← haccepted]
  refine hnodes.rcvNode.take_eq h'.bound hnodes.fits h'.short fun sn hsn => Or.inl ?_
  omega

/-- A network on which nobody hears itself. -/
def hearsOthers (m o : Member ι) : Bool := decide (m ≠ o)

/-- At the end of every run, whatever the network has done and even if all that is
under way is lost, some further updates deliver every accepted message to the
receiver the sender hears, and leave the sender nothing to send. -/
theorem delivery_possible {es : List (Event ι)} (hfresh : g.Fresh conv)
    (hrun : Machine.run (Group.step hears) g es = some g') (hbound : g'.created < 2 ^ 31)
    (hshort : ∀ m ∈ g'.accepted, m.length ≤ bufferSize)
    (hto : hears (.receiver i) .sender = true)
    (hfrom : ∀ o, hears .sender o = true ↔ o = .receiver i) :
    ∃ g'', Group.Updates hears { g' with net := [] } g'' ∧
      g''.accepted = g'.accepted ∧ g''.delivered (.receiver i) = g'.accepted ∧
      ∃ snd, (g''.node .sender).kcp = some snd ∧ Idle snd :=
  (Group.healthy_of_run hfresh hrun hbound hshort).lose.recover hbound hshort hto hfrom

/-- The two programs: one message is sent and flushed, and its datagram is lost. -/
theorem delivery_possible_one :
    ∃ g', Machine.run (Group.step hearsOthers) (programs (Fin 1))
        [.send [1], .update .sender 0 []] = some g' ∧ g'.net.length = 1 ∧
      ∃ g'', Group.Updates hearsOthers { g' with net := [] } g'' ∧
        g''.delivered (.receiver 0) = [[1]] := by
  have hobs : (Machine.run (Group.step hearsOthers) (programs (Fin 1))
      [.send [1], .update .sender 0 []]).map (fun g => (g.accepted, g.net.length))
        = some ([[1]], 1) := by decide +kernel
  obtain ⟨g', hrun, hseen⟩ := Option.map_eq_some_iff.mp hobs
  obtain ⟨haccepted, hnet⟩ := Prod.mk.inj hseen
  have hbound : g'.created < 2 ^ 31 := by
    rw [Group.created, haccepted]
    decide +kernel
  have hshort : ∀ m ∈ g'.accepted, m.length ≤ bufferSize := by
    rw [haccepted]
    decide
  have hfrom : ∀ o : Member (Fin 1), hearsOthers .sender o = true ↔ o = .receiver 0 := by
    intro o
    cases o with
    | sender => decide
    | receiver j => simp [hearsOthers, Fin.fin_one_eq_zero j]
  obtain ⟨g'', hupd, -, hall, -⟩ :=
    delivery_possible (programs_fresh _) hrun hbound hshort (by decide) hfrom
  exact ⟨g', hrun, hnet, g'', hupd, hall.trans haccepted⟩

end CppDemos
