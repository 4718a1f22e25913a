import CppDemos.Group.Guarantees

/-!
# One receiver, one sender after the other

The receiver program runs forever; a sender program creates its wrapper,
sends, and ends, and then the next one is started. Each sender numbers its
segments from 0 with the same conversation id, while the receiver keeps its
`rcv_nxt`. What an earlier sender handed to `udp_output` may still arrive, or
be lost.

`delivered_when_acknowledged`: as long as every session that sends starts from
a receiver that has accepted nothing, with no data on the network, everything
the current sender has submitted is delivered once its queues are empty.
`acknowledged_not_delivered` is a run whose second session breaks this: its
message is taken for a duplicate and acknowledged.
-/

namespace CppDemos

open Fragment (stream)

/-! ## The machine -/

/-- The sender does not read its own datagrams. -/
def apart : Member Unit → Member Unit → Bool
  | .sender, .sender => false
  | _, _ => true

/-- A new sender process: a fresh wrapper, nothing accepted or delivered in
this session yet. -/
def Group.restart (g : Group Unit) (env : InitEnv) (multicastIP : Bytes) (port : UInt16) :
    Option (Group Unit) :=
  let (w, ok) := KCPWrapper.init {} env multicastIP port (mainConv ||| 0x80000000)
  if ok then
    some { g with
      node := Function.update g.node .sender w
      accepted := []
      delivered := fun _ => [] }
  else none

inductive SessionEvent where
  | send (data : Bytes)
  | update (m : Member Unit) (iclock : UInt32) (results : List RecvResult)
  | restart (env : InitEnv) (multicastIP : Bytes) (port : UInt16)
  | lose (i : Nat)

/-- One event. No message is longer than `BUFFER_SIZE`. -/
def sessionStep (g : Group Unit) : SessionEvent → Option (Group Unit)
  | .send data => if data.length ≤ bufferSize then g.step apart (.send data) else none
  | .update m iclock results => g.step apart (.update m iclock results)
  | .restart env multicastIP port => g.restart env multicastIP port
  | .lose i => some { g with net := g.net.eraseIdx i }

/-! ## The condition -/

/-- The datagram carries a data segment of the conversation. -/
def CarriesData (data : Bytes) : Prop :=
  ∃ segs, data = datagram segs ∧ (∀ seg ∈ segs, seg.Sendable mainConv) ∧
    ∃ seg ∈ segs, seg.cmd = ikcpCmdPush

/-- The receiver has accepted nothing, and no data is on the way. -/
structure Group.Clean (g : Group Unit) : Prop where
  receiver : ∀ kcp, (g.node (.receiver ())).kcp = some kcp → kcp.rcvNxt = 0 ∧ kcp.rcvBuf = []
  net : ∀ sent ∈ g.net, ¬ CarriesData sent.2

/-- The first message of a session is sent from a clean state, and a session
creates fewer than `2 ^ 31` segments. -/
def StartsClean (g : Group Unit) : SessionEvent → Prop
  | .send data => (g.accepted = [] → data ≠ [] → g.Clean) ∧
      span groupMss (g.accepted ++ [data]) < 2 ^ 31
  | _ => True

/-! ## The invariant -/

/-- Between two sessions: the group still tracks the messages of an earlier
session, while the sender has sent nothing. -/
structure Waiting (log : List Bytes) (pos : Member Unit → Nat) (g : Group Unit) : Prop where
  inv : GroupInv apart mainConv log pos g
  accepted : g.accepted = []
  sender : ∀ kcp, (g.node .sender).kcp = some kcp → SndInv [] mainConv kcp
  delivered : g.delivered (.receiver ()) <:+ log.take (pos (.receiver ()))

structure SessionInv (g : Group Unit) : Prop where
  state : (∃ pos, Sending apart mainConv pos g) ∨ ∃ log pos, Waiting log pos g ∧
    span groupMss log < 2 ^ 31
  bound : g.created < 2 ^ 31
  short : ∀ m ∈ g.accepted, m.length ≤ bufferSize
  quiet : ∀ kcp, (g.node .sender).kcp = some kcp → RcvInv [] 0 kcp

variable {log : List Bytes} {pos : Member Unit → Nat} {g g' : Group Unit}

/-! ## What the sender hears -/

theorem onNet_nil_of_heard {seg : IkcpSeg}
    (h : ∃ o, apart .sender o = true ∧ g.Sent apart mainConv log o seg) :
    OnNet [] mainConv seg := by
  obtain ⟨o, hhear, hseg⟩ := h
  refine ⟨False, fun _ => True, hseg.net.sendable, ?_, False.elim, False.elim,
    False.elim⟩
  intro hcmd
  obtain rfl := hseg.data hcmd
  cases hhear

theorem GroupInv.quiet_update {m : Member Unit} {iclock : UInt32} {results : List RecvResult}
    (h : GroupInv apart mainConv log pos g) (hbound : span groupMss log < 2 ^ 31)
    (hread : results.all (readable apart (g.update m iclock results).net m) = true)
    (hquiet : ∀ kcp, (g.node .sender).kcp = some kcp → RcvInv [] 0 kcp) (kcp : Ikcpcb)
    (hkcp : ((g.update m iclock results).node .sender).kcp = some kcp) : RcvInv [] 0 kcp := by
  obtain ⟨k', old, new, _, hupd, -⟩ := h.update hbound hread
  by_cases hm : Member.sender = m
  · subst hm
    obtain rfl := Option.some.inj (hupd.block.symm.trans hkcp)
    exact hupd.node.quiet (fun seg hseg => onNet_nil_of_heard hseg) (hquiet old hupd.live.block)
  · rw [hupd.other hm] at hkcp
    exact hquiet kcp hkcp

/-! ## Losing datagrams -/

theorem GroupInv.subnet (h : GroupInv apart mainConv log pos g) {net : List (Member Unit × Bytes)}
    (hnet : ∀ sent ∈ net, sent ∈ g.net) : GroupInv apart mainConv log pos { g with net := net } :=
  ⟨h.fits, h.member, h.callback, h.idle, fun o data hmem =>
    (h.net o data (hnet _ hmem)).imp fun _ hseg => ⟨hseg.net, hseg.data⟩⟩

theorem Sending.subnet (h : Sending apart mainConv pos g) {net : List (Member Unit × Bytes)}
    (hnet : ∀ sent ∈ net, sent ∈ g.net) : Sending apart mainConv pos { g with net := net } :=
  ⟨h.inv.subnet hnet, h.sender, h.delivered, h.released⟩

theorem Waiting.subnet (h : Waiting log pos g) {net : List (Member Unit × Bytes)}
    (hnet : ∀ sent ∈ net, sent ∈ g.net) : Waiting log pos { g with net := net } :=
  ⟨h.inv.subnet hnet, h.accepted, h.sender, h.delivered⟩

/-! ## A new session -/

theorem restart_eq_some {env : InitEnv} {multicastIP : Bytes} {port : UInt16}
    (hstep : g.restart env multicastIP port = some g') :
    ∃ mem, (g'.node .sender).Live mainConv (freshKcp mainConv mem) ∧
      (∀ i, g'.node (.receiver i) = g.node (.receiver i)) ∧ g'.net = g.net ∧
      g'.accepted = [] ∧ g'.delivered = fun _ => [] := by
  rcases hinit : KCPWrapper.init {} env multicastIP port (mainConv ||| 0x80000000) with ⟨w, ok⟩
  rw [Group.restart, hinit] at hstep
  simp only [Option.ite_none_right_eq_some, Option.some.injEq] at hstep
  obtain ⟨rfl, rfl⟩ := hstep
  obtain ⟨mem, hlive⟩ := live_of_init hinit
  have hconv : actualConv (mainConv ||| 0x80000000) = mainConv := by decide
  rw [hconv] at hlive
  have hself : Function.update g.node .sender w .sender = w := Function.update_self ..
  have hother (i : Unit) : Function.update g.node .sender w (.receiver i) = g.node (.receiver i) :=
    Function.update_of_ne (by simp) ..
  exact ⟨mem, hself.symm ▸ hlive, hother, rfl, rfl, rfl⟩

theorem GroupInv.restart {env : InitEnv} {multicastIP : Bytes} {port : UInt16}
    (h : GroupInv apart mainConv log pos g) (hbound : span groupMss log < 2 ^ 31)
    (hstep : g.restart env multicastIP port = some g') :
    Waiting log (Function.update pos .sender 0) g' ∧
      ∀ kcp, (g'.node .sender).kcp = some kcp → RcvInv [] 0 kcp := by
  obtain ⟨mem, hlive, hother, hnet, hacc, hdel⟩ := restart_eq_some hstep
  obtain ⟨hnode, hsnd⟩ := NodeInv.fresh log mainConv mem
  have hblock {kcp : Ikcpcb} (hkcp : (g'.node .sender).kcp = some kcp) :
      freshKcp mainConv mem = kcp := Option.some.inj (hlive.block.symm.trans hkcp)
  refine ⟨⟨⟨h.fits, ?_, ?_, ?_, ?_⟩, hacc,
    ?_, ?_⟩, ?_⟩
  · intro m
    cases m with
    | sender =>
        rw [Function.update_self]
        exact ⟨_, hlive, hnode⟩
    | receiver i =>
        rw [hother, Function.update_of_ne (by simp)]
        exact h.member (.receiver i)
  · intro i
    rw [hother]
    exact h.callback i
  · intro i kcp hkcp
    rw [hother] at hkcp
    exact h.idle i kcp hkcp
  · intro o data hmem
    rw [hnet] at hmem
    refine (h.net o data hmem).imp fun seg hseg => ⟨?_, hseg.data⟩
    cases o with
    | sender => exact hseg.net.unheard (by simp [apart])
    | receiver i =>
        refine hseg.net.mono (List.prefix_refl _) (?_) hbound
        intro sn _ htaken
        rwa [Group.Accepted, hother]
  · intro kcp hkcp
    exact hblock hkcp ▸ hsnd
  · rw [hdel]
    exact List.nil_suffix
  · intro kcp hkcp
    exact hblock hkcp ▸ (NodeInv.fresh [] mainConv mem).1.rcv

/-! ## The first message -/

theorem position_eq_zero {k : Nat} (h : position log k = 0) : log.take k = [] := by
  cases hlog : log.take k with
  | nil => rfl
  | cons m rest =>
      rw [position, hlog, ← List.singleton_append, span_append, span_singleton] at h
      have hcount := Fragment.count_pos (show 0 < groupMss by decide) m.length
      omega

/-- In a clean state an earlier session makes no difference. -/
theorem Waiting.clean (h : Waiting log pos g) (hbound : span groupMss log < 2 ^ 31)
    (hclean : g.Clean) (hquiet : ∀ kcp, (g.node .sender).kcp = some kcp → RcvInv [] 0 kcp) :
    Sending apart mainConv (fun _ => 0) g := by
  obtain ⟨rcv, hlive, hnode⟩ := h.inv.member (.receiver ())
  obtain ⟨hnxt, hbuf⟩ := hclean.receiver rcv hlive.block
  have hpos := position_add_span log (pos (.receiver ()))
  obtain ⟨hqueue, -⟩ := hnode.rcv.receiving.rcvNxt (by omega)
  rw [hnxt] at hqueue
  have hzero : (0 : UInt32).toNat = 0 := rfl
  have hside : rcv.rcvSide = ⟨0, ikcpWndRcv, rcv.nrcvBuf, 0, [], []⟩ := by
    have hnil : rcv.rcvQueue = [] := List.length_eq_zero_iff.mp (by omega)
    rw [Ikcpcb.rcvSide, hnxt, hnode.rcv.receiving.tracks.ok.wnd,
      hnode.rcv.receiving.tracks.ok.count, hnil, hbuf]
    rfl
  have hnone (sn : UInt32) : ¬ g.Accepted (.receiver ()) sn := by
    rintro ⟨kcp, hkcp, htaken⟩
    obtain rfl : rcv = kcp := Option.some.inj (hlive.block.symm.trans hkcp)
    rcases htaken with hlt | ⟨seg, hseg, -⟩
    · rw [hnxt] at hlt
      exact Nat.not_lt_zero _ hlt
    · rw [hbuf] at hseg
      cases hseg
  refine ⟨⟨?_, ?_, h.inv.callback, h.inv.idle, ?_⟩,
    ?_, ?_, ?_⟩
  · intro m hm
    rw [h.accepted] at hm
    cases hm
  · intro m
    rw [h.accepted]
    cases m with
    | sender =>
        obtain ⟨snd, hlive', hnode'⟩ := h.inv.member .sender
        have hidle := (sndInv_nil_iff.mp (h.sender snd hlive'.block)).1
        exact ⟨snd, hlive', hnode'.setup, hquiet snd hlive'.block, hnode'.drained, Or.inr hidle⟩
    | receiver i =>
        exact ⟨rcv, hlive, hnode.setup, .fresh hside hnode.rcv.acks [], hnode.drained,
          Or.inr (h.inv.idle () rcv hlive.block)⟩
  · intro o data hmem
    rw [h.accepted]
    obtain ⟨segs, heq, hlen, hsegs⟩ := h.inv.net o data hmem
    refine ⟨segs, heq, hlen, ?_⟩
    intro seg hseg
    obtain ⟨hnet, hdata⟩ := hsegs seg hseg
    have hnotPush : seg.cmd ≠ ikcpCmdPush := fun hcmd =>
      hclean.net _ hmem ⟨segs, heq, fun s hs => (hsegs s hs).net.sendable, seg, hseg, hcmd⟩
    refine ⟨⟨hnet.sendable, fun hcmd => absurd hcmd hnotPush, ?_, hnet.unaTaken,
      hnet.ackTaken⟩, hdata⟩
    intro hheard
    cases o with
    | sender => cases hheard
    | receiver i =>
        refine Nat.le_of_not_lt fun hlt => hnone 0 ?_
        exact hnet.unaTaken hheard 0 (Nat.lt_of_le_of_lt (Nat.zero_le _) hlt)
  · intro kcp hkcp
    rw [h.accepted]
    exact h.sender kcp hkcp
  · intro i
    have hdel := h.delivered
    rw [position_eq_zero (by omega)] at hdel
    rw [List.suffix_nil.mp hdel, h.accepted]
    rfl
  · intro sn hgone
    obtain ⟨kcp, hkcp, hlt, -⟩ := hgone
    rw [(sndInv_nil_iff.mp (h.sender kcp hkcp)).2] at hlt
    exact absurd hlt (Nat.not_lt_zero _)

/-! ## Runs -/

theorem SessionInv.update {m : Member Unit} {iclock : UInt32} {results : List RecvResult}
    (h : SessionInv g)
    (hread : results.all (readable apart (g.update m iclock results).net m) = true) :
    SessionInv (g.update m iclock results) := by
  rcases h.state with ⟨pos, hs⟩ | ⟨log, pos, hw, hbound⟩
  · obtain ⟨k', new, hnext, -, hacc, -⟩ := hs.update h.bound hread
    refine ⟨Or.inl ⟨_, hnext⟩, ?_, hacc ▸ h.short, hs.inv.quiet_update h.bound hread h.quiet⟩
    rw [Group.created, hacc]
    exact h.bound
  · obtain ⟨k', kcp, kcp', new, hupd, hinv⟩ := hw.inv.update hbound hread
    have hquiet := hw.inv.quiet_update hbound hread h.quiet
    generalize g.update m iclock results = g' at *
    have hwait : Waiting log (Function.update pos m k') g' := by
      refine ⟨hinv, hupd.accepted.trans hw.accepted, ?_, ?_⟩
      · intro last hlast
        by_cases hm : Member.sender = m
        · subst hm
          obtain rfl := Option.some.inj (hupd.block.symm.trans hlast)
          exact hupd.node.snd [] (by decide) (hw.sender kcp hupd.live.block)
        · rw [hupd.other hm] at hlast
          exact hw.sender last hlast
      · rw [hupd.delivered]
        by_cases hm : Member.receiver () = m
        · subst hm
          rw [Function.update_self, Function.update_self, hw.inv.callback (), if_pos rfl,
            hupd.node.new]
          obtain ⟨before, heq⟩ := hw.delivered
          exact ⟨before, by rw [← heq, List.append_assoc]⟩
        · rw [Function.update_of_ne hm, Function.update_of_ne hm]
          exact hw.delivered
    refine ⟨Or.inr ⟨log, _, hwait, hbound⟩, ?_, hupd.accepted ▸ h.short, hquiet⟩
    rw [Group.created, hupd.accepted]
    exact h.bound

theorem SessionInv.send {data : Bytes} (h : SessionInv g) (hlen : data.length ≤ bufferSize)
    (hclean : g.accepted = [] → data ≠ [] → g.Clean)
    (hbound : span groupMss (g.accepted ++ [data]) < 2 ^ 31) : SessionInv (g.send data) := by
  have hlen' : data.length < 2 ^ 31 := by
    rw [bufferSize] at hlen
    omega
  have hcreated : (g.send data).created < 2 ^ 31 := by
    rw [span_append] at hbound
    rcases g.accepted_send data with heq | heq
    · rw [Group.created, heq]
      omega
    · rw [Group.created, heq, span_append]
      exact hbound
  have hshort : ∀ m ∈ (g.send data).accepted, m.length ≤ bufferSize := by
    intro m hm
    rcases g.accepted_send data with heq | heq
    · exact h.short m (heq ▸ hm)
    · rw [heq] at hm
      rcases List.mem_append.mp hm with hm | hm
      · exact h.short m hm
      · exact List.mem_singleton.mp hm ▸ hlen
  obtain ⟨snd, hlive⟩ : ∃ kcp, (g.node .sender).Live mainConv kcp := by
    rcases h.state with ⟨pos, hs⟩ | ⟨log, pos, hw, -⟩
    · obtain ⟨kcp, hlive, -⟩ := hs.inv.member .sender
      exact ⟨kcp, hlive⟩
    · obtain ⟨kcp, hlive, -⟩ := hw.inv.member .sender
      exact ⟨kcp, hlive⟩
  have hquiet : ∀ kcp, ((g.send data).node .sender).kcp = some kcp → RcvInv [] 0 kcp := by
    intro kcp hkcp
    obtain ⟨kcp', heq, hlive', hside, hack⟩ :=
      hlive.send_frame (some data) (UInt64.ofNat data.length)
    have hself : (g.send data).node .sender
        = ((g.node .sender).send (some data) (UInt64.ofNat data.length)).1 := by
      simp only [Group.send, Function.update_self]
    rw [hself] at hkcp
    obtain rfl : kcp' = kcp := Option.some.inj (hlive'.block.symm.trans hkcp)
    exact (h.quiet snd hlive.block).congr hside fun ack hmem => hack ▸ hmem
  rcases h.state with ⟨pos, hs⟩ | ⟨log, pos, hw, hlog⟩
  · exact ⟨Or.inl ⟨pos, hs.send hlen' hcreated⟩, hcreated, hshort, hquiet⟩
  · rcases hlive.send data hlen' with ⟨hne, -⟩ | ⟨-, heq⟩
    · have hs := hw.clean hlog (hclean hw.accepted hne) h.quiet
      exact ⟨Or.inl ⟨_, hs.send hlen' hcreated⟩, hcreated, hshort, hquiet⟩
    · rwa [Group.send_refused heq]

theorem SessionInv.step {e : SessionEvent} (h : SessionInv g) (hok : StartsClean g e)
    (hstep : sessionStep g e = some g') : SessionInv g' := by
  cases e with
  | send data =>
      simp only [sessionStep, Group.step, Option.ite_none_right_eq_some, Option.some.injEq] at hstep
      obtain ⟨hlen, -, rfl⟩ := hstep
      exact h.send hlen hok.1 hok.2
  | update m iclock results =>
      simp only [sessionStep, Group.step, Option.ite_none_right_eq_some, Option.some.injEq] at hstep
      obtain ⟨hread, rfl⟩ := hstep
      exact h.update hread
  | restart env multicastIP port =>
      have hstep : g.restart env multicastIP port = some g' := hstep
      obtain ⟨mem, -, -, -, hacc, -⟩ := restart_eq_some hstep
      have hnone : g'.created < 2 ^ 31 := by
        rw [Group.created, hacc]
        decide
      have hshort : ∀ m ∈ g'.accepted, m.length ≤ bufferSize := by
        rw [hacc]
        intro m hm
        cases hm
      rcases h.state with ⟨pos, hs⟩ | ⟨log, pos, hw, hbound⟩
      · obtain ⟨hwait, hquiet⟩ := hs.inv.restart h.bound hstep
        exact ⟨Or.inr ⟨_, _, hwait, h.bound⟩, hnone, hshort, hquiet⟩
      · obtain ⟨hwait, hquiet⟩ := hw.inv.restart hbound hstep
        exact ⟨Or.inr ⟨_, _, hwait, hbound⟩, hnone, hshort, hquiet⟩
  | lose i =>
      obtain rfl := Option.some.inj hstep
      have hnet : ∀ sent ∈ g.net.eraseIdx i, sent ∈ g.net := fun sent => List.mem_of_mem_eraseIdx
      refine ⟨h.state.imp ?_ ?_, h.bound, h.short, h.quiet⟩
      · rintro ⟨pos, hs⟩
        exact ⟨pos, hs.subnet hnet⟩
      · rintro ⟨log, pos, hw, hbound⟩
        exact ⟨log, pos, hw.subnet hnet, hbound⟩

theorem SessionInv.delivered (h : SessionInv g) {kcp : Ikcpcb}
    (hkcp : (g.node .sender).kcp = some kcp) (hidle : Idle kcp) :
    g.accepted <+: g.delivered (.receiver ()) := by
  rcases h.state with ⟨pos, hs⟩ | ⟨log, pos, hw, -⟩
  · obtain ⟨rcv, hlive, hnode⟩ := hs.inv.member (.receiver ())
    have hnxt := (hs.sender kcp hkcp).length_queue
    rw [hidle.queue, List.length_nil, Nat.add_zero] at hnxt
    have htaken (sn : UInt32) (hsn : sn.toNat < span groupMss g.accepted) : Taken rcv sn := by
      have hgone : g.Released sn := by
        refine ⟨kcp, hkcp, hnxt ▸ hsn, ?_⟩
        intro seg hseg
        rw [hidle.buf] at hseg
        cases hseg
      obtain ⟨m, hhear, last, hlast, htaken⟩ := hs.released sn hgone
      cases m with
      | sender => cases hhear
      | receiver i =>
          obtain rfl : rcv = last := Option.some.inj (hlive.block.symm.trans hlast)
          exact htaken
    rw [hs.delivered, hnode.take_eq h.bound hs.inv.fits h.short htaken]
  · rw [hw.accepted]
    exact List.nil_prefix

/-- Every session delivers what is acknowledged, as long as each one that
sends starts from a clean state. -/
theorem delivered_when_acknowledged {es : List SessionEvent} (hfresh : g.Fresh mainConv)
    (hrun : Machine.run sessionStep g es = some g')
    (hclean : Machine.Along sessionStep StartsClean g es) {kcp : Ikcpcb}
    (hkcp : (g'.node .sender).kcp = some kcp) (hqueue : kcp.sndQueue = [])
    (hbuf : kcp.sndBuf = []) : g'.accepted <+: g'.delivered (.receiver ()) := by
  have hstart : SessionInv g := by
    refine ⟨Or.inl ⟨_, hfresh.sending⟩, ?_, ?_, ?_⟩
    · rw [Group.created, hfresh.accepted]
      decide
    · rw [hfresh.accepted]
      intro m hm
      cases hm
    · intro kcp hkcp
      obtain ⟨kcp', hlive, hnode, -⟩ := hfresh.node .sender
      obtain rfl : kcp' = kcp := Option.some.inj (hlive.block.symm.trans hkcp)
      exact hnode.rcv
  have hend : SessionInv g' :=
    Machine.run_invariant_along (fun _ _ _ h hok hstep => h.step hok hstep) hrun hclean hstart
  exact hend.delivered hkcp ⟨hqueue, hbuf⟩

/-- A session of one message: the sender numbers it 0, the receiver reads it
and answers that it has 0 and waits for 1, and the sender reads that. -/
def exchange (clock : UInt32) (data : Bytes) : List SessionEvent :=
  let push := datagram
    [{ conv := mainConv, cmd := ikcpCmdPush, wnd := 128, ts := clock, data := data }]
  let ack := datagram
    [{ conv := mainConv, cmd := ikcpCmdAck, wnd := 128, ts := clock, una := 1 }]
  [.send data, .update .sender clock [], .update (.receiver ()) clock [.datagram push],
    .update (.receiver ()) (clock + 10) [], .update .sender (clock + 10) [.datagram ack]]

/-- The first sender's only datagram is lost, the second one's message is
delivered. -/
def afterLoss : List SessionEvent :=
  [.send [1], .update .sender 0 [], .lose 0, .restart .granted mainGroup 12345] ++ exchange 20 [2]

/-- A check for `StartsClean` on states where nothing is on the network. -/
def startsOnEmptyNet (g : Group Unit) : SessionEvent → Bool
  | .send data => g.net.isEmpty && span groupMss (g.accepted ++ [data]) < 2 ^ 31 &&
      (g.node (.receiver ())).kcp.all fun kcp => kcp.rcvNxt == 0 && kcp.rcvBuf.isEmpty
  | _ => true

theorem startsClean_of_check {e : SessionEvent} (h : startsOnEmptyNet g e = true) :
    StartsClean g e := by
  cases e with
  | send data =>
      simp only [startsOnEmptyNet, Bool.and_eq_true, List.isEmpty_iff, decide_eq_true_eq,
        Option.all_eq_true, beq_iff_eq] at h
      obtain ⟨⟨hnet, hspan⟩, hrcv⟩ := h
      exact ⟨fun _ _ => ⟨hrcv, by rw [hnet]; exact fun sent hmem => nomatch hmem⟩, hspan⟩
  | _ => trivial

theorem delivered_when_acknowledged_afterLoss :
    ∃ g', Machine.run sessionStep (programs Unit) afterLoss = some g' ∧
      g'.accepted = [[2]] ∧ g'.accepted <+: g'.delivered (.receiver ()) := by
  let obs (g : Group Unit) : List Bytes × Option (List IkcpSeg × List IkcpSeg) :=
    (g.accepted, (g.node .sender).kcp.map fun kcp => (kcp.sndQueue, kcp.sndBuf))
  have hobs : (Machine.run sessionStep (programs Unit) afterLoss).map obs
      = some ([[2]], some ([], [])) := by decide +kernel
  obtain ⟨g', hrun, heq⟩ := Option.map_eq_some_iff.mp hobs
  simp only [obs, Prod.mk.injEq, Option.map_eq_some_iff] at heq
  obtain ⟨hacc, kcp, hkcp, hqueue, hbuf⟩ := heq
  have hclean : Machine.Along sessionStep (fun g e => startsOnEmptyNet g e = true)
      (programs Unit) afterLoss := by decide +kernel
  exact ⟨g', hrun, hacc, delivered_when_acknowledged (programs_fresh Unit) hrun
    (hclean.imp fun _ _ => startsClean_of_check) hkcp hqueue hbuf⟩

/-- A second session after a successful one: its message is acknowledged as a
duplicate, and not delivered. -/
theorem acknowledged_not_delivered :
    ¬ ∀ (g g' : Group Unit) (es : List SessionEvent) (kcp : Ikcpcb), g.Fresh mainConv →
      Machine.run sessionStep g es = some g' → (g'.node .sender).kcp = some kcp →
      kcp.sndQueue = [] → kcp.sndBuf = [] →
      ∀ m ∈ g'.accepted, m ∈ g'.delivered (.receiver ()) := by
  intro h
  let es := exchange 0 [1] ++ .restart .granted mainGroup 12345 :: exchange 20 [2]
  let obs (g : Group Unit) :
      List Bytes × List Bytes × Option (List IkcpSeg × List IkcpSeg) :=
    (g.accepted, g.delivered (.receiver ()),
      (g.node .sender).kcp.map fun kcp => (kcp.sndQueue, kcp.sndBuf))
  have hobs : (Machine.run sessionStep (programs Unit) es).map obs
      = some ([[2]], [], some ([], [])) := by decide +kernel
  obtain ⟨g', hrun, heq⟩ := Option.map_eq_some_iff.mp hobs
  simp only [obs, Prod.mk.injEq, Option.map_eq_some_iff] at heq
  obtain ⟨hacc, hdel, kcp, hkcp, hqueue, hbuf⟩ := heq
  have hall := h _ g' es kcp (programs_fresh Unit) hrun hkcp hqueue hbuf
  rw [hacc, hdel] at hall
  exact nomatch hall [2] (List.mem_singleton_self _)

end CppDemos
