import CppDemos.Wrapper.Quiet

/-!
# Foreign datagrams

The socket receives whatever is sent to its group and port. `ikcp_input` turns
back what is too short for a header or has another conversation in front before
it changes anything (`input_foreign`). But it is followed by another round of the
inner loop, so that this has no effect either depends on the loop having been run
to its end before: in a drained state `ikcp_recv` refuses and moves nothing
(`drain_of_drained`). Every state `handleReceive` is in between two datagrams is
drained.
-/

namespace CppDemos

/-- A datagram that is not of the conversation. -/
def Foreign (conv : UInt32) (data : Bytes) : Prop :=
  data.length < ikcpOverhead ∨ (ikcpDecode32u data).1 ≠ conv

/-- The results of `recvfrom` with foreign datagrams put in between. -/
inductive ForeignIn (conv : UInt32) : List RecvResult → List RecvResult → Prop where
  | nil : ForeignIn conv [] []
  | keep (r : RecvResult) {rs rs' : List RecvResult} (h : ForeignIn conv rs rs') :
      ForeignIn conv (r :: rs) (r :: rs')
  | insert (data : Bytes) (hforeign : Foreign conv data) {rs rs' : List RecvResult}
      (h : ForeignIn conv rs rs') : ForeignIn conv rs (.datagram data :: rs')

/-- The same call, with foreign datagrams among those it reads. -/
inductive Call.ForeignIn (conv : UInt32) : Call → Call → Prop where
  | send (data : Option Bytes) (len : UInt64) :
      Call.ForeignIn conv (.send data len) (.send data len)
  | update (iclock : UInt32) {rs rs' : List RecvResult} (h : CppDemos.ForeignIn conv rs rs') :
      Call.ForeignIn conv (.update iclock rs) (.update iclock rs')

variable {conv : UInt32} {kcp : Ikcpcb}

theorem Foreign.take {data : Bytes} (h : Foreign conv data) :
    Foreign conv (data.take bufferSize) := by
  have hmin : min 4 bufferSize = 4 := by decide
  rcases h with hshort | hconv
  · refine Or.inl ?_
    rw [List.length_take]
    exact (Nat.min_le_right ..).trans_lt hshort
  · refine Or.inr ?_
    rwa [ikcpDecode32u, List.take_take, hmin]

theorem input_foreign (hconv : kcp.conv = conv) {data : Bytes} (h : Foreign conv data) :
    (ikcpInput kcp data).1 = kcp := by
  unfold ikcpInput
  split
  · rfl
  · rename_i hlen
    have hother : (ikcpDecode32u data).1 ≠ kcp.conv := hconv ▸ h.resolve_left hlen
    have hpos : ikcpOverhead = 24 := rfl
    obtain ⟨n, hn⟩ := Nat.exists_eq_succ_of_ne_zero (n := data.length) (by omega)
    have hloop : inputLoop data.length { kcp := kcp } data = ({ kcp := kcp }, -1) := by
      rw [hn, inputLoop, if_neg hlen]
      simp only
      rw [if_pos hother]
    simp only [hloop]
    rfl

theorem drain_of_drained (h : Drained kcp) : ∀ fuel, drain fuel kcp = (kcp, [])
  | 0 => rfl
  | fuel + 1 => by
      have hneg : (ikcpRecv kcp bufferSize).2.1 < 0 := h
      rw [drain_succ, if_pos hneg, recv_refused hneg]

theorem receiveDatagram_foreign (hconv : kcp.conv = conv) (hdrained : Drained kcp)
    {data : Bytes} (h : Foreign conv data) : receiveDatagram kcp data = (kcp, []) := by
  unfold receiveDatagram
  rw [input_foreign hconv h.take]
  exact drain_of_drained hdrained _

theorem handleReceive_foreign {rs rs' : List RecvResult} (h : ForeignIn conv rs rs') :
    ∀ {kcp : Ikcpcb}, kcp.conv = conv → Drained kcp →
      handleReceive kcp rs' = handleReceive kcp rs := by
  induction h with
  | nil => exact fun _ _ => rfl
  | keep r _ ih =>
      intro kcp hconv hdrained
      cases r with
      | failed => exact ih hconv hdrained
      | datagram data =>
          have hconv' : (receiveDatagram kcp data).1.conv = conv :=
            (congrArg Setup.conv (handleReceive_setup [.datagram data] kcp)).trans hconv
          have hrest := ih hconv' (drain_drained (ikcpInput kcp (data.take bufferSize)).1)
          rw [handleReceive_datagram, handleReceive_datagram, hrest]
  | insert data hforeign _ ih =>
      intro kcp hconv hdrained
      rw [handleReceive_datagram, receiveDatagram_foreign hconv hdrained hforeign]
      exact ih hconv hdrained

/-! ## Runs -/

variable {w : KCPWrapper}

theorem KCPWrapper.Settled.observeCall_foreign (h : w.Settled conv kcp) {c c' : Call}
    (hc : Call.ForeignIn conv c c') : w.observeCall c' = w.observeCall c := by
  cases hc with
  | send data len => rfl
  | update iclock hrs =>
      obtain ⟨hsetup, hrcv, -⟩ := ikcpUpdate_frame kcp iclock
      have hconv : (ikcpUpdate kcp iclock).1.conv = conv :=
        congrArg Setup.conv (hsetup.trans h.live.setup)
      have hsame := handleReceive_foreign hrs hconv (h.drained.congr hrcv)
      simp only [KCPWrapper.observeCall, h.live.update_eq, hsame]

theorem KCPWrapper.Settled.observe_foreign {cs cs' : List Call}
    (hcs : List.Forall₂ (Call.ForeignIn conv) cs cs') :
    ∀ {w : KCPWrapper} {kcp : Ikcpcb}, w.Settled conv kcp → w.observe cs' = w.observe cs := by
  induction hcs with
  | nil => exact fun _ => rfl
  | cons hc _ ih =>
      intro w kcp h
      obtain ⟨kcp', hnext⟩ := h.call _
      rw [← KCPWrapper.observeCall_fst] at hnext
      rw [KCPWrapper.observe_cons, KCPWrapper.observe_cons, h.observeCall_foreign hc, ih hnext]

/-- Whatever datagrams of other conversations, or too short for a header, are put
among those an initialised wrapper reads: what it passes to `udp_output` and to
`data_callback_` in each call and the state it ends in are those of the run
without them. -/
theorem foreign_ignored {w w' : KCPWrapper} {env : InitEnv} {ip : Bytes} {port : UInt16}
    {conv : UInt32} (h : w.init env ip port conv = (w', true)) {cs cs' : List Call}
    (hcs : List.Forall₂ (Call.ForeignIn (actualConv conv)) cs cs') :
    w'.observe cs' = w'.observe cs := by
  obtain ⟨kcp, hsettled⟩ := settled_of_init h
  exact KCPWrapper.Settled.observe_foreign hcs hsettled

/-- A segment of the conversation 5, numbered as the one that is expected. -/
def strange : Bytes := segBytes { conv := 5, cmd := ikcpCmdPush, wnd := 128, data := [8] }

/-- It and three stray bytes come before two segments, of which one is delivered. -/
theorem foreign_ignored_main :
    listening.observe [.update 0 [.datagram [1, 2, 3], .datagram strange,
        .datagram (pushed 0 7), .datagram (pushed 2 9)]]
      = listening.observe [.update 0 [.datagram (pushed 0 7), .datagram (pushed 2 9)]] ∧
    (listening.observe [.update 0 [.datagram (pushed 0 7),
      .datagram (pushed 2 9)]]).2.map Observed.delivered = [[[7]]] := by
  refine ⟨foreign_ignored listening_init (.cons (.update 0 (.insert [1, 2, 3]
    (Or.inl (by decide)) (.insert strange (Or.inr ?_) (.keep _ (.keep _ .nil))))) .nil), ?_⟩
  · decide +kernel
  · decide +kernel

end CppDemos
