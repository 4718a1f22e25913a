import CppDemos.Kcp.RestampFlush
import CppDemos.Group.Progress

/-!
# Clocks that disagree

`iclock` is the low half of a clock that each process reads for itself. How far
the clocks of a group are apart does not matter, nor where in its range a clock is
when its member starts: moving each member's readings by an offset of its own
gives a run of the same events, with the same messages accepted and delivered at
the same steps and the same datagrams sent, but for timestamps
(`clocks_irrelevant`). Only the sender's timestamps ever come back to their origin, and
they are moved by the sender's offset throughout.
-/

namespace CppDemos

variable {ι : Type} {d offset : UInt32} {x : Clocks} {conv : UInt32} {kcp : Ikcpcb}

/-! ## One member -/

theorem recv_clock (kcp : Ikcpcb) {len : Int} (hlen : 0 ≤ len) :
    (ikcpRecv kcp len).1.clock = kcp.clock ∧ (ikcpRecv kcp len).1.timing = kcp.timing := by
  rcases ikcpRecv_cases kcp hlen with ⟨err, -, heq, -⟩ | ⟨-, -, -, probe, heq⟩
  · rw [heq]
    exact ⟨rfl, rfl⟩
  · rw [heq]
    have hkept : (popRcv kcp).clock = kcp.clock ∧ (popRcv kcp).timing = kcp.timing := ⟨rfl, rfl⟩
    exact moveRcvBuf_induct (P := fun k => k.clock = kcp.clock ∧ k.timing = kcp.timing)
      (fun _ _ _ _ _ _ h => h) hkept

theorem Ticks.recv (h : Ticks offset d kcp x) {len : Int} (hlen : 0 ≤ len) :
    Ticks offset d (ikcpRecv kcp len).1 x := by
  obtain ⟨-, hside, -⟩ := recv_frame kcp hlen
  exact h.same (recv_clock kcp hlen) (congrArg SndSide.sndQueue hside)
    fun hnil => (congrArg SndSide.sndBuf hside).trans hnil

theorem drain_restamp :
    ∀ (fuel : Nat) {kcp : Ikcpcb}, Ticks offset d kcp x → kcp.updated ≠ 0 →
      drain fuel (kcp.restamp d x) = ((drain fuel kcp).1.restamp d x, (drain fuel kcp).2) ∧
        Ticks offset d (drain fuel kcp).1 x ∧ (drain fuel kcp).1.updated ≠ 0
  | 0, _, h, hupdated => ⟨rfl, h, hupdated⟩
  | fuel + 1, kcp, h, hupdated => by
      have hlen := Int.natCast_nonneg bufferSize
      have hnext := h.recv hlen
      have hrunning : (ikcpRecv kcp bufferSize).1.updated ≠ 0 := by
        rw [show (ikcpRecv kcp bufferSize).1.updated = kcp.updated from
          congrArg Prod.fst (recv_clock kcp hlen).1]
        exact hupdated
      obtain ⟨heq, hdone⟩ := drain_restamp fuel hnext hrunning
      rw [drain_succ, drain_succ, recv_restamp kcp d x hlen]
      split
      · exact ⟨rfl, hnext, hrunning⟩
      · exact ⟨by rw [heq], hdone⟩

theorem receiveDatagram_restamp (h : Ticks offset d kcp x) (hupdated : kcp.updated ≠ 0)
    {data data' : Bytes} (hdata : DatagramRestamped d kcp.conv 1400 data data') :
    ∃ y, receiveDatagram (kcp.restamp d x) data'
        = ((receiveDatagram kcp data).1.restamp d y, (receiveDatagram kcp data).2) ∧
      Ticks offset d (receiveDatagram kcp data).1 y ∧
      (receiveDatagram kcp data).1.updated ≠ 0 := by
  obtain ⟨segs, segs', rfl, rfl, hsame, hsend⟩ := hdata.segs
  obtain ⟨hle, hlen⟩ := hdata.length
  have hmtu : (1400 : UInt32).toNat < bufferSize := by decide
  obtain ⟨y, heq, hticks, hrunning⟩ := input_restamp h hupdated hsend hsame
  have hfuel : drainFuel ((ikcpInput kcp (datagram segs)).1.restamp d y)
      = drainFuel (ikcpInput kcp (datagram segs)).1 := by
    simp [drainFuel]
  obtain ⟨hdrain, hdone⟩ := drain_restamp (drainFuel (ikcpInput kcp (datagram segs)).1)
    hticks hrunning
  refine ⟨y, ?_, ?_⟩
  · rw [receiveDatagram, receiveDatagram, List.take_of_length_le (by omega),
      List.take_of_length_le (by omega), heq]
    simp only [hfuel, hdrain]
  · rw [receiveDatagram, List.take_of_length_le (by omega)]
    exact hdone

/-- What one `recvfrom` returns, with other timestamps. -/
inductive RecvResult.Restamped (d conv : UInt32) : RecvResult → RecvResult → Prop where
  | failed : Restamped d conv .failed .failed
  | datagram {data data' : Bytes} (h : DatagramRestamped d conv 1400 data data') :
      Restamped d conv (.datagram data) (.datagram data')

theorem handleReceive_restamp {results results' : List RecvResult}
    (hsame : List.Forall₂ (RecvResult.Restamped d conv) results results') :
    ∀ {kcp : Ikcpcb} {x : Clocks}, Ticks offset d kcp x → kcp.updated ≠ 0 → kcp.conv = conv →
      ∃ y, handleReceive (kcp.restamp d x) results'
          = ((handleReceive kcp results).1.restamp d y, (handleReceive kcp results).2) ∧
        Ticks offset d (handleReceive kcp results).1 y := by
  induction hsame with
  | nil => exact fun h _ _ => ⟨_, rfl, h⟩
  | @cons r r' results results' hr _ ih =>
      intro kcp x h hupdated hconv
      cases hr with
      | failed => exact ih h hupdated hconv
      | @datagram data data' hdata =>
          obtain ⟨y, heq, hticks, hrunning⟩ :=
            receiveDatagram_restamp h hupdated (hconv ▸ hdata)
          have hkeep : (receiveDatagram kcp data).1.conv = kcp.conv :=
            congrArg Setup.conv ((drain_frame _ _).1.trans (setup_input kcp _))
          obtain ⟨z, heq', hticks'⟩ := ih hticks hrunning (hkeep.trans hconv)
          refine ⟨z, ?_, hticks'⟩
          rw [handleReceive_datagram, handleReceive_datagram, heq, heq']

/-- A wrapper whose block has other clock readings. -/
def KCPWrapper.restamp (w : KCPWrapper) (kcp : Ikcpcb) (d : UInt32) (x : Clocks) : KCPWrapper :=
  { w with kcp := some (kcp.restamp d x) }

theorem KCPWrapper.Live.restamp {w : KCPWrapper} (h : w.Live conv kcp) :
    (w.restamp kcp d x).Live conv (kcp.restamp d x) := ⟨h.init, rfl, h.setup⟩

theorem KCPWrapper.Live.send_restamp {w : KCPWrapper} (h : w.Live conv kcp)
    (hticks : Ticks d d kcp x) (data : Bytes) (len : UInt64) :
    ∃ kcp', (w.send (some data) len).1 = { w with kcp := some kcp' } ∧
      (w.restamp kcp d x).send (some data) len
        = (w.restamp kcp' d x, (w.send (some data) len).2) ∧ Ticks d d kcp' x := by
  have htiming := hticks.timed.resolve_right fun hne => hne.1 rfl
  have hsame : w = { w with kcp := some kcp } := by rw [← h.block]
  unfold KCPWrapper.send
  rw [show (w.restamp kcp d x).initialized = w.initialized from rfl]
  split
  · exact ⟨kcp, hsame, rfl, hticks⟩
  · obtain ⟨queue, count, hqueue⟩ := ikcpSend_queue kcp data len.toUInt32.toInt32.toInt
    refine ⟨(ikcpSend kcp data len.toUInt32.toInt32.toInt).1, ?_, ?_, ?_⟩
    · rw [h.block]
    · rw [h.block, KCPWrapper.restamp]
      simp only [CppDemos.send_restamp]
      rfl
    · rw [hqueue]
      exact ⟨hticks.running, hticks.fresh, hticks.probe, Or.inl htiming⟩

/-- An update at another reading delivers the same and sends the same, but for
timestamps. -/
theorem KCPWrapper.Live.update_restamp {w : KCPWrapper} (h : w.Live conv kcp)
    (hsound : Sound conv kcp) (hticks : Ticks offset d kcp x) (iclock : UInt32)
    {results results' : List RecvResult}
    (hsame : List.Forall₂ (RecvResult.Restamped d conv) results results') :
    ∃ kcp' y, (w.update iclock results).1 = { w with kcp := some kcp' } ∧
      Ticks offset d kcp' y ∧
      ((w.restamp kcp d x).update (iclock + offset) results').1 = w.restamp kcp' d y ∧
      ((w.restamp kcp d x).update (iclock + offset) results').2.2
        = (w.update iclock results).2.2 := by
  have hconv : (ikcpUpdate kcp iclock).1.conv = conv :=
    congrArg Setup.conv ((ikcpUpdate_frame kcp iclock).1.trans h.setup)
  obtain ⟨y, hblock, hticks', hupdated, -⟩ :=
    CppDemos.update_restamp hticks hsound.unsent hsound.rcv.ok iclock
  obtain ⟨z, hreceive, hdone⟩ := handleReceive_restamp hsame hticks' hupdated hconv
  refine ⟨_, z, by rw [h.update_eq], hdone, ?_, ?_⟩
  · rw [h.restamp.update_eq, hblock, hreceive]
    rfl
  · rw [h.restamp.update_eq, h.update_eq, hblock, hreceive]
    rfl

/-! ## The group -/

/-- Sent by the same member, with other timestamps. -/
def SentRestamped (d conv : UInt32) (sent sent' : Member ι × Bytes) : Prop :=
  sent'.1 = sent.1 ∧ DatagramRestamped d conv 1400 sent.2 sent'.2

/-- Two groups that differ in the readings of their clocks. The clock of member
`m` is ahead by `offset m` all along; a timestamp is always the sender's, since
receivers send it back as they have got it, so whatever carries one is moved by
the offset of the sender. -/
structure Ahead (offset : Member ι → UInt32) (conv : UInt32) (g g' : Group ι) : Prop where
  node : ∀ m, ∃ kcp x, (g.node m).Live conv kcp ∧ Sound conv kcp ∧
    Ticks (offset m) (offset .sender) kcp x ∧
    g'.node m = (g.node m).restamp kcp (offset .sender) x
  net : List.Forall₂ (SentRestamped (offset .sender) conv) g.net g'.net
  accepted : g'.accepted = g.accepted
  delivered : g'.delivered = g.delivered

/-- The same event, at another clock reading and with other timestamps. -/
inductive Event.Ahead (offset : Member ι → UInt32) (conv : UInt32) : Event ι → Event ι → Prop where
  | send (data : Bytes) : Ahead offset conv (.send data) (.send data)
  | update (m : Member ι) (iclock : UInt32) {results results' : List RecvResult}
      (h : List.Forall₂ (RecvResult.Restamped (offset .sender) conv) results results') :
      Ahead offset conv (.update m iclock results) (.update m (iclock + offset m) results')

theorem exists_sentRestamped {net net' : List (Member ι × Bytes)}
    (h : List.Forall₂ (SentRestamped d conv) net net') {sent : Member ι × Bytes}
    (hmem : sent ∈ net) : ∃ sent' ∈ net', SentRestamped d conv sent sent' := by
  induction h with
  | nil => cases hmem
  | @cons a b net net' hab _ ih =>
      rcases List.mem_cons.mp hmem with rfl | hmem
      · exact ⟨b, by simp, hab⟩
      · obtain ⟨sent', hmem', hsame⟩ := ih hmem
        exact ⟨sent', List.mem_cons_of_mem _ hmem', hsame⟩

variable {hears : Member ι → Member ι → Bool}

theorem exists_readable {net net' : List (Member ι × Bytes)}
    (hnet : List.Forall₂ (SentRestamped d conv) net net') (m : Member ι) :
    ∀ {results : List RecvResult}, results.all (readable hears net m) = true →
      ∃ results', List.Forall₂ (RecvResult.Restamped d conv) results results' ∧
        results'.all (readable hears net' m) = true
  | [], _ => ⟨[], .nil, rfl⟩
  | r :: results, h => by
      rw [List.all_cons, Bool.and_eq_true] at h
      obtain ⟨results', hsame, hread⟩ := exists_readable hnet m h.2
      cases r with
      | failed => exact ⟨.failed :: results', .cons .failed hsame, by simpa [readable] using hread⟩
      | datagram data =>
          obtain ⟨sent, hmem, hsent⟩ := List.any_eq_true.mp h.1
          rw [Bool.and_eq_true, beq_iff_eq] at hsent
          obtain ⟨sent', hmem', horigin, hdata⟩ := exists_sentRestamped hnet hmem
          refine ⟨.datagram sent'.2 :: results', .cons (.datagram (hsent.2 ▸ hdata)) hsame, ?_⟩
          rw [List.all_cons, hread, Bool.and_true]
          exact List.any_eq_true.mpr ⟨sent', hmem', by simp [horigin, hsent.1]⟩

variable {offsets : Member ι → UInt32} {g g' : Group ι}

theorem Group.Fresh.ahead (h : g.Fresh conv)
    (hnew : ∀ m kcp, (g.node m).kcp = some kcp → kcp.updated = 0) (offsets : Member ι → UInt32) :
    Ahead offsets conv g g := by
  refine ⟨fun m => ?_, h.net ▸ .nil, rfl, rfl⟩
  obtain ⟨env, ip, port, c, w, hinit, hconv, hnode⟩ := h.init m
  obtain ⟨mem, hw⟩ := live_of_init hinit
  rw [hconv] at hw
  have hlive : (g.node m).Live conv (freshKcp conv mem) := by
    rcases hnode with hnode | hnode
    · rw [hnode]
      exact hw
    · rw [hnode]
      exact ⟨hw.init, hw.block, hw.setup⟩
  have hzero := hnew m _ hlive.block
  have hsound := freshKcp_sound conv mem
  obtain ⟨hack, hbuf, hrcvBuf, hrcvQueue, hqueue, hwait⟩ : (freshKcp conv mem).acklist = [] ∧
      (freshKcp conv mem).sndBuf = [] ∧ (freshKcp conv mem).rcvBuf = [] ∧
      (freshKcp conv mem).rcvQueue = [] ∧ (freshKcp conv mem).sndQueue = [] ∧
      (freshKcp conv mem).probeWait = 0 := by
    rw [freshKcp_eq]
    exact ⟨rfl, rfl, rfl, rfl, rfl, rfl⟩
  generalize freshKcp conv mem = kcp at *
  refine ⟨kcp, kcp.readings, hlive, hsound, ⟨fun hrunning => absurd hzero hrunning, fun _ => hbuf,
    Or.inl hwait, ?_⟩, ?_⟩
  · by_cases hoffset : offsets m = offsets .sender
    · exact Or.inl ⟨hoffset, rfl⟩
    · exact Or.inr ⟨hoffset, hqueue, hbuf⟩
  · rw [KCPWrapper.restamp, restamp_readings _ hack hbuf hrcvBuf hrcvQueue, ← hlive.block]

variable [DecidableEq ι]

theorem Ahead.send (h : Ahead offsets conv g g') (data : Bytes) :
    Ahead offsets conv (g.send data) (g'.send data) := by
  obtain ⟨kcp, x, hlive, hsound, hticks, hnode⟩ := h.node .sender
  obtain ⟨kcp', hsend, hsend', hticks'⟩ :=
    hlive.send_restamp hticks data (UInt64.ofNat data.length)
  have hkept : ∀ kcp₁, ((g.node .sender).send (some data) (UInt64.ofNat data.length)).1.kcp
      = some kcp₁ → Sound conv kcp₁ :=
    (kept_sound conv).call (.send (some data) (UInt64.ofNat data.length)) fun kcp₁ hkcp₁ => by
      rw [hlive.block] at hkcp₁
      exact Option.some.inj hkcp₁ ▸ hsound
  rw [hsend] at hkept
  have hsound' : Sound conv kcp' := hkept kcp' rfl
  rw [← hnode] at hsend'
  refine ⟨fun m => ?_, h.net, ?_, h.delivered⟩
  · by_cases hm : m = .sender
    · subst hm
      refine ⟨kcp', x, ?_, hsound', hticks', ?_⟩
      · simp only [Group.send, Function.update_self, hsend]
        exact ⟨hlive.init, rfl, hsound'.setup⟩
      · simp only [Group.send, Function.update_self, hsend, hsend']
        rfl
    · simp only [Group.send, Function.update_of_ne hm]
      exact h.node m
  · simp only [Group.send, hsend', h.accepted]

/-- What is on the network behind an update does not depend on what is read. -/
theorem Ahead.net_update (h : Ahead offsets conv g g') (m : Member ι) (iclock : UInt32)
    (results results' : List RecvResult) :
    List.Forall₂ (SentRestamped (offsets .sender) conv) (g.update m iclock results).net
      (g'.update m (iclock + offsets m) results').net := by
  obtain ⟨kcp, x, hlive, hsound, hticks, hnode⟩ := h.node m
  have hlive' : (g'.node m).Live conv (kcp.restamp (offsets .sender) x) := hnode ▸ hlive.restamp
  obtain ⟨-, -, -, -, houts⟩ := update_restamp hticks hsound.unsent hsound.rcv.ok iclock
  have hconv : kcp.conv = conv := congrArg Setup.conv hlive.setup
  have hmtu : kcp.mtu = 1400 := congrArg Setup.mtu hlive.setup
  rw [hconv, hmtu] at houts
  rw [(Group.update_block hlive).2, (Group.update_block hlive').2]
  refine List.rel_append h.net ?_
  rw [List.forall₂_map_left_iff, List.forall₂_map_right_iff]
  exact houts.imp fun data data' hdata => ⟨rfl, hdata⟩

theorem Ahead.update (h : Ahead offsets conv g g') (m : Member ι) (iclock : UInt32)
    {results results' : List RecvResult}
    (hsame : List.Forall₂ (RecvResult.Restamped (offsets .sender) conv) results results') :
    Ahead offsets conv (g.update m iclock results) (g'.update m (iclock + offsets m) results') := by
  obtain ⟨kcp, x, hlive, hsound, hticks, hnode⟩ := h.node m
  obtain ⟨kcp', y, hupdate, hticks', hupdate', hdelivered⟩ :=
    hlive.update_restamp hsound hticks iclock hsame
  have hkept : ∀ kcp₁, ((g.node m).update iclock results).1.kcp = some kcp₁ → Sound conv kcp₁ :=
    (kept_sound conv).call (.update iclock results) fun kcp₁ hkcp₁ => by
      rw [hlive.block] at hkcp₁
      exact Option.some.inj hkcp₁ ▸ hsound
  rw [hupdate] at hkept
  have hsound' : Sound conv kcp' := hkept kcp' rfl
  rw [← hnode] at hupdate' hdelivered
  refine ⟨fun o => ?_, h.net_update m iclock results results', h.accepted, ?_⟩
  · by_cases ho : o = m
    · subst ho
      refine ⟨kcp', y, ?_, hsound', hticks', ?_⟩
      · simp only [Group.update, Function.update_self, hupdate]
        exact ⟨hlive.init, rfl, hsound'.setup⟩
      · simp only [Group.update, Function.update_self, hupdate, hupdate']
        rfl
    · rw [Group.update_other ho, Group.update_other ho]
      exact h.node o
  · simp only [Group.update, hdelivered, h.delivered]

theorem Ahead.step (h : Ahead offsets conv g g') {e : Event ι} {g₁ : Group ι}
    (hstep : g.step hears e = some g₁) :
    ∃ e' g₁', Event.Ahead offsets conv e e' ∧ g'.step hears e' = some g₁' ∧
      Ahead offsets conv g₁ g₁' := by
  cases e with
  | send data =>
      simp only [Group.step, Option.ite_none_right_eq_some] at hstep
      obtain ⟨hlen, heq⟩ := hstep
      obtain rfl := Option.some.inj heq
      exact ⟨.send data, g'.send data, .send data, if_pos hlen, h.send data⟩
  | update m iclock results =>
      simp only [Group.step, Option.ite_none_right_eq_some] at hstep
      obtain ⟨hread, heq⟩ := hstep
      obtain rfl := Option.some.inj heq
      obtain ⟨results', hsame, hread'⟩ :=
        exists_readable (h.net_update m iclock results []) m hread
      have hnet : (g'.update m (iclock + offsets m) results').net
          = (g'.update m (iclock + offsets m) []).net := by
        obtain ⟨kcp, x, hlive, -, -, hnode⟩ := h.node m
        have hlive' : (g'.node m).Live conv (kcp.restamp (offsets .sender) x) :=
          hnode ▸ hlive.restamp
        rw [(Group.update_block hlive').2, (Group.update_block hlive').2]
      exact ⟨.update m (iclock + offsets m) results', _, .update m iclock hsame,
        if_pos (hnet ▸ hread'), h.update m iclock hsame⟩

/-- However far the clocks of the group are apart, and wherever in their range they
start: a run of the group is matched by a run of the same events in which each
member reads a clock that is ahead by an offset of its own. The same messages are
accepted and delivered, and the same datagrams sent but for timestamps. -/
theorem clocks_irrelevant {es : List (Event ι)} (hfresh : g.Fresh conv)
    (hnew : ∀ m kcp, (g.node m).kcp = some kcp → kcp.updated = 0)
    (hrun : Machine.run (Group.step hears) g es = some g') (offsets : Member ι → UInt32) :
    ∃ es' g'', List.Forall₂ (Event.Ahead offsets conv) es es' ∧
      Machine.run (Group.step hears) g es' = some g'' ∧ g''.accepted = g'.accepted ∧
      g''.delivered = g'.delivered ∧
      List.Forall₂ (SentRestamped (offsets .sender) conv) g'.net g''.net := by
  obtain ⟨es', g'', hes, hrun', hahead⟩ :=
    Machine.run_simulates (R := Ahead offsets conv) (fun h hstep => h.step hstep)
      (hfresh.ahead hnew offsets) hrun
  exact ⟨es', g'', hes, hrun', hahead.accepted, hahead.delivered, hahead.net⟩

/-- The sender's clock is about to wrap, the receiver's runs five milliseconds ahead. -/
def skewed : Member (Fin 1) → UInt32
  | .sender => 4294967290
  | .receiver _ => 5

/-- One message is sent, flushed and read by receiver `i`, which acknowledges it. -/
def sentAndRead (i : ι) : List (Event ι) :=
  [.send [1], .update .sender 3 [], .update (.receiver i) 4 [.datagram (segBytes
    { conv := mainConv, cmd := ikcpCmdPush, wnd := 128, ts := 3, data := [1] })],
    .update (.receiver i) 20 []]

theorem clocks_irrelevant_skewed :
    ∃ es' g'', List.Forall₂ (Event.Ahead skewed mainConv) (sentAndRead 0) es' ∧
      Machine.run (Group.step hearsOthers) (programs (Fin 1)) es' = some g'' ∧
      g''.delivered (.receiver 0) = [[1]] := by
  have hrun : (Machine.run (Group.step hearsOthers) (programs (Fin 1)) (sentAndRead 0)).map
      (fun g => (g.delivered (.receiver 0), g.net.length)) = some ([[1]], 2) := by decide +kernel
  obtain ⟨g', hrun, hseen⟩ := Option.map_eq_some_iff.mp hrun
  obtain ⟨hdelivered, -⟩ := Prod.mk.inj hseen
  have hnew : ∀ m kcp, ((programs (Fin 1)).node m).kcp = some kcp → kcp.updated = 0 := by
    intro m kcp hkcp
    cases m <;> exact Option.some.inj hkcp ▸ rfl
  obtain ⟨es', g'', hes, hrun', -, hdelivered', -⟩ :=
    clocks_irrelevant (programs_fresh _) hnew hrun skewed
  exact ⟨es', g'', hes, hrun', (congrFun hdelivered' _).trans hdelivered⟩

end CppDemos
