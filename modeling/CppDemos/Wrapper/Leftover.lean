import CppDemos.Kcp.Alike
import CppDemos.Wrapper.Calls

/-!
# What malloc leaves in the control block

`ikcp_create` sets every field but `ssthresh`, `current` and `updated`. The first
does not show (`Hidden`) and the second is set before it is read. The third decides
what the first update takes for the time of the next flush: the clock reading if it
is 0, and otherwise the 100 that `ikcp_create` puts into `ts_flush`. `firstFlush` is
what becomes of the two; after it the wrappers behave alike (`observe_hiding`).
-/

namespace CppDemos

/-! ## Wrappers that behave alike -/

def KCPWrapper.holding (w : KCPWrapper) (kcp : Ikcpcb) : KCPWrapper := { w with kcp := some kcp }

variable (kcp : Ikcpcb) (x : Hidden) {conv : UInt32}

theorem drain_hiding :
    ∀ (fuel : Nat) (kcp : Ikcpcb),
      drain fuel (kcp.hiding x) = ((drain fuel kcp).1.hiding x, (drain fuel kcp).2)
  | 0, _ => rfl
  | fuel + 1, kcp => by
      rw [drain_succ, drain_succ, ikcpRecv_hiding kcp x (Int.natCast_nonneg bufferSize)]
      simp only [drain_hiding fuel]
      split <;> rfl

theorem receiveDatagram_hiding (data : Bytes) :
    ∃ y : Hidden, y.updated = x.updated ∧ receiveDatagram (kcp.hiding x) data
      = ((receiveDatagram kcp data).1.hiding y, (receiveDatagram kcp data).2) := by
  obtain ⟨y, hy, heq⟩ := ikcpInput_hiding kcp x (data.take bufferSize)
  refine ⟨y, hy, ?_⟩
  unfold receiveDatagram
  rw [heq]
  exact drain_hiding y _ _

theorem handleReceive_hiding :
    ∀ (results : List RecvResult) (kcp : Ikcpcb) (x : Hidden),
      ∃ y : Hidden, y.updated = x.updated ∧ handleReceive (kcp.hiding x) results
        = ((handleReceive kcp results).1.hiding y, (handleReceive kcp results).2)
  | [], _, x => ⟨x, rfl, rfl⟩
  | .failed :: results, kcp, x => handleReceive_hiding results kcp x
  | .datagram data :: results, kcp, x => by
      obtain ⟨y, hy, hone⟩ := receiveDatagram_hiding kcp x data
      obtain ⟨z, hz, hmore⟩ := handleReceive_hiding results (receiveDatagram kcp data).1 y
      refine ⟨z, hz.trans hy, ?_⟩
      rw [handleReceive_datagram, handleReceive_datagram, hone]
      simp only [hmore]

variable {w : KCPWrapper}

theorem KCPWrapper.update_holding (hinit : w.initialized = true) (kcp : Ikcpcb) (iclock : UInt32)
    (results : List RecvResult) :
    (w.holding kcp).update iclock results =
      (w.holding (handleReceive (ikcpUpdate kcp iclock).1 results).1, (ikcpUpdate kcp iclock).2,
        if w.dataCallback then (handleReceive (ikcpUpdate kcp iclock).1 results).2 else []) := by
  unfold KCPWrapper.update
  rw [KCPWrapper.holding, if_neg (by rw [hinit]; exact Bool.true_eq_false.mp)]
  rfl

theorem KCPWrapper.send_holding (w : KCPWrapper) (data : Option Bytes) (len : UInt64) :
    (∀ kcp, ((w.holding kcp).send data len).1 = w.holding kcp) ∨
      ∃ buffer n, ∀ kcp, ((w.holding kcp).send data len).1
        = w.holding (ikcpSend kcp buffer n).1 := by
  unfold KCPWrapper.send KCPWrapper.holding
  by_cases hno : w.initialized = false ∨ data = none ∨ len = 0
  · exact Or.inl fun kcp => by rw [if_pos hno]
  · obtain ⟨buffer, hdata⟩ := Option.ne_none_iff_exists'.mp fun h => hno (Or.inr (Or.inl h))
    refine Or.inr ⟨buffer, len.toUInt32.toInt32.toInt, fun kcp => ?_⟩
    rw [if_neg hno, hdata]

theorem KCPWrapper.send_unread (w : KCPWrapper) (kcp : Ikcpcb) (data : Option Bytes)
    (len : UInt64) : ∃ queue count, ∀ (x : Hidden) (current : UInt32),
      ((w.holding (kcp.unread x current)).send data len).1
        = w.holding (Ikcpcb.unread { kcp with sndQueue := queue, nsndQue := count } x current) := by
  rcases w.send_holding data len with hsame | ⟨buffer, n, hsend⟩
  · exact ⟨kcp.sndQueue, kcp.nsndQue, fun x current => hsame _⟩
  · obtain ⟨queue, count, heq⟩ := ikcpSend_queue kcp buffer n
    refine ⟨queue, count, fun x current => ?_⟩
    rw [hsend, ikcpSend_unread, heq]

/-- What a call shows does not depend on the hidden fields, once there has been an
update. -/
theorem observeCall_hiding (hinit : w.initialized = true) {kcp : Ikcpcb} (hnocwnd : kcp.nocwnd ≠ 0)
    (c : Call) : ∃ (kcp' : Ikcpcb) (seen : Observed), kcp'.nocwnd ≠ 0 ∧
      ∀ x : Hidden, x.updated ≠ 0 → ∃ y : Hidden, y.updated ≠ 0 ∧
        (w.holding (kcp.hiding x)).observeCall c = (w.holding (kcp'.hiding y), seen) := by
  cases c with
  | send data len =>
      obtain ⟨queue, count, hsend⟩ := w.send_unread kcp data len
      refine ⟨{ kcp with sndQueue := queue, nsndQue := count }, {}, hnocwnd, ?_⟩
      refine fun x hx => ⟨x, hx, ?_⟩
      exact Prod.ext (hsend x kcp.current) rfl
  | update iclock results =>
      obtain ⟨k, outs, hsetup, hupdate⟩ := ikcpUpdate_hiding kcp hnocwnd iclock
      have hsetup' := (handleReceive_setup results k).trans hsetup
      refine ⟨(handleReceive k results).1, { sent := outs, delivered :=
        if w.dataCallback then (handleReceive k results).2 else [] }, ?_, fun x hx => ?_⟩
      · exact fun h => hnocwnd ((congrArg Setup.nocwnd hsetup').symm.trans h)
      · obtain ⟨y, hy, heq⟩ := hupdate x hx
        obtain ⟨z, hz, hreceive⟩ := handleReceive_hiding results k y
        refine ⟨z, fun h => hx (hy.symm.trans (hz.symm.trans h)), ?_⟩
        simp only [KCPWrapper.observeCall, KCPWrapper.update_holding hinit, heq, hreceive]

theorem observe_hiding (hinit : w.initialized = true) :
    ∀ (cs : List Call) {kcp : Ikcpcb}, kcp.nocwnd ≠ 0 →
      ∃ seen : List Observed, ∀ x : Hidden, x.updated ≠ 0 →
        ((w.holding (kcp.hiding x)).observe cs).2 = seen
  | [], _, _ => ⟨[], fun _ _ => rfl⟩
  | c :: cs, kcp, hnocwnd => by
      obtain ⟨kcp', seen, hnocwnd', hcall⟩ := observeCall_hiding hinit hnocwnd c
      obtain ⟨more, hmore⟩ := observe_hiding hinit cs hnocwnd'
      refine ⟨seen :: more, fun x hx => ?_⟩
      obtain ⟨y, hy, heq⟩ := hcall x hx
      rw [KCPWrapper.observe_cons, heq]
      exact congrArg (seen :: ·) (hmore y hy)

/-! ## The first update -/

/-- The hidden fields behind an update. -/
def Hidden.marked (x : Hidden) : Hidden :=
  { x with updated := if x.updated = 0 then 1 else x.updated }

theorem Hidden.marked_updated (x : Hidden) : x.marked.updated ≠ 0 := by
  simp only [Hidden.marked]
  split
  · intro hone
    cases hone
  · assumption

/-- The next `ts_flush`, if the first update flushes; `zero` says that `updated`
was 0. -/
def firstFlush (zero : Bool) (iclock : UInt32) : Option UInt32 :=
  let slap := itimediff iclock ikcpInterval
  if zero ∨ slap < -10000 ∨ slap ≥ 10 then some (iclock + 10)
  else if slap ≥ 0 then some (ikcpInterval + 10)
  else none

/-- What nothing but an update changes. -/
structure Unstarted (kcp : Ikcpcb) : Prop where
  tsFlush : kcp.tsFlush = ikcpInterval
  interval : kcp.interval = 10
  nocwnd : kcp.nocwnd ≠ 0

def Ikcpcb.clocked (kcp : Ikcpcb) (current tsFlush : UInt32) : Ikcpcb :=
  { kcp with current := current, tsFlush := tsFlush }

variable {kcp : Ikcpcb}

theorem clock_first (h : Unstarted kcp) (x : Hidden) (current iclock : UInt32) :
    restartClock (updateClock (kcp.unread x current) iclock) =
      (kcp.clocked iclock (if x.updated = 0 ∨ itimediff iclock ikcpInterval ≥ 10000 ∨
          itimediff iclock ikcpInterval < -10000 then iclock else ikcpInterval)).hiding
        x.marked := by
  by_cases hzero : x.updated = 0
  · have hclock : updateClock (kcp.unread x current) iclock
        = (kcp.clocked iclock iclock).hiding x.marked := by
      have hupdated : (kcp.unread x current).updated = 0 := hzero
      rw [updateClock, if_pos hupdated, Hidden.marked, if_pos hzero]
      rfl
    have hjump : clockJumped (kcp.clocked iclock iclock) = false := by
      simp only [clockJumped, Ikcpcb.clocked, itimediff_self]
      rfl
    rw [hclock, restartClock_hiding, restartClock, hjump, if_pos (Or.inl hzero)]
    rfl
  · have hclock : updateClock (kcp.unread x current) iclock
        = (kcp.clocked iclock ikcpInterval).hiding x.marked := by
      have hupdated : (kcp.unread x current).updated ≠ 0 := hzero
      rw [updateClock, if_neg hupdated, Hidden.marked, if_neg hzero, ← h.tsFlush]
      rfl
    have hjump : clockJumped (kcp.clocked iclock ikcpInterval) = true ↔
        x.updated = 0 ∨ itimediff iclock ikcpInterval ≥ 10000 ∨
          itimediff iclock ikcpInterval < -10000 := by
      rw [clockJumped, Bool.or_eq_true, decide_eq_true_eq, decide_eq_true_eq, or_iff_right hzero]
      rfl
    rw [hclock, restartClock_hiding, restartClock]
    simp only [hjump]
    split <;> rfl

theorem update_clocked {k : Ikcpcb} {x : Hidden} {iclock ts : UInt32}
    (hclock : restartClock (updateClock k iclock) = (kcp.clocked iclock ts).hiding x) :
    ikcpUpdate k iclock =
      if itimediff iclock ts ≥ 0 then
        ikcpFlush ((kcp.clocked iclock (nextFlush (kcp.clocked iclock ts))).hiding x)
      else ((kcp.clocked iclock ts).hiding x, []) := by
  rw [ikcpUpdate_eq, hclock]
  rfl

theorem nextFlush_clocked (hten : kcp.interval = 10) (iclock ts : UInt32)
    (h : -2 ^ 31 ≤ itimediff iclock ts - 10) :
    nextFlush (kcp.clocked iclock ts)
      = if itimediff iclock ts ≥ 10 then iclock + 10 else ts + 10 := by
  have hval : (10 : UInt32).toNat = 10 := rfl
  have hnext : itimediff iclock (ts + 10) = itimediff iclock ts - 10 :=
    itimediff_add_right (by decide) h
  simp only [nextFlush, Ikcpcb.clocked, hten, hnext]
  split <;> split <;> first | rfl | omega

theorem ikcpUpdate_first (h : Unstarted kcp) (x : Hidden) (current iclock : UInt32) :
    ikcpUpdate (kcp.unread x current) iclock =
      match firstFlush (x.updated = 0) iclock with
      | some ts => ikcpFlush ((kcp.clocked iclock ts).hiding x.marked)
      | none => ((kcp.clocked iclock ikcpInterval).hiding x.marked, []) := by
  rw [update_clocked (clock_first h x current iclock)]
  simp only [firstFlush, decide_eq_true_eq]
  by_cases hstart : x.updated = 0 ∨ itimediff iclock ikcpInterval ≥ 10000 ∨
      itimediff iclock ikcpInterval < -10000
  · have hsome : x.updated = 0 ∨ itimediff iclock ikcpInterval < -10000 ∨
        itimediff iclock ikcpInterval ≥ 10 := by
      rcases hstart with hzero | hfar | hbefore
      · exact Or.inl hzero
      · exact Or.inr (Or.inr (Int.le_trans (by decide) hfar))
      · exact Or.inr (Or.inl hbefore)
    have hnext := nextFlush_clocked h.interval iclock iclock (by rw [itimediff_self]; decide)
    rw [itimediff_self, if_neg (by decide)] at hnext
    simp only [if_pos hstart, if_pos hsome, itimediff_self]
    rw [if_pos (Int.le_refl 0), hnext]
  · obtain ⟨hzero, hnear⟩ := not_or.mp hstart
    have hnext := nextFlush_clocked h.interval iclock ikcpInterval (by omega)
    simp only [hzero, false_or, if_neg hnear, hnext]
    by_cases hten : itimediff iclock ikcpInterval ≥ 10
    · have hdue : itimediff iclock ikcpInterval ≥ 0 := by omega
      rw [if_pos hten, if_pos (Or.inr hten), if_pos hdue]
    · have hrest : ¬ (itimediff iclock ikcpInterval < -10000 ∨
          itimediff iclock ikcpInterval ≥ 10) := by omega
      rw [if_neg hten, if_neg hrest]
      by_cases hdue : itimediff iclock ikcpInterval ≥ 0
      · rw [if_pos hdue, if_pos hdue]
      · rw [if_neg hdue, if_neg hdue]

/-! ## Runs from the start -/

/-- The clock reading of the first update. -/
def firstReading : List Call → Option UInt32
  | [] => none
  | .send _ _ :: cs => firstReading cs
  | .update iclock _ :: _ => some iclock

theorem update_unread (h : Unstarted kcp) (iclock : UInt32) (flush : Option UInt32) :
    ∃ (kcp' : Ikcpcb) (outs : List Bytes), kcp'.setup = kcp.setup ∧
      ∀ (x : Hidden) (current : UInt32), firstFlush (x.updated = 0) iclock = flush →
        ∃ y : Hidden, y.updated ≠ 0 ∧
          ikcpUpdate (kcp.unread x current) iclock = (kcp'.hiding y, outs) := by
  cases flush with
  | none =>
      refine ⟨kcp.clocked iclock ikcpInterval, [], rfl, fun x current hfirst => ?_⟩
      refine ⟨x.marked, x.marked_updated, ?_⟩
      rw [ikcpUpdate_first h, hfirst]
  | some ts =>
      obtain ⟨kcp', outs, hsetup, hflush⟩ := ikcpFlush_hiding (kcp.clocked iclock ts) h.nocwnd
      refine ⟨kcp', outs, hsetup, fun x current hfirst => ?_⟩
      obtain ⟨y, hy, heq⟩ := hflush x.marked x.marked_updated
      refine ⟨y, fun h0 => x.marked_updated (hy.symm.trans h0), ?_⟩
      rw [ikcpUpdate_first h, hfirst]
      exact heq

theorem observe_unread (hinit : w.initialized = true) :
    ∀ (cs : List Call) {kcp : Ikcpcb}, Unstarted kcp → ∀ iclock : UInt32,
      (∀ c, firstReading cs = some c → c = iclock) → ∀ flush : Option UInt32,
      ∃ seen : List Observed, ∀ (x : Hidden) (current : UInt32),
        firstFlush (x.updated = 0) iclock = flush →
          ((w.holding (kcp.unread x current)).observe cs).2 = seen
  | [], _, _, _, _, _ => ⟨[], fun _ _ _ => rfl⟩
  | .send data len :: cs, kcp, h, iclock, hread, flush => by
      obtain ⟨queue, count, hsend⟩ := w.send_unread kcp data len
      have hqueued : Unstarted { kcp with sndQueue := queue, nsndQue := count } :=
        ⟨h.tsFlush, h.interval, h.nocwnd⟩
      obtain ⟨seen, hseen⟩ := observe_unread hinit cs hqueued iclock hread flush
      refine ⟨{} :: seen, fun x current hfirst => ?_⟩
      rw [KCPWrapper.observe_cons]
      simp only [KCPWrapper.observeCall, hsend]
      rw [hseen x current hfirst]
  | .update c results :: cs, kcp, h, iclock, hread, flush => by
      obtain rfl : c = iclock := hread c rfl
      obtain ⟨k, outs, hsetup, hupdate⟩ := update_unread h c flush
      have hsetup' := (handleReceive_setup results k).trans hsetup
      have hnocwnd : (handleReceive k results).1.nocwnd ≠ 0 :=
        fun h0 => h.nocwnd ((congrArg Setup.nocwnd hsetup').symm.trans h0)
      obtain ⟨more, hmore⟩ := observe_hiding hinit cs hnocwnd
      refine ⟨{ sent := outs, delivered :=
        if w.dataCallback then (handleReceive k results).2 else [] } :: more,
        fun x current hfirst => ?_⟩
      obtain ⟨y, hy, heq⟩ := hupdate x current hfirst
      obtain ⟨z, hz, hreceive⟩ := handleReceive_hiding results k y
      rw [KCPWrapper.observe_cons]
      simp only [KCPWrapper.observeCall, KCPWrapper.update_holding hinit, heq, hreceive]
      rw [hmore z fun h0 => hy (hz.symm.trans h0)]

/-! ## The runs that tell them apart -/

/-- A block with nothing to send that would send one byte. It is what tells two
runs apart: a byte that is queued leaves with the first flush, so when it leaves
shows when that flush was. -/
structure ReadyToSend (kcp : Ikcpcb) : Prop extends NothingToSend kcp where
  stream : kcp.stream = 0
  mtu : ikcpOverhead + 1 ≤ kcp.mtu.toNat
  mss : 1 ≤ kcp.mss.toNat
  nocwnd : kcp.nocwnd ≠ 0
  room : itimediff kcp.sndNxt (kcp.sndUna + imin kcp.sndWnd kcp.rmtWnd) < 0

theorem ReadyToSend.clocked (h : ReadyToSend kcp) (current ts : UInt32) :
    ReadyToSend (kcp.clocked current ts) where
  acklist := h.acklist
  rmtWnd := h.rmtWnd
  tsProbe := h.tsProbe
  probeWait := h.probeWait
  probe := h.probe
  sndQueue := h.sndQueue
  sndBuf := h.sndBuf
  stream := h.stream
  mtu := h.mtu
  mss := h.mss
  nocwnd := h.nocwnd
  room := h.room

def Ikcpcb.waiting (kcp : Ikcpcb) : Ikcpcb := queueSnd kcp [{ data := [0] }]

theorem ReadyToSend.send_one (h : ReadyToSend kcp) : (ikcpSend kcp [0] 1).1 = kcp.waiting := by
  have hneg : ¬ (1 : Int) < 0 := by omega
  have hfew : ¬ 1 ≥ ikcpWndRcv.toNat := by decide
  have hcount : sendCount kcp 1 = 1 := if_pos h.mss
  have hsize : (if 1 > kcp.mss.toNat then kcp.mss.toNat else 1) = 1 :=
    if_neg (Nat.not_lt.mpr h.mss)
  have hstream : ¬ kcp.stream ≠ 0 := not_not_intro h.stream
  unfold ikcpSend
  simp only [if_neg hneg, hstream, if_false, false_and, Int.toNat_one, hcount, if_neg hfew,
    Nat.one_ne_zero, sendLoop, if_pos h.stream, hsize]
  rfl

theorem ReadyToSend.send (h : ReadyToSend kcp) (hinit : w.initialized = true) (x : Hidden)
    (current : UInt32) :
    ((w.holding (kcp.unread x current)).send (some [0]) 1).1
      = w.holding (kcp.waiting.unread x current) := by
  have hgo : ¬ (w.initialized = false ∨ some [(0 : UInt8)] = none ∨ (1 : UInt64) = 0) := by
    rintro (h | h | h)
    · rw [hinit] at h
      cases h
    · cases h
    · cases h
  have hsend : ((w.holding (kcp.unread x current)).send (some [0]) 1).1
      = w.holding (ikcpSend (kcp.unread x current) [0] 1).1 := by
    unfold KCPWrapper.send KCPWrapper.holding
    rw [if_neg hgo]
    rfl
  rw [hsend, ikcpSend_unread, h.send_one]

theorem ReadyToSend.flush_waiting (h : ReadyToSend kcp) (current ts : UInt32) {x : Hidden}
    (hx : x.updated ≠ 0) : (ikcpFlush ((kcp.waiting.clocked current ts).hiding x)).2 ≠ [] := by
  have hqueue : ((kcp.waiting.clocked current ts).hiding x).sndQueue = [{ data := [0] }] := by
    show kcp.sndQueue ++ [{ data := [0] }] = _
    rw [h.sndQueue, List.nil_append]
  refine ikcpFlush_sends ⟨?_, ?_, ?_⟩ hx ?_ ?_
  · exact Nat.le_of_succ_le h.mtu
  · intro s hs
    rw [hqueue] at hs
    obtain rfl := List.mem_singleton.mp hs
    exact h.mtu
  · intro s hs
    have hnil : s ∈ kcp.sndBuf := hs
    rw [h.sndBuf] at hnil
    cases hnil
  · rw [hqueue]
    exact List.cons_ne_nil _ _
  · unfold flushCwnd
    have hnocwnd : ((kcp.waiting.clocked current ts).hiding x).nocwnd ≠ 0 := h.nocwnd
    simp only [if_neg hnocwnd]
    exact h.room

theorem ReadyToSend.first_waiting (h : ReadyToSend kcp) (hstart : Unstarted kcp) (x : Hidden)
    (current iclock : UInt32) :
    (ikcpUpdate (kcp.waiting.unread x current) iclock).2 = [] ↔
      firstFlush (x.updated = 0) iclock = none := by
  have hstart' : Unstarted kcp.waiting := ⟨hstart.tsFlush, hstart.interval, hstart.nocwnd⟩
  rw [ikcpUpdate_first hstart']
  cases firstFlush (x.updated = 0) iclock with
  | none => exact iff_of_true rfl rfl
  | some ts =>
      refine iff_of_false (h.flush_waiting iclock ts x.marked_updated) fun heq => ?_
      cases heq

theorem ReadyToSend.later_waiting (h : ReadyToSend kcp) {x : Hidden} (hx : x.updated ≠ 0)
    (current iclock : UInt32) (hnear : -10000 ≤ itimediff iclock kcp.tsFlush)
    (hsoon : itimediff iclock kcp.tsFlush < 10000) :
    (ikcpUpdate (kcp.waiting.unread x current) iclock).2 = [] ↔
      itimediff iclock kcp.tsFlush < 0 := by
  have hclock : restartClock (updateClock (kcp.waiting.unread x current) iclock)
      = (kcp.waiting.clocked iclock kcp.tsFlush).hiding x := by
    have hupdated : (kcp.waiting.unread x current).updated ≠ 0 := hx
    have hjump : clockJumped (kcp.waiting.clocked iclock kcp.tsFlush) = false := by
      refine Bool.or_eq_false_iff.mpr ⟨decide_eq_false ?_, decide_eq_false ?_⟩
      · exact Int.not_le.mpr hsoon
      · exact Int.not_lt.mpr hnear
    rw [updateClock, if_neg hupdated]
    show restartClock ((kcp.waiting.clocked iclock kcp.tsFlush).hiding x) = _
    rw [restartClock_hiding, restartClock, if_neg (by rw [hjump]; exact Bool.false_ne_true)]
  rw [update_clocked hclock]
  by_cases hdue : itimediff iclock kcp.tsFlush ≥ 0
  · rw [if_pos hdue]
    exact iff_of_false (h.flush_waiting iclock _ hx) (Int.not_lt.mpr hdue)
  · rw [if_neg hdue]
    exact iff_of_true rfl (Int.not_le.mp hdue)

theorem ReadyToSend.update_first (h : ReadyToSend kcp) (hstart : Unstarted kcp) (x : Hidden)
    (current : UInt32) {iclock ts : UInt32} (hfirst : firstFlush (x.updated = 0) iclock = some ts) :
    ∃ y : Hidden, y.updated ≠ 0 ∧
      ikcpUpdate (kcp.unread x current) iclock = ((kcp.clocked iclock ts).hiding y, []) := by
  have hidle : NothingToSend ((kcp.clocked iclock ts).hiding x.marked) :=
    ⟨h.acklist, h.rmtWnd, h.tsProbe, h.probeWait, h.probe, h.sndQueue, h.sndBuf⟩
  obtain ⟨y, hy, hflush⟩ := hidle.flush
  refine ⟨y, fun h => x.marked_updated (hy.symm.trans h), ?_⟩
  rw [ikcpUpdate_first hstart, hfirst]
  exact hflush

theorem ReadyToSend.observe_send (h : ReadyToSend kcp) (hinit : w.initialized = true) (x : Hidden)
    (current iclock : UInt32) :
    ((w.holding (kcp.unread x current)).observe [.send (some [0]) 1, .update iclock []]).2
      = [{}, { sent := (ikcpUpdate (kcp.waiting.unread x current) iclock).2 }] := by
  simp only [KCPWrapper.observe, KCPWrapper.observeCall, h.send hinit,
    KCPWrapper.update_holding hinit, handleReceive, ite_self]

theorem ReadyToSend.observe_update (h : ReadyToSend kcp) (hstart : Unstarted kcp)
    (hinit : w.initialized = true)
    (x : Hidden) (current : UInt32) {iclock ts : UInt32}
    (hfirst : firstFlush (x.updated = 0) iclock = some ts) (later : UInt32)
    (hnear : -10000 ≤ itimediff later ts) (hsoon : itimediff later ts < 10000) :
    ∃ sent, ((w.holding (kcp.unread x current)).observe
        [.update iclock [], .send (some [0]) 1, .update later []]).2 = [{}, {}, { sent := sent }] ∧
      (sent = [] ↔ itimediff later ts < 0) := by
  obtain ⟨y, hy, hupdate⟩ := h.update_first hstart x current hfirst
  have hready := h.clocked iclock ts
  refine ⟨_, ?_, hready.later_waiting hy iclock later hnear hsoon⟩
  rw [KCPWrapper.observe_cons]
  simp only [KCPWrapper.observeCall, KCPWrapper.update_holding hinit, hupdate, handleReceive,
    ite_self]
  exact congrArg ({} :: ·) (hready.observe_send hinit y iclock later)

/-- For which readings the first update does not depend on `updated`. -/
theorem firstFlush_eq_iff (iclock : UInt32) :
    firstFlush true iclock = firstFlush false iclock ↔
      itimediff iclock ikcpInterval < -10000 ∨ itimediff iclock ikcpInterval = 0 ∨
        10 ≤ itimediff iclock ikcpInterval := by
  have htrue : firstFlush true iclock = some (iclock + 10) := by
    simp only [firstFlush, true_or, if_true]
  have hfalse : firstFlush false iclock =
      if itimediff iclock ikcpInterval < -10000 ∨ itimediff iclock ikcpInterval ≥ 10 then
        some (iclock + 10)
      else if itimediff iclock ikcpInterval ≥ 0 then some (ikcpInterval + 10) else none := by
    simp only [firstFlush, Bool.false_eq_true, false_or]
  rw [htrue, hfalse]
  by_cases hfar : itimediff iclock ikcpInterval < -10000 ∨ itimediff iclock ikcpInterval ≥ 10
  · rw [if_pos hfar]
    exact iff_of_true rfl (by omega)
  · rw [if_neg hfar]
    by_cases hdue : itimediff iclock ikcpInterval ≥ 0
    · have hsame : iclock = ikcpInterval ↔ itimediff iclock ikcpInterval = 0 := by
        rw [itimediff_of_nonneg hdue, Int.natCast_eq_zero, snOffset_eq_zero]
      rw [if_pos hdue, Option.some.injEq, UInt32.add_left_inj, hsame]
      omega
    · rw [if_neg hdue]
      refine iff_of_false (fun h => by cases h) (by omega)

theorem itimediff_behind {iclock : UInt32} (h : 0 ≤ itimediff iclock ikcpInterval)
    (hlt : itimediff iclock ikcpInterval < 10) :
    itimediff (ikcpInterval + 10) (iclock + 10) = -itimediff iclock ikcpInterval := by
  have heq : iclock + 10 = ikcpInterval + 10 + (iclock - ikcpInterval) := by
    rw [UInt32.add_assoc, UInt32.add_comm 10, ← UInt32.add_assoc, UInt32.add_comm ikcpInterval,
      UInt32.sub_add_cancel]
  have hoff := itimediff_of_nonneg h
  rw [snOffset] at hoff
  have hself := itimediff_self (ikcpInterval + 10)
  rw [heq, itimediff_add_right (by omega) (by omega), hself, hoff, Int.zero_sub]

/-- Where the first update does depend on it, what follows shows it. -/
theorem ReadyToSend.tells (h : ReadyToSend kcp) (hstart : Unstarted kcp)
    (hinit : w.initialized = true)
    {x x' : Hidden} (hx : x.updated = 0) (hx' : x'.updated ≠ 0) (current current' : UInt32)
    {iclock : UInt32} (hdiffer : firstFlush true iclock ≠ firstFlush false iclock) :
    ∃ cs, firstReading cs = some iclock ∧
      ((w.holding (kcp.unread x current)).observe cs).2 ≠
        ((w.holding (kcp.unread x' current')).observe cs).2 := by
  have hzero : decide (x.updated = 0) = true := decide_eq_true hx
  have hzero' : decide (x'.updated = 0) = false := decide_eq_false hx'
  have hfirst : firstFlush (x.updated = 0) iclock = some (iclock + 10) := by
    simp only [firstFlush, hzero, true_or, if_true]
  have hmiss := (firstFlush_eq_iff iclock).not.mp hdiffer
  have hnear : ¬ (decide (x'.updated = 0) = true ∨ itimediff iclock ikcpInterval < -10000 ∨
      itimediff iclock ikcpInterval ≥ 10) := by
    rw [hzero']
    rintro (h | h | h)
    · cases h
    · exact hmiss (Or.inl h)
    · exact hmiss (Or.inr (Or.inr h))
  by_cases hdue : itimediff iclock ikcpInterval ≥ 0
  · have hfirst' : firstFlush (x'.updated = 0) iclock = some (ikcpInterval + 10) := by
      simp only [firstFlush, if_neg hnear, if_pos hdue]
    have hlate := itimediff_behind hdue (by omega)
    have hself := itimediff_self (ikcpInterval + 10)
    obtain ⟨sent, hrun, hsent⟩ := h.observe_update hstart hinit x current hfirst
      (ikcpInterval + 10) (by omega) (by omega)
    obtain ⟨sent', hrun', hsent'⟩ := h.observe_update hstart hinit x' current' hfirst'
      (ikcpInterval + 10) (by omega) (by omega)
    refine ⟨[.update iclock [], .send (some [0]) 1, .update (ikcpInterval + 10) []], rfl, ?_⟩
    intro heq
    rw [hrun, hrun'] at heq
    simp only [List.cons.injEq, Observed.mk.injEq, true_and, and_true] at heq
    rw [heq, hsent'] at hsent
    omega
  · have hfirst' : firstFlush (x'.updated = 0) iclock = none := by
      simp only [firstFlush, if_neg hnear, if_neg hdue]
    refine ⟨[.send (some [0]) 1, .update iclock []], rfl, ?_⟩
    rw [h.observe_send hinit, h.observe_send hinit]
    intro heq
    simp only [List.cons.injEq, Observed.mk.injEq, true_and, and_true] at heq
    rw [(h.first_waiting hstart x' current' iclock).mpr hfirst', h.first_waiting hstart,
      hfirst] at heq
    cases heq

/-! ## A new wrapper -/

/-- A new block, up to the fields that are left over. -/
def newKcp (conv : UInt32) : Ikcpcb := freshKcp conv ⟨0, 0, 0⟩

/-- The hidden ones among the fields that are left over. -/
def Leftover.hidden (mem : Leftover) : Hidden := ⟨mem.ssthresh, 0, 0, mem.updated⟩

theorem freshKcp_unread (conv : UInt32) (mem : Leftover) :
    freshKcp conv mem = (newKcp conv).unread mem.hidden mem.current := by
  rw [newKcp, freshKcp_eq, freshKcp_eq]
  rfl

theorem newKcp_unstarted (conv : UInt32) : Unstarted (newKcp conv) := by
  rw [newKcp, freshKcp_eq]
  exact ⟨rfl, rfl, fun h => by cases h⟩

theorem newKcp_ready (conv : UInt32) : ReadyToSend (newKcp conv) := by
  have hroom : itimediff 0 (0 + 128) < 0 := by decide
  have hmtu : ikcpOverhead + 1 ≤ (1400 : UInt32).toNat := by decide
  have hmss : 1 ≤ (1376 : UInt32).toNat := by decide
  rw [newKcp, freshKcp_eq]
  refine ⟨⟨rfl, ?_, rfl, rfl, rfl, rfl, rfl⟩, rfl, ?_, ?_, ?_, hroom⟩
  · intro h
    cases h
  · exact hmtu
  · exact hmss
  · intro h
    cases h

theorem KCPWrapper.init_alloc (w : KCPWrapper) (env : InitEnv) (ip : Bytes) (port : UInt16)
    (conv : UInt32) :
    (∃ v, ∀ alloc, w.init { env with alloc := alloc } ip port conv = (v, false)) ∨
      ∃ base : KCPWrapper, ∀ alloc,
        w.init { env with alloc := alloc } ip port conv = base.createKcp alloc conv := by
  unfold KCPWrapper.init
  simp only
  split
  · exact Or.inl ⟨_, fun _ => rfl⟩
  · split
    · exact Or.inl ⟨_, fun _ => rfl⟩
    · split
      · exact Or.inl ⟨_, fun _ => rfl⟩
      · split
        · exact Or.inl ⟨_, fun _ => rfl⟩
        · split
          · exact Or.inl ⟨_, fun _ => rfl⟩
          · unfold KCPWrapper.joinGroup
            split
            · exact Or.inl ⟨_, fun _ => rfl⟩
            · simp only
              split
              · exact Or.inl ⟨_, fun _ => rfl⟩
              · split
                · exact Or.inl ⟨_, fun _ => rfl⟩
                · exact Or.inr ⟨_, fun _ => rfl⟩

theorem init_leftover {w v : KCPWrapper} {env : InitEnv} {ip : Bytes} {port : UInt16}
    {conv : UInt32} {mem : Leftover}
    (h : w.init { env with alloc := ⟨some mem, true⟩ } ip port conv = (v, true)) :
    ∃ base : KCPWrapper, base.initialized = true ∧ ∀ mem' : Leftover,
      w.init { env with alloc := ⟨some mem', true⟩ } ip port conv
        = (base.holding (freshKcp (actualConv conv) mem'), true) := by
  rcases w.init_alloc env ip port conv with ⟨v', hfail⟩ | ⟨base, hcreate⟩
  · rw [hfail] at h
    cases h
  · exact ⟨{ base with initialized := true }, rfl, fun mem' => hcreate _⟩

/-- Whichever of the two had `updated` at 0. -/
theorem ReadyToSend.tells_either (h : ReadyToSend kcp) (hstart : Unstarted kcp)
    (hinit : w.initialized = true)
    (x x' : Hidden) (hx : ¬ (x.updated = 0 ↔ x'.updated = 0)) (current current' : UInt32)
    {iclock : UInt32} (hdiffer : firstFlush true iclock ≠ firstFlush false iclock) :
    ∃ cs, firstReading cs = some iclock ∧
      ((w.holding (kcp.unread x current)).observe cs).2 ≠
        ((w.holding (kcp.unread x' current')).observe cs).2 := by
  by_cases hzero : x.updated = 0
  · have hzero' : x'.updated ≠ 0 := fun h0 => hx (iff_of_true hzero h0)
    exact h.tells hstart hinit hzero hzero' current current' hdiffer
  · have hzero' : x'.updated = 0 := by
      by_contra hne
      exact hx (iff_of_false hzero hne)
    obtain ⟨cs, hread, hne⟩ := h.tells hstart hinit hzero' hzero current' current hdiffer
    exact ⟨cs, hread, hne.symm⟩

theorem firstFlush_const {iclock : UInt32} (h : firstFlush true iclock = firstFlush false iclock) :
    ∀ zero zero', firstFlush zero iclock = firstFlush zero' iclock
  | true, true => rfl
  | true, false => h
  | false, true => h.symm
  | false, false => rfl

/-- Where the first update does not depend on `updated`, nothing that follows shows it. -/
theorem Unstarted.alike (h : Unstarted kcp) (hinit : w.initialized = true) (cs : List Call)
    (iclock : UInt32) (hread : ∀ c, firstReading cs = some c → c = iclock) {x x' : Hidden}
    (hfirst : firstFlush (x.updated = 0) iclock = firstFlush (x'.updated = 0) iclock)
    (current current' : UInt32) :
    ((w.holding (kcp.unread x current)).observe cs).2 =
      ((w.holding (kcp.unread x' current')).observe cs).2 := by
  obtain ⟨seen, hseen⟩ := observe_unread hinit cs h iclock hread
    (firstFlush (x'.updated = 0) iclock)
  rw [hseen x current hfirst, hseen x' current' rfl]

/-- Two wrappers from the same `init`, except for what `malloc` left behind: they
behave alike in every run exactly if both leftovers of `updated` are 0 or neither
is; and in every run whose first update is at the reading `iclock`, exactly if
that is so or the reading is the 100 of `ts_flush`, at least 10 past it or more
than 10000 before it. -/
theorem alike_iff {w v v' : KCPWrapper} {env : InitEnv} {ip : Bytes} {port : UInt16}
    {conv : UInt32} {mem mem' : Leftover}
    (hv : w.init { env with alloc := ⟨some mem, true⟩ } ip port conv = (v, true))
    (hv' : w.init { env with alloc := ⟨some mem', true⟩ } ip port conv = (v', true)) :
    ((∀ cs, (v.observe cs).2 = (v'.observe cs).2) ↔ (mem.updated = 0 ↔ mem'.updated = 0)) ∧
      ∀ iclock, (∀ cs, firstReading cs = some iclock → (v.observe cs).2 = (v'.observe cs).2) ↔
        ((mem.updated = 0 ↔ mem'.updated = 0) ∨ itimediff iclock ikcpInterval < -10000 ∨
          itimediff iclock ikcpInterval = 0 ∨ 10 ≤ itimediff iclock ikcpInterval) := by
  obtain ⟨base, hinit, hheld⟩ := init_leftover hv
  obtain rfl : base.holding (freshKcp (actualConv conv) mem) = v :=
    congrArg Prod.fst ((hheld mem).symm.trans hv)
  obtain rfl : base.holding (freshKcp (actualConv conv) mem') = v' :=
    congrArg Prod.fst ((hheld mem').symm.trans hv')
  have hstart := newKcp_unstarted (actualConv conv)
  have hready := newKcp_ready (actualConv conv)
  have hsame : (mem.updated = 0 ↔ mem'.updated = 0) →
      decide (mem.hidden.updated = 0) = decide (mem'.hidden.updated = 0) := decide_eq_decide.mpr
  simp only [freshKcp_unread]
  refine ⟨⟨fun h => ?_, fun h cs => ?_⟩, fun iclock => ⟨fun h => ?_, fun h cs hread => ?_⟩⟩
  · by_contra hne
    have hbefore : firstFlush true 99 ≠ firstFlush false 99 := by decide
    obtain ⟨cs, -, hdiffer⟩ := hready.tells_either hstart hinit mem.hidden mem'.hidden hne
      mem.current mem'.current hbefore
    exact hdiffer (h cs)
  · refine hstart.alike hinit cs ((firstReading cs).getD 0) (fun c hc => ?_) (by rw [hsame h]) ..
    rw [hc, Option.getD_some]
  · by_contra hne
    obtain ⟨hupdated, hclock⟩ := not_or.mp hne
    obtain ⟨cs, hread, hdiffer⟩ := hready.tells_either hstart hinit mem.hidden mem'.hidden hupdated
      mem.current mem'.current ((firstFlush_eq_iff iclock).not.mpr hclock)
    exact hdiffer (h cs hread)
  · refine hstart.alike hinit cs iclock (fun c hc => Option.some.inj (hc.symm.trans hread)) ?_ ..
    rcases h with h | h
    · rw [hsame h]
    · exact firstFlush_const ((firstFlush_eq_iff iclock).mpr h) _ _

/-- The receiver of `main`, with this memory from `malloc`. -/
def leftoverWrapper (mem : Leftover) : KCPWrapper :=
  (KCPWrapper.init {} { InitEnv.granted with alloc := ⟨some mem, true⟩ } mainGroup 12345 mainConv).1

theorem leftoverWrapper_init (mem : Leftover) :
    KCPWrapper.init {} { InitEnv.granted with alloc := ⟨some mem, true⟩ } mainGroup 12345 mainConv
      = (leftoverWrapper mem, true) := by
  have hinit : KCPWrapper.init {} { InitEnv.granted with alloc := ⟨some ⟨0, 0, 0⟩, true⟩ } mainGroup
      12345 mainConv = (receiverWrapper, true) := receiverWrapper_init
  obtain ⟨base, -, hheld⟩ := init_leftover hinit
  have htrue := congrArg Prod.snd (hheld mem)
  exact Prod.ext rfl htrue

theorem alike_iff_main :
    ((∀ cs, ((leftoverWrapper ⟨7, 8, 0⟩).observe cs).2 = ((leftoverWrapper ⟨9, 9, 0⟩).observe cs).2)
        ↔ ((0 : UInt32) = 0 ↔ (0 : UInt32) = 0)) ∧
      ∀ iclock, (∀ cs, firstReading cs = some iclock →
          ((leftoverWrapper ⟨7, 8, 0⟩).observe cs).2 = ((leftoverWrapper ⟨9, 9, 0⟩).observe cs).2) ↔
        (((0 : UInt32) = 0 ↔ (0 : UInt32) = 0) ∨ itimediff iclock ikcpInterval < -10000 ∨
          itimediff iclock ikcpInterval = 0 ∨ 10 ≤ itimediff iclock ikcpInterval) :=
  alike_iff (leftoverWrapper_init ⟨7, 8, 0⟩) (leftoverWrapper_init ⟨9, 9, 0⟩)

/-- A clock 1 before `ts_flush`: the byte leaves with the first update if `updated`
was 0, and otherwise not. -/
theorem leftover_updated_shows :
    ((leftoverWrapper ⟨0, 0, 0⟩).observe [.send (some [0]) 1, .update 99 []]).2 ≠
      ((leftoverWrapper ⟨0, 0, 1⟩).observe [.send (some [0]) 1, .update 99 []]).2 := by
  decide +kernel

end CppDemos
