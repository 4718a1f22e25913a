import CppDemos.Kcp.Recv

/-!
# The send side of ikcp.c: queueing

`ikcp_send` cuts a buffer into segments and appends them to `snd_queue`; it
transmits nothing. In message mode (`stream` is 0, the only mode this
repository uses) the segments it appends are exactly the pieces of the message
in the sense of `Fragment`, which is what `ikcpSend_spec` says.
-/

namespace CppDemos

open Fragment (Frag)

/-! ## Definitions -/

/-- Streaming mode: fill the last queued segment up. Returns the block, the
advanced buffer, what is left of `len`, and `sent`. -/
def extendLast (kcp : Ikcpcb) (buffer : Bytes) (len : Nat) : Ikcpcb × Bytes × Nat × Nat :=
  match kcp.sndQueue.getLast? with
  | none => (kcp, buffer, len, 0)
  | some old =>
      if old.len < kcp.mss.toNat then
        let capacity := kcp.mss.toNat - old.len
        let extend := if len < capacity then len else capacity
        let seg : IkcpSeg := { data := old.data ++ buffer.take extend, frg := 0 }
        ({ kcp with sndQueue := kcp.sndQueue.dropLast ++ [seg] },
          buffer.drop extend, len - extend, extend)
      else (kcp, buffer, len, 0)

/-- The fragment loop, by the number of segments still to make. -/
def sendLoop (kcp : Ikcpcb) : Nat → Bytes → Nat → Nat → Ikcpcb × Nat
  | 0, _, _, sent => (kcp, sent)
  | n + 1, buffer, len, sent =>
      let size := if len > kcp.mss.toNat then kcp.mss.toNat else len
      let seg : IkcpSeg :=
        { data := buffer.take size, frg := if kcp.stream = 0 then UInt32.ofNat n else 0 }
      sendLoop { kcp with sndQueue := kcp.sndQueue ++ [seg], nsndQue := kcp.nsndQue + 1 }
        n (buffer.drop size) (len - size) (sent + size)

def sendCount (kcp : Ikcpcb) (len : Nat) : Nat :=
  if len ≤ kcp.mss.toNat then 1 else ((UInt32.ofNat len + kcp.mss - 1) / kcp.mss).toNat

/-- `ikcp_send`: the new block and the return value. `buffer` is what the
pointer argument points to and holds at least `len` bytes. -/
def ikcpSend (kcp : Ikcpcb) (buffer : Bytes) (len : Int) : Ikcpcb × Int :=
  if len < 0 then (kcp, -1)
  else
    let (kcp, buffer, len, sent) :=
      if kcp.stream ≠ 0 then extendLast kcp buffer len.toNat
      else (kcp, buffer, len.toNat, 0)
    if kcp.stream ≠ 0 ∧ len = 0 then (kcp, sent)
    else
      let count := sendCount kcp len
      if count ≥ ikcpWndRcv.toNat then
        if kcp.stream ≠ 0 ∧ sent > 0 then (kcp, sent) else (kcp, -2)
      else
        let count := if count = 0 then 1 else count
        let (kcp, sent) := sendLoop kcp count buffer len sent
        (kcp, sent)

/-! ## What is queued -/

def queueSnd (kcp : Ikcpcb) (segs : List IkcpSeg) : Ikcpcb :=
  { kcp with sndQueue := kcp.sndQueue ++ segs, nsndQue := kcp.nsndQue + segs.length }

theorem queueSnd_queueSnd (kcp : Ikcpcb) (xs ys : List IkcpSeg) :
    queueSnd (queueSnd kcp xs) ys = queueSnd kcp (xs ++ ys) := by
  simp [queueSnd, Nat.add_assoc]

theorem sendLoop_spec :
    ∀ (n : Nat) (kcp : Ikcpcb) (buffer : Bytes) (len sent : Nat),
      kcp.stream = 0 → n < 2 ^ 32 → len ≤ buffer.length → len ≤ kcp.mss.toNat * n →
      ∃ segs, sendLoop kcp n buffer len sent = (queueSnd kcp segs, sent + len) ∧
        segs.map IkcpSeg.frag = Fragment.split kcp.mss.toNat n (buffer.take len)
  | 0, kcp, buffer, len, sent, _, _, _, hroom => by
      obtain rfl : len = 0 := by simpa using hroom
      exact ⟨[], by simp [sendLoop, queueSnd], rfl⟩
  | n + 1, kcp, buffer, len, sent, hstream, hn, hlen, hroom => by
      let size := if len > kcp.mss.toNat then kcp.mss.toNat else len
      let seg : IkcpSeg :=
        { data := buffer.take size, frg := if kcp.stream = 0 then UInt32.ofNat n else 0 }
      have hsize : size = min kcp.mss.toNat len := by
        simp only [size]
        split <;> omega
      have hle : size ≤ len := by omega
      rw [Nat.mul_succ] at hroom
      obtain ⟨segs, heq, hfrag⟩ := sendLoop_spec n (queueSnd kcp [seg])
        (buffer.drop size) (len - size) (sent + size) hstream (by omega)
        (by rw [List.length_drop]; omega) (by simp only [queueSnd]; omega)
      refine ⟨seg :: segs, ?_, ?_⟩
      · rw [sendLoop]
        refine heq.trans ?_
        rw [queueSnd_queueSnd, List.singleton_append]
        congr 1
        omega
      · rw [List.map_cons, hfrag, Fragment.split]
        congr 1
        · simp only [IkcpSeg.frag, seg, if_pos hstream, List.take_take, UInt32.toNat_ofNat']
          rw [Nat.mod_eq_of_lt (by omega), hsize]
        · rw [List.drop_take, hsize]
          simp only [queueSnd]
          congr 1
          by_cases hfull : kcp.mss.toNat ≤ len
          · rw [min_eq_left hfull]
          · -- a short last piece: nothing is left on either side
            rw [min_eq_right (by omega), Nat.sub_self, List.take_zero,
              show len - kcp.mss.toNat = 0 by omega, List.take_zero]

theorem sendCount_eq {kcp : Ikcpcb} {len : Nat} (hmss : kcp.mss.toNat < 2 ^ 31)
    (hpos : 0 < kcp.mss.toNat) (hlen : len < 2 ^ 31) :
    sendCount kcp len = Fragment.count kcp.mss.toNat len := by
  unfold sendCount Fragment.count
  split
  · rfl
  · have h1 : (1 : UInt32) ≤ UInt32.ofNat len + kcp.mss := by
      rw [UInt32.le_iff_toNat_le, UInt32.toNat_add, UInt32.toNat_ofNat']
      simp
      omega
    rw [UInt32.toNat_div, UInt32.toNat_sub_of_le _ _ h1, UInt32.toNat_add, UInt32.toNat_ofNat']
    congr 1
    simp
    omega

/-- `ikcp_send` in message mode: all pieces of the message are queued, or, at
the fragment limit, nothing is. -/
theorem ikcpSend_spec (kcp : Ikcpcb) (buffer : Bytes) (len : Nat)
    (hstream : kcp.stream = 0) (hmss : kcp.mss.toNat < 2 ^ 31) (hpos : 0 < kcp.mss.toNat)
    (hlen : len < 2 ^ 31) (hbuf : len ≤ buffer.length) :
    if Fragment.count kcp.mss.toNat len < ikcpWndRcv.toNat then
      ∃ segs, ikcpSend kcp buffer len = (queueSnd kcp segs, (len : Int)) ∧
        segs.map IkcpSeg.frag = Fragment.fragments kcp.mss.toNat (buffer.take len)
    else ikcpSend kcp buffer len = (kcp, -2) := by
  have hcount := sendCount_eq hmss hpos hlen
  have hcpos := Fragment.count_pos hpos len
  unfold ikcpSend
  simp only [hstream, if_neg (Int.not_lt.mpr (Int.natCast_nonneg len)), Int.toNat_natCast,
    ne_eq, not_true_eq_false, false_and, if_false, hcount, hcpos.ne']
  split
  · rename_i hlt
    have hw : ikcpWndRcv.toNat = 128 := rfl
    obtain ⟨segs, heq, hfrag⟩ := sendLoop_spec (Fragment.count kcp.mss.toNat len) kcp
      buffer len 0 hstream (by omega) hbuf (Fragment.le_mul_count hpos len)
    refine ⟨segs, ?_, ?_⟩
    · rw [if_neg (by omega), heq, Nat.zero_add]
    · rw [hfrag, Fragment.fragments, List.length_take, min_eq_left hbuf]
  · rw [if_pos (by omega)]

theorem sendLoop_queue :
    ∀ (n : Nat) (kcp : Ikcpcb) (buffer : Bytes) (len sent : Nat), ∃ queue count,
      (sendLoop kcp n buffer len sent).1 = { kcp with sndQueue := queue, nsndQue := count }
  | 0, _, _, _, _ => ⟨_, _, rfl⟩
  | n + 1, kcp, buffer, len, sent => by
      let size := if len > kcp.mss.toNat then kcp.mss.toNat else len
      let seg : IkcpSeg :=
        { data := buffer.take size, frg := if kcp.stream = 0 then UInt32.ofNat n else 0 }
      obtain ⟨queue, count, heq⟩ := sendLoop_queue n (queueSnd kcp [seg]) (buffer.drop size)
        (len - size) (sent + size)
      exact ⟨queue, count, heq⟩

theorem extendLast_queue (kcp : Ikcpcb) (buffer : Bytes) (len : Nat) :
    ∃ queue, (extendLast kcp buffer len).1 = { kcp with sndQueue := queue } := by
  unfold extendLast
  split
  · exact ⟨_, rfl⟩
  · split <;> exact ⟨_, rfl⟩

theorem ikcpSend_queue (kcp : Ikcpcb) (buffer : Bytes) (len : Int) : ∃ queue count,
    (ikcpSend kcp buffer len).1 = { kcp with sndQueue := queue, nsndQue := count } := by
  unfold ikcpSend
  split
  · exact ⟨_, _, rfl⟩
  · simp only
    generalize hst : (if kcp.stream ≠ 0 then extendLast kcp buffer len.toNat
      else (kcp, buffer, len.toNat, 0)) = st
    obtain ⟨queue, hqueue⟩ : ∃ queue, st.1 = { kcp with sndQueue := queue } := by
      rw [← hst]
      split
      · exact extendLast_queue ..
      · exact ⟨_, rfl⟩
    split
    · exact ⟨queue, _, hqueue⟩
    · split
      · split <;> exact ⟨queue, _, hqueue⟩
      · obtain ⟨queue', count, heq⟩ := sendLoop_queue
          (if sendCount st.1 st.2.2.1 = 0 then 1 else sendCount st.1 st.2.2.1)
          st.1 st.2.1 st.2.2.1 st.2.2.2
        exact ⟨queue', count, by rw [heq, hqueue]⟩

theorem ikcpSend_frame (kcp : Ikcpcb) (buffer : Bytes) (len : Int) :
    (ikcpSend kcp buffer len).1.setup = kcp.setup ∧
      (ikcpSend kcp buffer len).1.rcvSide = kcp.rcvSide ∧
      (ikcpSend kcp buffer len).1.acklist = kcp.acklist := by
  obtain ⟨queue, count, heq⟩ := ikcpSend_queue kcp buffer len
  rw [heq]
  exact ⟨rfl, rfl, rfl⟩

end CppDemos
