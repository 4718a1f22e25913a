import CppDemos.Kcp.Send
import CppDemos.Lib.Pour

/-!
# Stream mode of ikcp_send

With `stream` set, `ikcp_send` tops the last queued segment up before it makes
new ones, and every segment it makes has `frg` 0. It copies blocks, but what it
leaves behind is the queue into which the accepted bytes were put one at a time
(`Poured`): how the writer divided the bytes among its calls cannot be told from
`snd_queue` any more.
-/

namespace CppDemos

open Pour (pour Full)
open Fragment (Frag)

variable {kcp kcp' : Ikcpcb} {buffer xs ys : Bytes} {len : Nat}

/-! ## Definitions -/

/-- The payloads that wait in `snd_queue`. -/
def Ikcpcb.payloads (kcp : Ikcpcb) : List Bytes := kcp.sndQueue.map IkcpSeg.data

def Ikcpcb.room (kcp : Ikcpcb) : Nat :=
  match kcp.sndQueue.getLast? with
  | none => 0
  | some old => kcp.mss.toNat - old.len

/-- A series of `ikcp_send` calls: the block after the last one, and the bytes
they accepted, of each buffer as many as its call returned. -/
def sendAll (kcp : Ikcpcb) : List (Bytes × Int) → Ikcpcb × Bytes
  | [] => (kcp, [])
  | (buffer, len) :: calls =>
      let (kcp, ret) := ikcpSend kcp buffer len
      let (kcp, bytes) := sendAll kcp calls
      (kcp, buffer.take ret.toNat ++ bytes)

/-- `kcp'` is `kcp` with bytes poured into its queue: the payloads are those of
the generic pouring, all that is new or has been topped up is a message of its
own in stream mode, and `nsnd_que` has kept up with the queue. -/
structure Poured (kcp kcp' : Ikcpcb) (bytes : Bytes) : Prop where
  waiting : kcp'.payloads = pour kcp.mss.toNat kcp.payloads bytes
  whole : ∀ seg ∈ kcp'.sndQueue, seg ∈ kcp.sndQueue ∨ seg.frg = 0
  count : kcp'.nsndQue + kcp.sndQueue.length = kcp.nsndQue + kcp'.sndQueue.length
  rest : ∃ queue count, kcp' = { kcp with sndQueue := queue, nsndQue := count }

theorem Poured.refl (kcp : Ikcpcb) : Poured kcp kcp [] :=
  ⟨rfl, fun _ hseg => Or.inl hseg, rfl, ⟨_, _, rfl⟩⟩

theorem Poured.mss (h : Poured kcp kcp' xs) : kcp'.mss = kcp.mss := by
  obtain ⟨queue, count, rfl⟩ := h.rest
  rfl

theorem Poured.stream (h : Poured kcp kcp' xs) : kcp'.stream = kcp.stream := by
  obtain ⟨queue, count, rfl⟩ := h.rest
  rfl

theorem Poured.trans {mid : Ikcpcb} (h : Poured kcp mid xs)
    (h' : Poured mid kcp' ys) : Poured kcp kcp' (xs ++ ys) := by
  refine ⟨?_, fun seg hseg => ?_, ?_, ?_⟩
  · rw [Pour.pour_append, ← h.waiting, ← h.mss, h'.waiting]
  · exact (h'.whole seg hseg).elim (h.whole seg) Or.inr
  · have h1 := h.count
    have h2 := h'.count
    omega
  · obtain ⟨queue, count, rfl⟩ := h.rest
    obtain ⟨queue', count', rfl⟩ := h'.rest
    exact ⟨queue', count', rfl⟩

/-! ## The two parts of the function -/

/-- Topping up pours what the last segment has room for. -/
theorem extendLast_poured (kcp : Ikcpcb) (hlen : len ≤ buffer.length) :
    ∃ kcp', extendLast kcp buffer len
        = (kcp', buffer.drop (min len kcp.room), len - min len kcp.room, min len kcp.room) ∧
      Poured kcp kcp' (buffer.take (min len kcp.room)) ∧
      (kcp.room < len → Full kcp.mss.toNat kcp'.payloads) ∧ (kcp.room = 0 → kcp' = kcp) := by
  rcases List.eq_nil_or_concat kcp.sndQueue with hnil | ⟨front, old, hqueue⟩
  · have hroom : kcp.room = 0 := by simp [Ikcpcb.room, hnil]
    refine ⟨kcp, by simp [extendLast, hnil, hroom], ?_, fun _ => ?_, fun _ => rfl⟩
    · rw [hroom, Nat.min_zero, List.take_zero]
      exact Poured.refl kcp
    · simp [Full, Ikcpcb.payloads, hnil]
  · rw [List.concat_eq_append] at hqueue
    have hlast : kcp.sndQueue.getLast? = some old := by simp [hqueue]
    have hroom : kcp.room = kcp.mss.toNat - old.len := by simp [Ikcpcb.room, hlast]
    have hwaiting : kcp.payloads = front.map IkcpSeg.data ++ [old.data] := by
      simp [Ikcpcb.payloads, hqueue]
    by_cases hfit : old.len < kcp.mss.toNat
    · have hextend : (if len < kcp.room then len else kcp.room) = min len kcp.room := by
        split <;> omega
      let seg : IkcpSeg := { data := old.data ++ buffer.take (min len kcp.room), frg := 0 }
      have hfilled : seg.data.length = old.data.length + (buffer.take (min len kcp.room)).length :=
        List.length_append
      have hroomy : old.data.length + (buffer.take (min len kcp.room)).length ≤ kcp.mss.toNat := by
        rw [List.length_take]
        simp only [IkcpSeg.len] at hfit hroom
        omega
      refine ⟨{ kcp with sndQueue := front ++ [seg] }, ?_, ⟨?_, ?_, ?_, ⟨_, _, rfl⟩⟩, ?_, ?_⟩
      · simp only [extendLast, hlast, if_pos hfit, ← hroom, hextend]
        simp [hqueue, seg]
      · rw [hwaiting, Pour.pour_room _ hroomy]
        simp [Ikcpcb.payloads, seg]
      · intro s hs
        rcases List.mem_append.mp hs with hs | hs
        · exact Or.inl (by simp [hqueue, hs])
        · exact Or.inr (by rw [List.mem_singleton.mp hs])
      · simp [hqueue]
      · intro hlt
        have hfull : kcp.mss.toNat ≤ seg.data.length := by
          rw [hfilled, List.length_take]
          simp only [IkcpSeg.len] at hroom
          omega
        simpa [Ikcpcb.payloads] using Pour.full_concat hfull
      · omega
    · have hzero : kcp.room = 0 := by omega
      refine ⟨kcp, by simp [extendLast, hlast, hfit, hzero], ?_, fun _ => ?_, fun _ => rfl⟩
      · rw [hzero, Nat.min_zero, List.take_zero]
        exact Poured.refl kcp
      · rw [hwaiting]
        exact Pour.full_concat (by simpa [IkcpSeg.len] using hfit)

/-- One round of the loop: a segment behind a full one. -/
theorem Poured.segment (hfull : Full kcp.mss.toNat kcp.payloads) (hne : xs ≠ [])
    (hlen : xs.length ≤ kcp.mss.toNat) :
    Poured kcp (queueSnd kcp [{ data := xs, frg := 0 }]) xs := by
  refine ⟨?_, fun seg hseg => ?_, ?_, ⟨_, _, rfl⟩⟩
  · rw [Pour.pour_full hfull hne hlen]
    simp [Ikcpcb.payloads, queueSnd]
  · rcases List.mem_append.mp hseg with hseg | hseg
    · exact Or.inl hseg
    · exact Or.inr (by rw [List.mem_singleton.mp hseg])
  · simp [queueSnd]
    omega

theorem sendLoop_poured :
    ∀ (n : Nat) {kcp : Ikcpcb} {buffer : Bytes} {len : Nat} (sent : Nat), kcp.stream ≠ 0 →
      Full kcp.mss.toNat kcp.payloads → len ≤ buffer.length →
      kcp.mss.toNat * n < len → len ≤ kcp.mss.toNat * (n + 1) →
      ∃ kcp', sendLoop kcp (n + 1) buffer len sent = (kcp', sent + len) ∧
        Poured kcp kcp' (buffer.take len)
  | 0, kcp, buffer, len, sent, hstream, hfull, hbuf, hlow, hhigh => by
      rw [Nat.mul_one] at hhigh
      have hshort : (buffer.take len).length = len := List.length_take_of_le hbuf
      refine ⟨_, ?_, Poured.segment hfull (List.ne_nil_of_length_pos ?_) (hshort.trans_le hhigh)⟩
      · simp [sendLoop, queueSnd, hstream, Nat.not_lt.mpr hhigh]
      · omega
  | n + 1, kcp, buffer, len, sent, hstream, hfull, hbuf, hlow, hhigh => by
      rw [Nat.mul_succ] at hlow hhigh
      have htake : (buffer.take kcp.mss.toNat).length = kcp.mss.toNat :=
        List.length_take_of_le (by omega)
      let mid := queueSnd kcp [{ data := buffer.take kcp.mss.toNat, frg := 0 }]
      have hfirst : Poured kcp mid (buffer.take kcp.mss.toNat) := by
        refine Poured.segment hfull (List.ne_nil_of_length_pos ?_) htake.le
        rw [Nat.mul_succ] at hhigh
        omega
      have hnext : Full mid.mss.toNat mid.payloads := by
        simpa [Ikcpcb.payloads, mid, queueSnd] using Pour.full_concat htake.ge
      have hdrop : (buffer.drop kcp.mss.toNat).length = buffer.length - kcp.mss.toNat :=
        List.length_drop
      obtain ⟨kcp', heq, hrest⟩ : ∃ kcp', sendLoop mid (n + 1) (buffer.drop kcp.mss.toNat)
            (len - kcp.mss.toNat) (sent + kcp.mss.toNat)
            = (kcp', sent + kcp.mss.toNat + (len - kcp.mss.toNat)) ∧
          Poured mid kcp' ((buffer.drop kcp.mss.toNat).take (len - kcp.mss.toNat)) :=
        sendLoop_poured n _ hstream hnext (by omega) (by simp only [mid, queueSnd]; omega)
          (by simp only [mid, queueSnd]; omega)
      have hsize : (if len > kcp.mss.toNat then kcp.mss.toNat else len) = kcp.mss.toNat :=
        if_pos (by omega)
      refine ⟨kcp', ?_, ?_⟩
      · rw [sendLoop, hsize, if_neg hstream]
        refine heq.trans ?_
        congr 1
        omega
      · have hbytes : buffer.take kcp.mss.toNat
            ++ (buffer.drop kcp.mss.toNat).take (len - kcp.mss.toNat) = buffer.take len := by
          rw [← List.take_add, Nat.add_sub_cancel' (by omega)]
        exact hbytes ▸ hfirst.trans hrest

/-! ## A call -/

/-- `ikcp_send` in stream mode: it takes everything, or, when what the last
segment cannot hold would make too many segments, what that segment has room
for; if that is nothing the call is refused and changes nothing. -/
theorem ikcpSend_stream (hstream : kcp.stream ≠ 0) (hpos : 0 < kcp.mss.toNat)
    (hmss : kcp.mss.toNat < 2 ^ 31) (hbuf : len ≤ buffer.length) (hlen : len < 2 ^ 31) :
    if len ≤ kcp.room ∨ Fragment.count kcp.mss.toNat (len - kcp.room) < ikcpWndRcv.toNat then
      (ikcpSend kcp buffer len).2 = len ∧ Poured kcp (ikcpSend kcp buffer len).1 (buffer.take len)
    else if kcp.room = 0 then ikcpSend kcp buffer len = (kcp, -2)
    else (ikcpSend kcp buffer len).2 = kcp.room ∧
      Poured kcp (ikcpSend kcp buffer len).1 (buffer.take kcp.room) := by
  obtain ⟨mid, heq, hmid, hfull, hsame⟩ := extendLast_poured kcp hbuf
  unfold ikcpSend
  rw [if_neg (Int.not_lt.mpr (Int.natCast_nonneg len)), Int.toNat_natCast, if_pos hstream, heq]
  simp only [hmid.stream, hstream, ne_eq, not_false_eq_true, true_and]
  rcases Nat.lt_or_ge kcp.room len with hlt | hfits
  · have hmin : min len kcp.room = kcp.room := min_eq_right hlt.le
    have hcount := sendCount_eq (hmid.mss ▸ hmss) (hmid.mss ▸ hpos)
      (show len - kcp.room < 2 ^ 31 by omega)
    have hcpos := Fragment.count_pos hpos (len - kcp.room)
    rw [hmid.mss] at hcount
    rw [hmin] at hmid ⊢
    rw [if_neg (show len - kcp.room ≠ 0 by omega), hcount, if_neg hcpos.ne']
    by_cases hfew : Fragment.count kcp.mss.toNat (len - kcp.room) < ikcpWndRcv.toNat
    · obtain ⟨n, hn⟩ := Nat.exists_eq_succ_of_ne_zero hcpos.ne'
      obtain ⟨hlow, hhigh⟩ := Pour.count_bounds hpos hn (show 0 < len - kcp.room by omega)
      obtain ⟨kcp', hloop, hpoured⟩ := sendLoop_poured n kcp.room (hmid.stream ▸ hstream)
        (hmid.mss ▸ hfull hlt) (show len - kcp.room ≤ (buffer.drop kcp.room).length by
          rw [List.length_drop]; omega) (hmid.mss ▸ hlow) (hmid.mss ▸ hhigh)
      rw [if_pos (Or.inr hfew), if_neg (Nat.not_le.mpr hfew), hn, hloop]
      refine ⟨?_, ?_⟩
      · simp only
        omega
      · have hbytes : buffer.take kcp.room ++ (buffer.drop kcp.room).take (len - kcp.room)
            = buffer.take len := by
          rw [← List.take_add, Nat.add_sub_cancel' hlt.le]
        exact hbytes ▸ hmid.trans hpoured
    · rw [if_neg (by omega), if_pos (Nat.not_lt.mp hfew)]
      by_cases hnone : kcp.room = 0
      · rw [if_pos hnone, if_neg (by omega), hsame hnone]
      · rw [if_neg hnone, if_pos (by omega)]
        exact ⟨rfl, hmid⟩
  · have hmin : min len kcp.room = len := min_eq_left hfits
    rw [if_pos (Or.inl hfits), hmin, Nat.sub_self, if_pos rfl]
    rw [hmin] at hmid
    exact ⟨rfl, hmid⟩

/-! ## Series of calls -/

/-- A call the caller may make: the pointer has the bytes it is told to read, and
their number fits an `int`. -/
def Readable (call : Bytes × Int) : Prop := call.2 ≤ call.1.length ∧ call.2 < 2 ^ 31

/-- Whatever a call returns, so many of its bytes are poured. -/
theorem ikcpSend_poured (hstream : kcp.stream ≠ 0) (hpos : 0 < kcp.mss.toNat)
    (hmss : kcp.mss.toNat < 2 ^ 31) {call : Bytes × Int} (hcall : Readable call) :
    Poured kcp (ikcpSend kcp call.1 call.2).1
      (call.1.take (ikcpSend kcp call.1 call.2).2.toNat) := by
  obtain ⟨buffer, len⟩ := call
  rcases Int.lt_or_le len 0 with hneg | hnat
  · have hrefused : ikcpSend kcp buffer len = (kcp, -1) := by simp [ikcpSend, hneg]
    simpa [hrefused] using Poured.refl kcp
  · obtain ⟨n, rfl⟩ := Int.eq_ofNat_of_zero_le hnat
    obtain ⟨hbuf, hlen⟩ : n ≤ buffer.length ∧ n < 2 ^ 31 := by
      simp only [Readable] at hcall
      omega
    have hspec := ikcpSend_stream hstream hpos hmss hbuf hlen
    split at hspec
    · obtain ⟨hret, hpoured⟩ := hspec
      simpa [hret] using hpoured
    · split at hspec
      · simpa [hspec] using Poured.refl kcp
      · obtain ⟨hret, hpoured⟩ := hspec
        simpa [hret] using hpoured

theorem sendAll_poured :
    ∀ {calls : List (Bytes × Int)} {kcp : Ikcpcb}, kcp.stream ≠ 0 → 0 < kcp.mss.toNat →
      kcp.mss.toNat < 2 ^ 31 → (∀ call ∈ calls, Readable call) →
      Poured kcp (sendAll kcp calls).1 (sendAll kcp calls).2
  | [], kcp, _, _, _, _ => Poured.refl kcp
  | call :: calls, kcp, hstream, hpos, hmss, hcalls => by
      have hfirst := ikcpSend_poured hstream hpos hmss (hcalls call (List.mem_cons_self ..))
      have hrest : Poured (ikcpSend kcp call.1 call.2).1 _ _ :=
        sendAll_poured (hfirst.stream ▸ hstream) (hfirst.mss ▸ hpos) (hfirst.mss ▸ hmss)
          fun c hc => hcalls c (List.mem_cons_of_mem _ hc)
      exact hfirst.trans hrest

/-- Calls of up to 127 segments each are accepted whole. -/
theorem sendAll_accepts :
    ∀ {calls : List (Bytes × Int)} {kcp : Ikcpcb}, kcp.stream ≠ 0 → 0 < kcp.mss.toNat →
      kcp.mss.toNat < 2 ^ 31 → (∀ call ∈ calls, Readable call) →
      (∀ call ∈ calls, call.2 ≤ (kcp.mss.toNat * 127 : Nat)) →
      (sendAll kcp calls).2 = calls.flatMap fun call => call.1.take call.2.toNat
  | [], _, _, _, _, _, _ => rfl
  | (buffer, len) :: calls, kcp, hstream, hpos, hmss, hcalls, hsmall => by
      have hcall := hcalls _ (List.mem_cons_self ..)
      have hfirst := ikcpSend_poured hstream hpos hmss hcall
      have hrest := sendAll_accepts (hfirst.stream ▸ hstream) (hfirst.mss ▸ hpos)
        (hfirst.mss ▸ hmss) (fun c hc => hcalls c (List.mem_cons_of_mem _ hc))
        fun c hc => hfirst.mss ▸ hsmall c (List.mem_cons_of_mem _ hc)
      have hret : (ikcpSend kcp buffer len).2.toNat = len.toNat := by
        rcases Int.lt_or_le len 0 with hneg | hnat
        · simp [ikcpSend, hneg]
          omega
        · obtain ⟨n, rfl⟩ := Int.eq_ofNat_of_zero_le hnat
          have hn : n ≤ kcp.mss.toNat * 127 := Int.ofNat_le.mp (hsmall _ (List.mem_cons_self ..))
          obtain ⟨hbuf, hlen⟩ : n ≤ buffer.length ∧ n < 2 ^ 31 := by
            simp only [Readable] at hcall
            omega
          have hcount : Fragment.count kcp.mss.toNat (n - kcp.room) ≤ 127 :=
            (Fragment.count_le_iff hpos (by omega) _).mpr (by omega)
          have hspec := ikcpSend_stream hstream hpos hmss hbuf hlen
          have hfew : Fragment.count kcp.mss.toNat (n - kcp.room) < ikcpWndRcv.toNat :=
            Nat.lt_succ_of_le hcount
          rw [if_pos (Or.inr hfew)] at hspec
          exact congrArg Int.toNat hspec.1
      rw [List.flatMap_cons, ← hrest, ← hret]
      rfl

/-- In stream mode `snd_queue` is a function of the bytes the calls accepted and
of nothing else: it is as if each had been put there on its own, no byte is lost
or moved, and into an empty queue the bytes are cut as one message would be.
Calls of up to 127 segments each are accepted whole. -/
theorem calls_forgotten (hstream : kcp.stream ≠ 0) (hpos : 0 < kcp.mss.toNat)
    (hmss : kcp.mss.toNat < 2 ^ 31) {calls : List (Bytes × Int)}
    (hcalls : ∀ call ∈ calls, Readable call) :
    (sendAll kcp calls).1.payloads = pour kcp.mss.toNat kcp.payloads (sendAll kcp calls).2 ∧
    (sendAll kcp calls).1.payloads.flatten = kcp.payloads.flatten ++ (sendAll kcp calls).2 ∧
    (kcp.sndQueue = [] → (sendAll kcp calls).2 ≠ [] →
      (sendAll kcp calls).1.sndQueue.map IkcpSeg.frag
        = ((Fragment.fragments kcp.mss.toNat (sendAll kcp calls).2).map fun piece =>
          { piece with num := 0 })) ∧
    ((∀ call ∈ calls, call.2 ≤ (kcp.mss.toNat * 127 : Nat)) →
      (sendAll kcp calls).2 = calls.flatMap fun call => call.1.take call.2.toNat) := by
  have hpoured := sendAll_poured hstream hpos hmss hcalls
  refine ⟨hpoured.waiting, ?_, fun hempty hne => ?_, sendAll_accepts hstream hpos hmss hcalls⟩
  · rw [hpoured.waiting, Pour.flatten_pour]
  · have hnil : kcp.payloads = [] := by simp [Ikcpcb.payloads, hempty]
    have hbodies := hpoured.waiting
    rw [hnil, Pour.pour_fragments hpos (by simp [Full]) hne, List.nil_append] at hbodies
    have hzero : ∀ seg ∈ (sendAll kcp calls).1.sndQueue, seg.frag = ⟨0, seg.data⟩ := by
      intro seg hseg
      have hfrg := (hpoured.whole seg hseg).resolve_left (by simp [hempty])
      simp [IkcpSeg.frag, hfrg]
    calc (sendAll kcp calls).1.sndQueue.map IkcpSeg.frag
        = (sendAll kcp calls).1.payloads.map (Frag.mk 0) := by
          rw [Ikcpcb.payloads, List.map_map]
          exact List.map_congr_left hzero
      _ = _ := by
          rw [hbodies, List.map_map]
          rfl

/-- Three writes of a few bytes wait in one segment. -/
theorem calls_forgotten_small :
    let kcp : Ikcpcb := { ikcpInit 7 ⟨0, 0, 0⟩ with stream := 1 }
    let calls : List (Bytes × Int) := [([1, 2], 2), ([3], 1), ([4, 5, 6], 2)]
    kcp.stream ≠ 0 ∧ 0 < kcp.mss.toNat ∧ kcp.mss.toNat < 2 ^ 31 ∧
      (∀ call ∈ calls, Readable call) ∧ (sendAll kcp calls).1.payloads = [[1, 2, 3, 4, 5]] ∧
      (sendAll kcp calls).1.payloads = pour kcp.mss.toNat kcp.payloads (sendAll kcp calls).2 := by
  intro kcp calls
  have hcalls : ∀ call ∈ calls, Readable call := by simp [calls, Readable]
  exact ⟨by decide, by decide, by decide, hcalls, by decide,
    (calls_forgotten (by decide) (by decide) (by decide) hcalls).1⟩

end CppDemos
