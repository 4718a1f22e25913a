import CppDemos.Wrapper.Calls

/-!
# From send to data_callback_

Four limits meet between the two ends of a message: `ikcp_send` takes up to
127 fragments of 1376 bytes, `ikcp_recv` hands over what fits `BUFFER_SIZE`,
and in between a window of 128 segments is enough for any message accepted.
The first two do not agree. `deliverable_iff` is the exact extent of it: a
message that `send` accepts can be delivered by a peer if and only if it is no
longer than `BUFFER_SIZE`. A longer one stays at the head of `rcv_queue`, as
does everything behind it.
-/

namespace CppDemos

/-! ## Numbering -/

/-- The number the next segment to be queued will get. -/
def nextSn (kcp : Ikcpcb) : UInt32 := kcp.sndNxt + UInt32.ofNat kcp.sndQueue.length

theorem SndMoved.nextSn {kcp kcp' : Ikcpcb} {moved : List IkcpSeg}
    (h : SndMoved kcp kcp' moved) : nextSn kcp' = nextSn kcp := by
  rw [CppDemos.nextSn, CppDemos.nextSn, h.sndNxt, h.queue, List.length_append,
    UInt32.ofNat_add, UInt32.add_assoc]

theorem SndTrimmed.nextSn {kcp kcp' : Ikcpcb} (h : SndTrimmed kcp kcp') :
    nextSn kcp' = nextSn kcp := by
  rw [CppDemos.nextSn, CppDemos.nextSn, h.sndNxt, h.sndQueue]

/-! ## Deliverable messages -/

/-- A message whose first fragment has number `base` is deliverable if every
receiving wrapper that has handed over all earlier messages, once datagrams
with all its fragments have been read, has handed it over, exactly once: it is
the first of the messages handed over since, and those behind it are later
messages in order. -/
def Deliverable (conv base : UInt32) (data : Bytes) : Prop :=
  ∀ (later : List Bytes) (w : KCPWrapper) (kcp : Ikcpcb) (cs : List Call),
    (∀ m ∈ later, Fits m) → span groupMss (data :: later) ≤ 2 ^ 31 →
    ReadyAt conv base (data :: later) w kcp →
    (∀ d, IsRead cs d → GenuineDatagram groupMss conv base (data :: later) d) →
    (∀ j < Fragment.count groupMss data.length, HeldAt base kcp j ∨
      ∃ d, IsRead cs d ∧
        Carries groupMss conv base (data :: later) d (base + UInt32.ofNat j)) →
    ∃ tail, (w.calls cs).2 = data :: tail ∧ tail <+: later

variable {conv base : UInt32} {data : Bytes}

/-- A complete message that fits the buffer does not stay in `rcv_queue`. -/
theorem Drained.not_complete {rest : List Bytes} {kcp : Ikcpcb} (hdrained : Drained kcp)
    (h : Receiving groupMss base (data :: rest) kcp) (hfits : Fits data)
    (hlen : data.length ≤ bufferSize) :
    ¬ ∀ j < Fragment.count groupMss data.length, HeldAt base kcp j := by
  intro hheld
  have hcount := h.complete hfits hheld
  have hcpos := Fragment.count_pos (show 0 < groupMss by decide) data.length
  rcases h.tracks.peeksize (by decide) hfits with ⟨hlt, -⟩ | ⟨-, hpeek⟩
  · omega
  · rcases (drained_iff kcp).mp hdrained with hnil | hneg | hbig
    · rw [hnil] at hcount
      exact absurd hcount (by simpa using hcpos.ne')
    · omega
    · omega

theorem deliverable_of_le (hfits : Fits data) (hlen : data.length ≤ bufferSize) :
    Deliverable conv base data := by
  intro later w kcp cs hlater hspan hready hreads hcover
  have hall : ∀ m ∈ data :: later, Fits m := fun m hm =>
    (List.mem_cons.mp hm).elim (fun h => h ▸ hfits) (hlater m)
  obtain ⟨kcp', rest, hrest, hend, hhas⟩ := hready.calls cs hall hspan hreads
  cases hlog : (w.calls cs).2 with
  | cons m tail =>
      rw [hlog, List.cons_append] at hrest
      obtain ⟨rfl, rfl⟩ := List.cons.inj hrest
      exact ⟨tail, rfl, List.prefix_append _ _⟩
  | nil =>
      -- nothing handed over, although every fragment has been accepted
      rw [hlog] at hrest hend hhas
      rw [List.nil_append] at hrest
      subst hrest
      have hbase : base + UInt32.ofNat (span groupMss []) = base := UInt32.add_zero base
      rw [hbase] at hend hhas
      refine absurd (?_) (hend.drained.not_complete hend.receiving hfits hlen)
      intro j hj
      have hw : Fragment.count groupMss data.length < 128 := hfits
      have hoff : snOffset base (base + UInt32.ofNat j) = j := snOffset_ofNat base (by omega)
      have hsn : Has groupMss base (data :: later) kcp' (base + UInt32.ofNat j) := by
        refine hhas _ ((hcover j hj).imp (fun h => Or.inr (by rwa [hoff])) fun h => ⟨?_, h⟩)
        rw [hoff]
        exact Nat.lt_trans hj hfits
      rcases hsn with hbehind | hheld
      · rw [Behind, hoff] at hbehind
        omega
      · rwa [hoff] at hheld

theorem call_length_le {w : KCPWrapper} {c : Call} :
    ∀ m ∈ (w.call c).2, m.length ≤ bufferSize := by
  intro m hm
  cases c with
  | send data len => cases hm
  | update iclock results =>
      simp only [KCPWrapper.call, KCPWrapper.update] at hm
      split at hm
      · cases hm
      · split at hm
        · cases hm
        · simp only at hm
          split at hm
          · exact handleReceive_length_le _ m hm
          · cases hm

theorem calls_length_le :
    ∀ {cs : List Call} {w : KCPWrapper}, ∀ m ∈ (w.calls cs).2, m.length ≤ bufferSize
  | [], _, m, hm => nomatch hm
  | c :: cs, w, m, hm => by
      rcases List.mem_append.mp hm with hm | hm
      · exact call_length_le m hm
      · exact calls_length_le m hm

/-! ## A message too long -/

/-- The block of a receiver that has taken everything before number `base` and
nothing since. -/
def receiverKcp (conv base : UInt32) : Ikcpcb :=
  { freshKcp conv ⟨0, 0, 0⟩ with rcvNxt := base }

def receiverAt (conv base : UInt32) : KCPWrapper :=
  { kcp := some (receiverKcp conv base), initialized := true, dataCallback := true }

theorem receiverKcp_spec (conv base : UInt32) :
    (receiverKcp conv base).setup = groupSetup conv ∧
      (receiverKcp conv base).rcvSide = ⟨base, ikcpWndRcv, 0, 0, [], []⟩ := by
  rw [receiverKcp, freshKcp_eq]
  exact ⟨rfl, rfl⟩

theorem receiverAt_ready (conv base : UInt32) (msgs : List Bytes) :
    ReadyAt conv base msgs (receiverAt conv base) (receiverKcp conv base) := by
  obtain ⟨hsetup, hrcv⟩ := receiverKcp_spec conv base
  exact ⟨⟨rfl, rfl, hsetup⟩, rfl, receiving_empty hrcv groupMss msgs, drained_empty hrcv⟩

/-- A fragment of the message, in a datagram of its own, as a flush would number
it from `base` on. -/
theorem fragment_datagram {segs : List IkcpSeg} (hfits : Fits data)
    (hsegs : segs.map IkcpSeg.frag = Fragment.fragments groupMss data)
    {j : Nat} {seg : IkcpSeg} (hseg : (numbered conv base segs)[j]? = some seg) :
    GenuineSegs groupMss conv base [data] (datagram [seg]) [seg] ∧
      seg.cmd = ikcpCmdPush ∧ seg.sn = base + UInt32.ofNat j := by
  rw [numbered_getElem?] at hseg
  obtain ⟨s, hs, rfl⟩ := Option.map_eq_some_iff.mp hseg
  have hget : (Fragment.fragments groupMss data)[j]? = some s.frag := by
    rw [← hsegs, List.getElem?_map, hs]
    rfl
  have hfit : Fragment.count groupMss data.length < 128 := hfits
  have hj : j < Fragment.count groupMss data.length := by
    rw [← Fragment.length_fragments groupMss data]
    exact (List.getElem?_eq_some_iff.mp hget).1
  obtain ⟨hbody, hnum⟩ := Fragment.fragments_body_le (List.mem_of_getElem? hget)
  have hbody : s.data.length ≤ 1376 := hbody
  have hnum : s.frg.toNat < Fragment.count groupMss data.length := hnum
  refine ⟨⟨rfl, ?_, ?_, ?_⟩, rfl, rfl⟩
  · have hover : ikcpOverhead = 24 := rfl
    have hbuf : bufferSize = 65535 := rfl
    simp only [datagram, List.flatMap_cons, List.flatMap_nil, List.append_nil, length_segBytes,
      IkcpSeg.len]
    omega
  · intro seg hmem
    obtain rfl := List.mem_singleton.mp hmem
    have hcmd : ikcpCmdPush.toNat < 2 ^ 8 := by decide
    have hwnd : (0 : UInt32).toNat < 2 ^ 16 := by decide
    exact ⟨⟨hcmd, by simp only; omega, hwnd, by simp only [IkcpSeg.len]; omega⟩, rfl, rfl⟩
  · intro seg hmem _
    obtain rfl := List.mem_singleton.mp hmem
    refine Or.inr ?_
    simp only
    rw [snOffset_ofNat base (by omega), Fragment.stream_cons, Fragment.stream_nil,
      List.append_nil]
    exact hget

theorem not_deliverable_of_gt {segs : List IkcpSeg} (hfits : Fits data)
    (hsegs : segs.map IkcpSeg.frag = Fragment.fragments groupMss data)
    (hlen : bufferSize < data.length) : ¬ Deliverable conv base data := by
  intro h
  -- the fragments arrive one by one, in order, during one update
  let reads := (numbered conv base segs).map fun seg => datagram [seg]
  let cs : List Call := [.update 0 (reads.map .datagram)]
  have hread : ∀ d, IsRead cs d ↔ d ∈ reads := fun d => by
    simp [IsRead, cs, Call.results]
  have hfit : Fragment.count groupMss data.length < 128 := hfits
  obtain ⟨tail, hlog, -⟩ := h [] (receiverAt conv base) (receiverKcp conv base) cs
    (fun m hm => nomatch hm) (by rw [span_singleton]; omega) (receiverAt_ready conv base _)
    (fun d hd => by
      obtain ⟨seg, hseg, rfl⟩ := List.mem_map.mp ((hread d).mp hd)
      obtain ⟨j, hj⟩ := List.mem_iff_getElem?.mp hseg
      exact ⟨[seg], (fragment_datagram hfits hsegs hj).1⟩)
    (fun j hj => by
      have hlen : j < segs.length := by
        rw [← List.length_map (f := IkcpSeg.frag), hsegs, Fragment.length_fragments]
        exact hj
      have hget := numbered_getElem? conv segs base j
      rw [List.getElem?_eq_getElem hlen, Option.map_some] at hget
      obtain ⟨hgen, hcmd, hsn⟩ := fragment_datagram hfits hsegs hget
      exact Or.inr ⟨_, (hread _).mpr (List.mem_map_of_mem (List.mem_of_getElem? hget)),
        [_], hgen, _, List.mem_singleton_self _, hcmd, hsn⟩)
  have hle := calls_length_le data (hlog ▸ List.mem_cons_self ..)
  omega

/-! ## The exact limit -/

/-- A message accepted by `send` on any live wrapper is deliverable, under the
number it gets there, if and only if it fits `BUFFER_SIZE`. -/
theorem deliverable_iff {s s' : KCPWrapper} {kcp : Ikcpcb} (hs : s.Live conv kcp)
    (hlen : data.length < 2 ^ 31)
    (hsend : s.send (some data) (UInt64.ofNat data.length) = (s', true)) :
    Deliverable conv (nextSn kcp) data ↔ data.length ≤ bufferSize := by
  rcases hs.send data hlen with ⟨-, hfits, segs, hsegs, -⟩ | ⟨-, heq⟩
  · constructor
    · intro h
      refine Nat.le_of_not_lt ?_
      intro hlt
      exact not_deliverable_of_gt hfits hsegs hlt h
    · exact deliverable_of_le hfits
  · rw [heq] at hsend
    cases hsend

theorem deliverable_iff_short :
    Deliverable mainConv (nextSn (freshKcp mainConv ⟨0, 0, 0⟩)) [104, 105] ↔
      [104, 105].length ≤ bufferSize :=
  have hsend : senderWrapper.send (some [104, 105]) 2
      = ((senderWrapper.send (some [104, 105]) 2).1, true) := Prod.ext rfl (by decide +kernel)
  deliverable_iff senderWrapper_live (by decide) hsend

/-- A message as long as a file header and a full chunk is accepted and not
deliverable. -/
theorem not_every_accepted_deliverable :
    ¬ ∀ (conv : UInt32) (s s' : KCPWrapper) (kcp : Ikcpcb) (data : Bytes),
      s.Live conv kcp → data.length < 2 ^ 31 →
      s.send (some data) (UInt64.ofNat data.length) = (s', true) →
      Deliverable conv (nextSn kcp) data := by
  intro h
  let data : Bytes := List.replicate 65808 0
  have hdata : data.length = 65808 := List.length_replicate
  have hbuf : bufferSize = 65535 := rfl
  rcases senderWrapper_live.send data (by omega) with
    ⟨-, hfits, segs, hsegs, heq⟩ | ⟨hnil | hnot, -⟩
  · exact not_deliverable_of_gt hfits hsegs (by omega)
      (h _ _ _ _ data senderWrapper_live (by omega) heq)
  · rw [hnil] at hdata
    cases hdata
  · exact hnot ((fits_iff data).mpr (by omega))

end CppDemos
