import Mathlib.Data.List.Basic
import Mathlib.Data.List.Infix
import CppDemos.Lib.Fragment
import CppDemos.Kcp.Control

/-!
# The receive side of ikcp.c

`ikcp_peeksize`, `ikcp_recv` and `ikcp_parse_data`: the reorder buffer
`rcv_buf`, the queue of in-order segments `rcv_queue`, and the loop that moves
segments from one to the other (written out twice in the source, once here as
`moveRcvBuf`).

Everything that happens to the receive side is one of three small changes: a
segment is inserted into `rcv_buf` (`rcvInsert_spec`), the head of `rcv_buf`
is moved to `rcv_queue` (`shiftRcv`), or a message is taken off `rcv_queue`
(`mergeFragment_spec`). `RcvOk` is the bookkeeping that holds for any input
whatsoever, since it speaks of sequence numbers only as offsets from
`rcv_nxt`; `NoGap` is what the moving loop establishes on top.
-/

namespace CppDemos

open Fragment (Frag)

/-! ## Definitions -/

def peekLength : List IkcpSeg → Nat
  | [] => 0
  | seg :: p => if seg.frg = 0 then seg.len else seg.len + peekLength p

def ikcpPeeksize (kcp : Ikcpcb) : Int :=
  match kcp.rcvQueue with
  | [] => -1
  | seg :: _ =>
      if seg.frg = 0 then seg.len
      else if kcp.nrcvQue < (seg.frg + 1).toNat then -1
      else peekLength kcp.rcvQueue

/-- The merge loop of `ikcp_recv`: the bytes copied, the segments left in the
queue and the counter after one decrement for each segment deleted. -/
def mergeFragment : Nat → List IkcpSeg → Bytes × List IkcpSeg × Nat
  | nrcvQue, [] => ([], [], nrcvQue)
  | nrcvQue, seg :: p =>
      if seg.frg = 0 then (seg.data, p, nrcvQue - 1)
      else
        let (buffer, rest, n) := mergeFragment (nrcvQue - 1) p
        (seg.data ++ buffer, rest, n)

/-- One turn of the moving loop: the head of `rcv_buf` goes to the tail of
`rcv_queue`. -/
def shiftRcv (kcp : Ikcpcb) (seg : IkcpSeg) (rest : List IkcpSeg) : Ikcpcb :=
  { kcp with
    rcvBuf := rest
    nrcvBuf := kcp.nrcvBuf - 1
    rcvQueue := kcp.rcvQueue ++ [seg]
    nrcvQue := kcp.nrcvQue + 1
    rcvNxt := kcp.rcvNxt + 1 }

/-- "move available data from rcv_buf -> rcv_queue", run on `kcp->rcv_buf`. -/
def moveRcvBuf (kcp : Ikcpcb) : List IkcpSeg → Ikcpcb
  | [] => kcp
  | seg :: rest =>
      if seg.sn = kcp.rcvNxt ∧ kcp.nrcvQue < kcp.rcvWnd.toNat then
        moveRcvBuf (shiftRcv kcp seg rest) rest
      else kcp

/-- The queue and its counter behind the merge loop. -/
def popRcv (kcp : Ikcpcb) : Ikcpcb :=
  { kcp with
    rcvQueue := (mergeFragment kcp.nrcvQue kcp.rcvQueue).2.1
    nrcvQue := (mergeFragment kcp.nrcvQue kcp.rcvQueue).2.2 }

/-- `ikcp_recv`: the new block, the return value and the bytes written to the
buffer. A negative `len` only peeks. -/
def ikcpRecv (kcp : Ikcpcb) (len : Int) : Ikcpcb × Int × Bytes :=
  if kcp.rcvQueue = [] then (kcp, -1, [])
  else
    let ispeek := len < 0
    let len := if len < 0 then -len else len
    let peeksize := ikcpPeeksize kcp
    if peeksize < 0 then (kcp, -2, [])
    else if peeksize > len then (kcp, -3, [])
    else
      let recover := kcp.nrcvQue ≥ kcp.rcvWnd.toNat
      let buffer := (mergeFragment kcp.nrcvQue kcp.rcvQueue).1
      let kcp := if ispeek then kcp else popRcv kcp
      let kcp := moveRcvBuf kcp kcp.rcvBuf
      let kcp :=
        if kcp.nrcvQue < kcp.rcvWnd.toNat ∧ recover then
          { kcp with probe := kcp.probe ||| ikcpAskTell }
        else kcp
      (kcp, buffer.length, buffer)

/-- The search of `ikcp_parse_data` from the tail of `rcv_buf` (the list is
reversed): `none` when the number is already there. -/
def insertBack (newseg : IkcpSeg) : List IkcpSeg → Option (List IkcpSeg)
  | [] => some [newseg]
  | seg :: prev =>
      if seg.sn = newseg.sn then none
      else if itimediff newseg.sn seg.sn > 0 then some (newseg :: seg :: prev)
      else (insertBack newseg prev).map (seg :: ·)

/-- `rcv_buf` with the new segment in its place, or `none` for a repeat. -/
def rcvInsert (newseg : IkcpSeg) (rcvBuf : List IkcpSeg) : Option (List IkcpSeg) :=
  (insertBack newseg rcvBuf.reverse).map List.reverse

def ikcpParseData (kcp : Ikcpcb) (newseg : IkcpSeg) : Ikcpcb :=
  if itimediff newseg.sn (kcp.rcvNxt + kcp.rcvWnd) ≥ 0 ∨ itimediff newseg.sn kcp.rcvNxt < 0 then
    kcp
  else
    let kcp :=
      match rcvInsert newseg kcp.rcvBuf with
      | some rcvBuf => { kcp with rcvBuf := rcvBuf, nrcvBuf := kcp.nrcvBuf + 1 }
      | none => kcp
    moveRcvBuf kcp kcp.rcvBuf

/-! ## Insertion into the reorder buffer -/

section Insert

variable {base : UInt32} {newseg : IkcpSeg}

/-- Sorted by distance from `base`, nearest first, and within half the number
space of it. -/
def SortedFrom (base : UInt32) (buf : List IkcpSeg) : Prop :=
  buf.Pairwise (fun a b => snOffset base a.sn < snOffset base b.sn) ∧
    ∀ seg ∈ buf, snOffset base seg.sn < 2 ^ 31

theorem insertBack_none {rev : List IkcpSeg} (h : insertBack newseg rev = none) :
    ∃ seg ∈ rev, seg.sn = newseg.sn := by
  induction rev with
  | nil => cases h
  | cons seg prev ih =>
      rw [insertBack] at h
      split at h
      · exact ⟨seg, List.mem_cons_self .., ‹_›⟩
      · split at h
        · cases h
        · obtain ⟨s, hs, heq⟩ := ih (Option.map_eq_none_iff.mp h)
          exact ⟨s, List.mem_cons_of_mem _ hs, heq⟩

theorem insertBack_perm {rev rev' : List IkcpSeg} (h : insertBack newseg rev = some rev') :
    rev'.Perm (newseg :: rev) := by
  induction rev generalizing rev' with
  | nil => exact Option.some.inj h ▸ .refl _
  | cons seg prev ih =>
      rw [insertBack] at h
      split at h
      · cases h
      · split at h
        · exact Option.some.inj h ▸ .refl _
        · obtain ⟨l, hl, rfl⟩ := Option.map_eq_some_iff.mp h
          exact ((ih hl).cons seg).trans (.swap ..)

/-- The scan stops behind the first segment that is nearer, so the list stays
ordered, farthest first. -/
theorem insertBack_sorted {rev rev' : List IkcpSeg}
    (hnew : snOffset base newseg.sn < 2 ^ 31)
    (hlt : ∀ seg ∈ rev, snOffset base seg.sn < 2 ^ 31)
    (hsorted : rev.Pairwise (fun a b => snOffset base b.sn < snOffset base a.sn))
    (h : insertBack newseg rev = some rev') :
    rev'.Pairwise (fun a b => snOffset base b.sn < snOffset base a.sn) := by
  induction rev generalizing rev' with
  | nil => exact Option.some.inj h ▸ List.pairwise_singleton ..
  | cons seg prev ih =>
      obtain ⟨hseg, hprev⟩ := List.pairwise_cons.mp hsorted
      have hsegLt := hlt seg (List.mem_cons_self ..)
      have hcmp := itimediff_pos_iff hnew hsegLt
      rw [insertBack] at h
      split at h
      · cases h
      · rename_i hne
        split at h
        · rename_i hpos
          have hfar := hcmp.mp hpos
          obtain rfl := Option.some.inj h
          refine List.pairwise_cons.mpr ⟨?_, hsorted⟩
          intro s hs
          rcases List.mem_cons.mp hs with rfl | hs
          · exact hfar
          · exact Nat.lt_trans (hseg s hs) hfar
        · rename_i hpos
          obtain ⟨l, hl, rfl⟩ := Option.map_eq_some_iff.mp h
          -- not nearer and not equal, so the new number is nearer than `seg`
          have hnear : snOffset base newseg.sn < snOffset base seg.sn := by
            have h1 : ¬ snOffset base seg.sn < snOffset base newseg.sn :=
              fun hc => hpos (hcmp.mpr hc)
            have h2 : snOffset base seg.sn ≠ snOffset base newseg.sn :=
              fun hc => hne (snOffset_injective hc)
            omega
          refine List.pairwise_cons.mpr ⟨?_,
            ih (fun s hs => hlt s (List.mem_cons_of_mem _ hs)) hprev hl⟩
          intro s hs
          rcases List.mem_cons.mp ((insertBack_perm hl).mem_iff.mp hs) with rfl | hs
          · exact hnear
          · exact hseg s hs

theorem rcvInsert_none {buf : List IkcpSeg} (h : rcvInsert newseg buf = none) :
    ∃ seg ∈ buf, seg.sn = newseg.sn := by
  obtain ⟨seg, hseg, heq⟩ := insertBack_none (Option.map_eq_none_iff.mp h)
  exact ⟨seg, List.mem_reverse.mp hseg, heq⟩

theorem rcvInsert_perm {buf buf' : List IkcpSeg} (h : rcvInsert newseg buf = some buf') :
    buf'.Perm (newseg :: buf) := by
  obtain ⟨rev, hrev, rfl⟩ := Option.map_eq_some_iff.mp h
  exact (rev.reverse_perm.trans (insertBack_perm hrev)).trans
    (buf.reverse_perm.cons newseg)

theorem rcvInsert_sorted {buf buf' : List IkcpSeg}
    (hnew : snOffset base newseg.sn < 2 ^ 31) (hbuf : SortedFrom base buf)
    (h : rcvInsert newseg buf = some buf') : SortedFrom base buf' := by
  have hperm := rcvInsert_perm h
  obtain ⟨rev, hrev, rfl⟩ := Option.map_eq_some_iff.mp h
  refine ⟨?_, ?_⟩
  · rw [List.pairwise_reverse]
    refine insertBack_sorted hnew (fun s hs => hbuf.2 s (List.mem_reverse.mp hs)) ?_ hrev
    rw [List.pairwise_reverse]
    exact hbuf.1
  · intro seg hseg
    rcases List.mem_cons.mp (hperm.mem_iff.mp hseg) with rfl | hs
    · exact hnew
    · exact hbuf.2 seg hs

end Insert

/-! ## Bookkeeping of the receive side -/

/-- What holds of the receive side whatever has been input: the counters count,
and `rcv_buf` is sorted and inside the window. -/
structure RcvOk (kcp : Ikcpcb) : Prop where
  wnd : kcp.rcvWnd = ikcpWndRcv
  count : kcp.nrcvQue = kcp.rcvQueue.length
  sorted : SortedFrom kcp.rcvNxt kcp.rcvBuf
  inWindow : ∀ seg ∈ kcp.rcvBuf, snOffset kcp.rcvNxt seg.sn < kcp.rcvWnd.toNat

/-- The next segment in order is not waiting in `rcv_buf`, unless there is no
room for it in `rcv_queue`. -/
def NoGap (kcp : Ikcpcb) : Prop :=
  (∀ seg ∈ kcp.rcvBuf, seg.sn ≠ kcp.rcvNxt) ∨ kcp.rcvWnd.toNat ≤ kcp.nrcvQue

/-- Induction over the moving loop: a property kept by one shift is kept by
all of them. -/
theorem moveRcvBuf_induct {P : Ikcpcb → Prop}
    (hshift : ∀ kcp seg rest, kcp.rcvBuf = seg :: rest → seg.sn = kcp.rcvNxt →
      kcp.nrcvQue < kcp.rcvWnd.toNat → P kcp → P (shiftRcv kcp seg rest)) :
    ∀ {kcp : Ikcpcb}, P kcp → P (moveRcvBuf kcp kcp.rcvBuf) := by
  suffices h : ∀ (buf : List IkcpSeg) (kcp : Ikcpcb), kcp.rcvBuf = buf → P kcp →
      P (moveRcvBuf kcp buf) from fun {kcp} hP => h _ kcp rfl hP
  intro buf
  induction buf with
  | nil => exact fun kcp _ hP => hP
  | cons seg rest ih =>
      intro kcp hbuf hP
      rw [moveRcvBuf]
      split
      · rename_i hcond
        exact ih _ rfl (hshift kcp seg rest hbuf hcond.1 hcond.2 hP)
      · exact hP

theorem RcvOk.shift {kcp : Ikcpcb} (h : RcvOk kcp) {seg : IkcpSeg} {rest : List IkcpSeg}
    (hbuf : kcp.rcvBuf = seg :: rest) : RcvOk (shiftRcv kcp seg rest) := by
  have hsorted := h.sorted.1
  rw [hbuf, List.pairwise_cons] at hsorted
  -- everything behind the head is at least one ahead of `rcv_nxt`
  have hpos : ∀ s ∈ rest, 0 < snOffset kcp.rcvNxt s.sn := fun s hs => by
    have := hsorted.1 s hs
    omega
  have hmem : ∀ s ∈ rest, s ∈ kcp.rcvBuf := fun s hs => by
    rw [hbuf]
    exact List.mem_cons_of_mem _ hs
  have hoff : ∀ s ∈ rest, snOffset (kcp.rcvNxt + 1) s.sn = snOffset kcp.rcvNxt s.sn - 1 :=
    fun s hs => snOffset_succ (hpos s hs).ne'
  refine ⟨h.wnd, ?_, ⟨?_, ?_⟩, ?_⟩
  · simp [shiftRcv, h.count]
  · refine hsorted.2.imp_of_mem fun {a b} ha hb hab => ?_
    have h1 := hoff a ha
    have h2 := hoff b hb
    have h3 := hpos a ha
    simp only [shiftRcv]
    omega
  · intro s hs
    have h1 := hoff s hs
    have h2 := h.sorted.2 s (hmem s hs)
    simp only [shiftRcv]
    omega
  · intro s hs
    have h1 := hoff s hs
    have h2 := h.inWindow s (hmem s hs)
    simp only [shiftRcv]
    omega

theorem RcvOk.moveRcvBuf {kcp : Ikcpcb} (h : RcvOk kcp) :
    RcvOk (moveRcvBuf kcp kcp.rcvBuf) :=
  moveRcvBuf_induct (fun _ _ _ hbuf _ _ hP => hP.shift hbuf) h

theorem noGap_moveRcvBuf {kcp : Ikcpcb} (h : RcvOk kcp) :
    NoGap (moveRcvBuf kcp kcp.rcvBuf) := by
  suffices hs : ∀ (buf : List IkcpSeg) (kcp : Ikcpcb), kcp.rcvBuf = buf → RcvOk kcp →
      NoGap (CppDemos.moveRcvBuf kcp buf) from hs _ kcp rfl h
  intro buf
  induction buf with
  | nil =>
      intro kcp hbuf _
      refine Or.inl ?_
      intro seg hseg
      rw [moveRcvBuf, hbuf] at hseg
      cases hseg
  | cons seg rest ih =>
      intro kcp hbuf hok
      rw [moveRcvBuf]
      split
      · rename_i hcond
        exact ih _ rfl (hok.shift hbuf)
      · rename_i hcond
        by_cases hsn : seg.sn = kcp.rcvNxt
        · exact Or.inr (Nat.le_of_not_lt fun hlt => hcond ⟨hsn, hlt⟩)
        · refine Or.inl ?_
          intro s hs heq
          -- the head is the nearest, so nothing behind it can be next either
          have hsorted := hok.sorted.1
          rw [hbuf] at hs hsorted
          rcases List.mem_cons.mp hs with rfl | hs
          · exact hsn heq
          · have hlt := (List.pairwise_cons.mp hsorted).1 s hs
            rw [snOffset_eq_zero.mpr heq] at hlt
            exact Nat.not_lt_zero _ hlt

/-! ## Taking a message -/

/-- A segment as one piece of a message. -/
def IkcpSeg.frag (seg : IkcpSeg) : Frag UInt8 := ⟨seg.frg.toNat, seg.data⟩

theorem frg_eq_zero_iff {seg : IkcpSeg} : seg.frg = 0 ↔ seg.frag.num = 0 := by
  rw [← UInt32.toNat_inj]
  rfl

/-- The merge loop of the source is the generic one on the queue's pieces. -/
theorem mergeFragment_merge (n : Nat) (queue : List IkcpSeg) :
    (mergeFragment n queue).1 = (Fragment.merge (queue.map IkcpSeg.frag)).1 ∧
      (mergeFragment n queue).2.1.map IkcpSeg.frag
        = (Fragment.merge (queue.map IkcpSeg.frag)).2 := by
  induction queue generalizing n with
  | nil => exact ⟨rfl, rfl⟩
  | cons seg p ih =>
      rw [mergeFragment, List.map_cons, Fragment.merge]
      by_cases hfrg : seg.frg = 0
      · rw [if_pos hfrg, if_pos (frg_eq_zero_iff.mp hfrg)]
        exact ⟨rfl, rfl⟩
      · rw [if_neg hfrg, if_neg (fun h => hfrg (frg_eq_zero_iff.mpr h))]
        exact ⟨congrArg (seg.data ++ ·) (ih _).1, (ih _).2⟩

theorem mergeFragment_suffix (n : Nat) (queue : List IkcpSeg) :
    (mergeFragment n queue).2.1 <:+ queue := by
  induction queue generalizing n with
  | nil => exact List.suffix_refl _
  | cons seg p ih =>
      rw [mergeFragment]
      split
      · exact List.suffix_cons ..
      · exact (ih _).trans (List.suffix_cons ..)

theorem mergeFragment_count {n : Nat} {queue : List IkcpSeg} (h : n = queue.length) :
    (mergeFragment n queue).2.2 = (mergeFragment n queue).2.1.length := by
  induction queue generalizing n with
  | nil => exact h
  | cons seg p ih =>
      have hp : n - 1 = p.length := by rw [h]; rfl
      rw [mergeFragment]
      split
      · exact hp
      · exact ih hp

theorem mergeFragment_length_lt {n : Nat} {queue : List IkcpSeg} (h : queue ≠ []) :
    (mergeFragment n queue).2.1.length < queue.length := by
  cases queue with
  | nil => exact absurd rfl h
  | cons seg p =>
      rw [mergeFragment]
      split
      · exact Nat.lt_succ_self _
      · exact Nat.lt_succ_of_le (mergeFragment_suffix _ p).length_le

theorem peekLength_eq (n : Nat) (queue : List IkcpSeg) :
    peekLength queue = (mergeFragment n queue).1.length := by
  induction queue generalizing n with
  | nil => rfl
  | cons seg p ih =>
      rw [peekLength, mergeFragment]
      split
      · rfl
      · simp [ih (n - 1), IkcpSeg.len]

theorem ikcpPeeksize_of_nonneg {kcp : Ikcpcb} (h : 0 ≤ ikcpPeeksize kcp) :
    ikcpPeeksize kcp = ((mergeFragment kcp.nrcvQue kcp.rcvQueue).1.length : Int) := by
  unfold ikcpPeeksize at h ⊢
  split at h
  · simp at h
  · rename_i seg p hq
    rw [hq]
    split at h
    · rename_i hfrg
      simp [mergeFragment, hfrg, IkcpSeg.len]
    · split at h
      · simp at h
      · rw [if_neg ‹¬seg.frg = 0›, if_neg ‹¬_›, peekLength_eq kcp.nrcvQue]

/-- Everything `ikcp_recv` can do on a buffer of `len` bytes: refuse and change
nothing, or take one message off the queue and refill it. -/
theorem ikcpRecv_cases (kcp : Ikcpcb) {len : Int} (hlen : 0 ≤ len) :
    (∃ err, err < 0 ∧ ikcpRecv kcp len = (kcp, err, []) ∧
      (kcp.rcvQueue = [] ∨ ikcpPeeksize kcp < 0 ∨ len < ikcpPeeksize kcp)) ∨
    (kcp.rcvQueue ≠ [] ∧ 0 ≤ ikcpPeeksize kcp ∧ ikcpPeeksize kcp ≤ len ∧ ∃ probe,
      ikcpRecv kcp len =
        ({ moveRcvBuf (popRcv kcp) kcp.rcvBuf with probe := probe },
          ikcpPeeksize kcp, (mergeFragment kcp.nrcvQue kcp.rcvQueue).1)) := by
  unfold ikcpRecv
  simp only [if_neg (Int.not_lt.mpr hlen)]
  split
  · exact Or.inl ⟨-1, by decide, rfl, Or.inl ‹_›⟩
  · split
    · exact Or.inl ⟨-2, by decide, rfl, Or.inr (Or.inl ‹_›)⟩
    · split
      · exact Or.inl ⟨-3, by decide, rfl, Or.inr (Or.inr ‹_›)⟩
      · rename_i hne hpeek hfit
        refine Or.inr ⟨hne, by omega, by omega, ?_⟩
        rw [ikcpPeeksize_of_nonneg (by omega)]
        split
        · exact ⟨_, rfl⟩
        · exact ⟨_, rfl⟩

theorem RcvOk.popRcv {kcp : Ikcpcb} (h : RcvOk kcp) : RcvOk (popRcv kcp) :=
  ⟨h.wnd, mergeFragment_count h.count, h.sorted, h.inWindow⟩

theorem RcvOk.recv {kcp : Ikcpcb} (h : RcvOk kcp) {len : Int} (hlen : 0 ≤ len) :
    RcvOk (ikcpRecv kcp len).1 := by
  rcases ikcpRecv_cases kcp hlen with ⟨err, -, heq, -⟩ | ⟨-, -, -, probe, heq⟩
  · rw [heq]
    exact h
  · rw [heq]
    have hmove := h.popRcv.moveRcvBuf
    exact ⟨hmove.wnd, hmove.count, hmove.sorted, hmove.inWindow⟩

/-! ## Storing a data segment -/

theorem inWindow_iff {kcp : Ikcpcb} (hwnd : kcp.rcvWnd = ikcpWndRcv) (sn : UInt32) :
    ¬ (itimediff sn (kcp.rcvNxt + kcp.rcvWnd) ≥ 0 ∨ itimediff sn kcp.rcvNxt < 0) ↔
      snOffset kcp.rcvNxt sn < kcp.rcvWnd.toNat := by
  have hlt : kcp.rcvWnd.toNat < 2 ^ 31 := by
    rw [hwnd]
    decide
  rw [not_or, ← itimediff_window hlt]
  constructor
  · exact fun h => ⟨by omega, by omega⟩
  · exact fun h => ⟨by omega, by omega⟩

theorem RcvOk.insert {kcp : Ikcpcb} (h : RcvOk kcp) {newseg : IkcpSeg} {buf : List IkcpSeg}
    (hwin : snOffset kcp.rcvNxt newseg.sn < kcp.rcvWnd.toNat)
    (hins : rcvInsert newseg kcp.rcvBuf = some buf) :
    RcvOk { kcp with rcvBuf := buf, nrcvBuf := kcp.nrcvBuf + 1 } := by
  have hlt : snOffset kcp.rcvNxt newseg.sn < 2 ^ 31 := by
    have hw : kcp.rcvWnd.toNat = 128 := by rw [h.wnd]; rfl
    omega
  refine ⟨h.wnd, h.count, rcvInsert_sorted hlt h.sorted hins, ?_⟩
  intro s hs
  rcases List.mem_cons.mp ((rcvInsert_perm hins).mem_iff.mp hs) with rfl | hs
  · exact hwin
  · exact h.inWindow s hs

theorem RcvOk.parseData {kcp : Ikcpcb} (h : RcvOk kcp) (newseg : IkcpSeg) :
    RcvOk (ikcpParseData kcp newseg) := by
  unfold ikcpParseData
  split
  · exact h
  · rename_i hwin
    have hwin := (inWindow_iff h.wnd _).mp hwin
    cases hins : rcvInsert newseg kcp.rcvBuf with
    | none => exact h.moveRcvBuf
    | some buf => exact (h.insert hwin hins).moveRcvBuf

theorem noGap_parseData {kcp : Ikcpcb} (h : RcvOk kcp) (hgap : NoGap kcp)
    (newseg : IkcpSeg) : NoGap (ikcpParseData kcp newseg) := by
  unfold ikcpParseData
  split
  · exact hgap
  · rename_i hwin
    have hwin := (inWindow_iff h.wnd _).mp hwin
    cases hins : rcvInsert newseg kcp.rcvBuf with
    | none => exact noGap_moveRcvBuf h
    | some buf => exact noGap_moveRcvBuf (h.insert hwin hins)

end CppDemos
