import Mathlib.Data.Set.Insert
import CppDemos.Kcp.Bounds
import CppDemos.Kcp.Progress

/-!
# The buffer a flush writes into

`ikcp_flush` encodes its segments into `kcp->buffer`, which `ikcp_create` and
`ikcp_setmtu` allocate with room for three segments of the MTU and their headers.
It hands the buffer over when the next segment would go beyond the MTU; with the
size of the buffer it compares nothing. A segment in the queues was cut for the MTU
at the time of `ikcp_send`, and stays as it is when the MTU changes.

A flush stays within the buffer just if each segment it writes would alone
(`flushReach_le_iff`). Over any series of calls this holds exactly if each MTU that
is set fits in the buffers of the others (`writes_in_bounds_iff`), and
`ikcp_setmtu` does not see to that.
-/

namespace CppDemos

variable {kcp kcp' : Ikcpcb} {mtu : UInt32} {cap : Nat}

/-! ## Definitions -/

/-- The size `ikcp_create` and `ikcp_setmtu` ask `ikcp_malloc` for. -/
def bufferBytes (mtu : UInt32) : Nat := ((mtu + UInt32.ofNat ikcpOverhead) * 3).toNat

/-- `ikcp_setmtu`; `allocated` is whether `ikcp_malloc` returns a buffer. -/
def ikcpSetmtu (kcp : Ikcpcb) (mtu : Int32) (allocated : Bool) : Ikcpcb × Int :=
  if mtu < 50 ∨ mtu < Int32.ofNat ikcpOverhead then (kcp, -1)
  else if allocated = false then (kcp, -2)
  else
    ({ kcp with
        mtu := mtu.toUInt32
        mss := mtu.toUInt32 - UInt32.ofNat ikcpOverhead }, 0)

/-- How far into the buffer the segments go that are written to it. -/
def OutBuf.reach (mtu : UInt32) (out : OutBuf) : List IkcpSeg → Nat
  | [] => 0
  | seg :: segs => max (out.write mtu seg).ptr.length (OutBuf.reach mtu (out.write mtu seg) segs)

/-- How far `ikcp_flush` writes. -/
def flushReach (kcp : Ikcpcb) : Nat :=
  if kcp.updated = 0 then 0 else OutBuf.reach kcp.mtu {} (flushSegs kcp)

/-- How far `ikcp_update` writes. -/
def updateReach (kcp : Ikcpcb) (current : UInt32) : Nat :=
  let kcp := updateClock kcp current
  let kcp := if clockJumped kcp then { kcp with tsFlush := kcp.current } else kcp
  if itimediff kcp.current kcp.tsFlush ≥ 0 then
    flushReach { kcp with tsFlush := nextFlush kcp }
  else 0

/-- A call of the interface of ikcp.h that changes a block. -/
inductive KcpCall where
  | send (buffer : Bytes) (len : Int)
  | recv (len : Int)
  | input (data : Bytes)
  | update (current : UInt32)
  | setmtu (mtu : Int32) (allocated : Bool)
  | wndsize (sndwnd rcvwnd : Int32)
  | nodelay (delay interval resend nc : Int32)

def KcpCall.on (kcp : Ikcpcb) : KcpCall → Ikcpcb
  | .send buffer len => (ikcpSend kcp buffer len).1
  | .recv len => (ikcpRecv kcp len).1
  | .input data => (ikcpInput kcp data).1
  | .update current => (ikcpUpdate kcp current).1
  | .setmtu mtu allocated => (ikcpSetmtu kcp mtu allocated).1
  | .wndsize sndwnd rcvwnd => ikcpWndsize kcp sndwnd rcvwnd
  | .nodelay delay interval resend nc => ikcpNodelay kcp delay interval resend nc

def Ikcpcb.after (kcp : Ikcpcb) (cs : List KcpCall) : Ikcpcb := cs.foldl KcpCall.on kcp

/-- The MTUs the call may set are in `mtus`. -/
def KcpCall.Sets (mtus : Set UInt32) : KcpCall → Prop
  | .setmtu mtu _ => mtu.toUInt32 ∈ mtus
  | _ => True

/-! ## One flush -/

/-- Behind a write the buffer ends within the MTU, or the segment is alone in it. -/
theorem OutBuf.length_write (mtu : UInt32) (out : OutBuf) (seg : IkcpSeg) :
    seg.size ≤ (out.write mtu seg).ptr.length ∧
      ((out.write mtu seg).ptr.length ≤ mtu.toNat ∨ (out.write mtu seg).ptr.length = seg.size) := by
  unfold OutBuf.write OutBuf.reserve OutBuf.put IkcpSeg.size
  split
  · rw [List.nil_append, length_segBytes]
    exact ⟨Nat.le_refl _, Or.inr rfl⟩
  · rw [List.length_append, length_segBytes]
    exact ⟨Nat.le_add_left _ _, Or.inl (by omega)⟩

theorem OutBuf.reach_le_iff (hcap : mtu.toNat ≤ cap) (segs : List IkcpSeg) (out : OutBuf) :
    OutBuf.reach mtu out segs ≤ cap ↔ ∀ seg ∈ segs, seg.size ≤ cap := by
  induction segs generalizing out with
  | nil => simp [OutBuf.reach]
  | cons seg segs ih =>
      obtain ⟨hle, hend⟩ := OutBuf.length_write mtu out seg
      rw [OutBuf.reach, Nat.max_le, ih, List.forall_mem_cons]
      refine and_congr_left' ⟨fun h => Nat.le_trans hle h, fun h => ?_⟩
      omega

theorem OutBuf.size_le_reach {seg : IkcpSeg} {segs : List IkcpSeg} (h : seg ∈ segs) (out : OutBuf) :
    seg.size ≤ OutBuf.reach mtu out segs := by
  induction segs generalizing out with
  | nil => cases h
  | cons s segs ih =>
      rw [OutBuf.reach]
      rcases List.mem_cons.mp h with rfl | hmem
      · exact Nat.le_trans (OutBuf.length_write mtu out seg).1 (Nat.le_max_left _ _)
      · exact Nat.le_trans (ih hmem _) (Nat.le_max_right _ _)

/-- A flush stays within its buffer just if each segment it writes fits in it. -/
theorem flushReach_le_iff (hupdated : kcp.updated ≠ 0)
    (hmtu : kcp.mtu.toNat ≤ bufferBytes kcp.mtu) :
    flushReach kcp ≤ bufferBytes kcp.mtu ↔
      ∀ seg ∈ flushSegs kcp, seg.size ≤ bufferBytes kcp.mtu := by
  rw [flushReach, if_neg hupdated]
  exact OutBuf.reach_le_iff hmtu _ _

theorem updateReach_cases (kcp : Ikcpcb) (current : UInt32) :
    updateReach kcp current = 0 ∨ ∃ updated tsFlush, updateReach kcp current
      = flushReach { kcp with current := current, updated := updated, tsFlush := tsFlush } := by
  obtain ⟨updated, tsFlush, hclock⟩ := updateClock_frame kcp current
  generalize hreach : updateReach kcp current = reach
  unfold updateReach at hreach
  simp only [hclock] at hreach
  split at hreach
  · split at hreach
    · exact Or.inr ⟨_, _, hreach.symm⟩
    · exact Or.inl hreach.symm
  · split at hreach
    · exact Or.inr ⟨_, _, hreach.symm⟩
    · exact Or.inl hreach.symm

/-! ## What the segments were cut for -/

/-- Every segment that waits to be sent fits in a datagram of one of the MTUs, and
the present one is among them. -/
structure CutFor (mtus : Set UInt32) (kcp : Ikcpcb) : Prop where
  mtu : kcp.mtu ∈ mtus
  mss : ikcpOverhead + kcp.mss.toNat ≤ kcp.mtu.toNat
  queue : ∀ seg ∈ kcp.sndQueue, ∃ m ∈ mtus, seg.size ≤ m.toNat
  buf : ∀ c ∈ kcp.sndBuf.map IkcpSeg.core, ∃ m ∈ mtus, c.size ≤ m.toNat

variable {mtus : Set UInt32}

theorem CutFor.trim (h : CutFor mtus kcp) (htrim : SndTrimmed kcp kcp') : CutFor mtus kcp' := by
  have hmtu : kcp'.mtu = kcp.mtu := congrArg Setup.mtu htrim.setup
  have hmss : kcp'.mss = kcp.mss := congrArg Setup.mss htrim.setup
  refine ⟨hmtu ▸ h.mtu, ?_, htrim.sndQueue ▸ h.queue, fun c hc => h.buf c (htrim.sndBuf.subset hc)⟩
  rw [hmtu, hmss]
  exact h.mss

theorem CutFor.send (h : CutFor mtus kcp) (buffer : Bytes) (len : Int) :
    CutFor mtus (ikcpSend kcp buffer len).1 := by
  have hpieces := ikcpSend_pieces kcp buffer len
  obtain ⟨queue, count, heq⟩ := ikcpSend_queue kcp buffer len
  rw [heq] at hpieces ⊢
  refine ⟨h.mtu, h.mss, fun seg hseg => ?_, h.buf⟩
  rcases hpieces seg hseg with hold | hpiece
  · exact h.queue seg hold
  · exact ⟨kcp.mtu, h.mtu, Nat.le_trans (Nat.add_le_add_left hpiece.len _) h.mss⟩

/-- Reading takes nothing from the send side, also where it only looks. -/
theorem ikcpRecv_snd (kcp : Ikcpcb) (len : Int) :
    (ikcpRecv kcp len).1.setup = kcp.setup ∧ (ikcpRecv kcp len).1.sndSide = kcp.sndSide := by
  by_cases hlen : 0 ≤ len
  · obtain ⟨hsetup, hside, -⟩ := recv_frame kcp hlen
    exact ⟨hsetup, hside⟩
  · obtain ⟨hsetup, hside, -⟩ := moveRcvBuf_frame kcp
    unfold ikcpRecv
    split
    · exact ⟨rfl, rfl⟩
    · simp only [if_pos (Int.not_le.mp hlen)]
      split
      · exact ⟨rfl, rfl⟩
      · split
        · exact ⟨rfl, rfl⟩
        · split
          · exact ⟨hsetup, hside⟩
          · exact ⟨hsetup, hside⟩

theorem CutFor.flushing (h : CutFor mtus kcp) : CutFor mtus (flushing kcp) := by
  obtain ⟨wait, ts, hctl⟩ := flushControl_frame kcp
  obtain ⟨hsetup, -, -, moved, new, hmoved, -⟩ := moveSndQueue_spec
    (flushCwnd (flushControl kcp).1) (UInt32.ofNat (ikcpWndUnused kcp))
    (flushControl kcp).1.sndQueue (flushControl kcp).1 rfl
  have hcontrol : CutFor mtus (flushControl kcp).1 := by
    rw [hctl]
    exact ⟨h.mtu, h.mss, h.queue, h.buf⟩
  have hmtu : (CppDemos.flushing kcp).mtu = (flushControl kcp).1.mtu := congrArg Setup.mtu hsetup
  have hmss : (CppDemos.flushing kcp).mss = (flushControl kcp).1.mss := congrArg Setup.mss hsetup
  have hqueue := hcontrol.queue
  rw [hmoved.queue] at hqueue
  refine ⟨hmtu ▸ hcontrol.mtu, ?_, fun seg hseg => hqueue seg (List.mem_append_right _ hseg), ?_⟩
  · rw [hmtu, hmss]
    exact hcontrol.mss
  · intro c hc
    rw [CppDemos.flushing, hmoved.sndBuf] at hc
    rcases List.mem_append.mp hc with hc | hc
    · exact hcontrol.buf c hc
    · obtain ⟨j, hj⟩ := List.mem_iff_getElem?.mp hc
      rw [numbered_getElem?] at hj
      obtain ⟨seg, hseg, rfl⟩ := Option.map_eq_some_iff.mp hj
      exact hqueue seg (List.mem_append_left _ (List.mem_of_getElem? hseg))

theorem CutFor.flushSegs (h : CutFor mtus kcp) :
    ∀ seg ∈ flushSegs kcp, ∃ m ∈ mtus, seg.size ≤ m.toNat := by
  intro seg hseg
  rcases List.mem_append.mp hseg with hctl | hdata
  · have hempty : seg.data = [] := by
      rcases flushSegs_control hctl [] with ⟨hctl, -⟩ | ⟨hctl, -⟩ | ⟨-, -, s, hs, -⟩
      · exact hctl.data
      · exact hctl.data
      · cases hs
    refine ⟨kcp.mtu, h.mtu, ?_⟩
    rw [IkcpSeg.size, IkcpSeg.len, hempty]
    exact Nat.le_trans (Nat.le_add_right _ _) h.mss
  · obtain ⟨segment, hmem, hdue⟩ := List.mem_filterMap.mp hdata
    obtain ⟨m, hm, hle⟩ := h.flushing.buf _ (List.mem_map_of_mem hmem)
    have hdata : seg.core.data = segment.core.data := congrArg IkcpSeg.data (dueSeg_core hdue).1
    have hsize : seg.size = segment.core.size := congrArg (ikcpOverhead + ·.length) hdata
    exact ⟨m, hm, hsize ▸ hle⟩

theorem CutFor.flush (h : CutFor mtus kcp) : CutFor mtus (ikcpFlush kcp).1 := by
  by_cases hupdated : kcp.updated = 0
  · rw [ikcpFlush, if_pos hupdated]
    exact h
  · obtain ⟨-, hqueue, hbuf⟩ := ikcpFlush_block hupdated
    obtain ⟨hsetup, -⟩ := ikcpFlush_frame kcp
    have hmtu : (ikcpFlush kcp).1.mtu = kcp.mtu := congrArg Setup.mtu hsetup
    have hmss : (ikcpFlush kcp).1.mss = kcp.mss := congrArg Setup.mss hsetup
    refine ⟨hmtu ▸ h.mtu, by rw [hmtu, hmss]; exact h.mss, hqueue ▸ h.flushing.queue, ?_⟩
    intro c hc
    rw [hbuf, List.map_map] at hc
    obtain ⟨segment, hmem, rfl⟩ := List.mem_map.mp hc
    have hold := h.flushing.buf _ (List.mem_map_of_mem hmem)
    -- the data is the same, whether the segment was due or not
    rw [Function.comp_apply]
    cases hdue : dueSeg (CppDemos.flushing kcp) (flushResent (CppDemos.flushing kcp))
        (flushRtomin (CppDemos.flushing kcp)) (UInt32.ofNat (ikcpWndUnused kcp)) segment with
    | none => exact hold
    | some due =>
        rw [Option.getD_some, (dueSeg_core hdue).1]
        exact hold

theorem ikcpWndsize_frame (kcp : Ikcpcb) (sndwnd rcvwnd : Int32) :
    ∃ snd rcv, ikcpWndsize kcp sndwnd rcvwnd = { kcp with sndWnd := snd, rcvWnd := rcv } := by
  unfold ikcpWndsize
  split <;> split <;> exact ⟨_, _, rfl⟩

theorem ikcpNodelay_frame (kcp : Ikcpcb) (delay interval resend nc : Int32) :
    ∃ (nodelay interval' : UInt32) (rxMinrto fastresend nocwnd : Int32),
      ikcpNodelay kcp delay interval resend nc = { kcp with
        nodelay := nodelay
        interval := interval'
        rxMinrto := rxMinrto
        fastresend := fastresend
        nocwnd := nocwnd } := by
  unfold ikcpNodelay
  simp only
  split <;> split <;> split <;> split <;> exact ⟨_, _, _, _, _, rfl⟩

/-- An MTU that `ikcp_setmtu` takes leaves room for data behind the header. -/
theorem setmtu_mss {mtu : Int32} (h : ¬ mtu < 50) :
    ikcpOverhead + (mtu.toUInt32 - UInt32.ofNat ikcpOverhead).toNat ≤ mtu.toUInt32.toNat := by
  have hint : 50 ≤ mtu.toInt := by
    rw [Int32.lt_iff_toInt_lt] at h
    exact Int.not_lt.mp h
  have hnat := toNat_toUInt32 (a := mtu) (by omega)
  have hover : (UInt32.ofNat ikcpOverhead).toNat = 24 := rfl
  have hsize : ikcpOverhead = 24 := rfl
  rw [UInt32.toNat_sub_of_le _ _ (UInt32.le_iff_toNat_le.mpr (by omega)), hover, hsize]
  omega

theorem CutFor.call (h : CutFor mtus kcp) {c : KcpCall} (hc : c.Sets mtus) :
    CutFor mtus (c.on kcp) := by
  cases c with
  | send buffer len => exact h.send buffer len
  | recv len =>
      obtain ⟨hsetup, hside⟩ := ikcpRecv_snd kcp len
      exact h.trim (.of_eq hsetup hside)
  | input data =>
      exact ikcpInput_induct
        (fun st conv head payload hst => hst.trim (inputSeg_sndBuf st conv head payload).1)
        (fun prevUna st hst => hst.trim (inputFinish_frame prevUna st).1) h data
  | update current =>
      obtain ⟨updated, tsFlush, heq | heq⟩ := ikcpUpdate_cases kcp current
      · rw [KcpCall.on, heq]
        exact ⟨h.mtu, h.mss, h.queue, h.buf⟩
      · rw [KcpCall.on, heq]
        have hclock : CutFor mtus
            { kcp with current := current, updated := updated, tsFlush := tsFlush } :=
          ⟨h.mtu, h.mss, h.queue, h.buf⟩
        exact hclock.flush
  | setmtu mtu allocated =>
      rw [KcpCall.on, ikcpSetmtu]
      split
      · exact h
      · split
        · exact h
        · rename_i hrange _
          refine ⟨hc, ?_, h.queue, h.buf⟩
          exact setmtu_mss (not_or.mp hrange).1
  | wndsize sndwnd rcvwnd =>
      obtain ⟨_, _, heq⟩ := ikcpWndsize_frame kcp sndwnd rcvwnd
      rw [KcpCall.on, heq]
      exact ⟨h.mtu, h.mss, h.queue, h.buf⟩
  | nodelay delay interval resend nc =>
      obtain ⟨_, _, _, _, _, heq⟩ := ikcpNodelay_frame kcp delay interval resend nc
      rw [KcpCall.on, heq]
      exact ⟨h.mtu, h.mss, h.queue, h.buf⟩

/-! ## Any calls -/

theorem CutFor.after (h : CutFor mtus kcp) {cs : List KcpCall} (hcs : ∀ c ∈ cs, c.Sets mtus) :
    CutFor mtus (kcp.after cs) := by
  induction cs generalizing kcp with
  | nil => exact h
  | cons c cs ih =>
      obtain ⟨hc, hcs⟩ := List.forall_mem_cons.mp hcs
      exact ih (h.call hc) hcs

theorem ikcpInit_cutFor (hdef : ikcpMtuDef ∈ mtus) (conv : UInt32) (mem : Leftover) :
    CutFor mtus (ikcpInit conv mem) := by
  have hmss : ikcpOverhead + (ikcpMtuDef - UInt32.ofNat ikcpOverhead).toNat ≤ ikcpMtuDef.toNat := by
    decide
  exact ⟨hdef, hmss, fun _ h => (List.not_mem_nil h).elim, fun _ h => (List.not_mem_nil h).elim⟩

/-- Where each MTU fits in the buffers of the others, an update stays within its
buffer. -/
theorem CutFor.updateReach_le (h : CutFor mtus kcp)
    (hfit : ∀ m ∈ mtus, ∀ m' ∈ mtus, m.toNat ≤ bufferBytes m') (current : UInt32) :
    updateReach kcp current ≤ bufferBytes kcp.mtu := by
  rcases updateReach_cases kcp current with hzero | ⟨updated, tsFlush, heq⟩
  · rw [hzero]
    exact Nat.zero_le _
  · rw [heq]
    have hclock : CutFor mtus
        { kcp with current := current, updated := updated, tsFlush := tsFlush } :=
      ⟨h.mtu, h.mss, h.queue, h.buf⟩
    by_cases hupdated : updated = 0
    · rw [flushReach, if_pos hupdated]
      exact Nat.zero_le _
    · refine (@flushReach_le_iff
        { kcp with current := current, updated := updated, tsFlush := tsFlush } hupdated
        (hfit _ h.mtu _ h.mtu)).mpr fun seg hseg => ?_
      obtain ⟨m, hm, hle⟩ := hclock.flushSegs seg hseg
      exact Nat.le_trans hle (hfit m hm _ h.mtu)

/-! ### A smaller MTU -/

theorem ikcpSetmtu_eq (kcp : Ikcpcb) {m : UInt32} (hm : 50 ≤ m.toNat ∧ m.toNat < 2 ^ 31) :
    (ikcpSetmtu kcp m.toInt32 true).1
      = { kcp with mtu := m, mss := m - UInt32.ofNat ikcpOverhead } := by
  have hint := toInt_toInt32 hm.2
  have hlow : ¬ m.toInt32 < 50 := by
    rw [Int32.lt_iff_toInt_lt, hint]
    exact Int.not_lt.mpr (Int.ofNat_le.mpr hm.1)
  have hover : ¬ m.toInt32 < Int32.ofNat ikcpOverhead := by
    rw [Int32.lt_iff_toInt_lt, hint]
    exact Int.not_lt.mpr (Int.ofNat_le.mpr (Nat.le_trans (by decide) hm.1))
  simp [ikcpSetmtu, hlow, hover]

theorem ikcpSend_one {buffer : Bytes} (hstream : kcp.stream = 0)
    (hlen : buffer.length ≤ kcp.mss.toNat) :
    (ikcpSend kcp buffer buffer.length).1 = queueSnd kcp [{ data := buffer }] := by
  have hw : ¬ (1 : Nat) ≥ ikcpWndRcv.toNat := by decide
  rw [ikcpSend, if_neg (Int.not_lt.mpr (Int.natCast_nonneg _))]
  simp [hstream, sendCount, hlen, sendLoop, queueSnd, hw, Nat.not_lt.mpr hlen]

/-- A datagram's worth is queued, and then the MTU is lowered. -/
def shrinkMtu (m m' : UInt32) : List KcpCall :=
  let buffer : Bytes := List.replicate (m.toNat - ikcpOverhead) 0
  [.setmtu m.toInt32 true, .nodelay (-1) (-1) (-1) 1, .send buffer buffer.length,
    .setmtu m'.toInt32 true]

theorem shrinkMtu_after {m m' : UInt32} (hm : 50 ≤ m.toNat ∧ m.toNat < 2 ^ 31)
    (hm' : 50 ≤ m'.toNat ∧ m'.toNat < 2 ^ 31) (conv : UInt32) (mem : Leftover) :
    (ikcpInit conv mem).after (shrinkMtu m m') = { ikcpInit conv mem with
      mtu := m'
      mss := m' - UInt32.ofNat ikcpOverhead
      nocwnd := 1
      sndQueue := [{ data := List.replicate (m.toNat - ikcpOverhead) 0 }]
      nsndQue := 1 } := by
  have hover : (UInt32.ofNat ikcpOverhead).toNat = ikcpOverhead := rfl
  have hmss : (m - UInt32.ofNat ikcpOverhead).toNat = m.toNat - ikcpOverhead := by
    rw [UInt32.toNat_sub_of_le _ _ (UInt32.le_iff_toNat_le.mpr ?_), hover]
    exact Nat.le_trans (by decide) hm.1
  have hdelay (k : Ikcpcb) : ikcpNodelay k (-1) (-1) (-1) 1 = { k with nocwnd := 1 } := rfl
  simp only [Ikcpcb.after, shrinkMtu, List.foldl_cons, List.foldl_nil, KcpCall.on,
    ikcpSetmtu_eq _ hm, ikcpSetmtu_eq _ hm', hdelay]
  rw [ikcpSend_one rfl (by rw [List.length_replicate]; exact hmss.ge)]
  rfl

theorem updateReach_first (h : kcp.updated = 0) (current : UInt32) :
    ∃ tsFlush, updateReach kcp current
      = flushReach { kcp with current := current, updated := 1, tsFlush := tsFlush } := by
  refine ⟨nextFlush { kcp with current := current, updated := 1, tsFlush := current }, ?_⟩
  unfold updateReach updateClock
  simp [h, clockJumped, itimediff_self]

/-- The segment goes out in the first flush, as long as it is. -/
theorem shrinkMtu_reach {m m' : UInt32} (hm : 50 ≤ m.toNat ∧ m.toNat < 2 ^ 31)
    (hm' : 50 ≤ m'.toNat ∧ m'.toNat < 2 ^ 31) (conv : UInt32) {mem : Leftover}
    (hmem : mem.updated = 0) (current : UInt32) :
    m.toNat ≤ updateReach ((ikcpInit conv mem).after (shrinkMtu m m')) current := by
  rw [shrinkMtu_after hm hm']
  generalize hseg : ({ data := List.replicate (m.toNat - ikcpOverhead) 0 } : IkcpSeg) = seg
  obtain ⟨tsFlush, heq⟩ := @updateReach_first { ikcpInit conv mem with
      mtu := m'
      mss := m' - UInt32.ofNat ikcpOverhead
      nocwnd := 1
      sndQueue := [seg]
      nsndQue := 1 } hmem current
  rw [heq]
  generalize hkcp : ({ ikcpInit conv mem with
      mtu := m'
      mss := m' - UInt32.ofNat ikcpOverhead
      nocwnd := 1
      sndQueue := [seg]
      nsndQue := 1
      current := current
      updated := 1
      tsFlush := tsFlush } : Ikcpcb) = kcp
  obtain ⟨wait, ts, hctl⟩ := flushControl_frame kcp
  have hbuf : ∃ segment, (flushing kcp).sndBuf = [segment] ∧ segment.xmit = 0 ∧
      segment.data = seg.data := by
    refine ⟨?_, ?_, ?_, ?_⟩
    rotate_left
    · rw [flushing, hctl, ← hkcp]
      rfl
    · rfl
    · rfl
  obtain ⟨segment, hone, hxmit, hdata⟩ := hbuf
  obtain ⟨due, hdue⟩ := dueSeg_of_due (Or.inl hxmit) (flushResent (flushing kcp))
    (flushRtomin (flushing kcp)) (UInt32.ofNat (ikcpWndUnused kcp))
  have hmem : due ∈ flushSegs kcp :=
    List.mem_append_right _ (List.mem_filterMap.mpr ⟨segment, by simp [hone], hdue⟩)
  have hcore : due.core.data = segment.core.data := congrArg IkcpSeg.data (dueSeg_core hdue).1
  have hsize : due.size = m.toNat := by
    have hlen : due.data.length = m.toNat - ikcpOverhead := by
      have hsame : due.data = seg.data := hcore.trans hdata
      rw [hsame, ← hseg, List.length_replicate]
    rw [IkcpSeg.size, IkcpSeg.len, hlen]
    exact Nat.add_sub_of_le (Nat.le_trans (by decide) hm.1)
  have hupdated : kcp.updated ≠ 0 := by
    have hone : (1 : UInt32) ≠ 0 := by decide
    rw [← hkcp]
    exact hone
  rw [flushReach, if_neg hupdated, ← hsize]
  exact OutBuf.size_le_reach hmem _

/-- The MTUs that may be set: after any series of calls `ikcp_update` writes within
the buffer it has, if and only if each of them fits in the buffers allocated for
the others. -/
theorem writes_in_bounds_iff (hdef : ikcpMtuDef ∈ mtus)
    (hmtus : ∀ m ∈ mtus, 50 ≤ m.toNat ∧ m.toNat < 2 ^ 31) :
    (∀ (conv : UInt32) (mem : Leftover) (cs : List KcpCall) (current : UInt32),
      (∀ c ∈ cs, c.Sets mtus) → updateReach ((ikcpInit conv mem).after cs) current
        ≤ bufferBytes ((ikcpInit conv mem).after cs).mtu) ↔
    ∀ m ∈ mtus, ∀ m' ∈ mtus, m.toNat ≤ bufferBytes m' := by
  constructor
  · intro h m hm m' hm'
    have hreach := @shrinkMtu_reach m m' (hmtus m hm) (hmtus m' hm') 0 ⟨0, 0, 0⟩ rfl 0
    have hback (k : UInt32) : k.toInt32.toUInt32 = k := UInt32.toUInt32_toInt32 k
    have hle := h 0 ⟨0, 0, 0⟩ (shrinkMtu m m') 0 (by
      simp only [shrinkMtu, List.forall_mem_cons, KcpCall.Sets, hback]
      simp [hm, hm'])
    rw [shrinkMtu_after (hmtus m hm) (hmtus m' hm')] at hreach hle
    exact Nat.le_trans hreach hle
  · intro hfit conv mem cs current hcs
    exact ((ikcpInit_cutFor hdef conv mem).after hcs).updateReach_le hfit current

/-- With the least MTU `ikcp_setmtu` takes, and the default. -/
theorem writes_in_bounds_iff_least :
    ¬ ∀ (conv : UInt32) (mem : Leftover) (cs : List KcpCall) (current : UInt32),
      (∀ c ∈ cs, c.Sets {ikcpMtuDef, 50}) → updateReach ((ikcpInit conv mem).after cs) current
        ≤ bufferBytes ((ikcpInit conv mem).after cs).mtu := by
  have hmtus : ∀ m ∈ ({ikcpMtuDef, 50} : Set UInt32), 50 ≤ m.toNat ∧ m.toNat < 2 ^ 31 := by
    rintro m (rfl | rfl)
    · decide
    · decide
  rw [writes_in_bounds_iff (Set.mem_insert _ _) hmtus]
  intro h
  have hover := h ikcpMtuDef (Set.mem_insert _ _) 50 (Set.mem_insert_of_mem _ rfl)
  revert hover
  decide

end CppDemos
