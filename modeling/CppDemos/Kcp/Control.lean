import Mathlib.Tactic.Common
import CppDemos.Lib.Serial

/-!
# The KCP control block

The data of `ikcp.h` (`IKCPSEG`, `IKCPCB`), the constants at the top of
`ikcp.c`, and the functions that set a control block up: `ikcp_create`,
`ikcp_wndsize`, `ikcp_nodelay`.

Sequence numbers, timestamps and windows are 32-bit words; the signed fields
(`IINT32`, `int`) are `Int32`, whose arithmetic wraps. The four queues are
lists, front first, and their counters are plain numbers. A segment's `len` is
the length of its payload, so the two cannot disagree.

`ikcp_create` does not write every field of the block it allocates: what was
in the memory before is the argument `Leftover`. The logging fields are left
out, since `writelog` is NULL in every control block this repository makes and
`ikcp_canlog` then answers 0.
-/

namespace CppDemos

/-- Raw bytes: a buffer, a payload or a datagram. -/
abbrev Bytes := List UInt8

/-! ## Constants -/

def ikcpRtoNdl : Int32 := 30
def ikcpRtoMin : Int32 := 100
def ikcpRtoDef : Int32 := 200
def ikcpRtoMax : UInt32 := 60000
def ikcpCmdPush : UInt32 := 81
def ikcpCmdAck : UInt32 := 82
def ikcpCmdWask : UInt32 := 83
def ikcpCmdWins : UInt32 := 84
def ikcpAskSend : UInt32 := 1
def ikcpAskTell : UInt32 := 2
def ikcpWndSnd : UInt32 := 32
def ikcpWndRcv : UInt32 := 128
def ikcpMtuDef : UInt32 := 1400
def ikcpInterval : UInt32 := 100
def ikcpOverhead : Nat := 24
def ikcpDeadlink : UInt32 := 20
def ikcpThreshMin : UInt32 := 2
def ikcpProbeInit : UInt32 := 7000
def ikcpProbeLimit : UInt32 := 120000
def ikcpFastackLimit : Int32 := 5

/-! ## Word arithmetic -/

def imin (a b : UInt32) : UInt32 := if a ≤ b then a else b

def imax (a b : UInt32) : UInt32 := if a ≥ b then a else b

def ibound (lower middle upper : UInt32) : UInt32 := imin (imax lower middle) upper

/-- `_itimediff`: the difference of two words, read as a signed word. -/
def itimediff (later earlier : UInt32) : Int := (later - earlier).toInt32.toInt

theorem itimediff_eq_diff (later earlier : UInt32) :
    itimediff later earlier = Serial.diff later.toBitVec earlier.toBitVec := rfl

theorem itimediff_self (a : UInt32) : itimediff a a = 0 := by
  rw [itimediff, UInt32.sub_self]
  rfl

theorem itimediff_add_right {later earlier d : UInt32} (hd : d.toNat < 2 ^ 31)
    (h : -2 ^ 31 ≤ itimediff later earlier - d.toNat) :
    itimediff later (earlier + d) = itimediff later earlier - d.toNat := by
  rw [itimediff_eq_diff] at h
  rw [itimediff_eq_diff, itimediff_eq_diff, UInt32.toBitVec_add]
  refine Serial.diff_add_right (d := d.toBitVec) ?_ ?_
  · rw [UInt32.toNat_toBitVec]
    omega
  · rw [UInt32.toNat_toBitVec]
    omega

theorem itimediff_add_left {later earlier d : UInt32} (hd : d.toNat < 2 ^ 31)
    (h : itimediff later earlier + d.toNat < 2 ^ 31) :
    itimediff (later + d) earlier = itimediff later earlier + d.toNat := by
  rw [itimediff_eq_diff] at h
  rw [itimediff_eq_diff, itimediff_eq_diff, UInt32.toBitVec_add]
  refine Serial.diff_add_left (d := d.toBitVec) ?_ ?_
  · rw [UInt32.toNat_toBitVec]
    omega
  · rw [UInt32.toNat_toBitVec]
    omega

theorem itimediff_swap {a b : UInt32} (h : itimediff a b ≠ -2 ^ 31) :
    itimediff b a = -itimediff a b := by
  rw [itimediff_eq_diff] at h
  rw [itimediff_eq_diff, itimediff_eq_diff]
  exact Serial.diff_swap (by omega)

/-- Distance of `sn` above `base` in the 32-bit sequence space. -/
def snOffset (base sn : UInt32) : Nat := (sn - base).toNat

theorem snOffset_eq_offset (base sn : UInt32) :
    snOffset base sn = Serial.offset base.toBitVec sn.toBitVec := rfl

/-- Below `2 ^ 31` the word comparison is the integer comparison. -/
theorem itimediff_eq_sub {a b : UInt32} (ha : a.toNat < 2 ^ 31) (hb : b.toNat < 2 ^ 31) :
    itimediff a b = (a.toNat : Int) - b.toNat := by
  rw [itimediff_eq_diff]
  apply Serial.diff_eq_sub
  · rw [UInt32.toNat_toBitVec]; omega
  · rw [UInt32.toNat_toBitVec]; omega

/-- The window check of `ikcp_parse_data` as one bound. -/
theorem itimediff_window {base sn wnd : UInt32} (hwnd : wnd.toNat < 2 ^ 31) :
    (itimediff sn (base + wnd) < 0 ∧ 0 ≤ itimediff sn base) ↔
      snOffset base sn < wnd.toNat := by
  rw [itimediff_eq_diff, itimediff_eq_diff, snOffset_eq_offset, UInt32.toBitVec_add]
  apply Serial.window_iff
  rw [UInt32.toNat_toBitVec]
  omega

theorem snOffset_eq_zero {base sn : UInt32} : snOffset base sn = 0 ↔ sn = base := by
  rw [snOffset_eq_offset, Serial.offset_eq_zero, UInt32.toBitVec_inj]

theorem snOffset_injective {base a b : UInt32} (h : snOffset base a = snOffset base b) :
    a = b :=
  UInt32.toBitVec_inj.mp (Serial.offset_injective h)

theorem snOffset_succ {base sn : UInt32} (h : snOffset base sn ≠ 0) :
    snOffset (base + 1) sn = snOffset base sn - 1 :=
  Serial.offset_succ h

theorem itimediff_pos_iff {base a b : UInt32} (ha : snOffset base a < 2 ^ 31)
    (hb : snOffset base b < 2 ^ 31) :
    0 < itimediff a b ↔ snOffset base b < snOffset base a := by
  rw [snOffset_eq_offset] at ha hb
  rw [itimediff_eq_diff, snOffset_eq_offset, snOffset_eq_offset]
  exact Serial.diff_pos_iff (by omega) (by omega)

theorem toNat_toBitVec_ofNat {n : Nat} (h : n < 2 ^ 32) :
    (UInt32.ofNat n).toBitVec.toNat = n := by
  rw [UInt32.toNat_toBitVec, UInt32.toNat_ofNat', Nat.mod_eq_of_lt h]

theorem snOffset_ofNat (base : UInt32) {n : Nat} (h : n < 2 ^ 32) :
    snOffset base (base + UInt32.ofNat n) = n := by
  rw [snOffset, UInt32.add_comm, UInt32.add_sub_cancel, UInt32.toNat_ofNat',
    Nat.mod_eq_of_lt h]

theorem snOffset_add {base sn : UInt32} {n : Nat}
    (h : snOffset (base + UInt32.ofNat n) sn + n < 2 ^ 32) :
    snOffset base sn = snOffset (base + UInt32.ofNat n) sn + n := by
  have hadd := Serial.offset_add base.toBitVec sn.toBitVec (UInt32.ofNat n).toBitVec
  rw [toNat_toBitVec_ofNat (by omega), ← UInt32.toBitVec_add] at hadd
  exact hadd h

theorem itimediff_nonneg_iff (base sn : UInt32) :
    0 ≤ itimediff sn base ↔ snOffset base sn < 2 ^ 31 := by
  rw [itimediff_eq_diff, snOffset_eq_offset, Serial.diff_nonneg_iff]
  omega

theorem itimediff_of_nonneg {base sn : UInt32} (h : 0 ≤ itimediff sn base) :
    itimediff sn base = snOffset base sn := by
  rw [itimediff_eq_diff] at h
  rw [itimediff_eq_diff, Serial.diff_eq, if_pos (Serial.diff_nonneg_iff.mp h), snOffset_eq_offset]

theorem snOffset_lt (base sn : UInt32) : snOffset base sn < 2 ^ 32 := (sn - base).toNat_lt

theorem snOffset_sub {base sn : UInt32} {n : Nat} (h : n ≤ snOffset base sn) :
    snOffset (base + UInt32.ofNat n) sn = snOffset base sn - n := by
  have hlt := snOffset_lt base sn
  have hsub := Serial.offset_sub base.toBitVec sn.toBitVec (UInt32.ofNat n).toBitVec
  rw [toNat_toBitVec_ofNat (by omega), ← UInt32.toBitVec_add] at hsub
  exact hsub h

theorem snOffset_sub_of_lt {base sn : UInt32} {n : Nat} (h : snOffset base sn < n)
    (hn : n < 2 ^ 32) :
    snOffset (base + UInt32.ofNat n) sn = 2 ^ 32 - (n - snOffset base sn) := by
  have hsub := Serial.offset_sub_of_lt base.toBitVec sn.toBitVec (UInt32.ofNat n).toBitVec
  rw [toNat_toBitVec_ofNat hn, ← UInt32.toBitVec_add] at hsub
  exact hsub h

/-! ## Segments and the control block -/

/-- `IKCPSEG`. Fields that `malloc` leaves unset are always written before they
are read, and start as 0 here. -/
structure IkcpSeg where
  conv : UInt32 := 0
  cmd : UInt32 := 0
  frg : UInt32 := 0
  wnd : UInt32 := 0
  ts : UInt32 := 0
  sn : UInt32 := 0
  una : UInt32 := 0
  resendts : UInt32 := 0
  rto : UInt32 := 0
  fastack : UInt32 := 0
  xmit : UInt32 := 0
  data : Bytes := []
deriving DecidableEq, Repr

/-- `seg->len`. -/
def IkcpSeg.len (seg : IkcpSeg) : Nat := seg.data.length

structure Ikcpcb where
  conv : UInt32
  mtu : UInt32
  mss : UInt32
  state : UInt32
  sndUna : UInt32
  sndNxt : UInt32
  rcvNxt : UInt32
  ssthresh : UInt32
  rxRttval : Int32
  rxSrtt : Int32
  rxRto : Int32
  rxMinrto : Int32
  sndWnd : UInt32
  rcvWnd : UInt32
  rmtWnd : UInt32
  cwnd : UInt32
  probe : UInt32
  current : UInt32
  interval : UInt32
  tsFlush : UInt32
  xmit : UInt32
  nrcvBuf : Nat
  nsndBuf : Nat
  nrcvQue : Nat
  nsndQue : Nat
  nodelay : UInt32
  updated : UInt32
  tsProbe : UInt32
  probeWait : UInt32
  deadLink : UInt32
  incr : UInt32
  sndQueue : List IkcpSeg
  rcvQueue : List IkcpSeg
  sndBuf : List IkcpSeg
  rcvBuf : List IkcpSeg
  acklist : List (UInt32 × UInt32)
  fastresend : Int32
  fastlimit : Int32
  nocwnd : Int32
  stream : Int32
deriving DecidableEq, Repr

/-- The part of the block that receiving data works on. -/
structure RcvSide where
  rcvNxt : UInt32
  rcvWnd : UInt32
  nrcvBuf : Nat
  nrcvQue : Nat
  rcvQueue : List IkcpSeg
  rcvBuf : List IkcpSeg

def Ikcpcb.rcvSide (kcp : Ikcpcb) : RcvSide :=
  ⟨kcp.rcvNxt, kcp.rcvWnd, kcp.nrcvBuf, kcp.nrcvQue, kcp.rcvQueue, kcp.rcvBuf⟩

/-- The part of the block that names what is still to be sent and under which
numbers. -/
structure SndSide where
  sndNxt : UInt32
  nsndQue : Nat
  sndQueue : List IkcpSeg
  sndBuf : List IkcpSeg

def Ikcpcb.sndSide (kcp : Ikcpcb) : SndSide :=
  ⟨kcp.sndNxt, kcp.nsndQue, kcp.sndQueue, kcp.sndBuf⟩

/-- The settings nothing changes once the block is set up. -/
structure Setup where
  conv : UInt32
  mtu : UInt32
  mss : UInt32
  sndWnd : UInt32
  nocwnd : Int32
  stream : Int32
deriving DecidableEq

def Ikcpcb.setup (kcp : Ikcpcb) : Setup :=
  ⟨kcp.conv, kcp.mtu, kcp.mss, kcp.sndWnd, kcp.nocwnd, kcp.stream⟩

/-- What the allocated block held in the fields `ikcp_create` does not set. -/
structure Leftover where
  ssthresh : UInt32
  current : UInt32
  updated : UInt32
deriving DecidableEq, Repr

/-- The two allocations of `ikcp_create`: the block (`none` when `malloc`
returns NULL) and whether the send buffer was obtained. -/
structure Alloc where
  block : Option Leftover
  buffer : Bool
deriving DecidableEq, Repr

/-- The block as `ikcp_create` leaves it once both allocations succeed. -/
def ikcpInit (conv : UInt32) (mem : Leftover) : Ikcpcb where
  conv := conv
  sndUna := 0
  sndNxt := 0
  rcvNxt := 0
  tsProbe := 0
  probeWait := 0
  sndWnd := ikcpWndSnd
  rcvWnd := ikcpWndRcv
  rmtWnd := ikcpWndRcv
  cwnd := 0
  incr := 0
  probe := 0
  mtu := ikcpMtuDef
  mss := ikcpMtuDef - UInt32.ofNat ikcpOverhead
  stream := 0
  sndQueue := []
  rcvQueue := []
  sndBuf := []
  rcvBuf := []
  nrcvBuf := 0
  nsndBuf := 0
  nrcvQue := 0
  nsndQue := 0
  state := 0
  acklist := []
  rxSrtt := 0
  rxRttval := 0
  rxRto := ikcpRtoDef
  rxMinrto := ikcpRtoMin
  interval := ikcpInterval
  tsFlush := ikcpInterval
  nodelay := 0
  fastresend := 0
  fastlimit := ikcpFastackLimit
  nocwnd := 0
  xmit := 0
  deadLink := ikcpDeadlink
  ssthresh := mem.ssthresh
  current := mem.current
  updated := mem.updated

/-- `ikcp_create`: `none` is NULL. -/
def ikcpCreate (conv : UInt32) (alloc : Alloc) : Option Ikcpcb :=
  match alloc.block with
  | none => none
  | some mem => if alloc.buffer then some (ikcpInit conv mem) else none

def ikcpWndsize (kcp : Ikcpcb) (sndwnd rcvwnd : Int32) : Ikcpcb :=
  let kcp := if sndwnd > 0 then { kcp with sndWnd := sndwnd.toUInt32 } else kcp
  if rcvwnd > 0 then { kcp with rcvWnd := imax rcvwnd.toUInt32 ikcpWndRcv } else kcp

def ikcpNodelay (kcp : Ikcpcb) (nodelay interval resend nc : Int32) : Ikcpcb :=
  let kcp :=
    if nodelay ≥ 0 then
      { kcp with
        nodelay := nodelay.toUInt32
        rxMinrto := if nodelay ≠ 0 then ikcpRtoNdl else ikcpRtoMin }
    else kcp
  let kcp :=
    if interval ≥ 0 then
      let interval := if interval > 5000 then 5000 else if interval < 10 then 10 else interval
      { kcp with interval := interval.toUInt32 }
    else kcp
  let kcp := if resend ≥ 0 then { kcp with fastresend := resend } else kcp
  if nc ≥ 0 then { kcp with nocwnd := nc } else kcp

end CppDemos
