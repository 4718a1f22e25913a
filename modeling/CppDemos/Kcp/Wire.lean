import CppDemos.Lib.LittleEndian
import CppDemos.Kcp.Control

/-!
# The wire format

The `ikcp_encode*` and `ikcp_decode*` functions on byte strings, the 24-byte
segment header, and what a datagram made of segments looks like (`segBytes`,
`datagram`). A decoder takes the bytes from its pointer on and returns the
value with the advanced pointer.

`decodeHead_segBytes` is the round trip: a header written by
`ikcp_encode_seg` reads back field by field, as long as the fields fit their
narrower wire types (`WireOk`).
-/

namespace CppDemos

open LittleEndian

/-! ## Words -/

def ikcpEncode8u (c : UInt8) : Bytes := [c]

def ikcpEncode16u (w : UInt16) : Bytes := toLE 2 w.toNat

def ikcpEncode32u (l : UInt32) : Bytes := toLE 4 l.toNat

def ikcpDecode8u (p : Bytes) : UInt8 × Bytes := (UInt8.ofNat (ofLE (p.take 1)), p.drop 1)

def ikcpDecode16u (p : Bytes) : UInt16 × Bytes := (UInt16.ofNat (ofLE (p.take 2)), p.drop 2)

def ikcpDecode32u (p : Bytes) : UInt32 × Bytes := (UInt32.ofNat (ofLE (p.take 4)), p.drop 4)

@[simp] theorem ikcpDecode8u_encode (c : UInt8) (p : Bytes) :
    ikcpDecode8u (ikcpEncode8u c ++ p) = (c, p) := by
  simp [ikcpDecode8u, ikcpEncode8u, ofLE]

@[simp] theorem ikcpDecode16u_encode (w : UInt16) (p : Bytes) :
    ikcpDecode16u (ikcpEncode16u w ++ p) = (w, p) := by
  have h : w.toNat < 256 ^ 2 := w.toNat_lt
  rw [ikcpDecode16u, ikcpEncode16u, ofLE_take_toLE_append h, drop_toLE_append,
    UInt16.ofNat_toNat]

@[simp] theorem ikcpDecode32u_encode (l : UInt32) (p : Bytes) :
    ikcpDecode32u (ikcpEncode32u l ++ p) = (l, p) := by
  have h : l.toNat < 256 ^ 4 := l.toNat_lt
  rw [ikcpDecode32u, ikcpEncode32u, ofLE_take_toLE_append h, drop_toLE_append,
    UInt32.ofNat_toNat]

def ikcpGetconv (ptr : Bytes) : UInt32 := (ikcpDecode32u ptr).1

/-! ## Segment headers -/

def ikcpEncodeSeg (seg : IkcpSeg) : Bytes :=
  ikcpEncode32u seg.conv ++ (ikcpEncode8u seg.cmd.toUInt8 ++ (ikcpEncode8u seg.frg.toUInt8 ++
    (ikcpEncode16u seg.wnd.toUInt16 ++ (ikcpEncode32u seg.ts ++ (ikcpEncode32u seg.sn ++
      (ikcpEncode32u seg.una ++ ikcpEncode32u (UInt32.ofNat seg.len)))))))

@[simp] theorem length_ikcpEncodeSeg (seg : IkcpSeg) :
    (ikcpEncodeSeg seg).length = ikcpOverhead := by
  simp [ikcpEncodeSeg, ikcpEncode8u, ikcpEncode16u, ikcpEncode32u, ikcpOverhead]

/-- What `ikcp_input` decodes after the conversation id. -/
structure SegHead where
  cmd : UInt8
  frg : UInt8
  wnd : UInt16
  ts : UInt32
  sn : UInt32
  una : UInt32
  len : UInt32
deriving DecidableEq, Repr

/-- The decoding block of `ikcp_input` behind the conversation check. -/
def decodeHead (data : Bytes) : SegHead × Bytes :=
  let (cmd, data) := ikcpDecode8u data
  let (frg, data) := ikcpDecode8u data
  let (wnd, data) := ikcpDecode16u data
  let (ts, data) := ikcpDecode32u data
  let (sn, data) := ikcpDecode32u data
  let (una, data) := ikcpDecode32u data
  let (len, data) := ikcpDecode32u data
  (⟨cmd, frg, wnd, ts, sn, una, len⟩, data)

/-- One segment as `ikcp_flush` writes it: header, then payload. -/
def segBytes (seg : IkcpSeg) : Bytes := ikcpEncodeSeg seg ++ seg.data

def datagram (segs : List IkcpSeg) : Bytes := segs.flatMap segBytes

@[simp] theorem datagram_nil : datagram [] = [] := rfl

theorem datagram_cons (seg : IkcpSeg) (segs : List IkcpSeg) :
    datagram (seg :: segs) = segBytes seg ++ datagram segs := rfl

theorem datagram_concat (segs : List IkcpSeg) (seg : IkcpSeg) :
    datagram (segs ++ [seg]) = datagram segs ++ segBytes seg := by
  simp [datagram]

theorem length_segBytes (seg : IkcpSeg) :
    (segBytes seg).length = ikcpOverhead + seg.len := by
  simp [segBytes, IkcpSeg.len]

/-- The fields fit the types they have on the wire. -/
structure IkcpSeg.WireOk (seg : IkcpSeg) : Prop where
  cmd : seg.cmd.toNat < 2 ^ 8
  frg : seg.frg.toNat < 2 ^ 8
  wnd : seg.wnd.toNat < 2 ^ 16
  len : seg.len < 2 ^ 31

def IkcpSeg.head (seg : IkcpSeg) : SegHead :=
  ⟨seg.cmd.toUInt8, seg.frg.toUInt8, seg.wnd.toUInt16, seg.ts, seg.sn, seg.una,
    UInt32.ofNat seg.len⟩

/-- A written segment reads back: the conversation id first, then the header,
then the payload. -/
theorem decode_segBytes (seg : IkcpSeg) (rest : Bytes) :
    (ikcpDecode32u (segBytes seg ++ rest)).1 = seg.conv ∧
      decodeHead (ikcpDecode32u (segBytes seg ++ rest)).2 = (seg.head, seg.data ++ rest) := by
  simp [segBytes, ikcpEncodeSeg, decodeHead, IkcpSeg.head, List.append_assoc]

theorem IkcpSeg.WireOk.head_cmd {seg : IkcpSeg} (h : seg.WireOk) :
    seg.head.cmd.toUInt32 = seg.cmd := by
  apply UInt32.toNat_inj.mp
  have := h.cmd
  simp [IkcpSeg.head]
  omega

theorem IkcpSeg.WireOk.head_frg {seg : IkcpSeg} (h : seg.WireOk) :
    seg.head.frg.toUInt32 = seg.frg := by
  apply UInt32.toNat_inj.mp
  have := h.frg
  simp [IkcpSeg.head]
  omega

theorem IkcpSeg.WireOk.head_len {seg : IkcpSeg} (h : seg.WireOk) :
    seg.head.len.toNat = seg.len := by
  have := h.len
  simp only [IkcpSeg.head, UInt32.toNat_ofNat']
  omega

end CppDemos
