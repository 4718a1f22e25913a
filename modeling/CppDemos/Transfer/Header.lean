import Mathlib.Data.List.TakeWhile
import CppDemos.Kcp.Control
import CppDemos.Lib.LittleEndian

/-!
# KCPWrapper::FileHeader

The header in front of every chunk of a file, as it lies in memory: the fields
at their offsets 0, 4, 8 and 16, and three bytes between `type` and `size`
that nobody sets. `bytes` is what `memcpy` takes from it, `magicOf` and
`filenameOf` what the receiver reads through its cast pointer.

The file name is a C string. The sender cuts it to 255 bytes and ends it with
a zero (`filenameOf_bytes`); the receiver reads on to the first zero, wherever
that is.
-/

namespace CppDemos

open LittleEndian

/-! ## C strings -/

/-- The bytes of a C string, up to its first zero. -/
def cstr (p : Bytes) : Bytes := p.takeWhile (· != 0)

/-- `strncpy`: at most `n` bytes, filled up with zeros. -/
def strncpy (src : Bytes) (n : Nat) : Bytes :=
  (cstr src).take n ++ List.replicate (n - ((cstr src).take n).length) 0

theorem length_strncpy (src : Bytes) (n : Nat) : (strncpy src n).length = n := by
  rw [strncpy, List.length_append, List.length_replicate, List.length_take]
  omega

theorem ne_zero_of_not_mem {p : Bytes} (h : 0 ∉ p) : ∀ b ∈ p, (b != 0) = true := by
  intro b hb
  rw [bne_iff_ne]
  rintro rfl
  exact h hb

theorem cstr_eq_self {p : Bytes} (h : 0 ∉ p) : cstr p = p :=
  List.takeWhile_eq_self_iff.mpr (ne_zero_of_not_mem h)

theorem cstr_append_zero {p : Bytes} (h : 0 ∉ p) (rest : Bytes) : cstr (p ++ 0 :: rest) = p := by
  rw [cstr, List.takeWhile_append_of_pos (ne_zero_of_not_mem h), List.takeWhile_cons]
  simp

/-! ## The header -/

def sizeofFileHeader : Nat := 272

/-- `char[n]`. -/
abbrev CharArray (n : Nat) := { p : Bytes // p.length = n }

/-- Memory that happens to be zero. -/
def CharArray.zero (n : Nat) : CharArray n := ⟨List.replicate n 0, List.length_replicate⟩

structure FileHeader where
  magic : UInt32
  type : UInt8
  pad : CharArray 3
  size : UInt64
  filename : CharArray 256

/-- The header in memory. -/
def FileHeader.bytes (h : FileHeader) : Bytes :=
  toLE 4 h.magic.toNat ++ (h.type :: h.pad.1 ++ (toLE 8 h.size.toNat ++ h.filename.1))

def headerMagic : UInt32 := 0x12345678

/-- The header `sendFileInternal` prepares; `pad` is what lies between the
fields. -/
def fileHeader (pad : CharArray 3) (relativePath : Bytes) (filesize : Nat) : FileHeader where
  magic := headerMagic
  type := 0
  pad := pad
  size := UInt64.ofNat filesize
  filename := ⟨strncpy relativePath 255 ++ [0], by rw [List.length_append, length_strncpy]; rfl⟩

/-- `header->magic`. -/
def magicOf (data : Bytes) : UInt32 := UInt32.ofNat (ofLE (data.take 4))

/-- `header->filename` as a C string, `behind` being the memory behind the
message. -/
def filenameOf (data behind : Bytes) : Bytes := cstr (data.drop 16 ++ behind)

@[simp] theorem FileHeader.length_bytes (h : FileHeader) : h.bytes.length = sizeofFileHeader := by
  simp [FileHeader.bytes, h.pad.2, h.filename.2, sizeofFileHeader]

theorem magicOf_bytes (h : FileHeader) (rest : Bytes) : magicOf (h.bytes ++ rest) = h.magic := by
  have hlt : h.magic.toNat < 256 ^ 4 := h.magic.toNat_lt
  rw [magicOf, FileHeader.bytes, List.append_assoc, ofLE_take_toLE_append hlt,
    UInt32.ofNat_toNat]

theorem FileHeader.drop_bytes (h : FileHeader) (rest : Bytes) :
    (h.bytes ++ rest).drop 8 = toLE 8 h.size.toNat ++ (h.filename.1 ++ rest) := by
  have hfront : (toLE 4 h.magic.toNat ++ (h.type :: h.pad.1)).length = 8 := by
    simp [h.pad.2]
  have hbytes : h.bytes ++ rest = (toLE 4 h.magic.toNat ++ (h.type :: h.pad.1)) ++
      (toLE 8 h.size.toNat ++ (h.filename.1 ++ rest)) := by
    simp [FileHeader.bytes]
  rw [hbytes, ← hfront, List.drop_left]

theorem filenameOf_header (pad : CharArray 3) {relativePath : Bytes} (filesize : Nat)
    (hzero : 0 ∉ relativePath) (rest behind : Bytes) :
    filenameOf ((fileHeader pad relativePath filesize).bytes ++ rest) behind
      = relativePath.take 255 := by
  have hdrop (p : Bytes) : p.drop 16 = (p.drop 8).drop 8 := by rw [List.drop_drop]
  have hcut : 0 ∉ relativePath.take 255 := fun h => hzero (List.mem_of_mem_take h)
  rw [filenameOf, hdrop, FileHeader.drop_bytes, drop_toLE_append]
  obtain ⟨zeros, hzeros⟩ : ∃ zeros, (fileHeader pad relativePath filesize).filename.1
      = relativePath.take 255 ++ 0 :: zeros := by
    rw [fileHeader]
    simp only [strncpy, cstr_eq_self hzero]
    cases hn : 255 - (relativePath.take 255).length with
    | zero => exact ⟨[], by simp⟩
    | succ n => exact ⟨List.replicate n 0 ++ [0], by simp [List.replicate_succ]⟩
  rw [hzeros, List.append_assoc, List.append_assoc, List.cons_append, cstr_append_zero hcut]

theorem filenameOf_bytes (pad : CharArray 3) {relativePath : Bytes} (filesize : Nat)
    (hlen : relativePath.length ≤ 255) (hzero : 0 ∉ relativePath) (rest behind : Bytes) :
    filenameOf ((fileHeader pad relativePath filesize).bytes ++ rest) behind = relativePath := by
  rw [filenameOf_header pad filesize hzero, List.take_of_length_le hlen]

end CppDemos
