import CppDemos.Wrapper.Calls

/-!
# What send queues

`send` takes a `size_t` and hands it to `ikcp_send`, which takes an `int`: only
the low 32 bits arrive (`Live.send_low`). If they are not the length itself and
still few enough to be accepted, `send` returns true for the front part of the
buffer alone; `send_exact_iff` says that this is the only way it goes wrong.
-/

namespace CppDemos

variable {conv : UInt32} {w : KCPWrapper} {kcp : Ikcpcb} {data : Bytes}

/-! ## All or nothing -/

/-- The segments are the pieces of `data`, in order: as few as possible, none
longer than `mss`, numbered downwards to 0. -/
structure Pieces (mss : Nat) (data : Bytes) (segs : List IkcpSeg) : Prop where
  length : segs.length = (data.length + mss - 1) / mss
  len_le : ∀ seg ∈ segs, seg.len ≤ mss
  frg : segs.map (fun seg => seg.frg.toNat) = (List.range segs.length).reverse
  payload : segs.flatMap IkcpSeg.data = data

/-- What `send` is for: the buffer is queued in pieces behind what was queued
before, counted, and nothing else changes; or nothing changes at all. -/
def SendsExactly (w : KCPWrapper) (kcp : Ikcpcb) (data : Bytes) : Prop :=
  match w.send (some data) (UInt64.ofNat data.length) with
  | (w', true) => ∃ segs, Pieces kcp.mss.toNat data segs ∧
      w' = { w with
        kcp := some { kcp with
          sndQueue := kcp.sndQueue ++ segs
          nsndQue := kcp.nsndQue + segs.length } }
  | (w', false) => w' = w

theorem pieces_of_frag {mss : Nat} (hmss : 0 < mss) (hne : data ≠ []) {segs : List IkcpSeg}
    (h : segs.map IkcpSeg.frag = Fragment.fragments mss data) : Pieces mss data segs := by
  have hlen : segs.length = Fragment.count mss data.length := by
    rw [← List.length_map (f := IkcpSeg.frag), h, Fragment.length_fragments]
  have hpos : 0 < data.length := List.length_pos_iff.mpr hne
  have hmem : ∀ seg ∈ segs, seg.frag ∈ Fragment.fragments mss data := by
    intro seg hseg
    rw [← h]
    exact List.mem_map_of_mem hseg
  constructor
  · rw [hlen, Fragment.count]
    split
    · exact ((Nat.div_eq_iff (by omega)).mpr ⟨by omega, by omega⟩).symm
    · rfl
  · exact fun seg hseg => (Fragment.fragments_body_le (hmem seg hseg)).1
  · calc segs.map (fun seg => seg.frg.toNat)
        = (segs.map IkcpSeg.frag).map Fragment.Frag.num := by rw [List.map_map]; rfl
      _ = (List.range segs.length).reverse := by
          rw [h, Fragment.fragments, Fragment.map_num_split, hlen]
  · calc segs.flatMap IkcpSeg.data
        = (segs.map IkcpSeg.frag).flatMap Fragment.Frag.body := by rw [List.flatMap_map]; rfl
      _ = data := by
          rw [h, Fragment.fragments]
          exact Fragment.flatMap_body_split (Fragment.le_mul_count hmss _)

theorem Pieces.length_data {mss : Nat} {segs : List IkcpSeg} (h : Pieces mss data segs) :
    data.length = (segs.flatMap IkcpSeg.data).length := by rw [h.payload]

/-- A length of `2 ^ 32` or more whose low bits are accepted: the segments
queued do not add up to the buffer. -/
theorem not_sendsExactly (h : w.Live conv kcp) (hlen : data.length < 2 ^ 64)
    (hwide : 2 ^ 32 ≤ data.length) (hlow : data.length % 2 ^ 32 ≤ 174752) :
    ¬ SendsExactly w kcp data := by
  have htake : (data.take (data.length % 2 ^ 32)).length = data.length % 2 ^ 32 := by
    rw [List.length_take, Nat.min_eq_left (Nat.mod_le ..)]
  unfold SendsExactly
  rcases h.send_low hlen with ⟨hne, -, segs, hsegs, heq⟩ | ⟨hnil | hnot, -⟩
  · rw [heq]
    rintro ⟨segs', hpieces, hw⟩
    -- the queue tells that the segments are those of the front part
    have hkcp := Option.some.inj (congrArg KCPWrapper.kcp hw)
    obtain rfl : segs = segs' := List.append_cancel_left (congrArg Ikcpcb.sndQueue hkcp)
    have hfront : segs.flatMap IkcpSeg.data = data.take (data.length % 2 ^ 32) := by
      have hmap : segs.flatMap IkcpSeg.data
          = (segs.map IkcpSeg.frag).flatMap Fragment.Frag.body := by rw [List.flatMap_map]; rfl
      rw [hmap, hsegs, Fragment.fragments]
      exact Fragment.flatMap_body_split (Fragment.le_mul_count (by decide) _)
    have hlength := hpieces.length_data
    rw [hfront, htake] at hlength
    omega
  · rw [hnil] at hwide
    exact absurd hwide (by decide)
  · rw [fits_iff, htake] at hnot
    exact absurd hlow hnot

/-- On every live wrapper, for buffers of every length: `send` queues the buffer
exactly or does nothing, if and only if the length is below `2 ^ 32` or its low
32 bits are more than 127 segments hold. -/
theorem send_exact_iff (h : w.Live conv kcp) (hlen : data.length < 2 ^ 64) :
    SendsExactly w kcp data ↔ data.length < 2 ^ 32 ∨ 174752 < data.length % 2 ^ 32 := by
  have hmss : kcp.mss.toNat = groupMss := congrArg (fun s => s.mss.toNat) h.setup
  have htake : (data.take (data.length % 2 ^ 32)).length = data.length % 2 ^ 32 := by
    rw [List.length_take, Nat.min_eq_left (Nat.mod_le ..)]
  constructor
  · intro hexact
    by_contra hnot
    exact not_sendsExactly h hlen (by omega) (by omega) hexact
  · intro hcond
    unfold SendsExactly
    rcases h.send_low hlen with ⟨hne, hfits, segs, hsegs, heq⟩ | ⟨-, heq⟩
    · rw [fits_iff, htake] at hfits
      have hshort : data.length < 2 ^ 32 := by omega
      rw [Nat.mod_eq_of_lt hshort, List.take_length] at hsegs
      rw [heq, hmss]
      exact ⟨segs, pieces_of_frag (by decide) hne hsegs, rfl⟩
    · rw [heq]

theorem send_exact_iff_short :
    SendsExactly senderWrapper (freshKcp mainConv ⟨0, 0, 0⟩) [104, 105] ↔
      [104, 105].length < 2 ^ 32 ∨ 174752 < [104, 105].length % 2 ^ 32 :=
  send_exact_iff senderWrapper_live (by decide)

/-- Five bytes more than `2 ^ 32`: five are queued and `send` returns true. -/
theorem shortened_accepted :
    ¬ ∀ (conv : UInt32) (w : KCPWrapper) (kcp : Ikcpcb) (data : Bytes),
      w.Live conv kcp → data.length < 2 ^ 64 → SendsExactly w kcp data := by
  intro h
  obtain ⟨data, hdata⟩ : ∃ data : Bytes, data.length = 2 ^ 32 + 5 :=
    ⟨List.replicate _ 0, List.length_replicate⟩
  exact not_sendsExactly senderWrapper_live (by omega) (by omega) (by omega)
    (h _ _ _ data senderWrapper_live (by omega))

end CppDemos
