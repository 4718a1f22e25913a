import CppDemos.Kcp.Alike
import CppDemos.Kcp.Buffer
import CppDemos.Lib.Avoidance

/-!
# The congestion window

KCP counts its congestion window twice, as `cwnd` in segments and as `incr` in bytes.
`ikcp_input` raises them when something new has been acknowledged, by one segment below
`ssthresh` and by a part of one above it; `ikcp_flush` sets them back.
-/

namespace CppDemos

open Avoidance

/-! ## The window of a block -/

/-- What congestion control works with, but for the peer's window. -/
structure Pace where
  mss : UInt32
  ssthresh : UInt32
  cwnd : UInt32
  incr : UInt32

def Ikcpcb.pace (kcp : Ikcpcb) : Pace := ⟨kcp.mss, kcp.ssthresh, kcp.cwnd, kcp.incr⟩

/-- Segments that fit a datagram of UDP, and the two counts of the window agree, if it is one
that the peer can have asked for. -/
structure Paced (kcp : Ikcpcb) : Prop where
  mss : 0 < kcp.mss.toNat ∧ kcp.mss.toNat ≤ 65483
  rmtWnd : kcp.rmtWnd.toNat < 2 ^ 16
  agree : kcp.cwnd.toNat < 2 ^ 16 → Agree kcp.mss.toNat kcp.cwnd.toNat kcp.incr.toNat

variable {kcp kcp' : Ikcpcb}

theorem pace_eq_iff : kcp'.pace = kcp.pace ↔ kcp'.mss = kcp.mss ∧
    kcp'.ssthresh = kcp.ssthresh ∧ kcp'.cwnd = kcp.cwnd ∧ kcp'.incr = kcp.incr := by
  simp only [Ikcpcb.pace, Pace.mk.injEq]

theorem Paced.congr (h : Paced kcp) (hpace : kcp'.pace = kcp.pace)
    (hwnd : kcp'.rmtWnd.toNat < 2 ^ 16) : Paced kcp' := by
  obtain ⟨hmss, -, hcwnd, hincr⟩ := pace_eq_iff.mp hpace
  refine ⟨hmss ▸ h.mss, hwnd, ?_⟩
  rw [hmss, hcwnd, hincr]
  exact h.agree

/-- No step of the window leaves 32 bits. -/
theorem Paced.nextCwnd (h : Paced kcp) (hlt : kcp.cwnd < kcp.rmtWnd) :
    (nextCwnd kcp).1.toNat =
      (if kcp.cwnd < kcp.ssthresh then kcp.cwnd.toNat + 1
      else if (kcp.cwnd.toNat + 1) * kcp.mss.toNat ≤ avoided kcp.mss.toNat kcp.incr.toNat then
        (avoided kcp.mss.toNat kcp.incr.toNat + kcp.mss.toNat - 1) / kcp.mss.toNat
      else kcp.cwnd.toNat) ∧
    (nextCwnd kcp).2.toNat =
      if kcp.cwnd < kcp.ssthresh then kcp.incr.toNat + kcp.mss.toNat
      else avoided kcp.mss.toNat kcp.incr.toNat := by
  obtain ⟨hpos, hmss⟩ := h.mss
  have hwnd := h.rmtWnd
  have hc : kcp.cwnd.toNat < kcp.rmtWnd.toNat := UInt32.lt_iff_toNat_lt.mp hlt
  have hbelow := (h.agree (by omega)).below
  have hfull : (kcp.cwnd.toNat + 1) * kcp.mss.toNat ≤ 65535 * 65483 :=
    Nat.mul_le_mul (by omega) hmss
  have hsquare : kcp.mss.toNat * kcp.mss.toNat ≤ 65483 * 65483 := Nat.mul_le_mul hmss hmss
  have hmost := avoided_le kcp.mss.toNat kcp.incr.toNat
  have hone : (kcp.cwnd + 1).toNat = kcp.cwnd.toNat + 1 := by
    rw [UInt32.toNat_add]
    exact Nat.mod_eq_of_lt (by simp only [UInt32.toNat_one]; omega)
  have hnext : ((kcp.cwnd + 1) * kcp.mss).toNat = (kcp.cwnd.toNat + 1) * kcp.mss.toNat := by
    rw [UInt32.toNat_mul, hone]
    exact Nat.mod_eq_of_lt (by omega)
  have hmax : (if kcp.incr < kcp.mss then kcp.mss else kcp.incr).toNat
      = max kcp.incr.toNat kcp.mss.toNat := by
    split
    · rename_i hless
      exact (Nat.max_eq_right (Nat.le_of_lt (UInt32.lt_iff_toNat_lt.mp hless))).symm
    · rename_i hless
      have hle : kcp.mss.toNat ≤ kcp.incr.toNat :=
        Nat.le_of_not_lt fun hlt => hless (UInt32.lt_iff_toNat_lt.mpr hlt)
      exact (Nat.max_eq_left hle).symm
  -- the bytes after a step, and the same rounded up to segments
  have hmul : (kcp.mss * kcp.mss).toNat = kcp.mss.toNat * kcp.mss.toNat := by
    rw [UInt32.toNat_mul]
    exact Nat.mod_eq_of_lt (by omega)
  have havoided : ((if kcp.incr < kcp.mss then kcp.mss else kcp.incr)
      + (kcp.mss * kcp.mss / (if kcp.incr < kcp.mss then kcp.mss else kcp.incr)
        + kcp.mss / 16)).toNat = avoided kcp.mss.toNat kcp.incr.toNat := by
    have hsum : avoided kcp.mss.toNat kcp.incr.toNat < 2 ^ 32 := by omega
    unfold avoided at hsum ⊢
    rw [UInt32.toNat_add, UInt32.toNat_add, UInt32.toNat_div, UInt32.toNat_div, hmul, hmax,
      Nat.mod_eq_of_lt (a := _ / _ + _ / _)]
    · exact Nat.mod_eq_of_lt hsum
    · exact Nat.lt_of_le_of_lt (Nat.le_add_left _ _) hsum
  have hround : ∀ bytes : UInt32, bytes.toNat = avoided kcp.mss.toNat kcp.incr.toNat →
      ((bytes + kcp.mss - 1) / kcp.mss).toNat
        = (avoided kcp.mss.toNat kcp.incr.toNat + kcp.mss.toNat - 1) / kcp.mss.toNat := by
    intro bytes hbytes
    have hadd : (bytes + kcp.mss).toNat = bytes.toNat + kcp.mss.toNat := by
      rw [UInt32.toNat_add]
      exact Nat.mod_eq_of_lt (by omega)
    rw [UInt32.toNat_div, UInt32.toNat_sub_of_le, hadd, hbytes]
    · rfl
    · rw [UInt32.le_iff_toNat_le, hadd, UInt32.toNat_one]
      omega
  unfold CppDemos.nextCwnd
  simp only [if_pos (show kcp.mss > 0 from UInt32.lt_iff_toNat_lt.mpr hpos)]
  split
  · refine ⟨hone, ?_⟩
    rw [UInt32.toNat_add]
    exact Nat.mod_eq_of_lt (by omega)
  · simp only [UInt32.le_iff_toNat_le, hnext, havoided]
    split
    · exact ⟨hround _ havoided, havoided⟩
    · exact ⟨rfl, havoided⟩

theorem Paced.grown_next (h : Paced kcp) (hlt : kcp.cwnd < kcp.rmtWnd) :
    Grown kcp.mss.toNat kcp.cwnd.toNat kcp.incr.toNat (CppDemos.nextCwnd kcp).1.toNat
      (CppDemos.nextCwnd kcp).2.toNat (kcp.cwnd < kcp.ssthresh) := by
  have hc := UInt32.lt_iff_toNat_lt.mp hlt
  have hwnd := h.rmtWnd
  have hagree := h.agree (by omega)
  have hmost := avoided_le kcp.mss.toNat kcp.incr.toNat
  obtain ⟨hcwnd, hincr⟩ := h.nextCwnd hlt
  rw [hcwnd, hincr]
  split
  · exact ⟨hagree.slow, Nat.le_succ _, fun _ => rfl, fun _ => by omega, by omega⟩
  · rename_i hslow
    split
    · rename_i hle
      obtain ⟨hraised, hless, hby⟩ := hagree.raise h.mss.1 hle
      exact ⟨hraised, Nat.le_of_lt hless, fun hs => absurd hs hslow, hby, hmost⟩
    · rename_i hle
      exact ⟨hagree.wait hle, Nat.le_refl _, fun hs => absurd hs hslow, fun _ => by omega, hmost⟩

/-- The end of `ikcp_input`: the window stays as it is, or it grows, and not beyond the
window of the peer. -/
theorem Paced.grow (h : Paced kcp) (prevUna : UInt32) :
    (growCwnd prevUna kcp).pace = kcp.pace ∨
      (0 < itimediff kcp.sndUna prevUna ∧ (growCwnd prevUna kcp).mss = kcp.mss ∧
        (growCwnd prevUna kcp).ssthresh = kcp.ssthresh ∧
        (growCwnd prevUna kcp).cwnd.toNat ≤ kcp.rmtWnd.toNat ∧
        Grown kcp.mss.toNat kcp.cwnd.toNat kcp.incr.toNat (growCwnd prevUna kcp).cwnd.toNat
          (growCwnd prevUna kcp).incr.toNat (kcp.cwnd < kcp.ssthresh)) := by
  unfold growCwnd
  split
  · rename_i hcond
    obtain ⟨hnew, hlt⟩ := hcond
    have hgrown := h.grown_next hlt
    have hc := UInt32.lt_iff_toNat_lt.mp hlt
    refine .inr ⟨hnew, ?_⟩
    split
    · rename_i hgt
      have hr := UInt32.lt_iff_toNat_lt.mp hgt
      obtain ⟨hpos, hmss⟩ := h.mss
      have hwnd := h.rmtWnd
      have hfull : kcp.rmtWnd.toNat * kcp.mss.toNat ≤ 65535 * 65483 :=
        Nat.mul_le_mul (by omega) hmss
      have hbytes : (kcp.rmtWnd * kcp.mss).toNat = kcp.rmtWnd.toNat * kcp.mss.toNat := by
        rw [UInt32.toNat_mul]
        exact Nat.mod_eq_of_lt (by omega)
      refine ⟨rfl, rfl, Nat.le_refl _, ?_⟩
      simp only [hbytes]
      refine ⟨Agree.exact hpos _, Nat.le_of_lt hc, fun hs => ?_, fun hs => ?_, ?_⟩
      · have hone := hgrown.slow hs
        omega
      · have htwo := hgrown.avoid hs
        omega
      · -- the next window is a segment further at least
        have hseg : (kcp.rmtWnd.toNat + 1) * kcp.mss.toNat
            ≤ (CppDemos.nextCwnd kcp).1.toNat * kcp.mss.toNat := Nat.mul_le_mul_right _ hr
        rw [Nat.add_one_mul] at hseg
        have habove := hgrown.agree.above
        have hmost := hgrown.bytes
        omega
    · rename_i hgt
      have hr : (CppDemos.nextCwnd kcp).1.toNat ≤ kcp.rmtWnd.toNat :=
        Nat.le_of_not_lt fun hr => hgt (UInt32.lt_iff_toNat_lt.mpr hr)
      exact ⟨rfl, rfl, hr, hgrown⟩
  · exact .inl rfl

/-! ## A datagram -/

theorem inputLoop_induct {P : Ikcpcb → Prop}
    (hseg : ∀ st conv head payload, P st.kcp → P (inputSeg st conv head payload).kcp) :
    ∀ (fuel : Nat) (st : InputSt) (data : Bytes), P st.kcp →
      P (inputLoop fuel st data).1.kcp := by
  intro fuel
  induction fuel with
  | zero => exact fun st data hP => hP
  | succ fuel ih =>
      intro st data hP
      rw [inputLoop]
      split
      · exact hP
      · simp only
        split
        · exact hP
        · split
          · exact hP
          · split
            · exact hP
            · exact ih _ _ (hseg _ _ _ _ hP)

theorem inputUna_rmtWnd (kcp : Ikcpcb) (head : SegHead) :
    (inputUna kcp head).rmtWnd = head.wnd.toUInt32 :=
  shrinkBuf_rmtWnd _

theorem inputPush_rmtWnd (kcp : Ikcpcb) (conv : UInt32) (head : SegHead) (payload : Bytes) :
    (inputPush kcp conv head payload).rmtWnd = kcp.rmtWnd := by
  have hdata (k : Ikcpcb) (newseg : IkcpSeg) : (ikcpParseData k newseg).rmtWnd = k.rmtWnd := by
    unfold ikcpParseData
    split
    · rfl
    · exact moveRcvBuf_induct (P := fun k' => k'.rmtWnd = k.rmtWnd) (fun _ _ _ _ _ _ h => h)
        (by split <;> rfl)
  unfold inputPush
  split
  · simp only
    split
    · exact hdata _ _
    · rfl
  · rfl

theorem inputSeg_rmtWnd (st : InputSt) (conv : UInt32) (head : SegHead) (payload : Bytes) :
    (inputSeg st conv head payload).kcp.rmtWnd = head.wnd.toUInt32 := by
  rcases inputSeg_cases st conv head payload with ⟨-, heq⟩ | ⟨-, heq⟩ | ⟨-, -, probe, heq⟩
  · rw [heq, inputAck_rmtWnd, inputUna_rmtWnd]
  · rw [heq, inputPush_rmtWnd, inputUna_rmtWnd]
  · rw [heq]
    exact inputUna_rmtWnd ..

def Ikcpcb.hidden (kcp : Ikcpcb) : Hidden := ⟨kcp.ssthresh, kcp.cwnd, kcp.incr, kcp.updated⟩

theorem inputSeg_pace (st : InputSt) (conv : UInt32) (head : SegHead) (payload : Bytes) :
    (inputSeg st conv head payload).kcp.pace = st.kcp.pace := by
  have hmss : (inputSeg st conv head payload).kcp.mss = st.kcp.mss :=
    congrArg Setup.mss (setup_inputSeg st conv head payload)
  have hsame : (inputSeg st conv head payload).kcp
      = ((inputSeg st conv head payload).hiding st.kcp.hidden).kcp :=
    congrArg InputSt.kcp (inputSeg_hiding st.kcp.hidden st conv head payload)
  rw [Ikcpcb.pace, hmss, hsame]
  rfl

/-- The window of a block before and behind a datagram that acknowledges something new. -/
structure Raised (kcp kcp' : Ikcpcb) : Prop where
  acked : 0 < itimediff kcp'.sndUna kcp.sndUna
  mss : kcp'.mss = kcp.mss
  ssthresh : kcp'.ssthresh = kcp.ssthresh
  rmtWnd : kcp'.cwnd.toNat ≤ kcp'.rmtWnd.toNat
  grown : Grown kcp.mss.toNat kcp.cwnd.toNat kcp.incr.toNat kcp'.cwnd.toNat kcp'.incr.toNat
    (kcp.cwnd < kcp.ssthresh)

theorem inputLoop_paced (h : Paced kcp) (fuel : Nat) (data : Bytes) :
    (inputLoop fuel { kcp := kcp } data).1.kcp.pace = kcp.pace ∧
      (inputLoop fuel { kcp := kcp } data).1.kcp.rmtWnd.toNat < 2 ^ 16 :=
  inputLoop_induct (P := fun k => k.pace = kcp.pace ∧ k.rmtWnd.toNat < 2 ^ 16)
    (fun st conv head payload hst => by
      rw [inputSeg_pace, inputSeg_rmtWnd]
      exact ⟨hst.1, head.wnd.toNat_lt⟩)
    fuel _ data ⟨rfl, h.rmtWnd⟩

theorem inputFinish_grows (prevUna : UInt32) (st : InputSt) :
    ∃ k : Ikcpcb, k.pace = st.kcp.pace ∧ k.rmtWnd = st.kcp.rmtWnd ∧
      inputFinish prevUna st = growCwnd prevUna k := by
  refine ⟨_, ?_, ?_, rfl⟩ <;> split
  · unfold ikcpParseFastack
    split <;> rfl
  · rfl
  · unfold ikcpParseFastack
    split <;> rfl
  · rfl

theorem Paced.input (h : Paced kcp) (data : Bytes) :
    Paced (ikcpInput kcp data).1 ∧
      ((ikcpInput kcp data).1.pace = kcp.pace ∨ Raised kcp (ikcpInput kcp data).1) := by
  unfold ikcpInput
  split
  · exact ⟨h, .inl rfl⟩
  · simp only
    obtain ⟨hpace, hwnd⟩ := inputLoop_paced h data.length data
    generalize (inputLoop data.length { kcp := kcp } data) = st at *
    have hst : Paced st.1.kcp := h.congr hpace hwnd
    split
    · exact ⟨hst, .inl hpace⟩
    · obtain ⟨k, hk, hkwnd, heq⟩ := inputFinish_grows kcp.sndUna st.1
      have hpk : Paced k := hst.congr hk (hkwnd ▸ hwnd)
      rw [heq]
      obtain ⟨huna, hrmt⟩ : (growCwnd kcp.sndUna k).sndUna = k.sndUna ∧
          (growCwnd kcp.sndUna k).rmtWnd = k.rmtWnd := by
        obtain ⟨cwnd, incr, hframe⟩ := growCwnd_frame kcp.sndUna k
        rw [hframe]
        exact ⟨rfl, rfl⟩
      have hkpace := hk.trans hpace
      obtain ⟨hkmss, hkthresh, hkcwnd, hkincr⟩ := pace_eq_iff.mp hkpace
      rcases hpk.grow kcp.sndUna with hsame | ⟨hnew, hmss, hthresh, hle, hgrown⟩
      · exact ⟨hpk.congr hsame (hrmt ▸ hpk.rmtWnd), .inl (hsame.trans hkpace)⟩
      · refine ⟨⟨hmss ▸ hpk.mss, hrmt ▸ hpk.rmtWnd, fun _ => hmss ▸ hgrown.agree⟩, .inr ⟨?_, ?_, ?_,
          ?_, ?_⟩⟩
        · rw [huna]
          exact hnew
        · exact hmss.trans hkmss
        · exact hthresh.trans hkthresh
        · rw [hrmt]
          exact hle
        · rw [hkmss, hkcwnd, hkincr, hkthresh] at hgrown
          exact hgrown

/-! ## A flush -/

/-- Some segment has been acknowledged past as often as calls for a fast resend. -/
def Overtaken (kcp : Ikcpcb) : Prop := ∃ seg ∈ kcp.sndBuf, flushResent kcp ≤ seg.fastack

theorem flushData_change (kcp : Ikcpcb) (resent rtomin wnd : UInt32) :
    ∀ (buf : List IkcpSeg) (st : FlushSt), (∀ seg ∈ buf, seg.xmit = 0 ∨ ¬ resent ≤ seg.fastack) →
      (flushData kcp resent rtomin wnd buf st).2.change = st.change
  | [], _, _ => rfl
  | segment :: p, st, h => by
      obtain ⟨hhead, htail⟩ := List.forall_mem_cons.mp h
      have hdue : ∀ seg st', flushDue kcp resent rtomin segment st = some (seg, st') →
          st'.change = st.change := by
        intro seg st' hsome
        unfold flushDue at hsome
        split at hsome
        · cases hsome
          rfl
        · rename_i hsent
          split at hsome
          · cases hsome
            rfl
          · split at hsome
            · rename_i hfast
              exact absurd hfast (hhead.resolve_left hsent)
            · cases hsome
      rw [flushData]
      split
      · exact flushData_change kcp resent rtomin wnd p st htail
      · rename_i seg st' hsome
        exact (flushData_change kcp resent rtomin wnd p _ htail).trans (hdue seg st' hsome)

theorem ikcpFlush_window (h : kcp.updated ≠ 0) :
    ∃ (k : Ikcpcb) (cwnd : UInt32) (change lost : Bool), k.pace = kcp.pace ∧
      k.rmtWnd = kcp.rmtWnd ∧ (¬ Overtaken kcp → change = false) ∧
      (ikcpFlush kcp).1 = flushWindow k (flushResent kcp) cwnd change lost := by
  obtain ⟨wait, ts, hctl⟩ := flushControl_frame kcp
  obtain ⟨-, -, -, moved, new, -, hbuf, -, hxmit⟩ := moveSndQueue_spec
    (flushCwnd (flushControl kcp).1) (flushControl kcp).2.1.wnd (flushControl kcp).1.sndQueue
    (flushControl kcp).1 rfl
  obtain ⟨_, _, _, _, _, hmove⟩ := moveSndQueue_frame (flushCwnd (flushControl kcp).1)
    (flushControl kcp).2.1.wnd (flushControl kcp).1.sndQueue (flushControl kcp).1
  rw [ikcpFlush, if_neg h]
  simp only [flushBuffers]
  generalize hk : moveSndQueue (flushCwnd (flushControl kcp).1) (flushControl kcp).2.1.wnd
    (flushControl kcp).1 (flushControl kcp).1.sndQueue = k at *
  have hresent : flushResent k = flushResent kcp := by
    rw [hmove, hctl]
    rfl
  have hsnd : k.sndBuf = kcp.sndBuf ++ new := by rw [hbuf, hctl]
  refine ⟨_, _, _, _, ?_, ?_, fun hnot => ?_, by rw [← hresent]; rfl⟩
  · show (⟨k.mss, k.ssthresh, k.cwnd, k.incr⟩ : Pace) = kcp.pace
    rw [hmove, hctl]
    rfl
  · show k.rmtWnd = kcp.rmtWnd
    rw [hmove, hctl]
  · refine (flushData_change _ _ _ _ _ _ fun seg hseg => ?_).trans rfl
    rw [hsnd] at hseg
    rcases List.mem_append.mp hseg with hold | hnew
    · exact .inr fun hle => hnot ⟨seg, hold, hresent ▸ hle⟩
    · exact .inl (hxmit seg hnew)

theorem Paced.set (h : Paced kcp) (ssthresh cwnd : UInt32) :
    Paced { kcp with ssthresh := ssthresh, cwnd := cwnd, incr := cwnd * kcp.mss } := by
  obtain ⟨hpos, hmss⟩ := h.mss
  refine ⟨h.mss, h.rmtWnd, fun hlt => ?_⟩
  have hfull : cwnd.toNat * kcp.mss.toNat ≤ 65535 * 65483 :=
    Nat.mul_le_mul (Nat.le_of_lt_succ hlt) hmss
  have hbytes : (cwnd * kcp.mss).toNat = cwnd.toNat * kcp.mss.toNat := by
    rw [UInt32.toNat_mul]
    exact Nat.mod_eq_of_lt (by omega)
  simp only [hbytes]
  exact Agree.exact hpos _

theorem Paced.one (h : Paced kcp) (ssthresh : UInt32) :
    Paced { kcp with ssthresh := ssthresh, cwnd := 1, incr := kcp.mss } := by
  have hset := h.set ssthresh 1
  rwa [UInt32.one_mul] at hset

/-- The window of a block before and behind a step that does not raise it; one segment is the
least a flush leaves. -/
structure Lowered (kcp kcp' : Ikcpcb) : Prop where
  mss : kcp'.mss = kcp.mss
  cwnd : kcp'.cwnd.toNat ≤ max kcp.cwnd.toNat 1
  incr : kcp'.incr.toNat ≤ max kcp.incr.toNat kcp.mss.toNat

theorem Lowered.of_pace (h : kcp'.pace = kcp.pace) : Lowered kcp kcp' := by
  obtain ⟨hmss, -, hcwnd, hincr⟩ := pace_eq_iff.mp h
  refine ⟨hmss, ?_, ?_⟩
  · rw [hcwnd]
    exact Nat.le_max_left _ _
  · rw [hincr]
    exact Nat.le_max_left _ _

theorem flushWindow_paced (h : Paced kcp) (resent cwnd : UInt32) (change lost : Bool) :
    Paced (flushWindow kcp resent cwnd change lost) ∧
      (change = false → Lowered kcp (flushWindow kcp resent cwnd change lost)) := by
  have hchange : Paced (if change then flushChange kcp resent else kcp) := by
    split
    · exact h.set _ _
    · exact h
  have hlost : Paced (if lost then flushLost (if change then flushChange kcp resent else kcp) cwnd
      else if change then flushChange kcp resent else kcp) := by
    split
    · exact hchange.one _
    · exact hchange
  refine ⟨?_, fun hno => ?_⟩
  · have hleast : ∀ k : Ikcpcb, Paced k →
        Paced (if k.cwnd < 1 then { k with cwnd := 1, incr := k.mss } else k) := by
      intro k hk
      split
      · exact hk.one k.ssthresh
      · exact hk
    exact hleast _ hlost
  · subst hno
    have hone : (1 : UInt32).toNat ≤ max kcp.cwnd.toNat 1 := Nat.le_max_right _ _
    have hmss : kcp.mss.toNat ≤ max kcp.incr.toNat kcp.mss.toNat := Nat.le_max_right _ _
    unfold flushWindow
    simp only [if_neg Bool.false_ne_true]
    split
    · split
      · exact ⟨rfl, hone, hmss⟩
      · exact ⟨rfl, hone, hmss⟩
    · split
      · exact ⟨rfl, hone, hmss⟩
      · exact .of_pace rfl

theorem Paced.flush (h : Paced kcp) :
    Paced (ikcpFlush kcp).1 ∧ (¬ Overtaken kcp → Lowered kcp (ikcpFlush kcp).1) := by
  by_cases hupdated : kcp.updated = 0
  · rw [ikcpFlush, if_pos hupdated]
    exact ⟨h, fun _ => .of_pace rfl⟩
  · obtain ⟨k, cwnd, change, lost, hpace, hwnd, hchange, heq⟩ := ikcpFlush_window hupdated
    obtain ⟨hpaced, hlowered⟩ := flushWindow_paced (h.congr hpace (hwnd ▸ h.rmtWnd))
      (flushResent kcp) cwnd change lost
    rw [heq]
    refine ⟨hpaced, fun hnot => ?_⟩
    obtain ⟨hkmss, -, hkcwnd, hkincr⟩ := pace_eq_iff.mp hpace
    obtain ⟨hmss, hcwnd, hincr⟩ := hlowered (hchange hnot)
    rw [hkmss] at hmss hincr
    rw [hkcwnd] at hcwnd
    rw [hkincr] at hincr
    exact ⟨hmss, hcwnd, hincr⟩

theorem Paced.update (h : Paced kcp) (current : UInt32) :
    Paced (ikcpUpdate kcp current).1 ∧
      (¬ Overtaken kcp → Lowered kcp (ikcpUpdate kcp current).1) := by
  obtain ⟨updated, tsFlush, heq | heq⟩ := ikcpUpdate_cases kcp current
  · rw [heq]
    exact ⟨h.congr rfl h.rmtWnd, fun _ => .of_pace rfl⟩
  · rw [heq]
    have hclock : Paced { kcp with current := current, updated := updated, tsFlush := tsFlush } :=
      h.congr rfl h.rmtWnd
    obtain ⟨hpaced, hlowered⟩ := hclock.flush
    refine ⟨hpaced, fun hnot => ?_⟩
    obtain ⟨hmss, hcwnd, hincr⟩ := hlowered hnot
    exact ⟨hmss, hcwnd, hincr⟩

/-! ## Any calls -/

/-- The call leaves the size of segments alone. -/
def KcpCall.KeepsMtu : KcpCall → Prop
  | .setmtu _ _ => False
  | _ => True

def KcpCall.isInput : KcpCall → Bool
  | .input _ => true
  | _ => false

theorem ikcpRecv_pace (kcp : Ikcpcb) (len : Int) :
    (ikcpRecv kcp len).1.pace = kcp.pace ∧ (ikcpRecv kcp len).1.rmtWnd = kcp.rmtWnd := by
  have hmove : ∀ k : Ikcpcb, (moveRcvBuf k k.rcvBuf).pace = k.pace ∧
      (moveRcvBuf k k.rcvBuf).rmtWnd = k.rmtWnd := fun k =>
    moveRcvBuf_induct (P := fun k' => k'.pace = k.pace ∧ k'.rmtWnd = k.rmtWnd)
      (fun _ _ _ _ _ _ h => h) ⟨rfl, rfl⟩
  by_cases hlen : 0 ≤ len
  · rcases ikcpRecv_cases kcp hlen with ⟨_, -, heq, -⟩ | ⟨-, -, -, probe, heq⟩
    · rw [heq]
      exact ⟨rfl, rfl⟩
    · rw [heq]
      exact hmove (popRcv kcp)
  · unfold ikcpRecv
    split
    · exact ⟨rfl, rfl⟩
    · simp only [if_pos (Int.not_le.mp hlen)]
      split
      · exact ⟨rfl, rfl⟩
      · split
        · exact ⟨rfl, rfl⟩
        · split
          · exact hmove kcp
          · exact hmove kcp

theorem Paced.call (h : Paced kcp) {c : KcpCall} (hc : c.KeepsMtu) :
    Paced (c.on kcp) ∧
      (((∃ current, c = .update current) → ¬ Overtaken kcp) →
        Lowered kcp (c.on kcp) ∨ (c.isInput ∧ Raised kcp (c.on kcp))) := by
  cases c with
  | send buffer len =>
      obtain ⟨queue, count, heq⟩ := ikcpSend_queue kcp buffer len
      rw [KcpCall.on, heq]
      exact ⟨h.congr rfl h.rmtWnd, fun _ => .inl (.of_pace rfl)⟩
  | recv len =>
      obtain ⟨hpace, hwnd⟩ := ikcpRecv_pace kcp len
      exact ⟨h.congr hpace (by rw [KcpCall.on, hwnd]; exact h.rmtWnd),
        fun _ => .inl (.of_pace hpace)⟩
  | input data =>
      obtain ⟨hpaced, hsame | hraised⟩ := h.input data
      · exact ⟨hpaced, fun _ => .inl (.of_pace hsame)⟩
      · exact ⟨hpaced, fun _ => .inr ⟨rfl, hraised⟩⟩
  | update current =>
      obtain ⟨hpaced, hlowered⟩ := h.update current
      exact ⟨hpaced, fun hnot => .inl (hlowered (hnot ⟨current, rfl⟩))⟩
  | setmtu mtu allocated => exact hc.elim
  | wndsize sndwnd rcvwnd =>
      obtain ⟨_, _, heq⟩ := ikcpWndsize_frame kcp sndwnd rcvwnd
      rw [KcpCall.on, heq]
      exact ⟨h.congr rfl h.rmtWnd, fun _ => .inl (.of_pace rfl)⟩
  | nodelay delay interval resend nc =>
      obtain ⟨_, _, _, _, _, heq⟩ := ikcpNodelay_frame kcp delay interval resend nc
      rw [KcpCall.on, heq]
      exact ⟨h.congr rfl h.rmtWnd, fun _ => .inl (.of_pace rfl)⟩

theorem Paced.after {cs : List KcpCall} (h : Paced kcp) (hcs : ∀ c ∈ cs, c.KeepsMtu) :
    Paced (kcp.after cs) := by
  induction cs generalizing kcp with
  | nil => exact h
  | cons c cs ih =>
      obtain ⟨hc, hcs⟩ := List.forall_mem_cons.mp hcs
      exact ih (h.call hc).1 hcs

end CppDemos
