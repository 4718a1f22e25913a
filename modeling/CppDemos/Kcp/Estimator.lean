import CppDemos.Kcp.Bounds
import CppDemos.Lib.Smoothing

/-!
# The estimator of ikcp_update_ack

Below 2^28 ms the signed words of `ikcp_update_ack` do not wrap, and the function is two
smoothed values in whole numbers (`Estimate.sample`, `Estimates.updateAck`). Both come to rest
for as long as the round trips stay within a range, and with them the timeout: `rto_settles`.
-/

namespace CppDemos

open Smoothing

variable {kcp : Ikcpcb} {lo hi : Nat}

/-! ## In whole numbers -/

/-- A smoothed round trip time and how far the round trips are from it. -/
structure Estimate where
  srtt : Nat
  rttval : Nat
deriving DecidableEq, Repr

namespace Estimate

variable {e : Estimate} {rtt : Nat}

/-- How far the round trip is from the smoothed one. -/
def deviation (e : Estimate) (rtt : Nat) : Nat := (rtt - e.srtt) + (e.srtt - rtt)

/-- One more round trip; 0 stands for none before. -/
def sample (e : Estimate) (rtt : Nat) : Estimate :=
  if e.srtt = 0 then ⟨rtt, rtt / 2⟩
  else ⟨max 1 (smooth 7 e.srtt rtt), smooth 3 e.rttval (e.deviation rtt)⟩

def toSettle (e : Estimate) (lo hi : Nat) : Nat :=
  away 7 lo hi e.srtt + max e.rttval (max e.srtt hi)

theorem sample_le {bound : Nat} (hs : e.srtt ≤ bound) (hv : e.rttval ≤ bound) (hx : rtt ≤ bound)
    (hone : 1 ≤ bound) : (e.sample rtt).srtt ≤ bound ∧ (e.sample rtt).rttval ≤ bound := by
  unfold sample
  split
  · exact ⟨hx, by simp only; omega⟩
  · have hdev : e.deviation rtt ≤ bound := by unfold deviation; omega
    exact ⟨Nat.max_le.mpr ⟨hone, smooth_le hs hx⟩, smooth_le hv hdev⟩

theorem away_sample (hlow : lo ≤ rtt) (hhigh : rtt ≤ hi) (hone : 1 ≤ hi) :
    away 7 lo hi (e.sample rtt).srtt ≤ away 7 lo hi e.srtt - 1 := by
  unfold sample
  split
  · -- the first round trip is taken as it is
    have hnear : away 7 lo hi rtt = 0 := near_iff.mp ⟨by omega, hhigh⟩
    simp [hnear]
  · have haway := away_smooth (k := 7) (s := e.srtt) hlow hhigh
    have hmax : away 7 lo hi (max 1 (smooth 7 e.srtt rtt))
        ≤ away 7 lo hi (smooth 7 e.srtt rtt) := by
      unfold away
      omega
    exact hmax.trans haway

theorem rttval_sample (hnear : Near 7 lo hi e.srtt) (hlow : lo ≤ rtt) (hhigh : rtt ≤ hi) :
    (e.sample rtt).rttval - (hi - lo + 7) ≤ e.rttval - (hi - lo + 7) - 1 := by
  obtain ⟨hbelow, habove⟩ := hnear
  unfold sample
  split
  · simp only
    omega
  · have hdev : e.deviation rtt ≤ hi - lo + 7 := by unfold deviation; omega
    rcases Nat.lt_or_ge (hi - lo + 7) e.rttval with hv | hv
    · have hless := smooth_lt (k := 3) hv hdev
      simp only
      omega
    · have hstay := smooth_le (k := 3) hv hdev
      simp only
      omega

theorem settles_near (hone : 1 ≤ hi) :
    ∀ {rtts : List Nat} {e : Estimate}, (∀ rtt ∈ rtts, lo ≤ rtt ∧ rtt ≤ hi) →
      Near 7 lo hi e.srtt → e.rttval - (hi - lo + 7) ≤ rtts.length →
      Near 7 lo hi (rtts.foldl sample e).srtt ∧ (rtts.foldl sample e).rttval ≤ hi - lo + 7
  | [], e, _, hnear, hmany => ⟨hnear, Nat.sub_eq_zero_iff_le.mp (Nat.le_zero.mp hmany)⟩
  | rtt :: rtts, e, hrtts, hnear, hmany => by
      obtain ⟨hlow, hhigh⟩ := hrtts rtt (List.mem_cons_self ..)
      have haway := away_sample (e := e) hlow hhigh hone
      have hless := rttval_sample hnear hlow hhigh
      rw [near_iff.mp hnear] at haway
      rw [List.length_cons] at hmany
      rw [List.foldl_cons]
      exact settles_near hone (fun x hx => hrtts x (List.mem_cons_of_mem _ hx))
        (near_iff.mpr (Nat.le_zero.mp haway)) (by omega)

/-- First the smoothed round trip comes to rest, and then the deviation. -/
theorem settles (hone : 1 ≤ hi) {bound : Nat} (hbound : hi ≤ bound) :
    ∀ {rtts : List Nat} {e : Estimate}, (∀ rtt ∈ rtts, lo ≤ rtt ∧ rtt ≤ hi) →
      e.srtt ≤ bound → e.rttval ≤ bound → away 7 lo hi e.srtt + bound ≤ rtts.length →
      Near 7 lo hi (rtts.foldl sample e).srtt ∧ (rtts.foldl sample e).rttval ≤ hi - lo + 7
  | [], e, _, _, _, hmany => by
      rw [List.length_nil] at hmany
      omega
  | rtt :: rtts, e, hrtts, hs, hv, hmany => by
      by_cases hnear : Near 7 lo hi e.srtt
      · exact settles_near hone hrtts hnear (by omega)
      · obtain ⟨hlow, hhigh⟩ := hrtts rtt (List.mem_cons_self ..)
        have haway := away_sample (e := e) hlow hhigh hone
        have hpos : away 7 lo hi e.srtt ≠ 0 := fun hzero => hnear (near_iff.mpr hzero)
        obtain ⟨hs', hv'⟩ := sample_le hs hv (hhigh.trans hbound) (hone.trans hbound)
        rw [List.length_cons] at hmany
        rw [List.foldl_cons]
        exact settles hone hbound (fun x hx => hrtts x (List.mem_cons_of_mem _ hx)) hs' hv'
          (by omega)

end Estimate

/-! ## In signed words -/

/-- The block holds the estimate, far enough from the ends of a signed word. -/
structure Estimates (kcp : Ikcpcb) (e : Estimate) : Prop where
  srtt : kcp.rxSrtt.toInt = e.srtt
  rttval : kcp.rxRttval.toInt = e.rttval
  small : e.srtt < 2 ^ 28 ∧ e.rttval < 2 ^ 28

theorem bmod_word {n : Int} (hlow : -2 ^ 31 ≤ n) (hhigh : n < 2 ^ 31) : n.bmod (2 ^ 32) = n :=
  Int.bmod_eq_of_le (by omega) (by omega)

theorem toInt_div_nat {a b : Int32} {m n : Nat} (ha : a.toInt = m) (hb : b.toInt = n) :
    (a / b).toInt = (m / n : Nat) := by
  have hne : b ≠ -1 := by
    rintro rfl
    have hneg : (-1 : Int32).toInt = -1 := rfl
    omega
  rw [Int32.toInt_div_of_ne_right _ _ hne, ha, hb, Int.ofNat_tdiv]

theorem toInt_mul_nat {a b : Int32} {m n : Nat} (ha : a.toInt = m) (hb : b.toInt = n)
    (hlt : m * n < 2 ^ 31) : (a * b).toInt = (m * n : Nat) := by
  rw [Int32.toInt_mul, ha, hb, ← Int.natCast_mul, bmod_word (by omega) (by omega)]

theorem toInt_add_nat {a b : Int32} {m n : Nat} (ha : a.toInt = m) (hb : b.toInt = n)
    (hlt : m + n < 2 ^ 31) : (a + b).toInt = (m + n : Nat) := by
  rw [Int32.toInt_add, ha, hb, ← Int.natCast_add, bmod_word (by omega) (by omega)]

theorem Estimates.srtt_smooth {e : Estimate} (h : Estimates kcp e) {rtt : Int32} {x : Nat}
    (hrtt : rtt.toInt = x) (hx : x < 2 ^ 28) :
    ((7 * kcp.rxSrtt + rtt) / 8).toInt = smooth 7 e.srtt x := by
  obtain ⟨hs, -⟩ := h.small
  have hseven : (7 : Int32).toInt = (7 : Nat) := rfl
  have height : (8 : Int32).toInt = (8 : Nat) := rfl
  have hmul := toInt_mul_nat hseven h.srtt (by omega)
  exact toInt_div_nat (toInt_add_nat hmul hrtt (by omega)) height

theorem Estimates.delta {e : Estimate} (h : Estimates kcp e) {rtt : Int32} {x : Nat}
    (hrtt : rtt.toInt = x) (hx : x < 2 ^ 28) :
    (if (rtt - kcp.rxSrtt).toInt < 0 then -(rtt - kcp.rxSrtt).toInt
      else (rtt - kcp.rxSrtt).toInt) = e.deviation x := by
  obtain ⟨hs, -⟩ := h.small
  rw [Int32.toInt_sub, hrtt, h.srtt, bmod_word (by omega) (by omega), Estimate.deviation]
  split <;> omega

theorem Estimates.rttval_smooth {e : Estimate} (h : Estimates kcp e) {x : Nat} (hx : x < 2 ^ 28) :
    (Int32.ofInt (((3 * kcp.rxRttval).toInt + e.deviation x).tdiv 4)).toInt
      = smooth 3 e.rttval (e.deviation x) := by
  obtain ⟨hs, hv⟩ := h.small
  have hthree : (3 : Int32).toInt = (3 : Nat) := rfl
  have hdev : e.deviation x < 2 ^ 28 := by unfold Estimate.deviation; omega
  rw [smooth, toInt_mul_nat hthree h.rttval (by omega), ← Int.natCast_add,
    show (4 : Int) = (4 : Nat) from rfl, ← Int.ofNat_tdiv]
  exact Int32.toInt_ofInt_of_le (by omega) (by omega)

theorem smooth_small {k s x : Nat} (hs : s < 2 ^ 28) (hx : x < 2 ^ 28) : smooth k s x < 2 ^ 28 :=
  Nat.lt_of_le_pred (Nat.two_pow_pos 28) (smooth_le (Nat.le_pred_of_lt hs) (Nat.le_pred_of_lt hx))

theorem Estimates.updateAck {e : Estimate} (h : Estimates kcp e) {rtt : Int32} {x : Nat}
    (hrtt : rtt.toInt = x) (hx : x < 2 ^ 28) :
    Estimates (ikcpUpdateAck kcp rtt) (e.sample x) := by
  obtain ⟨hs, hv⟩ := h.small
  have hone : (1 : Int32).toInt = 1 := rfl
  have hzero : kcp.rxSrtt = 0 ↔ e.srtt = 0 := by
    rw [← Int32.toInt_inj, h.srtt, Int32.toInt_zero, Int.natCast_eq_zero]
  unfold ikcpUpdateAck Estimate.sample
  by_cases hfirst : e.srtt = 0
  · rw [if_pos hfirst, if_pos (hzero.mpr hfirst)]
    exact ⟨hrtt, toInt_div_nat hrtt rfl, hx, by simp only; omega⟩
  · rw [if_neg hfirst, if_neg fun heq => hfirst (hzero.mp heq)]
    have hsrtt := h.srtt_smooth hrtt hx
    have hdelta := h.delta hrtt hx
    have hrttval := h.rttval_smooth hx
    have hdev : e.deviation x < 2 ^ 28 := by unfold Estimate.deviation; omega
    refine ⟨?_, ?_, ?_, smooth_small hv hdev⟩
    · simp only [Int32.lt_iff_toInt_lt, hsrtt, hone]
      split
      · rw [hone]
        omega
      · rw [hsrtt]
        omega
    · simp only [hdelta]
      exact hrttval
    · have hsmall := smooth_small (k := 7) hs hx
      simp only
      omega

theorem updateAck_rto (kcp : Ikcpcb) (rtt : Int32) :
    (ikcpUpdateAck kcp rtt).rxRto = (ibound kcp.rxMinrto.toUInt32
      ((ikcpUpdateAck kcp rtt).rxSrtt.toUInt32
        + imax kcp.interval (4 * (ikcpUpdateAck kcp rtt).rxRttval).toUInt32) ikcpRtoMax).toInt32 ∧
      (ikcpUpdateAck kcp rtt).interval = kcp.interval ∧
      (ikcpUpdateAck kcp rtt).rxMinrto = kcp.rxMinrto := by
  unfold ikcpUpdateAck
  split <;> exact ⟨rfl, rfl, rfl⟩

theorem toNat_imax (a b : UInt32) : (imax a b).toNat = max a.toNat b.toNat := by
  unfold imax
  simp only [ge_iff_le, UInt32.le_iff_toNat_le]
  split <;> omega

theorem toNat_imin (a b : UInt32) : (imin a b).toNat = min a.toNat b.toNat := by
  unfold imin
  simp only [UInt32.le_iff_toNat_le]
  split <;> omega

/-- The timeout goes with the values as they are after the update. -/
theorem Estimates.rto {e : Estimate} {rtt : Int32} (h : Estimates (ikcpUpdateAck kcp rtt) e)
    (hinterval : kcp.interval.toNat < 2 ^ 28)
    (hmin : 0 ≤ kcp.rxMinrto.toInt ∧ kcp.rxMinrto.toInt ≤ 60000) :
    (ikcpUpdateAck kcp rtt).rxRto.toInt
      = min (max kcp.rxMinrto.toInt (e.srtt + max kcp.interval.toNat (4 * e.rttval) : Nat))
        60000 := by
  obtain ⟨hs, hv⟩ := h.small
  have hfour : (4 : Int32).toInt = (4 : Nat) := rfl
  have hmax : ikcpRtoMax.toNat = 60000 := rfl
  have hmul := toInt_mul_nat hfour h.rttval (by omega)
  have hword := toNat_toUInt32 (a := kcp.rxMinrto) hmin.1
  have hsrtt := toNat_toUInt32 (a := (ikcpUpdateAck kcp rtt).rxSrtt) (by have := h.srtt; omega)
  have hrttval := toNat_toUInt32 (a := 4 * (ikcpUpdateAck kcp rtt).rxRttval) (by omega)
  rw [h.srtt] at hsrtt
  rw [hmul] at hrttval
  rw [(updateAck_rto kcp rtt).1, ibound, toInt_toInt32]
  · rw [toNat_imin, toNat_imax, UInt32.toNat_add, toNat_imax, hmax]
    omega
  · rw [toNat_imin, hmax]
    omega

/-! ## Series of acknowledgements -/

theorem Estimates.foldl :
    ∀ {rtts : List Int32} {kcp : Ikcpcb} {e : Estimate}, Estimates kcp e →
      (∀ rtt ∈ rtts, 0 ≤ rtt.toInt ∧ rtt.toInt < 2 ^ 28) →
      Estimates (rtts.foldl ikcpUpdateAck kcp)
          ((rtts.map fun rtt => rtt.toInt.toNat).foldl Estimate.sample e) ∧
        (rtts.foldl ikcpUpdateAck kcp).interval = kcp.interval ∧
        (rtts.foldl ikcpUpdateAck kcp).rxMinrto = kcp.rxMinrto
  | [], _, _, h, _ => ⟨h, rfl, rfl⟩
  | rtt :: rtts, kcp, e, h, hrtts => by
      obtain ⟨hpos, hsmall⟩ := hrtts rtt (List.mem_cons_self ..)
      have hnat : rtt.toInt = rtt.toInt.toNat := (Int.toNat_of_nonneg hpos).symm
      obtain ⟨-, hinterval, hmin⟩ := updateAck_rto kcp rtt
      obtain ⟨hend, hinterval', hmin'⟩ := Estimates.foldl (h.updateAck hnat (by omega))
        fun x hx => hrtts x (List.mem_cons_of_mem _ hx)
      exact ⟨hend, hinterval'.trans hinterval, hmin'.trans hmin⟩

/-- As long as the round trips stay between `lo` and `hi` ms, the estimate comes to rest: after
enough acknowledgements the smoothed round trip is in that range, but for up to 7 ms of
rounding, the deviation is no more than the width of the range and 7 ms, and the timeout is what
follows from that. So with an interval of 8 ms or more a steady round trip never times out. -/
theorem rto_settles {e : Estimate} (h : Estimates kcp e)
    (hmin : 0 ≤ kcp.rxMinrto.toInt ∧ kcp.rxMinrto.toInt ≤ 60000)
    (hinterval : kcp.interval.toNat < 2 ^ 28) (hone : 1 ≤ hi) (hhi : hi < 2 ^ 28)
    {rtts : List Int32} (hrtts : ∀ rtt ∈ rtts, (lo : Int) ≤ rtt.toInt ∧ rtt.toInt ≤ hi)
    (hmany : e.toSettle lo hi ≤ rtts.length) :
    let kcp' := rtts.foldl ikcpUpdateAck kcp
    ((lo : Int) - 7 ≤ kcp'.rxSrtt.toInt ∧ kcp'.rxSrtt.toInt ≤ hi) ∧
    (0 ≤ kcp'.rxRttval.toInt ∧ kcp'.rxRttval.toInt ≤ (hi - lo + 7 : Nat)) ∧
    min 60000 ((lo : Int) - 7 + kcp.interval.toNat) ≤ kcp'.rxRto.toInt ∧
    kcp'.rxRto.toInt ≤ max kcp.rxMinrto.toInt
      (hi + max kcp.interval.toNat (4 * (hi - lo + 7)) : Nat) := by
  intro kcp'
  let es := rtts.map fun rtt => rtt.toInt.toNat
  have hsmall : ∀ rtt ∈ rtts, 0 ≤ rtt.toInt ∧ rtt.toInt < 2 ^ 28 := fun rtt hrtt => by
    have := hrtts rtt hrtt
    omega
  have hes : ∀ x ∈ es, lo ≤ x ∧ x ≤ hi := by
    intro x hx
    obtain ⟨rtt, hrtt, rfl⟩ := List.mem_map.mp hx
    have := hrtts rtt hrtt
    omega
  obtain ⟨hend, -⟩ := h.foldl hsmall
  obtain ⟨⟨hlow, hhigh⟩, hdev⟩ : Near 7 lo hi (es.foldl Estimate.sample e).srtt ∧
      (es.foldl Estimate.sample e).rttval ≤ hi - lo + 7 := by
    have hlength : es.length = rtts.length := List.length_map ..
    exact Estimate.settles hone (show hi ≤ max e.rttval (max e.srtt hi) by omega) hes (by omega)
      (by omega) (hlength ▸ hmany)
  have hrto : kcp'.rxRto.toInt = min (max kcp.rxMinrto.toInt ((es.foldl Estimate.sample e).srtt
      + max kcp.interval.toNat (4 * (es.foldl Estimate.sample e).rttval) : Nat)) 60000 := by
    rcases List.eq_nil_or_concat rtts with hnil | ⟨front, last, hlast⟩
    · rw [hnil, Estimate.toSettle, List.length_nil] at hmany
      omega
    · rw [List.concat_eq_append] at hlast
      obtain ⟨-, hsame, hsame'⟩ := h.foldl fun rtt hrtt =>
        hsmall rtt (hlast ▸ List.mem_append_left [last] hrtt)
      have heq : kcp' = ikcpUpdateAck (front.foldl ikcpUpdateAck kcp) last := by
        simp [kcp', hlast]
      have hlater : Estimates kcp' (es.foldl Estimate.sample e) := hend
      rw [heq] at hlater
      have hrto := hlater.rto (hsame ▸ hinterval) (hsame' ▸ hmin)
      rwa [hsame, hsame', ← heq] at hrto
  have hsrtt : kcp'.rxSrtt.toInt = (es.foldl Estimate.sample e).srtt := hend.srtt
  have hrttval : kcp'.rxRttval.toInt = (es.foldl Estimate.sample e).rttval := hend.rttval
  refine ⟨by omega, by omega, by omega, by omega⟩

/-- A fresh block, and forty round trips of 20 ms. -/
theorem rto_settles_steady :
    let kcp := ikcpInit 7 ⟨0, 0, 0⟩
    let kcp' := (List.replicate 40 20).foldl ikcpUpdateAck kcp
    Estimates kcp ⟨0, 0⟩ ∧ Estimate.toSettle ⟨0, 0⟩ 20 20 = 33 ∧
      13 ≤ kcp'.rxSrtt.toInt ∧ kcp'.rxSrtt.toInt ≤ 20 ∧ 113 ≤ kcp'.rxRto.toInt ∧
      kcp'.rxRto.toInt ≤ 120 := by
  intro kcp kcp'
  have hkcp : Estimates kcp ⟨0, 0⟩ := ⟨rfl, rfl, by decide⟩
  have hrtts : ∀ rtt ∈ List.replicate 40 (20 : Int32),
      ((20 : Nat) : Int) ≤ rtt.toInt ∧ rtt.toInt ≤ (20 : Nat) := by
    intro rtt hrtt
    rw [List.eq_of_mem_replicate hrtt]
    decide
  obtain ⟨⟨hlow, hhigh⟩, -, hrtolow, hrtohigh⟩ :=
    rto_settles hkcp (by decide) (by decide) (by decide) (by decide) hrtts (by decide)
  have hmin : kcp.rxMinrto.toInt = 100 := rfl
  have hinterval : kcp.interval.toNat = 100 := rfl
  refine ⟨hkcp, rfl, hlow, hhigh, ?_, ?_⟩
  · rw [hinterval] at hrtolow
    exact hrtolow
  · rw [hmin, hinterval] at hrtohigh
    exact hrtohigh

end CppDemos
