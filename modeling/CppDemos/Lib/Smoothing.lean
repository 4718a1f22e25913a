import Mathlib.Tactic.Common

/-!
# Exponentially smoothed samples

`smooth k s x` moves a value `s` by one part in `k + 1` towards a sample `x`, in whole numbers,
rounding down. Rounding lets the value rest up to `k` below the samples, but never above them
(`Near`). A value that is not there yet is nearer after every sample, by one at least, so that
it gets there however the samples vary (`away_smooth`).
-/

namespace Smoothing

variable {k s x lo hi : Nat}

/-- The value after one more sample, which weighs one part in `k + 1`. -/
def smooth (k s x : Nat) : Nat := (k * s + x) / (k + 1)

/-- Not above `hi`, and not below `lo` by more than rounding explains. -/
def Near (k lo hi s : Nat) : Prop := lo ≤ s + k ∧ s ≤ hi

theorem smooth_le (hs : s ≤ hi) (hx : x ≤ hi) : smooth k s x ≤ hi := by
  have hk : 0 < k + 1 := Nat.succ_pos k
  have hmul : k * s ≤ k * hi := Nat.mul_le_mul_left k hs
  rw [smooth, Nat.div_le_iff_le_mul_add_pred hk, Nat.add_one_mul]
  omega

theorem le_smooth (hs : lo ≤ s) (hx : lo ≤ x) : lo ≤ smooth k s x := by
  have hk : 0 < k + 1 := Nat.succ_pos k
  have hmul : k * lo ≤ k * s := Nat.mul_le_mul_left k hs
  rw [smooth, Nat.le_div_iff_mul_le hk, Nat.mul_add_one, Nat.mul_comm]
  omega

theorem smooth_lt (hs : hi < s) (hx : x ≤ hi) : smooth k s x < s := by
  have hk : 0 < k + 1 := Nat.succ_pos k
  rw [smooth, Nat.div_lt_iff_lt_mul hk, Nat.mul_add_one, Nat.mul_comm s]
  omega

theorem lt_smooth (hs : s + k < lo) (hx : lo ≤ x) : s < smooth k s x := by
  have hk : 0 < k + 1 := Nat.succ_pos k
  rw [smooth, Nat.lt_iff_add_one_le, Nat.le_div_iff_mul_le hk, Nat.add_one_mul, Nat.mul_add_one,
    Nat.mul_comm s]
  omega

theorem le_smooth_add (hs : lo ≤ s + k) (hx : lo ≤ x) : lo ≤ smooth k s x + k := by
  have hlow : lo - k ≤ smooth k s x := le_smooth (by omega) (by omega)
  omega

/-- Up to a value that is near, if it is not itself. -/
def away (k lo hi s : Nat) : Nat := (s - hi) + (lo - (s + k))

theorem near_iff : Near k lo hi s ↔ away k lo hi s = 0 := by
  unfold Near away
  omega

/-- Every sample in the range brings the value one nearer, if it is not near already. -/
theorem away_smooth (hlow : lo ≤ x) (hhigh : x ≤ hi) :
    away k lo hi (smooth k s x) ≤ away k lo hi s - 1 := by
  rcases Nat.lt_or_ge hi s with hs | hs
  · -- above the range: it comes down, and not below `lo`
    have hless := smooth_lt (k := k) hs hhigh
    have hmore : lo ≤ smooth k s x + k := le_smooth_add (by omega) hlow
    unfold away
    omega
  · have hmore : smooth k s x ≤ hi := smooth_le hs hhigh
    rcases Nat.lt_or_ge (s + k) lo with hlt | hge
    · have hup := lt_smooth hlt hlow
      unfold away
      omega
    · have hstay := le_smooth_add (k := k) hge hlow
      unfold away
      omega

end Smoothing
