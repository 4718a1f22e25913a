import Mathlib.Tactic.Linarith
import Mathlib.Tactic.Ring

/-!
# A window counted twice

A congestion window in segments of `m` bytes and in bytes. In slow start it grows by a whole
segment; in congestion avoidance the bytes grow by a part of one (`avoided`), and the segments
follow once the bytes reach the next of them. The two counts keep agreeing (`Agree`), and no
step opens the window by more than two segments.
-/

namespace Avoidance

/-- `i` bytes are `c` segments of `m` bytes, within one segment. The window in
bytes grows by fractions of a segment, and the window in segments follows it by
rounding up, so the two never agree more closely than that. -/
structure Agree (m c i : Nat) : Prop where
  below : i < (c + 1) * m
  above : c * m < i + m
  least : 0 < c → m ≤ i

/-- The bytes after one step of congestion avoidance. -/
def avoided (m i : Nat) : Nat := max i m + (m * m / max i m + m / 16)

variable {m c i : Nat}

theorem Agree.exact (hm : 0 < m) (c : Nat) : Agree m c (c * m) where
  below := by
    rw [Nat.add_one_mul]
    omega
  above := by omega
  least hc := Nat.le_mul_of_pos_left m hc

theorem Agree.slow (h : Agree m c i) : Agree m (c + 1) (i + m) where
  below := by
    rw [Nat.add_one_mul]
    exact Nat.add_lt_add_right h.below m
  above := by
    rw [Nat.add_one_mul]
    exact Nat.add_lt_add_right h.above m
  least _ := Nat.le_add_left m i

theorem avoided_le (m i : Nat) : avoided m i ≤ max i m + m + m / 16 := by
  have hpart : m * m / max i m ≤ m :=
    Nat.div_le_of_le_mul (Nat.mul_le_mul_right m (Nat.le_max_right i m))
  unfold avoided
  omega

theorem le_avoided (m i : Nat) : max i m ≤ avoided m i := Nat.le_add_right _ _

/-- A step never takes the bytes more than one segment beyond the next full window. -/
theorem Agree.avoided_le (h : Agree m c i) (hc : 0 < c) : avoided m i ≤ (c + 2) * m := by
  have hbelow := h.below
  have hmax : max i m = i := Nat.max_eq_left (h.least hc)
  have hsplit : (c + 2) * m = (c + 1) * m + m := by rw [← Nat.add_one_mul]
  unfold avoided
  rw [hmax, hsplit]
  rcases Nat.lt_or_ge (i + m / 16) ((c + 1) * m + 1) with hlow | hhigh
  · have hpart : m * m / i ≤ m := Nat.div_le_of_le_mul (Nat.mul_le_mul_right m (h.least hc))
    omega
  · -- near the next window the bytes are nearly two segments, and the part is small
    have htwo : 2 * m ≤ (c + 1) * m := Nat.mul_le_mul_right m (by omega)
    obtain ⟨e, hm, he⟩ : ∃ e, m = e + m / 16 ∧ 15 * (m / 16) ≤ e :=
      ⟨m - m / 16, by omega, by omega⟩
    have hpart : m * m / i ≤ e := by
      refine Nat.div_le_of_le_mul ?_
      have hi : 2 * e + m / 16 ≤ i := by omega
      calc m * m = (e + m / 16) * (e + m / 16) := by rw [← hm]
        _ ≤ (2 * e + m / 16) * e := by nlinarith
        _ ≤ i * e := Nat.mul_le_mul_right e hi
    omega

theorem Agree.wait (h : Agree m c i) (hlt : ¬ (c + 1) * m ≤ avoided m i) :
    Agree m c (avoided m i) where
  below := Nat.lt_of_not_le hlt
  above := by
    have hle := le_avoided m i
    have habove := h.above
    omega
  least _ := (Nat.le_max_right i m).trans (le_avoided m i)

theorem Agree.raise (h : Agree m c i) (hm : 0 < m) (hle : (c + 1) * m ≤ avoided m i) :
    Agree m ((avoided m i + m - 1) / m) (avoided m i) ∧ c < (avoided m i + m - 1) / m ∧
      (0 < c → (avoided m i + m - 1) / m ≤ c + 2) := by
  generalize hb : avoided m i = b at *
  have hlow : (b + m - 1) / m * m ≤ b + m - 1 := Nat.div_mul_le_self _ _
  have hhigh : b + m - 1 < ((b + m - 1) / m + 1) * m := Nat.lt_mul_of_div_lt (Nat.lt_succ_self _) hm
  rw [Nat.add_one_mul] at hhigh
  refine ⟨⟨by rw [Nat.add_one_mul]; omega, by omega, fun _ => ?_⟩, ?_, fun hc => ?_⟩
  · have hmax := (Nat.le_max_right i m).trans (le_avoided m i)
    omega
  · refine Nat.lt_of_succ_le ((Nat.le_div_iff_mul_le hm).mpr ?_)
    rw [Nat.succ_eq_add_one]
    omega
  · have hmost := h.avoided_le hc
    rw [hb] at hmost
    refine Nat.le_of_lt_succ ((Nat.div_lt_iff_lt_mul hm).mpr ?_)
    rw [Nat.succ_eq_add_one, Nat.add_one_mul (c + 2)]
    omega

/-- Bytes that grow by a segment and a sixteenth `n` times open the window by little more than
`n` segments. -/
theorem Agree.opened (h : Agree m c i) {c' i' n : Nat} (h' : Agree m c' i')
    (hbytes : max i' m ≤ max i m + n * (m + m / 16)) :
    16 * c' < 16 * (c + 2) + 17 * n := by
  have habove := h'.above
  have hmax : max i m ≤ c * m + m := by
    rw [← Nat.add_one_mul]
    exact Nat.max_le.mpr ⟨Nat.le_of_lt h.below, Nat.le_mul_of_pos_left m (Nat.succ_pos c)⟩
  have hparts : n * (16 * (m + m / 16)) ≤ n * (17 * m) := Nat.mul_le_mul_left n (by omega)
  refine Nat.lt_of_mul_lt_mul_right (a := m) ?_
  calc 16 * c' * m = 16 * (c' * m) := Nat.mul_assoc _ _ _
    _ < 16 * (c * m + 2 * m + n * (m + m / 16)) := by omega
    _ = 16 * (c * m + 2 * m) + n * (16 * (m + m / 16)) := by ring
    _ ≤ 16 * (c * m + 2 * m) + n * (17 * m) := Nat.add_le_add_left hparts _
    _ = (16 * (c + 2) + 17 * n) * m := by ring

/-- A window that has grown, of `c` segments and `i` bytes before and `c'` and `i'` after. -/
structure Grown (m c i c' i' : Nat) (slow : Prop) : Prop where
  agree : Agree m c' i'
  le : c ≤ c'
  slow : slow → c' = c + 1
  avoid : 0 < c → c' ≤ c + 2
  bytes : i' ≤ max i m + m + m / 16

end Avoidance
