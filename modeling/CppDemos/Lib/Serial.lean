import Mathlib.Algebra.Group.Int.Defs
import Mathlib.Algebra.Group.Nat.Defs
import Mathlib.Order.Basic
import Mathlib.Tactic.Common

/-!
# Serial-number arithmetic

Sequence numbers that live in a `w`-bit word and are compared by the sign of
their wrapped difference. `diff` is that comparison and `offset base a` is how
far `a` lies ahead of `base`, going upwards and around.

Everything is stated through `offset`, because the order a sliding window
needs is the order of offsets from its left edge: `window_iff` turns the two
sign tests of a window check into one bound on the offset, and `offset_succ`
says what happens to the offsets when the window moves by one. For numbers
that have not yet wrapped, `diff_eq_sub` gives back the plain integer
difference.
-/

namespace Serial

variable {w : Nat}

/-- How far `a` is ahead of `base`, modulo `2 ^ w`. -/
def offset (base a : BitVec w) : Nat := (a - base).toNat

/-- The signed reading of the wrapped difference. -/
def diff (later earlier : BitVec w) : Int := (later - earlier).toInt

theorem offset_eq (base a : BitVec w) :
    offset base a =
      if base.toNat ≤ a.toNat then a.toNat - base.toNat
      else 2 ^ w - base.toNat + a.toNat := by
  have ha := a.isLt
  have hb := base.isLt
  unfold offset
  rw [BitVec.toNat_sub]
  split
  · rename_i h
    rw [show 2 ^ w - base.toNat + a.toNat = (a.toNat - base.toNat) + 2 ^ w by omega,
      Nat.add_mod_right, Nat.mod_eq_of_lt (by omega)]
  · exact Nat.mod_eq_of_lt (by omega)

theorem offset_lt (base a : BitVec w) : offset base a < 2 ^ w := (a - base).isLt

@[simp] theorem offset_self (a : BitVec w) : offset a a = 0 := by
  simp [offset]

theorem offset_eq_zero {base a : BitVec w} : offset base a = 0 ↔ a = base := by
  constructor
  · intro h
    apply BitVec.eq_of_toNat_eq
    have ha := a.isLt
    have hb := base.isLt
    rw [offset_eq] at h
    split at h <;> omega
  · rintro rfl
    exact offset_self _

theorem offset_injective {base a b : BitVec w} (h : offset base a = offset base b) :
    a = b := by
  apply BitVec.eq_of_toNat_eq
  have ha := a.isLt
  have hb := b.isLt
  have hbase := base.isLt
  rw [offset_eq, offset_eq] at h
  split at h <;> split at h <;> omega

theorem diff_eq (later earlier : BitVec w) :
    diff later earlier =
      if 2 * offset earlier later < 2 ^ w then (offset earlier later : Int)
      else (offset earlier later : Int) - 2 ^ w := by
  unfold diff offset
  rw [BitVec.toInt_eq_toNat_cond]
  split <;> simp

theorem diff_nonneg_iff {later earlier : BitVec w} :
    0 ≤ diff later earlier ↔ 2 * offset earlier later < 2 ^ w := by
  have h := offset_lt earlier later
  have hpow : ((2 ^ w : Nat) : Int) = 2 ^ w := by norm_cast
  rw [diff_eq, ← hpow]
  split <;> omega

theorem diff_eq_sub {a b : BitVec w} (ha : 2 * a.toNat < 2 ^ w)
    (hb : 2 * b.toNat < 2 ^ w) : diff a b = (a.toNat : Int) - b.toNat := by
  rw [diff_eq, offset_eq]
  have hpow : ((2 ^ w : Nat) : Int) = 2 ^ w := by norm_cast
  split
  · split
    · omega
    · omega
  · split
    · omega
    · rw [← hpow]
      omega

theorem window_iff {base a len : BitVec w} (hlen : 2 * len.toNat < 2 ^ w) :
    (diff a (base + len) < 0 ∧ 0 ≤ diff a base) ↔ offset base a < len.toNat := by
  rw [diff_nonneg_iff, ← Int.not_le, diff_nonneg_iff]
  have ha := a.isLt
  have hb := base.isLt
  have hsum : (base + len).toNat =
      if base.toNat + len.toNat < 2 ^ w then base.toNat + len.toNat
      else base.toNat + len.toNat - 2 ^ w := by
    rw [BitVec.toNat_add]
    split
    · exact Nat.mod_eq_of_lt ‹_›
    · rw [Nat.mod_eq_sub_mod (by omega), Nat.mod_eq_of_lt (by omega)]
  rw [offset_eq, offset_eq, hsum]
  split <;> split <;> split <;> constructor <;> omega

theorem offset_succ {base a : BitVec w} (h : offset base a ≠ 0) :
    offset (base + 1#w) a = offset base a - 1 := by
  have hne : a ≠ base := fun hab => h (offset_eq_zero.mpr hab)
  have ha := a.isLt
  have hb := base.isLt
  have hw : 1 < 2 ^ w := by
    rcases Nat.eq_zero_or_pos w with rfl | hw
    · exact absurd (Subsingleton.elim a base) hne
    · exact Nat.one_lt_two_pow (by omega)
  have hsum : (base + 1#w).toNat =
      if base.toNat + 1 < 2 ^ w then base.toNat + 1 else 0 := by
    rw [BitVec.toNat_add, BitVec.toNat_ofNat, Nat.mod_eq_of_lt hw]
    split
    · exact Nat.mod_eq_of_lt ‹_›
    · rw [show base.toNat + 1 = 2 ^ w by omega, Nat.mod_self]
  have hne' : a.toNat ≠ base.toNat := fun h' => hne (BitVec.eq_of_toNat_eq h')
  rw [offset_eq, offset_eq, hsum]
  split <;> split <;> split <;> omega

theorem offset_add (base a d : BitVec w) (h : offset (base + d) a + d.toNat < 2 ^ w) :
    offset base a = offset (base + d) a + d.toNat := by
  unfold offset at *
  have hsub : a - base = (a - (base + d)) + d := by grind
  rw [hsub, BitVec.toNat_add, Nat.mod_eq_of_lt h]

theorem offset_sub (base a d : BitVec w) (h : d.toNat ≤ offset base a) :
    offset (base + d) a = offset base a - d.toNat := by
  unfold offset at *
  have hsub : a - (base + d) = (a - base) - d := by grind
  rw [hsub, BitVec.toNat_sub_of_le h]

theorem offset_sub_of_lt (base a d : BitVec w) (h : offset base a < d.toNat) :
    offset (base + d) a = 2 ^ w - (d.toNat - offset base a) := by
  have hd := d.isLt
  unfold offset at *
  have hsub : a - (base + d) = (a - base) - d := by grind
  rw [hsub, BitVec.toNat_sub, Nat.mod_eq_of_lt (by omega)]
  omega

/-- Short of half the number space behind, the signed difference goes down by what is
added to the earlier number. -/
theorem diff_add_right {later earlier d : BitVec w} (hd : 2 * d.toNat < 2 ^ w)
    (h : -2 ^ w ≤ 2 * (diff later earlier - d.toNat)) :
    diff later (earlier + d) = diff later earlier - d.toNat := by
  have hlt := offset_lt earlier later
  have hpow : ((2 ^ w : Nat) : Int) = 2 ^ w := by norm_cast
  rw [diff_eq, ← hpow] at h ⊢
  rw [diff_eq, ← hpow]
  by_cases hle : d.toNat ≤ offset earlier later
  · rw [offset_sub _ _ _ hle]
    split at h <;> split <;> omega
  · rw [offset_sub_of_lt _ _ _ (by omega)]
    split at h <;> split <;> omega

theorem diff_swap {a b : BitVec w} (h : 2 * diff a b ≠ -2 ^ w) : diff b a = -diff a b := by
  have ha := a.isLt
  have hb := b.isLt
  have hlt := offset_lt b a
  have hpow : ((2 ^ w : Nat) : Int) = 2 ^ w := by norm_cast
  have hoff : offset a b = if offset b a = 0 then 0 else 2 ^ w - offset b a := by
    rw [offset_eq, offset_eq]
    split <;> split <;> split <;> omega
  rw [diff_eq, ← hpow] at h
  rw [diff_eq, diff_eq, ← hpow]
  by_cases hnear : 2 * offset b a < 2 ^ w
  · rw [if_pos hnear] at h ⊢
    split at hoff <;> split <;> omega
  · rw [if_neg hnear] at h ⊢
    split at hoff <;> split <;> omega

theorem diff_add_left {later earlier d : BitVec w} (hd : 2 * d.toNat < 2 ^ w)
    (h : 2 * (diff later earlier + d.toNat) < 2 ^ w) :
    diff (later + d) earlier = diff later earlier + d.toNat := by
  have hlt := offset_lt earlier later
  have hpow : ((2 ^ w : Nat) : Int) = 2 ^ w := by norm_cast
  have hoff : offset earlier (later + d) = (offset earlier later + d.toNat) % 2 ^ w := by
    unfold offset
    have hsub : later + d - earlier = later - earlier + d := by grind
    rw [hsub, BitVec.toNat_add]
  rw [diff_eq] at h
  rw [diff_eq, diff_eq, hoff]
  rw [← hpow] at h ⊢
  by_cases hwrap : offset earlier later + d.toNat < 2 ^ w
  · rw [Nat.mod_eq_of_lt hwrap]
    split at h <;> split <;> omega
  · rw [Nat.mod_eq_sub_mod (by omega), Nat.mod_eq_of_lt (by omega)]
    split at h <;> split <;> omega

/-- Two numbers ahead of `base` compare as their offsets do, as long as neither
is half the number space away. -/
theorem diff_pos_iff {base a b : BitVec w} (ha : 2 * offset base a < 2 ^ w)
    (hb : 2 * offset base b < 2 ^ w) :
    0 < diff a b ↔ offset base b < offset base a := by
  have h1 := a.isLt
  have h2 := b.isLt
  have h3 := base.isLt
  have hpow : ((2 ^ w : Nat) : Int) = 2 ^ w := by norm_cast
  rw [diff_eq, offset_eq b a, offset_eq base a, offset_eq base b, ← hpow]
  rw [offset_eq base a] at ha
  rw [offset_eq base b] at hb
  split at ha <;> split at hb <;> split <;> split <;> omega

end Serial
