import Mathlib.Data.List.Basic
import Mathlib.Data.List.Pairwise
import CppDemos.Lib.Serial

/-!
# Sliding windows over serial numbers

The numbers a sender has given out and not seen acknowledged, as a list ordered
from the oldest: `Flight una nxt sns` says that `sns` lies between `una` and
`nxt`, that `una` is the first of them, or `nxt` if there is none. Whatever is
taken out of the list, in whatever order, the rest is a flight from its own
first number, and no wider (`Flight.sublist`); a number given out goes to its
end and makes it one wider (`Flight.push`). A flight has no more members than
it is wide (`Flight.length_le`).
-/

namespace Serial

variable {w : Nat} {una nxt : BitVec w} {sns rest : List (BitVec w)}

structure Flight (una nxt : BitVec w) (sns : List (BitVec w)) : Prop where
  first : una = sns.head?.getD nxt
  ordered : sns.Pairwise fun a b => offset una a < offset una b
  below : ∀ sn ∈ sns, offset una sn < offset una nxt

theorem Flight.nil (nxt : BitVec w) : Flight nxt nxt [] := ⟨rfl, .nil, by simp⟩

theorem offset_rebase {base edge a : BitVec w} (h : offset base edge ≤ offset base a) :
    offset edge a = offset base a - offset base edge := by
  have hsub := offset_sub base a (edge - base) h
  rwa [show base + (edge - base) = edge by grind] at hsub

theorem offset_next (una nxt : BitVec w) (h : offset una nxt + 1 < 2 ^ w) :
    offset una (nxt + 1#w) = offset una nxt + 1 := by
  have hone : (1#w).toNat = 1 := by
    rw [BitVec.toNat_ofNat, Nat.mod_eq_of_lt (by omega)]
  unfold offset at *
  rw [show nxt + 1#w - una = nxt - una + 1#w by grind, BitVec.toNat_add, hone,
    Nat.mod_eq_of_lt h]

theorem Flight.first_le (h : Flight una nxt sns) (hsub : rest.Sublist sns) :
    offset una (rest.head?.getD nxt) ≤ offset una nxt ∧
      ∀ sn ∈ rest, offset una (rest.head?.getD nxt) ≤ offset una sn := by
  cases rest with
  | nil => exact ⟨Nat.le_refl _, by simp⟩
  | cons a rest =>
      have hordered := List.pairwise_cons.mp (h.ordered.sublist hsub)
      refine ⟨Nat.le_of_lt (h.below a (hsub.subset (List.mem_cons_self ..))), ?_⟩
      intro sn hsn
      rcases List.mem_cons.mp hsn with rfl | hsn
      · exact Nat.le_refl _
      · exact Nat.le_of_lt (hordered.1 sn hsn)

theorem Flight.sublist (h : Flight una nxt sns) (hsub : rest.Sublist sns) :
    Flight (rest.head?.getD nxt) nxt rest ∧
      offset (rest.head?.getD nxt) nxt ≤ offset una nxt := by
  obtain ⟨hnxt, hle⟩ := h.first_le hsub
  refine ⟨⟨rfl, ?_, ?_⟩, ?_⟩
  · refine (h.ordered.sublist hsub).imp_of_mem fun {a b} ha hb hab => ?_
    have hale := hle a ha
    rw [offset_rebase hale, offset_rebase (hle b hb)]
    omega
  · intro sn hsn
    have hsnle := hle sn hsn
    have hlt := h.below sn (hsub.subset hsn)
    rw [offset_rebase hsnle, offset_rebase hnxt]
    omega
  · rw [offset_rebase hnxt]
    exact Nat.sub_le ..

theorem Flight.push (h : Flight una nxt sns) (hroom : offset una nxt + 1 < 2 ^ w) :
    Flight una (nxt + 1#w) (sns ++ [nxt]) := by
  have hnext := offset_next una nxt hroom
  refine ⟨?_, ?_, ?_⟩
  · cases sns with
    | nil => exact h.first
    | cons a sns => exact h.first
  · refine List.pairwise_append.mpr ⟨h.ordered, List.pairwise_singleton .., ?_⟩
    intro a ha b hb
    exact List.mem_singleton.mp hb ▸ h.below a ha
  · intro sn hsn
    rw [hnext]
    rcases List.mem_append.mp hsn with hsn | hsn
    · exact Nat.lt_succ_of_lt (h.below sn hsn)
    · exact List.mem_singleton.mp hsn ▸ Nat.lt_succ_self _

theorem Flight.length_le (h : Flight una nxt sns) : sns.length ≤ offset una nxt := by
  have hnodup : (sns.map (offset una)).Nodup :=
    List.pairwise_map.mpr (h.ordered.imp fun hlt => Nat.ne_of_lt hlt)
  have hsub : sns.map (offset una) ⊆ List.range (offset una nxt) := by
    intro n hn
    obtain ⟨sn, hsn, rfl⟩ := List.mem_map.mp hn
    exact List.mem_range.mpr (h.below sn hsn)
  simpa using hnodup.length_le_of_subset hsub

end Serial
