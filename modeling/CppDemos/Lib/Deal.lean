import Mathlib.Algebra.BigOperators.Group.Finset.Basic
import Mathlib.Data.List.Perm.Basic
import Mathlib.Data.List.Range
import Mathlib.Tactic.Common

/-!
# Dealing in turn

The items of a list are dealt to `n` hands in turn. `hand n i` is what the hand
gets that is `i` places behind the one whose turn it is: item `k` of it is item
`i + k * n` of the list (`getElem?_hand`), and between them the hands get every
item once (`hands_perm`).
-/

namespace Deal

variable {α : Type*} {n i : Nat}

/-- The items of the hand `i` places behind the one whose turn it is. -/
def hand (n : Nat) : Nat → List α → List α
  | _, [] => []
  | 0, a :: items => a :: hand n (n - 1) items
  | i + 1, _ :: items => hand n i items

@[simp] theorem hand_nil : hand n i ([] : List α) = [] := by cases i <;> rfl

theorem hand_one (items : List α) : hand 1 0 items = items := by
  induction items with
  | nil => rfl
  | cons a items ih => rw [hand, ih]

theorem succ_mod (hn : 0 < n) (k : Nat) :
    (k + 1) % n = if k % n = n - 1 then 0 else k % n + 1 := by
  have hlt := Nat.mod_lt k hn
  rw [← Nat.mod_add_mod]
  split
  · rename_i hlast
    rw [hlast, Nat.sub_add_cancel hn, Nat.mod_self]
  · exact Nat.mod_eq_of_lt (by omega)

theorem hand_concat {items : List α} {a : α} (hi : i < n) :
    hand n i (items ++ [a]) = hand n i items ++ if items.length % n = i then [a] else [] := by
  induction items generalizing i with
  | nil =>
      rw [List.length_nil, Nat.zero_mod]
      cases i with
      | zero => rfl
      | succ i => rfl
  | cons b items ih =>
      rw [List.cons_append, List.length_cons]
      cases i with
      | zero =>
          have hturn : (items.length + 1) % n = 0 ↔ items.length % n = n - 1 := by
            rw [succ_mod hi]
            split <;> simp_all
          rw [hand, hand, ih (Nat.sub_lt hi Nat.one_pos), List.cons_append]
          simp only [hturn]
      | succ i =>
          have hturn : (items.length + 1) % n = i + 1 ↔ items.length % n = i := by
            rw [succ_mod (by omega)]
            split <;> omega
          rw [hand, hand, ih (Nat.lt_of_succ_lt hi)]
          simp only [hturn]

theorem getElem?_hand {items : List α} (hn : 0 < n) (k : Nat) :
    (hand n i items)[k]? = items[i + k * n]? := by
  induction items generalizing i k with
  | nil => simp
  | cons a items ih =>
      cases i with
      | zero =>
          cases k with
          | zero => simp [hand]
          | succ k =>
              have hnext : 0 + (k + 1) * n = n - 1 + k * n + 1 := by
                rw [Nat.add_mul]
                omega
              rw [hand, List.getElem?_cons_succ, ih, hnext, List.getElem?_cons_succ]
      | succ i =>
          have hnext : i + 1 + k * n = i + k * n + 1 := by omega
          rw [hand, ih, hnext, List.getElem?_cons_succ]

theorem hands_perm (hn : 0 < n) (items : List α) :
    ((List.range n).flatMap fun i => hand n i items).Perm items := by
  obtain ⟨n, rfl⟩ : ∃ m, n = m + 1 := ⟨n - 1, by omega⟩
  induction items with
  | nil => simp
  | cons a items ih =>
      rw [List.range_succ_eq_map, List.flatMap_cons, List.flatMap_map]
      refine .cons a (.trans ?_ ih)
      rw [List.range_succ, List.flatMap_append]
      simp only [hand, List.flatMap_cons, List.flatMap_nil, List.append_nil]
      exact List.perm_append_comm

open Finset in
theorem sum_length_hand (hn : 0 < n) (items : List α) :
    ∑ i ∈ range n, (hand n i items).length = items.length := by
  obtain ⟨n, rfl⟩ : ∃ m, n = m + 1 := ⟨n - 1, by omega⟩
  induction items with
  | nil => simp
  | cons a items ih =>
      rw [sum_range_succ', List.length_cons, ← ih, sum_range_succ]
      rfl

end Deal
