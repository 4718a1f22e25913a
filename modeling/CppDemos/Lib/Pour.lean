import Mathlib.Data.List.Basic
import Mathlib.Tactic.Common
import CppDemos.Lib.Fragment

/-!
# Filling pieces one element at a time

A queue of pieces holds at most `n` elements a piece. `put` adds one element: to
the last piece while that has room, to a piece of its own otherwise. `pour` puts
a whole list.

A writer that copies whole blocks at once (`pour_room`, `pour_full`) agrees with
the writer that puts its elements one by one, so pouring in two goes is pouring
once (`pour_append`), and what is poured into an empty queue is cut as one
message would be (`pour_nil`).
-/

namespace Pour

variable {α : Type*} {n : Nat}

/-- One element behind the last piece, or in a piece of its own. -/
def put (n : Nat) (pieces : List (List α)) (a : α) : List (List α) :=
  match pieces.getLast? with
  | none => [[a]]
  | some last =>
      if last.length < n then pieces.dropLast ++ [last ++ [a]] else pieces ++ [[a]]

def pour (n : Nat) (pieces : List (List α)) (xs : List α) : List (List α) :=
  xs.foldl (put n) pieces

/-- The last piece, if there is one, has no room left. -/
def Full (n : Nat) (pieces : List (List α)) : Prop :=
  ∀ last ∈ pieces.getLast?, n ≤ last.length

@[simp] theorem pour_nil_right (pieces : List (List α)) : pour n pieces [] = pieces := rfl

theorem pour_append (pieces : List (List α)) (xs ys : List α) :
    pour n pieces (xs ++ ys) = pour n (pour n pieces xs) ys := by
  simp [pour]

theorem put_last {pieces : List (List α)} {last : List α} (hroom : last.length < n) (a : α) :
    put n (pieces ++ [last]) a = pieces ++ [last ++ [a]] := by
  simp [put, hroom]

theorem put_full {pieces : List (List α)} (hfull : Full n pieces) (a : α) :
    put n pieces a = pieces ++ [[a]] := by
  unfold put
  split
  · rename_i hnone
    rw [List.getLast?_eq_none_iff.mp hnone, List.nil_append]
  · rename_i last hlast
    exact if_neg (Nat.not_lt.mpr (hfull last hlast))

theorem full_concat {pieces : List (List α)} {last : List α} (h : n ≤ last.length) :
    Full n (pieces ++ [last]) := by
  simpa [Full] using h

theorem pour_room (pieces : List (List α)) :
    ∀ {last xs : List α}, last.length + xs.length ≤ n →
      pour n (pieces ++ [last]) xs = pieces ++ [last ++ xs]
  | last, [], _ => by simp
  | last, a :: xs, hroom => by
      have hput : put n (pieces ++ [last]) a = pieces ++ [last ++ [a]] :=
        put_last (by simp at hroom; omega) a
      have hrest : pour n (pieces ++ [last ++ [a]]) xs = pieces ++ [last ++ [a] ++ xs] :=
        pour_room pieces (by simp at hroom ⊢; omega)
      calc pour n (pieces ++ [last]) (a :: xs)
          = pour n (pieces ++ [last ++ [a]]) xs := by rw [pour, List.foldl_cons, hput, pour]
        _ = pieces ++ [last ++ a :: xs] := by rw [hrest]; simp

theorem pour_full {pieces : List (List α)} (hfull : Full n pieces) {xs : List α}
    (hne : xs ≠ []) (hlen : xs.length ≤ n) : pour n pieces xs = pieces ++ [xs] := by
  obtain ⟨a, xs, rfl⟩ := List.exists_cons_of_ne_nil hne
  have hroom : [a].length + xs.length ≤ n := by simpa [Nat.add_comm] using hlen
  calc pour n pieces (a :: xs)
      = pour n (pieces ++ [[a]]) xs := by rw [pour, List.foldl_cons, put_full hfull, pour]
    _ = pieces ++ [a :: xs] := pour_room pieces hroom

/-! ## Nothing is lost -/

theorem flatten_put (pieces : List (List α)) (a : α) :
    (put n pieces a).flatten = pieces.flatten ++ [a] := by
  rcases List.eq_nil_or_concat pieces with rfl | ⟨rest, last, rfl⟩
  · rfl
  · by_cases hroom : last.length < n
    · simp [List.concat_eq_append, put_last hroom]
    · rw [List.concat_eq_append, put_full (full_concat (by omega))]
      simp

theorem flatten_pour (pieces : List (List α)) (xs : List α) :
    (pour n pieces xs).flatten = pieces.flatten ++ xs := by
  induction xs generalizing pieces with
  | nil => simp
  | cons a xs ih =>
      have hstep : pour n pieces (a :: xs) = pour n (put n pieces a) xs := rfl
      rw [hstep, ih, flatten_put, List.append_assoc, List.singleton_append]

/-! ## An empty queue -/

theorem count_bounds {len k : Nat} (hn : 0 < n) (hk : Fragment.count n len = k + 1)
    (hpos : 0 < len) : n * k < len ∧ len ≤ n * (k + 1) := by
  refine ⟨?_, hk ▸ Fragment.le_mul_count hn len⟩
  rcases Nat.eq_zero_or_pos k with rfl | hkpos
  · simpa using hpos
  · by_contra hle
    have := (Fragment.count_le_iff hn hkpos len).mpr (by omega)
    omega

/-- Pieces that are filled to the brim, poured behind a full piece. -/
theorem pour_split {k : Nat} {xs : List α} (hn : 0 < n) {pieces : List (List α)}
    (hfull : Full n pieces) (hlow : n * k < xs.length) (hhigh : xs.length ≤ n * (k + 1)) :
    pour n pieces xs = pieces ++ (Fragment.split n (k + 1) xs).map Fragment.Frag.body := by
  induction k generalizing pieces xs with
  | zero =>
      rw [pour_full hfull (List.ne_nil_of_length_pos (by omega)) (by simpa using hhigh),
        Fragment.split, List.take_of_length_le (by simpa using hhigh)]
      rfl
  | succ k ih =>
      rw [Nat.mul_succ] at hlow hhigh
      have htake : (xs.take n).length = n := by rw [List.length_take]; omega
      have hfirst : pour n pieces (xs.take n) = pieces ++ [xs.take n] :=
        pour_full hfull (List.ne_nil_of_length_pos (by omega)) htake.le
      have hdrop : (xs.drop n).length = xs.length - n := List.length_drop
      have hrest : pour n (pieces ++ [xs.take n]) (xs.drop n) = pieces ++ [xs.take n]
          ++ (Fragment.split n (k + 1) (xs.drop n)).map Fragment.Frag.body :=
        ih (full_concat htake.ge) (by omega) (by omega)
      calc pour n pieces xs
          = pour n (pour n pieces (xs.take n)) (xs.drop n) := by
            rw [← pour_append, List.take_append_drop]
        _ = pieces ++ (Fragment.split n (k + 1 + 1) xs).map Fragment.Frag.body := by
            rw [hfirst, hrest, List.append_assoc]
            rfl

/-- Behind a full piece, or into an empty queue, a message is cut as
`Fragment.fragments` cuts it. -/
theorem pour_fragments (hn : 0 < n) {pieces : List (List α)} (hfull : Full n pieces)
    {xs : List α} (hne : xs ≠ []) :
    pour n pieces xs = pieces ++ (Fragment.fragments n xs).map Fragment.Frag.body := by
  obtain ⟨k, hk⟩ := Nat.exists_eq_succ_of_ne_zero (Fragment.count_pos hn xs.length).ne'
  obtain ⟨hlow, hhigh⟩ := count_bounds hn hk (List.length_pos_iff.mpr hne)
  rw [Fragment.fragments, hk]
  exact pour_split hn hfull hlow hhigh

end Pour
