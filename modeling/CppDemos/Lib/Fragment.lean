import Mathlib.Data.List.Basic
import Mathlib.Data.List.Infix
import Mathlib.Tactic.Common

/-!
# Fragmentation and reassembly

A message is cut into pieces of at most `mss` elements, numbered downwards so
that the last piece has number 0. A reader that sees the pieces in order finds
the message boundaries from the numbers alone: `merge` takes the bodies up to
and including the first piece numbered 0.

`stream` is the concatenation of the fragments of many messages. The two facts
a reassembler rests on are `merge_fragments` (the first message comes off the
front of a stream unchanged) and `head_num` (the first number says how many
pieces the first message has), so a buffer that holds any prefix of a stream
knows whether its first message is complete.
-/

namespace Fragment

variable {α : Type*}

/-- One piece of a message with its countdown number. -/
structure Frag (α : Type*) where
  num : Nat
  body : List α
deriving DecidableEq, Repr

/-- Cut off `n` pieces of at most `mss` elements, numbered `n - 1` down to 0. -/
def split (mss : Nat) : Nat → List α → List (Frag α)
  | 0, _ => []
  | n + 1, msg => ⟨n, msg.take mss⟩ :: split mss n (msg.drop mss)

/-- How many pieces a message of length `len` needs (at least one). -/
def count (mss len : Nat) : Nat :=
  if len ≤ mss then 1 else (len + mss - 1) / mss

def fragments (mss : Nat) (msg : List α) : List (Frag α) :=
  split mss (count mss msg.length) msg

/-- The bodies up to and including the first piece numbered 0, and the pieces
after it. -/
def merge : List (Frag α) → List α × List (Frag α)
  | [] => ([], [])
  | f :: fs =>
      if f.num = 0 then (f.body, fs)
      else (f.body ++ (merge fs).1, (merge fs).2)

/-- The pieces of many messages, one message after the other. -/
def stream (mss : Nat) (msgs : List (List α)) : List (Frag α) :=
  msgs.flatMap (fragments mss)

/-! ## Counting -/

@[simp] theorem length_split (mss n : Nat) (msg : List α) :
    (split mss n msg).length = n := by
  induction n generalizing msg with
  | zero => rfl
  | succ n ih => simp [split, ih]

@[simp] theorem length_fragments (mss : Nat) (msg : List α) :
    (fragments mss msg).length = count mss msg.length := length_split ..

theorem count_pos {mss : Nat} (hmss : 0 < mss) (len : Nat) : 0 < count mss len := by
  unfold count
  split
  · exact Nat.one_pos
  · exact Nat.div_pos (by omega) hmss

theorem le_mul_count {mss : Nat} (hmss : 0 < mss) (len : Nat) :
    len ≤ mss * count mss len := by
  unfold count
  split
  · simpa using ‹len ≤ mss›
  · have h := Nat.lt_mul_div_succ (len + mss - 1) hmss
    rw [Nat.mul_add, Nat.mul_one] at h
    omega

theorem count_le_iff {mss n : Nat} (hmss : 0 < mss) (hn : 0 < n) (len : Nat) :
    count mss len ≤ n ↔ len ≤ mss * n := by
  constructor
  · intro h
    exact Nat.le_trans (le_mul_count hmss len) (Nat.mul_le_mul_left mss h)
  · intro h
    unfold count
    split
    · omega
    · have hlt : (len + mss - 1) / mss < n + 1 := by
        rw [Nat.div_lt_iff_lt_mul hmss, Nat.add_mul, Nat.one_mul, Nat.mul_comm]
        omega
      omega

@[simp] theorem stream_nil (mss : Nat) : stream mss ([] : List (List α)) = [] := rfl

theorem stream_cons (mss : Nat) (msg : List α) (msgs : List (List α)) :
    stream mss (msg :: msgs) = fragments mss msg ++ stream mss msgs := rfl

theorem stream_append (mss : Nat) (xs ys : List (List α)) :
    stream mss (xs ++ ys) = stream mss xs ++ stream mss ys := by
  simp [stream]

theorem stream_concat (mss : Nat) (msgs : List (List α)) (msg : List α) :
    stream mss (msgs ++ [msg]) = stream mss msgs ++ fragments mss msg := by
  rw [stream_append, stream_cons, stream_nil, List.append_nil]

/-! ## Reassembly -/

theorem merge_split {mss : Nat} :
    ∀ {n : Nat} {msg : List α}, msg.length ≤ mss * (n + 1) → ∀ rest,
      merge (split mss (n + 1) msg ++ rest) = (msg, rest)
  | 0, msg, h, rest => by
      have : msg.length ≤ mss := by simpa using h
      simp [split, merge, List.take_of_length_le this]
  | n + 1, msg, h, rest => by
      have hdrop : (msg.drop mss).length ≤ mss * (n + 1) := by
        rw [List.length_drop]
        rw [Nat.mul_succ] at h
        omega
      rw [split, List.cons_append, merge, if_neg (Nat.succ_ne_zero n), merge_split hdrop]
      simp

theorem merge_fragments {mss : Nat} (hmss : 0 < mss) (msg : List α)
    (rest : List (Frag α)) : merge (fragments mss msg ++ rest) = (msg, rest) := by
  obtain ⟨n, hn⟩ := Nat.exists_eq_succ_of_ne_zero (count_pos hmss msg.length).ne'
  have h := le_mul_count hmss msg.length
  rw [hn] at h
  rw [fragments, hn]
  exact merge_split h rest

theorem head_num {mss : Nat} (hmss : 0 < mss) (msg : List α) :
    ∃ f fs, fragments mss msg = f :: fs ∧ f.num + 1 = count mss msg.length := by
  obtain ⟨n, hn⟩ := Nat.exists_eq_succ_of_ne_zero (count_pos hmss msg.length).ne'
  exact ⟨⟨n, msg.take mss⟩, split mss n (msg.drop mss), by rw [fragments, hn, split], hn.symm⟩

theorem split_body_le {mss n : Nat} {msg : List α} {f : Frag α}
    (h : f ∈ split mss n msg) : f.body.length ≤ mss ∧ f.num < n := by
  induction n generalizing msg with
  | zero => cases h
  | succ n ih =>
      rcases List.mem_cons.mp h with rfl | h
      · exact ⟨List.length_take_le .., Nat.lt_succ_self n⟩
      · obtain ⟨h1, h2⟩ := ih h
        exact ⟨h1, by omega⟩

theorem flatMap_body_split {mss : Nat} :
    ∀ {n : Nat} {msg : List α}, msg.length ≤ mss * n → (split mss n msg).flatMap Frag.body = msg
  | 0, msg, h => by
      obtain rfl : msg = [] := by simpa using h
      rfl
  | n + 1, msg, h => by
      have hdrop : (msg.drop mss).length ≤ mss * n := by
        rw [List.length_drop]
        rw [Nat.mul_succ] at h
        omega
      rw [split, List.flatMap_cons, flatMap_body_split hdrop, List.take_append_drop]

theorem map_num_split (mss n : Nat) (msg : List α) :
    (split mss n msg).map Frag.num = (List.range n).reverse := by
  induction n generalizing msg with
  | zero => rfl
  | succ n ih => rw [split, List.map_cons, ih, List.range_succ, List.reverse_concat]

theorem fragments_body_le {mss : Nat} {msg : List α} {f : Frag α}
    (h : f ∈ fragments mss msg) :
    f.body.length ≤ mss ∧ f.num < count mss msg.length := split_body_le h

end Fragment
