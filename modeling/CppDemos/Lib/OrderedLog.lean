import Mathlib.Logic.Relation
import Mathlib.Logic.Function.Basic
import Mathlib.Data.List.Infix
import Mathlib.Tactic.Common

/-!
# Ordered broadcast

What a reliable ordered channel to a group is for, with nothing of how it is
done: one log that only grows, and readers that each take its entries in
order. `delivered_prefix` is the guarantee: whatever a reader has taken is a
prefix of the log.
-/

namespace OrderedLog

variable {ι α : Type*}

/-- The published entries and what each reader has taken so far. -/
structure State (ι α : Type*) where
  log : List α
  delivered : ι → List α

/-- Either an entry is published, or a reader takes the entry it is at. -/
inductive Step [DecidableEq ι] : State ι α → State ι α → Prop where
  | publish (s : State ι α) (a : α) : Step s { s with log := s.log ++ [a] }
  | deliver (s : State ι α) (i : ι) (a : α)
      (h : s.log[(s.delivered i).length]? = some a) :
      Step s { s with delivered := Function.update s.delivered i (s.delivered i ++ [a]) }

def State.empty : State ι α := ⟨[], fun _ => []⟩

/-- Every reader holds a prefix of the log. -/
def State.Ordered (s : State ι α) : Prop := ∀ i, s.delivered i <+: s.log

theorem prefix_snoc {l m : List α} {a : α} (h : l <+: m)
    (ha : m[l.length]? = some a) : l ++ [a] <+: m := by
  obtain ⟨r, rfl⟩ := h
  rw [List.getElem?_append_right (Nat.le_refl _), Nat.sub_self] at ha
  cases r with
  | nil => simp at ha
  | cons b r =>
      obtain rfl : b = a := by simpa using ha
      exact ⟨r, by simp⟩

theorem Step.ordered [DecidableEq ι] {s t : State ι α} (h : Step s t)
    (hs : s.Ordered) : t.Ordered := by
  cases h with
  | publish a => exact fun i => (hs i).trans (List.prefix_append _ _)
  | deliver i a ha =>
      intro j
      by_cases hj : j = i
      · subst hj
        simpa using prefix_snoc (hs j) ha
      · simpa [Function.update_of_ne hj] using hs j

/-- Whatever a reader has taken is a prefix of the log. -/
theorem delivered_prefix [DecidableEq ι] {s t : State ι α}
    (h : Relation.ReflTransGen Step s t) (hs : s.Ordered) : t.Ordered := by
  induction h with
  | refl => exact hs
  | tail _ hstep ih => exact hstep.ordered ih

/-- A reader takes the next entries of the log one after the other. -/
theorem deliver_many [DecidableEq ι] {log : List α} {i : ι} :
    ∀ {new : List α} {d : ι → List α}, d i ++ new <+: log →
      Relation.ReflTransGen Step (⟨log, d⟩ : State ι α)
        ⟨log, Function.update d i (d i ++ new)⟩
  | [], d, _ => by simpa using Relation.ReflTransGen.refl
  | a :: new, d, h => by
      have hget : log[(d i).length]? = some a := by
        obtain ⟨r, rfl⟩ := h
        simp
      refine .head (.deliver ⟨log, d⟩ i a hget) ?_
      have hrest : Function.update d i (d i ++ [a]) i ++ new <+: log := by
        simpa using h
      simpa [Function.update_idem] using deliver_many hrest

end OrderedLog
