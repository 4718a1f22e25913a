import Mathlib.Data.List.Chain
import Mathlib.Tactic.Common

/-!
# Packing in order

Items of given sizes are put into blocks of a given capacity, in order and without
gaps; an item larger than the capacity gets a block to itself. Next-fit packing
starts a block only when the next item does not fit in the last one. No packing
needs fewer blocks (`length_le`): block by block it stays ahead of any other.
-/

namespace NextFit

variable {α : Type*} (size : α → Nat) (cap : Nat)

def total : List α → Nat
  | [] => 0
  | x :: block => size x + total block

/-- A block holds something, and more than the capacity only if it is one item. -/
def IsBlock (block : List α) : Prop :=
  block ≠ [] ∧ (total size block ≤ cap ∨ ∃ x, block = [x])

/-- The first item of the second block does not fit in the first one. -/
def Tight (block next : List α) : Prop := ∀ x ∈ next.head?, cap < total size block + size x

variable {size cap} {block next : List α} {x : α}

@[simp] theorem total_nil : total size [] = 0 := rfl

@[simp] theorem total_cons : total size (x :: block) = size x + total size block := rfl

@[simp] theorem total_append : total size (block ++ next) = total size block + total size next := by
  induction block with
  | nil => simp
  | cons x block ih => simp [ih, Nat.add_assoc]

theorem IsBlock.not_more {more : List α} (h : IsBlock size cap (more ++ block ++ x :: next))
    (hne : block ≠ []) : total size block + size x ≤ cap := by
  rcases h.2 with hle | ⟨y, hy⟩
  · simp only [total_append, total_cons] at hle
    omega
  · have hlen := congrArg List.length hy
    have hpos := List.length_pos_iff.mpr hne
    simp only [List.length_append, List.length_cons, List.length_nil] at hlen
    omega

/-- Where one packing has a tight block, the other gets no further with its own. -/
theorem suffix_of_tight {rest other : List α} (htight : Tight size cap block rest)
    (hne : block ≠ []) (hnext : IsBlock size cap next) (h : block ++ rest <:+ next ++ other) :
    rest <:+ other := by
  rcases List.suffix_or_suffix_of_suffix ((List.suffix_append block rest).trans h)
    (List.suffix_append next other) with hs | ⟨ahead, rfl⟩
  · exact hs
  · cases ahead with
    | nil => exact List.suffix_rfl
    | cons x ahead =>
        -- then the other block holds this one and its next item
        obtain ⟨more, hmore⟩ := h
        have hinside : more ++ block ++ x :: ahead = next := by
          refine (List.append_left_inj other).mp ?_
          simpa using hmore
        have hfits := (hinside ▸ hnext).not_more hne
        have hover := htight x (by simp)
        omega

/-- Next-fit packing needs no more blocks than any other. -/
theorem length_le : ∀ {blocks others : List (List α)}, (∀ block ∈ blocks, block ≠ []) →
    blocks.IsChain (Tight size cap) → (∀ other ∈ others, IsBlock size cap other) →
    blocks.flatten <:+ others.flatten → blocks.length ≤ others.length
  | [], _, _, _, _, _ => Nat.zero_le _
  | block :: blocks, [], hne, _, _, h => by
      rw [List.flatten_nil, List.suffix_nil, List.flatten_cons, List.append_eq_nil_iff] at h
      exact absurd h.1 (hne block (List.mem_cons_self ..))
  | block :: blocks, other :: others, hne, hchain, hothers, h => by
      obtain ⟨hblock, hrest⟩ := List.forall_mem_cons.mp hne
      obtain ⟨hother, hothers⟩ := List.forall_mem_cons.mp hothers
      refine Nat.succ_le_succ (length_le hrest hchain.tail hothers ?_)
      refine suffix_of_tight ?_ hblock hother h
      cases blocks with
      | nil => exact fun x hx => nomatch hx
      | cons next blocks =>
          have htight := (List.isChain_cons_cons.mp hchain).1
          obtain ⟨y, ys, rfl⟩ := List.exists_cons_of_ne_nil (hrest next (List.mem_cons_self ..))
          exact htight

end NextFit
