import Mathlib.Logic.Function.Basic
import Mathlib.Tactic.Common

/-!
# Stores that are only appended to

A store keeps a list under each key, and the one operation puts more behind
what a key has. In whatever order the operations on different keys come, a key
ends up with what it had and then its own operations' data in their order
(`appendAll_apply`).
-/

namespace AppendStore

variable {κ ι β : Type*} [DecidableEq κ] [DecidableEq ι]

def append (store : κ → List β) (k : κ) (more : List β) : κ → List β :=
  Function.update store k (store k ++ more)

def appendAll (store : κ → List β) (ops : List (κ × List β)) : κ → List β :=
  ops.foldl (fun store op => append store op.1 op.2) store

def under (k : κ) (ops : List (κ × List β)) : List β :=
  ((ops.filter (·.1 = k)).map (·.2)).flatten

@[simp] theorem appendAll_nil (store : κ → List β) : appendAll store [] = store := rfl

@[simp] theorem appendAll_cons (store : κ → List β) (op : κ × List β) (ops : List (κ × List β)) :
    appendAll store (op :: ops) = appendAll (append store op.1 op.2) ops := rfl

theorem under_cons (k : κ) (op : κ × List β) (ops : List (κ × List β)) :
    under k (op :: ops) = (if op.1 = k then op.2 else []) ++ under k ops := by
  by_cases h : op.1 = k
  · simp [under, h]
  · simp [under, h]

theorem under_append (k : κ) (ops ops' : List (κ × List β)) :
    under k (ops ++ ops') = under k ops ++ under k ops' := by
  simp [under]

theorem under_same {γ : Type*} (k : κ) (g : γ → List β) (data : List γ) :
    under k (data.map fun d => (k, g d)) = (data.map g).flatten := by
  induction data with
  | nil => rfl
  | cons d data ih => rw [List.map_cons, under_cons, ih, if_pos rfl, List.map_cons,
      List.flatten_cons]

theorem appendAll_apply (store : κ → List β) (ops : List (κ × List β)) (k : κ) :
    appendAll store ops k = store k ++ under k ops := by
  induction ops generalizing store with
  | nil => simp [under]
  | cons op ops ih =>
      rw [appendAll_cons, ih, under_cons, append]
      by_cases h : op.1 = k
      · subst h
        simp
      · rw [Function.update_of_ne (Ne.symm h), if_neg h, List.nil_append]

theorem under_eq_nil {k : κ} {ops : List (κ × List β)} (h : ∀ op ∈ ops, op.1 ≠ k) :
    under k ops = [] := by
  have hnone : ops.filter (·.1 = k) = [] :=
    List.filter_eq_nil_iff.mpr fun op hop => by simpa using h op hop
  rw [under, hnone]
  rfl

theorem under_map {f : ι → κ} (hf : Function.Injective f) {γ : Type*} (g : γ → List β)
    (tagged : List (ι × γ)) (i : ι) :
    under (f i) (tagged.map fun t => (f t.1, g t.2))
      = (((tagged.filter (·.1 = i)).map (·.2)).map g).flatten := by
  have hfilter : (tagged.map fun t => (f t.1, g t.2)).filter (·.1 = f i)
      = (tagged.filter (·.1 = i)).map fun t => (f t.1, g t.2) := by
    rw [List.filter_map]
    congr 2
    funext t
    exact decide_eq_decide.mpr hf.eq_iff
  rw [under, hfilter, List.map_map, List.map_map]
  rfl

end AppendStore
