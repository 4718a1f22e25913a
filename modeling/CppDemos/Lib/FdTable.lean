import Mathlib.Data.List.Basic
import Mathlib.Data.Nat.Find
import Mathlib.Tactic.Common

/-!
# Descriptor tables

The open files of a process: one slot for each number below the limit of the
process, holding what is open under the number. A new descriptor takes the
lowest free number, and there is none if all are taken. `fork` copies a table as
it is, so a copy of a table is the table.
-/

@[ext] structure FdTable (α : Type*) where
  slots : List (Option α)
deriving DecidableEq, Repr

namespace FdTable

variable {α β : Type*} {t t' : FdTable α} {a : α} {fd fd' : Nat}

def get (t : FdTable α) (fd : Nat) : Option α :=
  t.slots[fd]?.join

def alloc (t : FdTable α) (a : α) : Option (Nat × FdTable α) :=
  (t.slots.findIdx? (·.isNone)).map fun fd => (fd, ⟨t.slots.set fd (some a)⟩)

/-- Open both ends of a pipe. -/
def pipe (t : FdTable α) (readEnd writeEnd : α) : Option (Nat × Nat × FdTable α) :=
  (t.alloc readEnd).bind fun (fd0, t) =>
    (t.alloc writeEnd).map fun (fd1, t) => (fd0, fd1, t)

/-- Close a number; nothing happens (EBADF) if nothing is open under it. -/
def close (t : FdTable α) (fd : Nat) : FdTable α :=
  ⟨t.slots.set fd none⟩

def Has (t : FdTable α) (a : α) : Prop :=
  some a ∈ t.slots

instance [DecidableEq α] (t : FdTable α) (a : α) : Decidable (t.Has a) :=
  inferInstanceAs (Decidable (_ ∈ _))

/-- The table of a process that has ended. -/
def empty : FdTable α :=
  ⟨[]⟩

def room (t : FdTable α) : Nat :=
  t.slots.countP (·.isNone)

/-- The table of another kind of files. -/
def map (f : α → β) (t : FdTable α) : FdTable β :=
  ⟨t.slots.map (Option.map f)⟩

@[simp] theorem get_map (f : α → β) (t : FdTable α) (fd : Nat) :
    (t.map f).get fd = (t.get fd).map f := by
  simp only [map, get, List.getElem?_map]
  rcases t.slots[fd]? with _ | _ | a <;> rfl

theorem get_of_lt (h : fd < t.slots.length) : t.get fd = t.slots[fd] := by
  rw [get, List.getElem?_eq_getElem h]
  rfl

theorem has_iff : t.Has a ↔ ∃ fd, t.get fd = some a := by
  simp only [Has, List.mem_iff_getElem?, get]
  constructor
  · rintro ⟨fd, hfd⟩
    exact ⟨fd, by rw [hfd]; rfl⟩
  · rintro ⟨fd, hfd⟩
    exact ⟨fd, Option.join_eq_some_iff.mp hfd⟩

theorem get_set {o : Option α} (h : fd < t.slots.length) :
    FdTable.get ⟨t.slots.set fd o⟩ fd' = if fd' = fd then o else t.get fd' := by
  simp only [get, List.getElem?_set]
  by_cases heq : fd' = fd
  · subst heq
    simp [h]
  · rw [if_neg (Ne.symm heq), if_neg heq]

@[simp] theorem get_close (t : FdTable α) (fd fd' : Nat) :
    (t.close fd).get fd' = if fd' = fd then none else t.get fd' := by
  by_cases h : fd < t.slots.length
  · exact get_set h
  · simp only [close, get, List.set_eq_of_length_le (Nat.le_of_not_lt h)]
    split
    · rename_i heq
      rw [heq, List.getElem?_eq_none (Nat.le_of_not_lt h)]
      rfl
    · rfl

theorem of_get_close (h : (t.close fd).get fd' = some a) : fd' ≠ fd ∧ t.get fd' = some a := by
  rw [get_close] at h
  split at h
  · cases h
  · rename_i hne
    exact ⟨hne, h⟩

theorem close_keeps {b : α} (h : t.get fd = some a) (h' : t.get fd' = some b) (hne : a ≠ b) :
    (t.close fd').get fd = some a := by
  have hfd : fd ≠ fd' := by
    rintro rfl
    exact hne (Option.some.inj (h.symm.trans h'))
  rw [get_close, if_neg hfd, h]

theorem lt_of_get (h : t.get fd = some a) : fd < t.slots.length := by
  by_contra hge
  rw [get, List.getElem?_eq_none (Nat.le_of_not_lt hge)] at h
  cases h

/-- The new number was the lowest free one, and nothing else has changed. -/
theorem alloc_eq_some (h : t.alloc a = some (fd, t')) :
    t.get fd = none ∧ fd < t.slots.length ∧ (∀ i < fd, t.get i ≠ none) ∧
      t' = ⟨t.slots.set fd (some a)⟩ := by
  simp only [alloc, Option.map_eq_some_iff, Prod.mk.injEq] at h
  obtain ⟨i, hi, rfl, rfl⟩ := h
  obtain ⟨hlt, hnone, hbelow⟩ := List.findIdx?_eq_some_iff_getElem.mp hi
  refine ⟨?_, hlt, fun j hj => ?_, rfl⟩
  · rw [get_of_lt hlt]
    exact Option.isNone_iff_eq_none.mp hnone
  · rw [get_of_lt (Nat.lt_trans hj hlt)]
    exact fun heq => hbelow j hj (Option.isNone_iff_eq_none.mpr heq)

theorem get_alloc (h : t.alloc a = some (fd, t')) (fd' : Nat) :
    t'.get fd' = if fd' = fd then some a else t.get fd' := by
  obtain ⟨-, hlt, -, rfl⟩ := alloc_eq_some h
  exact get_set hlt

theorem room_set {o : Option α} (h : fd < t.slots.length) :
    FdTable.room ⟨t.slots.set fd o⟩ + (if (t.get fd).isNone then 1 else 0) =
      t.room + if o.isNone then 1 else 0 := by
  simp only [room, get_of_lt h, List.countP_set h]
  have hle : (if t.slots[fd].isNone then 1 else 0) ≤ t.slots.countP (·.isNone) := by
    split
    · rename_i hnone
      exact List.countP_pos_iff.mpr ⟨_, List.getElem_mem h, hnone⟩
    · exact Nat.zero_le _
  omega

@[simp] theorem room_map (f : α → β) (t : FdTable α) : (t.map f).room = t.room := by
  simp only [room, map, List.countP_map]
  congr 1
  funext o
  cases o <;> rfl

theorem room_alloc (h : t.alloc a = some (fd, t')) : t'.room + 1 = t.room := by
  obtain ⟨hnone, hlt, -, rfl⟩ := alloc_eq_some h
  simpa [hnone] using room_set (o := some a) hlt

theorem room_close (h : t.get fd = some a) : (t.close fd).room = t.room + 1 := by
  simpa [h, close] using room_set (o := none) (lt_of_get h)

theorem alloc_isSome (a : α) (h : 0 < t.room) : ∃ fd t', t.alloc a = some (fd, t') := by
  obtain ⟨o, ho, hnone⟩ := List.countP_pos_iff.mp h
  have hsome : (t.slots.findIdx? (·.isNone)).isSome := by
    rw [List.findIdx?_isSome]
    exact List.any_eq_true.mpr ⟨o, ho, hnone⟩
  obtain ⟨fd, hfd⟩ := Option.isSome_iff_exists.mp hsome
  exact ⟨fd, _, by rw [alloc, hfd]; rfl⟩

/-- The number that the next file gets, if the limit allows for one. -/
def LowestFree (t : FdTable α) (fd : Nat) : Prop :=
  t.get fd = none ∧ ∀ i < fd, t.get i ≠ none

theorem exists_lowestFree (t : FdTable α) : ∃ fd, t.LowestFree fd := by
  classical
  have hfree : ∃ fd, t.get fd = none :=
    ⟨t.slots.length, by rw [get, List.getElem?_eq_none (Nat.le_refl _)]; rfl⟩
  exact ⟨Nat.find hfree, Nat.find_spec hfree, fun i hi => Nat.find_min hfree hi⟩

theorem LowestFree.unique (h : t.LowestFree fd) (h' : t.LowestFree fd') : fd = fd' := by
  rcases Nat.lt_trichotomy fd fd' with hlt | heq | hgt
  · exact absurd h.1 (h'.2 fd hlt)
  · exact heq
  · exact absurd h'.1 (h.2 fd' hgt)

theorem lowestFree_alloc (h : t.alloc a = some (fd, t')) : t.LowestFree fd := by
  obtain ⟨hnone, -, hbelow, -⟩ := alloc_eq_some h
  exact ⟨hnone, hbelow⟩

theorem close_alloc (h : t.alloc a = some (fd, t')) : t'.close fd = t := by
  obtain ⟨hnone, hlt, -, rfl⟩ := alloc_eq_some h
  rw [get_of_lt hlt] at hnone
  ext1
  simp only [close, List.set_set]
  rw [← hnone]
  exact List.set_getElem_self hlt

/-! ### Pipes -/

variable {r w : α} {fd0 fd1 : Nat}

theorem pipe_eq_some (h : t.pipe r w = some (fd0, fd1, t')) :
    ∃ t₁, t.alloc r = some (fd0, t₁) ∧ t₁.alloc w = some (fd1, t') := by
  simp only [pipe, Option.bind_eq_some_iff, Option.map_eq_some_iff, Prod.mk.injEq] at h
  obtain ⟨⟨_, t₁⟩, h₁, ⟨_, t₂⟩, h₂, rfl, rfl, rfl⟩ := h
  exact ⟨t₁, h₁, h₂⟩

theorem get_pipe (h : t.pipe r w = some (fd0, fd1, t')) :
    fd0 ≠ fd1 ∧ t.get fd0 = none ∧ t.get fd1 = none ∧ t'.get fd0 = some r ∧
      t'.get fd1 = some w ∧ ∀ fd, fd ≠ fd0 → fd ≠ fd1 → t'.get fd = t.get fd := by
  obtain ⟨t₁, h₁, h₂⟩ := pipe_eq_some h
  obtain ⟨hnone₁, -⟩ := alloc_eq_some h₁
  obtain ⟨hnone₂, -⟩ := alloc_eq_some h₂
  have hne : fd0 ≠ fd1 := by
    rintro rfl
    rw [get_alloc h₁, if_pos rfl] at hnone₂
    cases hnone₂
  rw [get_alloc h₁, if_neg hne.symm] at hnone₂
  refine ⟨hne, hnone₁, hnone₂, ?_, ?_, fun fd h0 h1 => ?_⟩
  · rw [get_alloc h₂, if_neg hne, get_alloc h₁, if_pos rfl]
  · rw [get_alloc h₂, if_pos rfl]
  · rw [get_alloc h₂, if_neg h1, get_alloc h₁, if_neg h0]

theorem lowestFree_pipe (h : t.pipe r w = some (fd0, fd1, t')) : t.LowestFree fd0 := by
  obtain ⟨t₁, h₁, -⟩ := pipe_eq_some h
  exact lowestFree_alloc h₁

theorem room_pipe (h : t.pipe r w = some (fd0, fd1, t')) : t'.room + 2 = t.room := by
  obtain ⟨t₁, h₁, h₂⟩ := pipe_eq_some h
  have hroom₁ := room_alloc h₁
  have hroom₂ := room_alloc h₂
  omega

theorem pipe_isSome (r w : α) (h : 2 ≤ t.room) :
    ∃ fd0 fd1 t', t.pipe r w = some (fd0, fd1, t') := by
  obtain ⟨fd0, t₁, h₁⟩ := alloc_isSome r (show 0 < t.room by omega)
  have hroom := room_alloc h₁
  obtain ⟨fd1, t₂, h₂⟩ := alloc_isSome w (show 0 < t₁.room by omega)
  exact ⟨fd0, fd1, t₂, by simp only [pipe, h₁, h₂, Option.bind_some, Option.map_some]⟩

end FdTable
