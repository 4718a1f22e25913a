import Mathlib.Data.List.Basic
import Mathlib.Data.List.TakeWhile
import Mathlib.Tactic.Common

/-!
# Strings in arrays

A string lies in an array and ends at its first terminator (`upTo`). To read it, or to put
another one behind it, is a fault where the terminator is missing or the room is: `readStr`
and `strcat` say which.

`Chunk n` is what a `read` of `n` elements at most returns, if it returns anything.
-/

namespace CString

universe u

variable {α : Type*} [DecidableEq α]

inductive Overrun where
  /-- Reads behind the array. -/
  | read
  /-- Writes behind it. -/
  | write
  deriving DecidableEq

@[simp] theorem ok_bind {β γ : Type u} (b : β) (f : β → Except Overrun γ) :
    (Except.ok b >>= f) = f b := rfl

@[simp] theorem error_bind {β γ : Type u} (fault : Overrun) (f : β → Except Overrun γ) :
    ((Except.error fault : Except Overrun β) >>= f) = .error fault := rfl

theorem bind_eq_ok {β γ : Type u} {x : Except Overrun β} {f : β → Except Overrun γ} {c : γ} :
    x >>= f = .ok c ↔ ∃ b, x = .ok b ∧ f b = .ok c := by
  cases x with
  | error fault => simp
  | ok b => simp

/-! ## Reading -/

def upTo (nul : α) (mem : List α) : List α := mem.takeWhile (· ≠ nul)

/-- Reads up to the terminator. -/
def readStr (nul : α) : List α → Except Overrun (List α)
  | [] => .error .read
  | a :: rest => if a = nul then .ok [] else (a :: ·) <$> readStr nul rest

variable {nul : α} {mem s : List α}

theorem nul_not_mem_upTo : nul ∉ upTo nul mem := by
  intro h
  simpa using List.mem_takeWhile_imp h

theorem upTo_eq_self (h : nul ∉ mem) : upTo nul mem = mem := by
  refine List.takeWhile_eq_self_iff.mpr fun a ha => ?_
  rw [decide_eq_true_eq]
  rintro rfl
  exact h ha

theorem upTo_append_nul (h : nul ∉ s) (rest : List α) : upTo nul (s ++ nul :: rest) = s := by
  have hall : ∀ a ∈ s, decide (a ≠ nul) = true := List.takeWhile_eq_self_iff.mp (upTo_eq_self h)
  rw [upTo, List.takeWhile_append_of_pos hall, List.takeWhile_cons]
  simp

theorem eq_upTo_append (h : nul ∈ mem) : ∃ rest, mem = upTo nul mem ++ nul :: rest := by
  obtain ⟨s, rest, rfl, hs⟩ := List.eq_append_cons_of_mem h
  exact ⟨rest, by rw [upTo_append_nul hs]⟩

theorem upTo_append (h : nul ∈ mem) (behind : List α) :
    upTo nul (mem ++ behind) = upTo nul mem := by
  obtain ⟨rest, hmem⟩ := eq_upTo_append h
  have hboth : mem ++ behind = upTo nul mem ++ nul :: (rest ++ behind) := by
    rw [← List.cons_append, ← List.append_assoc, ← hmem]
  rw [hboth, upTo_append_nul nul_not_mem_upTo]

theorem readStr_eq (mem : List α) :
    readStr nul mem = if nul ∈ mem then .ok (upTo nul mem) else .error .read := by
  induction mem with
  | nil => rfl
  | cons a rest ih =>
      by_cases ha : a = nul
      · simp [readStr, upTo, ha]
      · by_cases hrest : nul ∈ rest
        · simp [readStr, upTo, ih, ha, hrest]
        · simp [readStr, ih, ha, hrest, Ne.symm ha]

theorem readStr_of_mem (h : nul ∈ mem) : readStr nul mem = .ok (upTo nul mem) := by
  rw [readStr_eq, if_pos h]

theorem readStr_of_not_mem (h : nul ∉ mem) : readStr nul mem = .error .read := by
  rw [readStr_eq, if_neg h]

/-! ## Writing -/

/-- Puts the string in `src` behind the one in `dest`. -/
def strcat (nul : α) (dest src : List α) : Except Overrun (List α) := do
  let d ← readStr nul dest
  let s ← readStr nul src
  if d.length + s.length + 1 ≤ dest.length then
    return d ++ s ++ nul :: dest.drop (d.length + s.length + 1)
  else throw .write

variable {dest src d : List α}

theorem strcat_of_room (hdest : readStr nul dest = .ok d) (hsrc : readStr nul src = .ok s)
    (hroom : d.length + s.length + 1 ≤ dest.length) :
    strcat nul dest src = .ok (d ++ s ++ nul :: dest.drop (d.length + s.length + 1)) := by
  simp only [strcat, hdest, hsrc, ok_bind, if_pos hroom]
  rfl

theorem strcat_of_full (hdest : readStr nul dest = .ok d) (hsrc : readStr nul src = .ok s)
    (hfull : dest.length < d.length + s.length + 1) : strcat nul dest src = .error .write := by
  have hno : ¬ d.length + s.length + 1 ≤ dest.length := Nat.not_le.mpr hfull
  simp only [strcat, hdest, hsrc, ok_bind, if_neg hno]
  rfl

/-! ## Arrays with nothing behind the string -/

/-- The string, and terminators up to the end of the array. -/
def held (nul : α) (n : Nat) (s : List α) : List α := s ++ List.replicate (n - s.length) nul

variable {n : Nat}

omit [DecidableEq α] in
theorem length_held (h : s.length ≤ n) : (held nul n s).length = n := by
  simp [held, Nat.add_sub_cancel' h]

omit [DecidableEq α] in
theorem held_of_lt (h : s.length < n) :
    held nul n s = s ++ nul :: List.replicate (n - (s.length + 1)) nul := by
  obtain ⟨k, hk⟩ : ∃ k, n - s.length = k + 1 := ⟨n - s.length - 1, by omega⟩
  have hless : n - (s.length + 1) = k := by omega
  rw [held, hk, hless, List.replicate_succ]

theorem readStr_held (hs : nul ∉ s) (h : s.length < n) : readStr nul (held nul n s) = .ok s := by
  rw [held_of_lt h, readStr_of_mem (by simp), upTo_append_nul hs]

theorem strcat_held (hd : nul ∉ d) (hsrc : readStr nul src = .ok s)
    (hroom : (d ++ s).length < n) : strcat nul (held nul n d) src = .ok (held nul n (d ++ s)) := by
  rw [List.length_append] at hroom
  have hlt : d.length < n := by omega
  have hle : d.length + s.length + 1 ≤ (held nul n d).length := by
    rw [length_held (Nat.le_of_lt hlt)]
    exact hroom
  have hdrop : (held nul n d).drop (d.length + s.length + 1) =
      List.replicate (n - ((d ++ s).length + 1)) nul := by
    rw [held, Nat.add_assoc, List.drop_length_add_append, List.drop_replicate]
    simp [Nat.sub_sub, Nat.add_assoc]
  rw [strcat_of_room (readStr_held hd hlt) hsrc hle, hdrop, held_of_lt (by simpa using hroom)]

theorem strcat_held_of_full (hd : nul ∉ d) (hlt : d.length < n) (hsrc : readStr nul src = .ok s)
    (hfull : n ≤ (d ++ s).length) : strcat nul (held nul n d) src = .error .write := by
  rw [List.length_append] at hfull
  refine strcat_of_full (readStr_held hd hlt) hsrc ?_
  rw [length_held (Nat.le_of_lt hlt)]
  omega

/-! ## What a read returns -/

structure Chunk (α : Type*) (n : Nat) where
  data : List α
  pos : 1 ≤ data.length
  le : data.length ≤ n

/-- It goes to the front of the buffer, and leaves the rest. -/
def Chunk.into (c : Chunk α n) (buf : List α) : List α :=
  c.data ++ buf.drop c.data.length

namespace Chunk

variable (c : Chunk α n)

omit [DecidableEq α] in
theorem length_into {buf : List α} (h : buf.length = n) : (c.into buf).length = n := by
  have hle := c.le
  simp [into, h]
  omega

/-- In an array of terminators it is read if it has one itself or leaves room for one. -/
theorem readStr_into_held (h : (upTo nul c.data).length < n) :
    readStr nul (c.into (held nul n [])) = .ok (upTo nul c.data) := by
  by_cases hmem : nul ∈ c.data
  · rw [into, readStr_of_mem (List.mem_append_left _ hmem), upTo_append hmem]
  · rw [upTo_eq_self hmem] at h ⊢
    have hdrop : (held nul n []).drop c.data.length = List.replicate (n - c.data.length) nul :=
      List.drop_replicate
    rw [into, hdrop]
    exact readStr_held hmem h

theorem readStr_into_of_le (h : n ≤ (upTo nul c.data).length) (buf : List α)
    (hbuf : buf.length = n) :
    readStr nul (c.into buf) = .error .read := by
  have hfront : upTo nul c.data <+: c.data := List.takeWhile_prefix _
  have hlength : (upTo nul c.data).length = c.data.length :=
    Nat.le_antisymm hfront.length_le (Nat.le_trans c.le h)
  have hself : upTo nul c.data = c.data := hfront.eq_of_length hlength
  have hno : nul ∉ c.data := hself ▸ nul_not_mem_upTo
  have hle : buf.length ≤ c.data.length := by omega
  rw [into, List.drop_of_length_le hle, List.append_nil, readStr_of_not_mem hno]

end Chunk

/-! ## Strings in a stream -/

/-- Strings one behind the other, each with its terminator. -/
def frames (nul : α) (strings : List (List α)) : List α := (strings.map (· ++ [nul])).flatten

variable {t : List α}

omit [DecidableEq α] in
theorem getLast?_frames {strings : List (List α)} (h : frames nul strings ≠ []) :
    (frames nul strings).getLast? = some nul := by
  rcases List.eq_nil_or_concat strings with rfl | ⟨init, s, rfl⟩
  · exact absurd rfl h
  · simp [frames]

omit [DecidableEq α] in
theorem length_le_of_append_eq {s rest behind : List α} (hno : nul ∉ t)
    (heq : t ++ behind = s ++ nul :: rest) : t.length ≤ s.length := by
  rcases List.append_eq_append_iff.mp heq with ⟨u, rfl, -⟩ | ⟨u, rfl, hrest⟩
  · simp
  · cases u with
    | nil => simp
    | cons a u =>
        obtain rfl : nul = a := (List.cons.inj hrest).1
        simp at hno

omit [DecidableEq α] in
theorem length_le_of_infix_frames {bound : Nat} (hno : nul ∉ t) :
    ∀ {strings : List (List α)}, (∀ s ∈ strings, s.length ≤ bound) →
      t <:+: frames nul strings → t.length ≤ bound
  | [], _, hin => by
      have hnil : t = [] := List.infix_nil.mp hin
      simp [hnil]
  | s :: strings, hbound, ⟨before, behind, heq⟩ => by
      obtain ⟨hs, hstrings⟩ := List.forall_mem_cons.mp hbound
      have hsplit : before ++ (t ++ behind) = s ++ nul :: frames nul strings := by
        simpa [frames] using heq
      rcases List.append_eq_append_iff.mp hsplit with ⟨u, rfl, hrest⟩ | ⟨u, rfl, hrest⟩
      · have hle := length_le_of_append_eq hno hrest
        rw [List.length_append] at hs
        omega
      · cases u with
        | nil =>
            have hle := length_le_of_append_eq (s := []) hno hrest.symm
            exact Nat.le_trans hle (Nat.zero_le _)
        | cons a u =>
            have htail : frames nul strings = u ++ (t ++ behind) := (List.cons.inj hrest).2
            refine length_le_of_infix_frames hno hstrings ⟨u, behind, ?_⟩
            rw [htail, List.append_assoc]

/-- A piece without a terminator, and the chunks behind it: with the string that the first of
them to have one begins with, it is too long. -/
theorem exists_infix_of_open {bound : Nat} :
    ∀ {chunks : List (List α)} {t : List α}, t ≠ [] → nul ∉ t →
      (t ++ chunks.flatten).getLast? = some nul →
      (∀ c ∈ chunks, nul ∈ c → bound ≤ (upTo nul c).length) →
      ∃ u, u <:+: t ++ chunks.flatten ∧ nul ∉ u ∧ bound < u.length
  | [], t, _, hno, hlast, _ => by
      rw [List.flatten_nil, List.append_nil] at hlast
      exact absurd (List.mem_of_mem_getLast? hlast) hno
  | c :: chunks, t, hne, hno, hlast, hlong => by
      obtain ⟨hc, hchunks⟩ := List.forall_mem_cons.mp hlong
      rw [List.flatten_cons, ← List.append_assoc] at hlast ⊢
      by_cases hin : nul ∈ c
      · have hpos : 1 ≤ t.length := List.length_pos_iff.mpr hne
        have hfront : t ++ upTo nul c <+: t ++ c :=
          (List.prefix_append_right_inj t).mpr (List.takeWhile_prefix _)
        refine ⟨t ++ upTo nul c, (hfront.trans (List.prefix_append ..)).isInfix, ?_, ?_⟩
        · simp [hno, nul_not_mem_upTo]
        · have hbound := hc hin
          rw [List.length_append]
          omega
      · exact exists_infix_of_open (by simp [hne]) (by simp [hno, hin]) hlast hchunks

/-- Where every chunk with a terminator begins with a string of full length, there is no chunk
without one. -/
theorem nul_mem_chunk {bound : Nat} {chunks : List (List α)} {strings : List (List α)}
    (hstream : chunks.flatten = frames nul strings) (hbound : ∀ s ∈ strings, s.length ≤ bound)
    (hne : ∀ c ∈ chunks, c ≠ [])
    (hlong : ∀ c ∈ chunks, nul ∈ c → bound ≤ (upTo nul c).length) : ∀ c ∈ chunks, nul ∈ c := by
  intro c hc
  by_contra hno
  obtain ⟨before, behind, rfl⟩ := List.append_of_mem hc
  have hsuffix : c ++ behind.flatten <:+ frames nul strings := by
    rw [← hstream, List.flatten_append, List.flatten_cons]
    exact List.suffix_append ..
  have hlast : (c ++ behind.flatten).getLast? = some nul := by
    have hopen : c ++ behind.flatten ≠ [] := by simp [hne c hc]
    obtain ⟨w, hw⟩ := hsuffix
    have hend : (frames nul strings).getLast? = some nul :=
      getLast?_frames (hw ▸ by simp [hopen])
    rwa [← hw, List.getLast?_append_of_ne_nil _ hopen] at hend
  obtain ⟨u, hu, huno, hlt⟩ := exists_infix_of_open (hne c hc) hno hlast
    fun c' hc' => hlong c' (List.mem_append_right _ (List.mem_cons_of_mem _ hc'))
  have hle := length_le_of_infix_frames huno hbound (hu.trans hsuffix.isInfix)
  omega

end CString
