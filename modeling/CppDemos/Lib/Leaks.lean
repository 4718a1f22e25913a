import CppDemos.Lib.Ownership

/-!
# Destroying handles among which there may be cycles

An object that is deleted with its last handle is deleted only if there is a last one. On a
cycle there is none, so what is on a cycle or reached from one stays, and so does what is
reached from a handle that is kept (`Held`). `Drain` is what holds of a store while the
destructors run, and at their end everything else is gone (`Emptying.objects_iff`).
-/

namespace Ownership

open Relation RefGraph

variable {H O : Type*} {G : RefGraph H O} {keep : H → Prop} {o o' : O} {h : H}

/-! ## What is held -/

/-- A handle that is kept refers to the object, or it is on a cycle. -/
def RefGraph.Anchored (G : RefGraph H O) (keep : H → Prop) (o : O) : Prop :=
  (∃ h, keep h ∧ G.target h o) ∨ TransGen G.Points o o

/-- There is a chain from such an object. -/
def RefGraph.Held (G : RefGraph H O) (keep : H → Prop) (o : O) : Prop :=
  ∃ t, G.Anchored keep t ∧ ReflTransGen G.Points t o

theorem RefGraph.Held.points (hheld : G.Held keep o) (hpoints : G.Points o o') :
    G.Held keep o' := by
  obtain ⟨t, hanchored, hchain⟩ := hheld
  exact ⟨t, hanchored, hchain.tail hpoints⟩

/-- What is held has a handle that is kept or is a member of what is held. -/
theorem RefGraph.Held.handle (hheld : G.Held keep o) :
    ∃ h, G.target h o ∧ (keep h ∨ ∃ o', G.Held keep o' ∧ G.member o' h) := by
  obtain ⟨t, hanchored, hchain⟩ := hheld
  have hlast {o₁ : O} (hchain : ReflTransGen G.Points t o₁) (hpoints : G.Points o₁ o) :
      ∃ h, G.target h o ∧ (keep h ∨ ∃ o', G.Held keep o' ∧ G.member o' h) := by
    obtain ⟨h, hmember, htarget⟩ := hpoints
    exact ⟨h, htarget, Or.inr ⟨o₁, ⟨t, hanchored, hchain⟩, hmember⟩⟩
  rcases hchain.cases_tail with rfl | ⟨o₁, hchain, hpoints⟩
  · rcases hanchored with ⟨h, hkeep, htarget⟩ | hcycle
    · exact ⟨h, htarget, Or.inl hkeep⟩
    · obtain ⟨o₁, hchain, hpoints⟩ := TransGen.tail'_iff.mp hcycle
      exact hlast hchain hpoints
  · exact hlast hchain hpoints

/-- Up from any object among finitely many that all have a handle, there is an end or a
cycle. -/
theorem held_of_handles (S : Finset O)
    (hhandle : ∀ o ∈ S, ∃ h, G.target h o ∧ (keep h ∨ ∃ o' ∈ S, G.member o' h)) :
    ∀ o ∈ S, G.Held keep o := by
  -- above an object that is not held there is neither, so the order is strict there
  let above (o o' : O) : Prop := ¬ G.Held keep o' ∧ TransGen G.Points o o'
  have hloop (o : O) : ¬ above o o := fun ⟨hnot, hcycle⟩ => hnot ⟨o, Or.inr hcycle, .refl⟩
  have : IsStrictOrder O above :=
    { irrefl := hloop, trans := fun _ _ _ h h' => ⟨h'.1, h.2.trans h'.2⟩ }
  intro o ho
  refine S.wellFoundedOn.induction (r := above) ho fun o ho ih => ?_
  by_contra hnot
  obtain ⟨h, htarget, hkeep | ⟨o', ho', hmember⟩⟩ := hhandle o ho
  · exact hnot ⟨o, Or.inl ⟨h, hkeep, htarget⟩, .refl⟩
  · have hpoints : G.Points o' o := ⟨h, hmember, htarget⟩
    exact hnot ((ih o' ho' ⟨hnot, .single hpoints⟩).points hpoints)

/-- Where no handle is kept, nothing is held but by cycles. -/
theorem acyclic_iff_not_held : G.Acyclic ↔ ∀ o, ¬ G.Held (fun _ => False) o := by
  constructor
  · rintro hac o ⟨t, ⟨h, hkeep, -⟩ | hcycle, -⟩
    · exact hkeep
    · exact hac t hcycle
  · exact fun hnone o hcycle => hnone o ⟨o, Or.inr hcycle, .refl⟩

/-! ## Destructors -/

namespace Store

variable {s₀ s : Store H O} {hs : List H}

/-- Handles in no object are to be destroyed, and those in no object that are not are
kept. -/
structure Emptying (s₀ : Store H O) (G : RefGraph H O) (keep : H → Prop) : Prop where
  wf : s₀.WellFormed
  member : ∀ o h, G.member o h ↔ o ∈ s₀.objects ∧ h ∈ s₀.members o
  target : ∀ h o, G.target h o → h ∈ s₀.handles ∧ o ∈ s₀.objects
  keep : ∀ h, keep h → ∀ o ∈ s₀.objects, h ∉ s₀.members o

/-- The handles `hs` wait; the others are kept or in an object that is there.
Whatever a kept handle leads to, or a cycle holds, is never deleted on the way,
and so at the end what is left is exactly that. -/
structure Drain (s₀ : Store H O) (G : RefGraph H O) (keep : H → Prop) (hs : List H)
    (s : Store H O) : Prop where
  members : s.members = s₀.members
  objects : s.objects ⊆ s₀.objects
  nodup : hs.Nodup
  waiting : ∀ h ∈ hs, h ∈ s.handles ∧ ¬ keep h ∧ ∀ o ∈ s.objects, h ∉ s.members o
  handles : ∀ h, h ∈ s.handles ↔
    h ∈ s₀.handles ∧ (h ∈ hs ∨ keep h ∨ ∃ o ∈ s.objects, h ∈ s.members o)
  deleted : ∃ D, s.deleted = s₀.deleted ++ D ∧ D.Nodup ∧ ∀ o, o ∈ D ↔ o ∈ s₀.objects ∧ o ∉ s.objects
  held : ∀ o ∈ s₀.objects, G.Held keep o → o ∈ s.objects

theorem Drain.start (hnodup : hs.Nodup)
    (hwaiting : ∀ h ∈ hs, h ∈ s₀.handles ∧ ¬ keep h ∧ ∀ o ∈ s₀.objects, h ∉ s₀.members o)
    (hall : ∀ h ∈ s₀.handles, h ∈ hs ∨ keep h ∨ ∃ o ∈ s₀.objects, h ∈ s₀.members o) :
    s₀.Drain G keep hs s₀ where
  members := rfl
  objects := Finset.Subset.refl _
  nodup := hnodup
  waiting := hwaiting
  handles h := ⟨fun hh => ⟨hh, hall h hh⟩, And.left⟩
  deleted := ⟨[], (List.append_nil _).symm, List.nodup_nil, fun _ =>
    iff_of_false List.not_mem_nil fun h => h.2 h.1⟩
  held _ ho _ := ho

theorem Emptying.wellFormed (he : s₀.Emptying G keep) (hdrain : s₀.Drain G keep hs s) :
    s.WellFormed where
  nodup o ho := by
    rw [hdrain.members]
    exact he.wf.nodup o (hdrain.objects ho)
  live o ho h hh := by
    have hlive : h ∈ s₀.handles := by
      rw [hdrain.members] at hh
      exact he.wf.live o (hdrain.objects ho) h hh
    exact (hdrain.handles h).mpr ⟨hlive, Or.inr (Or.inr ⟨o, ho, hh⟩)⟩
  disjoint o ho o' ho' h hh hh' := by
    rw [hdrain.members] at hh hh'
    exact he.wf.disjoint o (hdrain.objects ho) o' (hdrain.objects ho') h hh hh'

theorem Emptying.exists_handle (he : s₀.Emptying G keep) (hdrain : s₀.Drain G keep hs s)
    (hheld : G.Held keep o) : ∃ h ∈ s.handles, G.target h o := by
  obtain ⟨h, htarget, hkeep | ⟨o', hheld', hmember⟩⟩ := hheld.handle
  · exact ⟨h, (hdrain.handles h).mpr ⟨(he.target h o htarget).1, Or.inr (Or.inl hkeep)⟩, htarget⟩
  · obtain ⟨ho', hin⟩ := (he.member o' h).mp hmember
    have hlive : h ∈ s.handles := by
      refine (hdrain.handles h).mpr ⟨(he.target h o htarget).1, Or.inr (Or.inr ⟨o', ?_, ?_⟩)⟩
      · exact hdrain.held o' ho' hheld'
      · rwa [hdrain.members]
    exact ⟨h, hlive, htarget⟩

theorem Drain.endHandle [DecidableEq H] (hdrain : s₀.Drain G keep (h :: hs) s) :
    s₀.Drain G keep hs (s.endHandle h) := by
  obtain ⟨hnew, hnodup⟩ := List.nodup_cons.mp hdrain.nodup
  obtain ⟨-, hdrop, hout⟩ := hdrain.waiting h (List.mem_cons_self ..)
  refine { hdrain with nodup := hnodup, waiting := fun h' hh' => ?_, handles := fun h' => ?_ }
  · obtain ⟨hlive, hdrop', hout'⟩ := hdrain.waiting h' (List.mem_cons_of_mem _ hh')
    exact ⟨Finset.mem_erase.mpr ⟨fun heq => hnew (heq ▸ hh'), hlive⟩, hdrop', hout'⟩
  · rw [Store.endHandle, Finset.mem_erase, hdrain.handles, List.mem_cons]
    constructor
    · rintro ⟨hne, hlive, hin⟩
      exact ⟨hlive, hin.imp_left fun h => h.resolve_left hne⟩
    · rintro ⟨hlive, hin⟩
      refine ⟨?_, hlive, hin.imp_left Or.inr⟩
      rintro rfl
      rcases hin with hin | hkeep | ⟨o, ho, hmember⟩
      · exact hnew hin
      · exact hdrop hkeep
      · exact hout o ho hmember

theorem Emptying.delete [DecidableEq O] (he : s₀.Emptying G keep)
    (hdrain : s₀.Drain G keep hs s) (ho : o ∈ s.objects) (hheld : ¬ G.Held keep o) :
    s₀.Drain G keep (s.members o ++ hs) (s.delete o) := by
  have hwf := he.wellFormed hdrain
  have hleft {o' : O} : o' ∈ (s.delete o).objects ↔ o' ≠ o ∧ o' ∈ s.objects := Finset.mem_erase
  refine ⟨hdrain.members, (Finset.erase_subset ..).trans hdrain.objects, ?_, ?_, ?_, ?_, ?_⟩
  · exact (hwf.nodup o ho).append hdrain.nodup fun h hh hh' => (hdrain.waiting h hh').2.2 o ho hh
  · intro h hh
    rcases List.mem_append.mp hh with hh | hh
    · refine ⟨hwf.live o ho h hh, fun hkeep => ?_, fun o' ho' hh' => ?_⟩
      · rw [hdrain.members] at hh
        exact he.keep h hkeep o (hdrain.objects ho) hh
      · obtain ⟨hne, ho'⟩ := hleft.mp ho'
        exact hne (hwf.disjoint o' ho' o ho h hh' hh)
    · obtain ⟨hlive, hdrop, hout⟩ := hdrain.waiting h hh
      exact ⟨hlive, hdrop, fun o' ho' => hout o' (hleft.mp ho').2⟩
  · intro h
    show h ∈ s.handles ↔ h ∈ s₀.handles ∧
      (h ∈ s.members o ++ hs ∨ keep h ∨ ∃ o' ∈ (s.delete o).objects, h ∈ s.members o')
    rw [hdrain.handles, List.mem_append]
    refine and_congr_right fun _ => ?_
    constructor
    · rintro (hh | hkeep | ⟨o', ho', hh⟩)
      · exact Or.inl (Or.inr hh)
      · exact Or.inr (Or.inl hkeep)
      · by_cases heq : o' = o
        · exact Or.inl (Or.inl (heq ▸ hh))
        · exact Or.inr (Or.inr ⟨o', hleft.mpr ⟨heq, ho'⟩, hh⟩)
    · rintro ((hh | hh) | hkeep | ⟨o', ho', hh⟩)
      · exact Or.inr (Or.inr ⟨o, ho, hh⟩)
      · exact Or.inl hh
      · exact Or.inr (Or.inl hkeep)
      · exact Or.inr (Or.inr ⟨o', (hleft.mp ho').2, hh⟩)
  · obtain ⟨D, heq, hnodup, hD⟩ := hdrain.deleted
    refine ⟨D ++ [o], by rw [Store.delete, heq, List.append_assoc], ?_, fun o' => ?_⟩
    · refine hnodup.append (List.nodup_singleton o) fun o' hin hlast => ?_
      rw [List.mem_singleton.mp hlast] at hin
      exact ((hD o).mp hin).2 ho
    · rw [List.mem_append, hD, List.mem_singleton, hleft, not_and_or, not_not]
      constructor
      · rintro (⟨hin, hno⟩ | rfl)
        · exact ⟨hin, Or.inr hno⟩
        · exact ⟨hdrain.objects ho, Or.inl rfl⟩
      · rintro ⟨hin, heq | hno⟩
        · exact Or.inr heq
        · exact Or.inl ⟨hin, hno⟩
  · intro o' ho' hheld'
    exact hleft.mpr ⟨fun heq => hheld (heq ▸ hheld'), hdrain.held o' ho' hheld'⟩

/-- At the end, if every object that is left has a handle: exactly what is held is left. -/
theorem Emptying.objects_iff (he : s₀.Emptying G keep) (hdrain : s₀.Drain G keep [] s)
    (hhandle : ∀ o ∈ s.objects, ∃ h ∈ s.handles, G.target h o) (ho : o ∈ s₀.objects) :
    o ∈ s.objects ↔ G.Held keep o := by
  refine ⟨fun hleft => held_of_handles s.objects (fun o ho => ?_) o hleft, hdrain.held o ho⟩
  obtain ⟨h, hh, htarget⟩ := hhandle o ho
  refine ⟨h, htarget, ?_⟩
  rcases ((hdrain.handles h).mp hh).2 with hin | hkeep | ⟨o', ho', hmember⟩
  · exact absurd hin List.not_mem_nil
  · exact Or.inl hkeep
  · rw [hdrain.members] at hmember
    exact Or.inr ⟨o', ho', (he.member o' h).mpr ⟨hdrain.objects ho', hmember⟩⟩

end Store

end Ownership
