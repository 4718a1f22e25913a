import Mathlib.Data.Finset.Card
import Mathlib.Order.WellFoundedSet
import Mathlib.Logic.Relation

/-!
# Handles and what they own

Objects, and handles that refer to them. A handle is a root or a member of an
object, so that owning goes in chains: `Reach` is what some chain from a root gets
to, and `Owned` what the chains from one handle do. Without cycles every object
that some handle refers to is reached (`reach_of_held`).

Taking one handle out (`without`) leaves the rest reachable, but for what is owned
through it; if no object has two handles, all of that is cut off
(`reach_without_iff`).

`teardown` is what destructors do: the handles to be destroyed wait in a list, and
each may put further ones, the members of what it deletes, in front. `Sweep` is what
holds of a store meanwhile, if an object is deleted only once nothing else refers to
it: what is deleted is what is no longer reached (`Sweep.objects_iff`).
-/

namespace Ownership

open Relation

/-! ## Graphs -/

/-- Which handle refers to which object, and which is a member of which. -/
structure RefGraph (H O : Type*) where
  target : H → O → Prop
  member : O → H → Prop

variable {H O : Type*} {G G' : RefGraph H O} {h x : H} {o o' t : O}

namespace RefGraph

/-- Not a member of anything. -/
def Root (G : RefGraph H O) (h : H) : Prop := ∀ o, ¬ G.member o h

inductive Reach (G : RefGraph H O) : O → Prop where
  | root {h : H} {o : O} (hroot : G.Root h) (htarget : G.target h o) : Reach G o
  | step {o : O} {h : H} {o' : O} (hreach : Reach G o) (hmember : G.member o h)
      (htarget : G.target h o') : Reach G o'

/-- A member of the one refers to the other. -/
def Points (G : RefGraph H O) (o o' : O) : Prop := ∃ h, G.member o h ∧ G.target h o'

/-- There is a chain from the handle. -/
def Owned (G : RefGraph H O) (x : H) (o : O) : Prop := ∃ t, G.target x t ∧ ReflTransGen G.Points t o

def Acyclic (G : RefGraph H O) : Prop := ∀ o, ¬ TransGen G.Points o o

/-- The graph in which one handle refers to nothing. -/
def without (G : RefGraph H O) (x : H) : RefGraph H O where
  target h o := h ≠ x ∧ G.target h o
  member := G.member

/-- The graph in which one handle refers to something else. -/
def retarget (G : RefGraph H O) (x : H) (T : O → Prop) : RefGraph H O where
  target h o := h ≠ x ∧ G.target h o ∨ h = x ∧ T o
  member := G.member

/-- No two handles refer to one object, and no handle is a member of two. -/
structure Exclusive (G : RefGraph H O) : Prop where
  target : ∀ {h h' : H} {o : O}, G.target h o → G.target h' o → h = h'
  member : ∀ {o o' : O} {h : H}, G.member o h → G.member o' h → o = o'

end RefGraph

open RefGraph

theorem RefGraph.Acyclic.anti (hac : G'.Acyclic) (hle : ∀ o o', G.Points o o' → G'.Points o o') :
    G.Acyclic :=
  fun o hcycle => hac o (TransGen.mono hle o o hcycle)

theorem acyclic_of_rank (rank : O → Nat) (h : ∀ o o', G.Points o o' → rank o < rank o') :
    G.Acyclic := by
  have hlt {o o' : O} (hchain : TransGen G.Points o o') : rank o < rank o' := by
    induction hchain with
    | single hpoints => exact h _ _ hpoints
    | tail _ hpoints ih => exact ih.trans (h _ _ hpoints)
  exact fun o hcycle => (hlt hcycle).false

theorem points_of_without (h : (G.without x).Points o o') : G.Points o o' := by
  obtain ⟨h, hmember, -, htarget⟩ := h
  exact ⟨h, hmember, htarget⟩

theorem RefGraph.Acyclic.without (hac : G.Acyclic) (x : H) : (G.without x).Acyclic :=
  hac.anti fun _ _ => points_of_without

/-- Up from any object: among finitely many without cycles, there is an end. -/
theorem reach_of_held (hac : G.Acyclic) (S : Finset O)
    (hheld : ∀ o ∈ S, ∃ h, G.target h o ∧ (G.Root h ∨ ∃ o' ∈ S, G.member o' h)) :
    ∀ o ∈ S, G.Reach o := by
  have : IsStrictOrder O (TransGen G.Points) :=
    { irrefl := hac, trans := fun _ _ _ => TransGen.trans }
  intro o ho
  refine S.wellFoundedOn.induction (r := TransGen G.Points) ho fun o ho ih => ?_
  obtain ⟨h, htarget, hroot | ⟨o', ho', hmember⟩⟩ := hheld o ho
  · exact .root hroot htarget
  · exact .step (ih o' ho' (.single ⟨h, hmember, htarget⟩)) hmember htarget

/-! ## Without one handle -/

/-- A chain avoids the handle, or there is one that starts with it. -/
theorem RefGraph.Reach.without_or (hreach : G.Reach o) (x : H) :
    (G.without x).Reach o ∨ G.Owned x o := by
  have hnext {h : H} {o : O} (htarget : G.target h o)
      (havoid : h ≠ x → (G.without x).Reach o) : (G.without x).Reach o ∨ G.Owned x o := by
    by_cases heq : h = x
    · exact Or.inr ⟨o, heq ▸ htarget, .refl⟩
    · exact Or.inl (havoid heq)
  induction hreach with
  | root hroot htarget => exact hnext htarget fun heq => .root hroot ⟨heq, htarget⟩
  | step _ hmember htarget ih =>
      rcases ih with ih | ⟨t, ht, hchain⟩
      · exact hnext htarget fun heq => .step ih hmember ⟨heq, htarget⟩
      · exact Or.inr ⟨t, ht, hchain.tail ⟨_, hmember, htarget⟩⟩

theorem RefGraph.Reach.without_of_member (hreach : G.Reach o) (hac : G.Acyclic)
    (hmember : G.member o x) : (G.without x).Reach o := by
  rcases hreach.without_or x with hwithout | ⟨t, ht, hchain⟩
  · exact hwithout
  · exact (hac o (.head' ⟨x, hmember, ht⟩ hchain)).elim

/-- A handle that refers to what is reached anyway adds nothing. -/
theorem reach_retarget_iff {T : O → Prop} (hT : ∀ o, T o → (G.without x).Reach o) :
    (G.retarget x T).Reach o ↔ (G.without x).Reach o := by
  constructor
  · intro hreach
    induction hreach with
    | root hroot htarget =>
        exact htarget.elim (fun htarget => .root hroot htarget) fun htarget => hT _ htarget.2
    | step _ hmember htarget ih =>
        exact htarget.elim (fun htarget => .step ih hmember htarget) fun htarget => hT _ htarget.2
  · intro hreach
    induction hreach with
    | root hroot htarget => exact .root hroot (Or.inl htarget)
    | step _ hmember htarget ih => exact .step ih hmember (Or.inl htarget)

theorem RefGraph.Reach.retarget_self (hreach : G.Reach o) (x : H) :
    (G.retarget x (G.target x)).Reach o := by
  have hsame {h : H} {o : O} (htarget : G.target h o) :
      (G.retarget x (G.target x)).target h o := by
    by_cases heq : h = x
    · exact Or.inr ⟨heq, heq ▸ htarget⟩
    · exact Or.inl ⟨heq, htarget⟩
  induction hreach with
  | root hroot htarget => exact .root hroot (hsame htarget)
  | step _ hmember htarget ih => exact .step ih hmember (hsame htarget)

/-- With one handle to an object, all that is owned through it is cut off. -/
theorem RefGraph.Exclusive.not_reach (hex : G.Exclusive) (howned : G.Owned x o) :
    ¬ (G.without x).Reach o := by
  obtain ⟨t, ht, hchain⟩ := howned
  induction hchain with
  | refl =>
      intro hreach
      cases hreach with
      | root _ htarget => exact htarget.1 (hex.target htarget.2 ht)
      | step _ _ htarget => exact htarget.1 (hex.target htarget.2 ht)
  | tail _ hpoints ih =>
      obtain ⟨h, hmember, htarget⟩ := hpoints
      intro hreach
      cases hreach with
      | root hroot htarget' =>
          obtain rfl := hex.target htarget'.2 htarget
          exact hroot _ hmember
      | step hreach' hmember' htarget' =>
          obtain rfl := hex.target htarget'.2 htarget
          obtain rfl := hex.member hmember' hmember
          exact ih hreach'

theorem reach_without_iff (hex : G.Exclusive) (hreach : G.Reach o) :
    (G.without x).Reach o ↔ ¬ G.Owned x o :=
  ⟨fun hwithout howned => hex.not_reach howned hwithout, (hreach.without_or x).resolve_right⟩

/-! ## Destructors -/

section Teardown

variable {S E : Type*} {step : H → S → Except E (List H × S)} {out : E}

/-- Destroy the handles of a list, in this order; `step` destroys one and returns
the handles that come before the rest. -/
def teardown (step : H → S → Except E (List H × S)) (out : E) : Nat → List H → S → Except E S
  | _, [], s => .ok s
  | 0, _ :: _, _ => .error out
  | n + 1, h :: hs, s =>
      match step h s with
      | .error e => .error e
      | .ok (more, s) => teardown step out n (more ++ hs) s

/-- An invariant of the waiting handles and the state, under which every handle can be
destroyed, holds at the end; and there is one if every step makes the state smaller. -/
theorem teardown_ok {Inv : List H → S → Prop} {size : S → Nat}
    (hstep : ∀ h hs s, Inv (h :: hs) s →
      ∃ more s', step h s = .ok (more, s') ∧ Inv (more ++ hs) s' ∧ size s' < size s) :
    ∀ (n : Nat) (hs : List H) (s : S), Inv hs s → size s ≤ n →
      ∃ s', teardown step out n hs s = .ok s' ∧ Inv [] s'
  | n, [], s, hinv, _ => ⟨s, by cases n <;> rfl, hinv⟩
  | 0, h :: hs, s, hinv, hsize => by
      obtain ⟨_, s', -, -, hlt⟩ := hstep h hs s hinv
      omega
  | n + 1, h :: hs, s, hinv, hsize => by
      obtain ⟨more, s', heq, hinv', hlt⟩ := hstep h hs s hinv
      obtain ⟨s'', hrun, hend⟩ := teardown_ok hstep n (more ++ hs) s' hinv' (by omega)
      refine ⟨s'', ?_, hend⟩
      rw [teardown, heq]
      exact hrun

end Teardown

/-! ## Stores -/

/-- The handles and the objects that are alive, the handles in each object in the
order in which its destructor destroys them, and the objects deleted so far. -/
structure Store (H O : Type*) where
  handles : Finset H
  objects : Finset O
  members : O → List H
  deleted : List O

namespace Store

variable {s₀ s : Store H O} {y : H} {kept : Prop} {hs : List H}

def endHandle [DecidableEq H] (s : Store H O) (h : H) : Store H O :=
  { s with handles := s.handles.erase h }

/-- An object is gone, but its members are not yet. -/
def delete [DecidableEq O] (s : Store H O) (o : O) : Store H O :=
  { s with objects := s.objects.erase o, deleted := s.deleted ++ [o] }

/-- The members of the objects are there, each in one place. -/
structure WellFormed (s : Store H O) : Prop where
  nodup : ∀ o ∈ s.objects, (s.members o).Nodup
  live : ∀ o ∈ s.objects, ∀ h ∈ s.members o, h ∈ s.handles
  disjoint : ∀ o ∈ s.objects, ∀ o' ∈ s.objects, ∀ h ∈ s.members o, h ∈ s.members o' → o = o'

theorem reach_all {G : RefGraph H O} (hac : G.Acyclic)
    (hmember : ∀ o h, G.member o h ↔ o ∈ s.objects ∧ h ∈ s.members o)
    (hheld : ∀ o ∈ s.objects, ∃ h, G.target h o) : ∀ o ∈ s.objects, G.Reach o := by
  refine reach_of_held hac s.objects fun o ho => ?_
  obtain ⟨h, htarget⟩ := hheld o ho
  refine ⟨h, htarget, or_iff_not_imp_left.mpr fun hroot => ?_⟩
  obtain ⟨o', hin⟩ := not_forall_not.mp hroot
  exact ⟨o', ((hmember o' h).mp hin).1, hin⟩

/-- A handle `y` is dropped: it is destroyed or, if it is `kept`, no longer refers to
anything. `G` is what the other handles refer to. -/
structure Dropping (s₀ : Store H O) (G : RefGraph H O) (y : H) (kept : Prop) : Prop where
  wf : s₀.WellFormed
  member : ∀ o h, G.member o h ↔ o ∈ s₀.objects ∧ h ∈ s₀.members o
  target : ∀ h o, G.target h o → h ∈ s₀.handles ∧ h ≠ y
  owner : ∀ o ∈ s₀.objects, y ∈ s₀.members o → kept ∧ G.Reach o

/-- A handle can be dropped if it is kept or is in no object, and all objects are reached. -/
theorem WellFormed.dropping {G : RefGraph H O} (hwf : s.WellFormed) (hac : G.Acyclic)
    (hmember : ∀ o h, G.member o h ↔ o ∈ s.objects ∧ h ∈ s.members o)
    (htarget : ∀ h o, G.target h o → h ∈ s.handles) (hreach : ∀ o ∈ s.objects, G.Reach o)
    (hkept : kept ∨ ∀ o ∈ s.objects, y ∉ s.members o) : s.Dropping (G.without y) y kept where
  wf := hwf
  member := hmember
  target h o hh := ⟨htarget h o hh.2, hh.1⟩
  owner o ho hin := ⟨hkept.resolve_right fun hroot => hroot o ho hin,
    (hreach o ho).without_of_member hac ((hmember o y).mpr ⟨ho, hin⟩)⟩

/-- The handle is destroyed by the time all that waits is. -/
def Gone (s₀ s : Store H O) (y : H) (kept : Prop) (h : H) : Prop :=
  (h = y ∧ ¬ kept) ∨ ∃ o ∈ s₀.objects, o ∉ s.objects ∧ h ∈ s₀.members o

/-- The destructors are under way, with the handles `hs` still to be destroyed.
A handle is there until its destructor has run, also where the object it is a
member of is gone already; what has been deleted is cut off from every root. -/
structure Sweep (s₀ : Store H O) (G : RefGraph H O) (y : H) (kept : Prop) (hs : List H)
    (s : Store H O) : Prop where
  members : s.members = s₀.members
  objects : s.objects ⊆ s₀.objects
  nodup : hs.Nodup
  waiting : ∀ h ∈ hs, h ∈ s.handles ∧ s₀.Gone s y kept h
  handles : ∀ h, h ∈ s.handles ↔ h ∈ s₀.handles ∧ (h ∈ hs ∨ ¬ s₀.Gone s y kept h)
  deleted : ∃ D, s.deleted = s₀.deleted ++ D ∧ D.Nodup ∧ ∀ o, o ∈ D ↔ o ∈ s₀.objects ∧ o ∉ s.objects
  cut : ∀ o ∈ s₀.objects, o ∉ s.objects → ¬ G.Reach o

theorem Dropping.not_gone (hd : s₀.Dropping G y kept) (hsweep : s₀.Sweep G y kept hs s) {o : O}
    (ho : o ∈ s.objects) {h : H} (hh : h ∈ s₀.members o) : ¬ s₀.Gone s y kept h := by
  have ho₀ := hsweep.objects ho
  rintro (⟨rfl, hkept⟩ | ⟨o', ho', hgone, hh'⟩)
  · exact hkept (hd.owner o ho₀ hh).1
  · exact hgone (hd.wf.disjoint o ho₀ o' ho' h hh hh' ▸ ho)

theorem Dropping.kept_not_gone (hd : s₀.Dropping G y kept) (hsweep : s₀.Sweep G y kept hs s)
    (hkept : kept) : ¬ s₀.Gone s y kept y := by
  rintro (⟨-, hnot⟩ | ⟨o, ho, hgone, hy⟩)
  · exact hnot hkept
  · exact hsweep.cut o ho hgone (hd.owner o ho hy).2

theorem Dropping.wellFormed (hd : s₀.Dropping G y kept) (hsweep : s₀.Sweep G y kept hs s) :
    s.WellFormed where
  nodup o ho := by
    rw [hsweep.members]
    exact hd.wf.nodup o (hsweep.objects ho)
  live o ho h hh := by
    rw [hsweep.members] at hh
    exact (hsweep.handles h).mpr
      ⟨hd.wf.live o (hsweep.objects ho) h hh, Or.inr (hd.not_gone hsweep ho hh)⟩
  disjoint o ho o' ho' h hh hh' := by
    rw [hsweep.members] at hh hh'
    exact hd.wf.disjoint o (hsweep.objects ho) o' (hsweep.objects ho') h hh hh'

theorem Dropping.not_reach (hd : s₀.Dropping G y kept) (hsweep : s₀.Sweep G y kept hs s) {o : O}
    (hheld : ∀ h, G.target h o → h ∈ s.handles → h ∈ hs) : ¬ G.Reach o := by
  have hgone {h : H} (htarget : G.target h o) : s₀.Gone s y kept h := by
    by_contra hnot
    have hlive := (hsweep.handles h).mpr ⟨(hd.target h o htarget).1, Or.inr hnot⟩
    exact hnot (hsweep.waiting h (hheld h htarget hlive)).2
  intro hreach
  cases hreach with
  | root hroot htarget =>
      rcases hgone htarget with ⟨heq, -⟩ | ⟨o', ho', -, hmember⟩
      · exact (hd.target _ _ htarget).2 heq
      · exact hroot o' ((hd.member _ _).mpr ⟨ho', hmember⟩)
  | @step o₁ h _ hreach hmember htarget =>
      obtain ⟨ho₁, hmember⟩ := (hd.member _ _).mp hmember
      have halive : o₁ ∈ s.objects := by
        by_contra hnot
        exact hsweep.cut o₁ ho₁ hnot hreach
      exact hd.not_gone hsweep halive hmember (hgone htarget)

theorem some_ne_mark {x : Option H} (hx : x = none ∨ x = some y) (hne : x = some y → h ≠ y) :
    some h ≠ x := by
  rcases hx with rfl | rfl
  · exact Option.some_ne_none h
  · exact fun heq => hne rfl (Option.some.inj heq)

theorem Dropping.start (hd : s₀.Dropping G y kept) (hhs : hs.Nodup)
    (hy : ∀ h, h ∈ hs ↔ h = y ∧ ¬ kept) (hlive : y ∈ s₀.handles) : s₀.Sweep G y kept hs s₀ where
  members := rfl
  objects := Finset.Subset.refl _
  nodup := hhs
  waiting h hh := by
    obtain ⟨rfl, hkept⟩ := (hy h).mp hh
    exact ⟨hlive, Or.inl ⟨rfl, hkept⟩⟩
  handles h := by
    refine ⟨fun hh => ⟨hh, ?_⟩, fun hh => hh.1⟩
    rw [or_iff_not_imp_left, hy]
    rintro hnot (hgone | ⟨o, ho, hno, -⟩)
    · exact hnot hgone
    · exact hno ho
  deleted := ⟨[], (List.append_nil _).symm, List.nodup_nil, fun o =>
    ⟨fun ho => (List.not_mem_nil ho).elim, fun ho => (ho.2 ho.1).elim⟩⟩
  cut o ho hno := (hno ho).elim

theorem Dropping.start_kept (hd : s₀.Dropping G y kept) (hkept : kept) (hy : y ∈ s₀.handles) :
    s₀.Sweep G y kept [] s₀ :=
  hd.start List.nodup_nil
    (fun _ => ⟨fun hin => (List.not_mem_nil hin).elim, fun hin => (hin.2 hkept).elim⟩) hy

theorem Dropping.start_ended (hd : s₀.Dropping G y kept) (hkept : ¬ kept) (hy : y ∈ s₀.handles) :
    s₀.Sweep G y kept [y] s₀ :=
  hd.start (List.nodup_singleton y)
    (fun _ => ⟨fun hin => ⟨List.mem_singleton.mp hin, hkept⟩,
      fun hin => List.mem_singleton.mpr hin.1⟩) hy

theorem Sweep.endHandle [DecidableEq H] {h : H} (hsweep : s₀.Sweep G y kept (h :: hs) s) :
    s₀.Sweep G y kept hs (s.endHandle h) := by
  obtain ⟨hnew, hnodup⟩ := List.nodup_cons.mp hsweep.nodup
  refine { hsweep with nodup := hnodup, waiting := fun h' hh' => ?_, handles := fun h' => ?_ }
  · obtain ⟨hlive, hgone⟩ := hsweep.waiting h' (List.mem_cons_of_mem _ hh')
    exact ⟨Finset.mem_erase.mpr ⟨fun heq => hnew (heq ▸ hh'), hlive⟩, hgone⟩
  · have hfirst := hsweep.waiting h (List.mem_cons_self ..)
    rw [Store.endHandle, Finset.mem_erase, hsweep.handles, List.mem_cons]
    constructor
    · rintro ⟨hne, hlive, hin⟩
      exact ⟨hlive, hin.imp_left fun h => h.resolve_left hne⟩
    · rintro ⟨hlive, hin⟩
      refine ⟨?_, hlive, hin.imp_left Or.inr⟩
      rintro rfl
      exact hin.elim hnew fun hnot => hnot hfirst.2

theorem Dropping.delete [DecidableEq O] (hd : s₀.Dropping G y kept)
    (hsweep : s₀.Sweep G y kept hs s) {o : O}
    (ho : o ∈ s.objects) (hreach : ¬ G.Reach o) :
    s₀.Sweep G y kept (s.members o ++ hs) (s.delete o) := by
  have hwf := hd.wellFormed hsweep
  have hmembers : s.members o = s₀.members o := by rw [hsweep.members]
  have hgone (h : H) : s₀.Gone (s.delete o) y kept h ↔ s₀.Gone s y kept h ∨ h ∈ s.members o := by
    rw [hmembers]
    constructor
    · rintro (hy | ⟨o', ho', hno, hh⟩)
      · exact Or.inl (Or.inl hy)
      · by_cases heq : o' = o
        · exact Or.inr (heq ▸ hh)
        · exact Or.inl (Or.inr ⟨o', ho', fun h => hno (Finset.mem_erase.mpr ⟨heq, h⟩), hh⟩)
    · rintro ((hy | ⟨o', ho', hno, hh⟩) | hh)
      · exact Or.inl hy
      · exact Or.inr ⟨o', ho', fun h => hno (Finset.mem_of_mem_erase h), hh⟩
      · exact Or.inr ⟨o, hsweep.objects ho, Finset.notMem_erase o _, hh⟩
  refine ⟨hsweep.members, (Finset.erase_subset ..).trans hsweep.objects, ?_, ?_, ?_, ?_, ?_⟩
  · refine (hwf.nodup o ho).append hsweep.nodup fun h hh hh' => ?_
    rw [hmembers] at hh
    exact hd.not_gone hsweep ho hh (hsweep.waiting h hh').2
  · intro h hh
    rw [hgone]
    rcases List.mem_append.mp hh with hh | hh
    · exact ⟨hwf.live o ho h hh, Or.inr hh⟩
    · exact ⟨(hsweep.waiting h hh).1, Or.inl (hsweep.waiting h hh).2⟩
  · intro h
    show h ∈ s.handles ↔ _
    rw [hgone, hsweep.handles, List.mem_append, not_or]
    constructor
    · rintro ⟨hlive, hin⟩
      refine ⟨hlive, ?_⟩
      by_cases hh : h ∈ s.members o
      · exact Or.inl (Or.inl hh)
      · exact hin.imp Or.inr fun hnot => ⟨hnot, hh⟩
    · rintro ⟨hlive, (hh | hh) | ⟨hnot, -⟩⟩
      · exact (hsweep.handles h).mp (hwf.live o ho h hh)
      · exact ⟨hlive, Or.inl hh⟩
      · exact ⟨hlive, Or.inr hnot⟩
  · obtain ⟨D, heq, hnodup, hD⟩ := hsweep.deleted
    refine ⟨D ++ [o], by rw [Store.delete, heq, List.append_assoc], ?_, fun o' => ?_⟩
    · refine hnodup.append (List.nodup_singleton o) fun o' hin hlast => ?_
      rw [List.mem_singleton.mp hlast] at hin
      exact ((hD o).mp hin).2 ho
    · rw [List.mem_append, hD, List.mem_singleton, Store.delete, Finset.mem_erase, not_and_or,
        not_not]
      constructor
      · rintro (⟨hin, hno⟩ | rfl)
        · exact ⟨hin, Or.inr hno⟩
        · exact ⟨hsweep.objects ho, Or.inl rfl⟩
      · rintro ⟨hin, heq | hno⟩
        · exact Or.inr heq
        · exact Or.inl ⟨hin, hno⟩
  · intro o' ho' hno
    by_cases heq : o' = o
    · exact heq ▸ hreach
    · exact hsweep.cut o' ho' fun h => hno (Finset.mem_erase.mpr ⟨heq, h⟩)

theorem Sweep.ended (hsweep : s₀.Sweep G y kept [] s) (hkept : ¬ kept) : y ∉ s.handles :=
  fun hin => ((hsweep.handles y).mp hin).2.elim List.not_mem_nil fun hnot =>
    hnot (Or.inl ⟨rfl, hkept⟩)

theorem Dropping.kept_alive (hd : s₀.Dropping G y kept) (hsweep : s₀.Sweep G y kept [] s)
    (hkept : kept) (hy : y ∈ s₀.handles) : y ∈ s.handles :=
  (hsweep.handles y).mpr ⟨hy, Or.inr (hd.kept_not_gone hsweep hkept)⟩

/-- At the end, if every object that is left has a handle: exactly what is reached is
left. -/
theorem Dropping.objects_iff (hd : s₀.Dropping G y kept) (hsweep : s₀.Sweep G y kept [] s)
    (hac : G.Acyclic) (hheld : ∀ o ∈ s.objects, ∃ h ∈ s.handles, G.target h o) {o : O}
    (ho : o ∈ s₀.objects) : o ∈ s.objects ↔ G.Reach o := by
  refine ⟨reach_of_held hac s.objects (fun o ho => ?_) o, fun hreach => ?_⟩
  · obtain ⟨h, hh, htarget⟩ := hheld o ho
    refine ⟨h, htarget, or_iff_not_imp_left.mpr fun hroot => ?_⟩
    obtain ⟨o', hmember⟩ := not_forall_not.mp hroot
    obtain ⟨ho', hin⟩ := (hd.member _ _).mp hmember
    refine ⟨o', ?_, hmember⟩
    by_contra hno
    rcases ((hsweep.handles h).mp hh).2 with hnil | hnot
    · cases hnil
    · exact hnot (Or.inr ⟨o', ho', hno, hin⟩)
  · by_contra hno
    exact hsweep.cut o ho hno hreach

end Store

end Ownership
