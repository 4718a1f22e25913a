import CppDemos.Pointers.SharedRuns
import CppDemos.Lib.Leaks

/-!
# `SharedPtr`s that refer to each other

A heap in which the counts are right, whatever refers to what, and any of the handles outside
its objects going out of scope, one after the other. Nothing that is destroyed is met, and what
is left behind is what was held (`Held`): by a handle that stays, or by a cycle. So everything
is freed at the end of a program exactly if there is no cycle.
-/

namespace CppDemos

open Ownership (RefGraph Store)

namespace SharedHeap

variable {s s₀ : SharedHeap} {keep : Addr → Prop} {due : Option Addr} {h o : Addr}
  {hs more : List Addr}

/-! ## The destructors -/

/-- The destructors are under way since `s₀`. -/
structure Draining (s₀ : SharedHeap) (keep : Addr → Prop) (hs : List Addr) (s : SharedHeap) :
    Prop where
  drain : s₀.toStore.Drain s₀.graph keep hs s.toStore
  ref : s.ref = s₀.ref
  data : ∀ r rc, s.refs r = some rc → ∃ rc₀, s₀.refs r = some rc₀ ∧ rc₀.data = rc.data
  managed : s.Managed none none

theorem graph_of_target (href : s.ref = s₀.ref)
    (hdata : ∀ r rc, s.refs r = some rc → ∃ rc₀, s₀.refs r = some rc₀ ∧ rc₀.data = rc.data)
    (hh : h ∈ s₀.handles) (htarget : s.target h = some o) : s₀.graph.target h o := by
  obtain ⟨r, rc, href', hrc, hsame⟩ := target_eq_some.mp htarget
  obtain ⟨rc₀, hrc₀, hsame₀⟩ := hdata r rc hrc
  exact ⟨hh, r, rc₀, (congrFun href h).symm.trans href', hrc₀, hsame₀.trans hsame⟩

theorem release_draining (he : s₀.toStore.Emptying s₀.graph keep)
    (hdrain : s₀.toStore.Drain s₀.graph keep hs s.toStore) (href : s.ref = s₀.ref)
    (hdata : ∀ r rc, s.refs r = some rc → ∃ rc₀, s₀.refs r = some rc₀ ∧ rc₀.data = rc.data)
    (hm : s.Managed none due) :
    ∃ more s', s.release due = .ok (more, s') ∧ s₀.Draining keep (more ++ hs) s' ∧
      s'.handles = s.handles := by
  obtain ⟨more, s', hrelease, hreleased⟩ := hm.release
  have hdata' (r : Addr) (rc : RefCount) (hrc : s'.refs r = some rc) :
      ∃ rc₀, s₀.refs r = some rc₀ ∧ rc₀.data = rc.data := by
    obtain ⟨rc₁, hrc₁, hsame⟩ := hreleased.data r rc hrc
    obtain ⟨rc₀, hrc₀, hsame₀⟩ := hdata r rc₁ hrc₁
    exact ⟨rc₀, hrc₀, hsame₀.trans hsame⟩
  rcases hreleased.store with ⟨rfl, hstore⟩ | ⟨r, rc, -, hrc, hlast, rfl, hstore⟩
  · refine ⟨[], s', hrelease, ⟨?_, hreleased.ref.trans href, hdata', hreleased.managed⟩,
      congrArg Store.handles hstore⟩
    rw [hstore]
    exact hdrain
  · have hfree : ¬ s₀.graph.Held keep rc.data := by
      intro hheld
      obtain ⟨h, hlive, -, r₀, rc₀, href₀, hrc₀, hsame₀⟩ := he.exists_handle hdrain hheld
      have href' : s.ref h = some r₀ := (congrFun href h).trans href₀
      obtain ⟨rc₁, hrc₁⟩ := hm.alive h hlive (Option.some_ne_none h) r₀ href'
      obtain ⟨rc₀', hrc₀', hsame₁⟩ := hdata r₀ rc₁ hrc₁
      obtain rfl := Option.some.inj (hrc₀.symm.trans hrc₀')
      obtain rfl := hm.injective r₀ rc₁ r rc hrc₁ hrc (hsame₁.symm.trans hsame₀)
      have hin : h ∈ s.users none r₀ := mem_users.mpr ⟨hlive, Option.some_ne_none h, href'⟩
      rw [hlast] at hin
      cases hin
    have hhandles : s'.toStore.handles = (s.toStore.delete rc.data).handles := by rw [hstore]
    refine ⟨_, s', hrelease, ⟨?_, hreleased.ref.trans href, hdata', hreleased.managed⟩, hhandles⟩
    rw [hstore]
    exact he.delete hdrain (hm.data r rc hrc) hfree

theorem dtor_draining (he : s₀.toStore.Emptying s₀.graph keep) (h : Addr) (hs : List Addr)
    (s : SharedHeap) (hinv : s₀.Draining keep (h :: hs) s) :
    ∃ more s', dtor h s = .ok (more, s') ∧ s₀.Draining keep (more ++ hs) s' ∧
      s'.handles.card < s.handles.card := by
  obtain ⟨hlive, -, -⟩ := hinv.drain.waiting h (List.mem_cons_self ..)
  obtain ⟨more, s', heq, hinv', hhandles⟩ :=
    release_draining (s := { s with toStore := s.toStore.endHandle h }) he
      hinv.drain.endHandle hinv.ref hinv.data
      (hinv.managed.endHandle hlive (Option.some_ne_none h))
  refine ⟨more, s', ?_, hinv', ?_⟩
  · have hread : s.read h = .ok (s.ref h) := if_pos hlive
    rw [dtor, hread]
    exact heq
  · rw [hhandles]
    exact Finset.card_erase_lt_of_mem hlive

theorem destroyAll_draining (he : s₀.toStore.Emptying s₀.graph keep)
    (hinv : s₀.Draining keep hs s) :
    ∃ s', s.destroyAll hs = .ok s' ∧ s₀.Draining keep [] s' :=
  Ownership.teardown_ok (dtor_draining he) s.handles.card hs s hinv le_rfl

/-! ## Going out of scope -/

/-- A heap of any shape: the members of its objects are there, and its counts are right. -/
structure Counted (s : SharedHeap) : Prop where
  wf : s.toStore.WellFormed
  managed : s.Managed none none

/-- A handle in no object. -/
def Outside (s : SharedHeap) (h : Addr) : Prop := h ∈ s.handles ∧ ∀ o ∈ s.objects, h ∉ s.members o

/-- The handles outside that do not go out of scope. -/
def Kept (s : SharedHeap) (hs : List Addr) (h : Addr) : Prop := s.Outside h ∧ h ∉ hs

theorem Counted.emptying (hs₀ : s.Counted) (hs : List Addr) :
    s.toStore.Emptying s.graph (s.Kept hs) where
  wf := hs₀.wf
  member _ _ := Iff.rfl
  target h o htarget := by
    obtain ⟨hh, r, rc, -, hrc, rfl⟩ := htarget
    exact ⟨hh, hs₀.managed.data r rc hrc⟩
  keep _ hkept := hkept.1.2

theorem start_draining (hs₀ : s.Counted) (hnodup : hs.Nodup) (hout : ∀ h ∈ hs, s.Outside h) :
    s.Draining (s.Kept hs) hs s where
  drain := by
    refine Store.Drain.start hnodup (fun h hh => ?_) fun h hh => ?_
    · exact ⟨(hout h hh).1, fun hkept => hkept.2 hh, (hout h hh).2⟩
    · by_cases hin : h ∈ hs
      · exact Or.inl hin
      · by_cases hmember : ∃ o ∈ s.objects, h ∈ s.members o
        · exact Or.inr (Or.inr hmember)
        · refine Or.inr (Or.inl ⟨⟨hh, fun o ho hm => hmember ⟨o, ho, hm⟩⟩, hin⟩)
  ref := rfl
  data _ rc hrc := ⟨rc, hrc, rfl⟩
  managed := hs₀.managed

theorem Draining.objects_iff (hs₀ : s₀.Counted) (hend : s₀.Draining (s₀.Kept hs) [] s)
    (ho : o ∈ s₀.objects) : o ∈ s.objects ↔ s₀.graph.Held (s₀.Kept hs) o := by
  refine (hs₀.emptying hs).objects_iff hend.drain (fun o ho => ?_) ho
  obtain ⟨h, hh, -, htarget⟩ := hend.managed.held ho
  have hh₀ := ((hend.drain.handles h).mp hh).1
  exact ⟨h, hh, graph_of_target hend.ref hend.data hh₀ htarget⟩

end SharedHeap

open SharedHeap

/-- Handles go out of scope, from any heap in which the counts are right: no destructor meets
anything that is destroyed, exactly the objects that are not held are deleted, each once, and
the counts are right again. If none of the handles outside is kept, everything is deleted
exactly if no object is on a cycle. -/
theorem freed_iff_acyclic {s : SharedHeap} {hs : List Addr} (hs₀ : s.Counted)
    (hnodup : hs.Nodup) (hout : ∀ h ∈ hs, s.Outside h) :
    ∃ s' D, s.destroyAll hs = .ok s' ∧ s'.Counted ∧ (∀ h ∈ hs, h ∉ s'.handles) ∧
      s'.deleted = s.deleted ++ D ∧ D.Nodup ∧
      (∀ o, o ∈ D ↔ o ∈ s.objects ∧ ¬ s.graph.Held (s.Kept hs) o) ∧
      ((∀ h, s.Outside h → h ∈ hs) → (s'.objects = ∅ ↔ s.graph.Acyclic)) := by
  have he := hs₀.emptying hs
  obtain ⟨s', hrun, hend⟩ := destroyAll_draining he (start_draining hs₀ hnodup hout)
  have hleft {o : Addr} (ho : o ∈ s.objects) := Draining.objects_iff hs₀ hend ho
  obtain ⟨D, hdeleted, hD, hin⟩ := hend.drain.deleted
  refine ⟨s', D, hrun, ⟨he.wellFormed hend.drain, hend.managed⟩, fun h hh hlive => ?_, hdeleted,
    hD, fun o => (hin o).trans (and_congr_right fun ho => (hleft ho).not), fun hall => ?_⟩
  · rcases ((hend.drain.handles h).mp hlive).2 with hnil | hkept | ⟨o, ho, hmember⟩
    · exact List.not_mem_nil hnil
    · exact hkept.2 hh
    · rw [hend.drain.members] at hmember
      exact (hout h hh).2 o (hend.drain.objects ho) hmember
  · have hnone : s.Kept hs = fun _ => False := by
      funext h
      exact propext ⟨fun hkept => hkept.2 (hall h hkept.1), False.elim⟩
    rw [Ownership.acyclic_iff_not_held, ← hnone, Finset.eq_empty_iff_forall_notMem]
    constructor
    · intro hempty o hheld
      obtain ⟨h, htarget, -⟩ := hheld.handle
      exact hempty o ((hleft (he.target h o htarget).2).mpr hheld)
    · exact fun hfree o ho => hfree o ((hleft (hend.drain.objects ho)).mp ho)

/-- Two objects, 10 and 11, that refer to each other with the handles 1 and 2, and a handle 0
outside. -/
def sharedRing : SharedHeap where
  handles := {0, 1, 2}
  objects := {10, 11}
  members o := if o = 10 then [1] else if o = 11 then [2] else []
  deleted := []
  ref h := if h = 0 ∨ h = 2 then some 20 else if h = 1 then some 21 else none
  refs r := if r = 20 then some ⟨10, 2⟩ else if r = 21 then some ⟨11, 1⟩ else none

theorem sharedRing_refs {r : Addr} {rc : RefCount} (h : sharedRing.refs r = some rc) :
    r = 20 ∧ rc = ⟨10, 2⟩ ∨ r = 21 ∧ rc = ⟨11, 1⟩ := by
  simp only [sharedRing] at h
  split at h
  · exact Or.inl ⟨‹_›, (Option.some.inj h).symm⟩
  · split at h
    · exact Or.inr ⟨‹_›, (Option.some.inj h).symm⟩
    · cases h

theorem sharedRing_counted : sharedRing.Counted where
  wf := ⟨by decide, by decide, by decide⟩
  managed := by
    refine ⟨fun r rc hrc => ?_, fun h _ _ r href => ?_, fun r hr => ?_, fun r rc hrc => ?_,
      fun r rc r' rc' hrc hrc' heq => ?_, fun o ho => ?_⟩
    · rcases sharedRing_refs hrc with ⟨rfl, rfl⟩ | ⟨rfl, rfl⟩
      · exact ⟨by decide, by decide⟩
      · exact ⟨by decide, by decide⟩
    · simp only [sharedRing] at href
      split at href
      · obtain rfl := Option.some.inj href
        exact ⟨⟨10, 2⟩, rfl⟩
      · split at href
        · obtain rfl := Option.some.inj href
          exact ⟨⟨11, 1⟩, rfl⟩
        · cases href
    · cases hr
    · rcases sharedRing_refs hrc with ⟨rfl, rfl⟩ | ⟨rfl, rfl⟩
      · exact Finset.mem_insert_self 10 _
      · exact Finset.mem_insert_of_mem (Finset.mem_singleton_self 11)
    · rcases sharedRing_refs hrc with ⟨rfl, rfl⟩ | ⟨rfl, rfl⟩ <;>
        rcases sharedRing_refs hrc' with ⟨rfl, rfl⟩ | ⟨rfl, rfl⟩
      · rfl
      · cases heq
      · cases heq
      · rfl
    · rcases Finset.mem_insert.mp ho with rfl | ho
      · exact ⟨20, ⟨10, 2⟩, rfl, rfl⟩
      · obtain rfl := Finset.mem_singleton.mp ho
        exact ⟨21, ⟨11, 1⟩, rfl, rfl⟩

/-- With the only handle outside gone, neither is freed. -/
theorem freed_iff_acyclic_ring :
    ∃ s' D, sharedRing.destroyAll [0] = .ok s' ∧ s'.deleted = sharedRing.deleted ++ D ∧
      (∀ o, o ∈ D ↔ o ∈ sharedRing.objects ∧ ¬ sharedRing.graph.Held (sharedRing.Kept [0]) o) ∧
      s'.objects = {10, 11} := by
  have hout : ∀ h ∈ [0], sharedRing.Outside h := by
    intro h hh
    obtain rfl := List.mem_singleton.mp hh
    exact ⟨by decide, by decide⟩
  obtain ⟨s', D, hrun, -, -, hdeleted, -, hD, -⟩ :=
    freed_iff_acyclic sharedRing_counted (List.nodup_singleton 0) hout
  refine ⟨s', D, hrun, hdeleted, hD, ?_⟩
  cases hrun
  rfl

end CppDemos
