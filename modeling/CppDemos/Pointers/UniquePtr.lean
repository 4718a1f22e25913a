import CppDemos.Lib.Ownership

/-!
# unique_ptr.cpp

`UniquePtr` with objects that may themselves contain `UniquePtr`s. A handle or an
object is gone with the call of its destructor; what the destructor still reads of it
is passed on. A step that reads or writes what is gone is a fault.

The destructors below one another run depth first, and nothing follows the last line
of any of them, so the calls still to come are a list of handles (`teardown`).
-/

namespace CppDemos

open Ownership (RefGraph Store teardown)

/-- Where a smart pointer or an object is. -/
abbrev Addr := Nat

/-- Something destroyed was read or written, or the fuel did not last. -/
inductive Fault where
  | destroyed
  | fuel
deriving DecidableEq, Repr

/-- The `UniquePtr`s, with their `ptr`, and the objects. -/
structure UniqueHeap extends Store Addr Addr where
  ptr : Addr → Option Addr

namespace UniqueHeap

/-! ## Definitions -/

def read (s : UniqueHeap) (h : Addr) : Except Fault (Option Addr) :=
  if h ∈ s.handles then .ok (s.ptr h) else .error .destroyed

def write (s : UniqueHeap) (h : Addr) (p : Option Addr) : Except Fault UniqueHeap :=
  if h ∈ s.handles then .ok { s with ptr := Function.update s.ptr h p } else .error .destroyed

/-- `delete p` up to the members: they are returned, and their destructors are next. -/
def delete (s : UniqueHeap) : Option Addr → Except Fault (List Addr × UniqueHeap)
  | none => .ok ([], s)
  | some o =>
      if o ∈ s.objects then .ok (s.members o, { s with toStore := s.toStore.delete o })
      else .error .destroyed

/-- `~UniquePtr`, up to the members of what it deletes. -/
def dtor (h : Addr) (s : UniqueHeap) : Except Fault (List Addr × UniqueHeap) := do
  let ptr ← s.read h
  UniqueHeap.delete { s with toStore := s.toStore.endHandle h } ptr

/-- The destructors of these handles, with all that they call. -/
def destroyAll (s : UniqueHeap) (hs : List Addr) : Except Fault UniqueHeap :=
  teardown dtor .fuel s.handles.card hs s

/-- `delete p`. -/
def deleteAll (s : UniqueHeap) (p : Option Addr) : Except Fault UniqueHeap := do
  let (members, s) ← s.delete p
  s.destroyAll members

def destroy (s : UniqueHeap) (h : Addr) : Except Fault UniqueHeap := s.destroyAll [h]

/-- The constructor from a raw pointer. -/
def construct (s : UniqueHeap) (h : Addr) (p : Option Addr) : UniqueHeap :=
  { s with handles := insert h s.handles, ptr := Function.update s.ptr h p }

def moveConstruct (s : UniqueHeap) (h other : Addr) : Except Fault UniqueHeap := do
  let ptr ← s.read other
  (s.construct h ptr).write other none

/-- `operator=(UniquePtr&&)`. -/
def moveAssign (s : UniqueHeap) (dst src : Addr) : Except Fault UniqueHeap :=
  if dst = src then .ok s
  else do
    let ptr ← s.read dst
    let s ← s.deleteAll ptr
    let ptr ← s.read src
    let s ← s.write dst ptr
    s.write src none

def release (s : UniqueHeap) (h : Addr) : Except Fault (Option Addr × UniqueHeap) := do
  let temp ← s.read h
  let s ← s.write h none
  .ok (temp, s)

def reset (s : UniqueHeap) (h : Addr) (p : Option Addr) : Except Fault UniqueHeap := do
  let ptr ← s.read h
  if ptr = p then .ok s
  else
    let s ← s.deleteAll ptr
    s.write h p

/-! ## Who owns what -/

def graph (s : UniqueHeap) : RefGraph Addr Addr where
  target h o := h ∈ s.handles ∧ s.ptr h = some o
  member o h := o ∈ s.objects ∧ h ∈ s.members o

/-- Every object has one owner: a handle, the caller, or for `due` the `delete` that is
about to run. The handle `x` is about to be written and does not count. -/
structure Managed (s : UniqueHeap) (caller : Finset Addr) (x due : Option Addr) : Prop where
  exclusive : ∀ h ∈ s.handles, ∀ h' ∈ s.handles, some h ≠ x → some h' ≠ x →
    ∀ o, s.ptr h = some o → s.ptr h' = some o → h = h'
  alive : ∀ h ∈ s.handles, some h ≠ x → ∀ o, s.ptr h = some o →
    o ∈ s.objects ∧ o ∉ caller ∧ due ≠ some o
  dueAlive : ∀ o, due = some o → o ∈ s.objects ∧ o ∉ caller
  callers : ∀ o ∈ caller, o ∈ s.objects
  held : ∀ o ∈ s.objects, o ∈ caller ∨ due = some o ∨
    ∃ h ∈ s.handles, some h ≠ x ∧ s.ptr h = some o

variable {s s₀ : UniqueHeap} {caller : Finset Addr} {x due : Option Addr} {h y : Addr}
  {hs : List Addr} {kept : Prop}

theorem Managed.endHandle (hm : s.Managed caller x none) (hh : h ∈ s.handles) (hx : some h ≠ x) :
    UniqueHeap.Managed { s with toStore := s.toStore.endHandle h } caller x (s.ptr h) where
  exclusive h₁ hh₁ h₂ hh₂ :=
    hm.exclusive h₁ (Finset.mem_of_mem_erase hh₁) h₂ (Finset.mem_of_mem_erase hh₂)
  alive h₁ hh₁ hx₁ o ho := by
    obtain ⟨hne, hh₁⟩ := Finset.mem_erase.mp hh₁
    obtain ⟨hobj, hcaller, -⟩ := hm.alive h₁ hh₁ hx₁ o ho
    exact ⟨hobj, hcaller, fun hdue => hne (hm.exclusive h₁ hh₁ h hh hx₁ hx o ho hdue)⟩
  dueAlive o ho := by
    obtain ⟨hobj, hcaller, -⟩ := hm.alive h hh hx o ho
    exact ⟨hobj, hcaller⟩
  callers := hm.callers
  held o ho := by
    rcases hm.held o ho with hcaller | hdue | ⟨h₁, hh₁, hx₁, hptr⟩
    · exact Or.inl hcaller
    · cases hdue
    · by_cases heq : h₁ = h
      · exact Or.inr (Or.inl (heq ▸ hptr))
      · exact Or.inr (Or.inr ⟨h₁, Finset.mem_erase.mpr ⟨heq, hh₁⟩, hx₁, hptr⟩)

theorem Managed.mark (hm : s.Managed caller none none) (hh : h ∈ s.handles) :
    s.Managed caller (some h) (s.ptr h) where
  exclusive h₁ hh₁ h₂ hh₂ _ _ := hm.exclusive h₁ hh₁ h₂ hh₂ (Option.some_ne_none _)
    (Option.some_ne_none _)
  alive h₁ hh₁ hx₁ o ho := by
    obtain ⟨hobj, hcaller, -⟩ := hm.alive h₁ hh₁ (Option.some_ne_none _) o ho
    refine ⟨hobj, hcaller, fun hdue => hx₁ ?_⟩
    rw [hm.exclusive h₁ hh₁ h hh (Option.some_ne_none _) (Option.some_ne_none _) o ho hdue]
  dueAlive o ho := by
    obtain ⟨hobj, hcaller, -⟩ := hm.alive h hh (Option.some_ne_none _) o ho
    exact ⟨hobj, hcaller⟩
  callers := hm.callers
  held o ho := by
    rcases hm.held o ho with hcaller | hdue | ⟨h₁, hh₁, -, hptr⟩
    · exact Or.inl hcaller
    · cases hdue
    · by_cases heq : h₁ = h
      · exact Or.inr (Or.inl (heq ▸ hptr))
      · exact Or.inr (Or.inr ⟨h₁, hh₁, fun h => heq (Option.some.inj h), hptr⟩)

theorem Managed.delete {o : Addr} (hm : s.Managed caller x (some o)) :
    UniqueHeap.Managed { s with toStore := s.toStore.delete o } caller x none where
  exclusive := hm.exclusive
  alive h hh hx o' ho' := by
    obtain ⟨hobj, hcaller, hdue⟩ := hm.alive h hh hx o' ho'
    exact ⟨Finset.mem_erase.mpr ⟨fun heq => hdue (congrArg some heq.symm), hobj⟩, hcaller,
      fun hnone => by cases hnone⟩
  dueAlive o' ho' := by cases ho'
  callers o' ho' := Finset.mem_erase.mpr
    ⟨fun heq => (hm.dueAlive o rfl).2 (heq ▸ ho'), hm.callers o' ho'⟩
  held o' ho' := by
    obtain ⟨hne, ho'⟩ := Finset.mem_erase.mp ho'
    exact (hm.held o' ho').imp_right fun h => Or.inr (h.resolve_left fun heq =>
      hne (Option.some.inj heq).symm)

/-! ## Destructors -/

/-- The destructors are under way since `s₀`, in which a handle `y` was about to be
destroyed (`x` is `none`) or written (`x` is that handle). -/
structure Sweeping (s₀ : UniqueHeap) (caller : Finset Addr) (y : Addr) (x : Option Addr)
    (hs : List Addr) (s : UniqueHeap) : Prop where
  sweep : s₀.toStore.Sweep (s₀.graph.without y) y (x = some y) hs s.toStore
  ptr : s.ptr = s₀.ptr
  managed : s.Managed caller x none

variable (hd : s₀.toStore.Dropping (s₀.graph.without y) y (x = some y))
include hd

theorem delete_sweeping (hx : x = none ∨ x = some y)
    (hsweep : s₀.toStore.Sweep (s₀.graph.without y) y (x = some y) hs s.toStore)
    (hptr : s.ptr = s₀.ptr) (hm : s.Managed caller x due) :
    ∃ more s', s.delete due = .ok (more, s') ∧ s₀.Sweeping caller y x (more ++ hs) s' ∧
      s'.handles = s.handles := by
  cases due with
  | none => exact ⟨[], s, rfl, ⟨hsweep, hptr, hm⟩, rfl⟩
  | some o =>
      have ho := (hm.dueAlive o rfl).1
      have hcut : ¬ (s₀.graph.without y).Reach o := by
        refine hd.not_reach hsweep fun h htarget hlive => ?_
        have hne : some h ≠ x := Store.some_ne_mark hx fun _ => htarget.1
        have hptr' : s.ptr h = some o := (congrFun hptr h).trans htarget.2.2
        exact ((hm.alive h hlive hne o hptr').2.2 rfl).elim
      exact ⟨s.members o, { s with toStore := s.toStore.delete o }, if_pos ho,
        ⟨hd.delete hsweep ho hcut, hptr, hm.delete⟩, rfl⟩

theorem dtor_sweeping (hx : x = none ∨ x = some y) (h : Addr) (hs : List Addr) (s : UniqueHeap)
    (hinv : s₀.Sweeping caller y x (h :: hs) s) :
    ∃ more s', dtor h s = .ok (more, s') ∧ s₀.Sweeping caller y x (more ++ hs) s' ∧
      s'.handles.card < s.handles.card := by
  obtain ⟨hlive, hgone⟩ := hinv.sweep.waiting h (List.mem_cons_self ..)
  have hne : some h ≠ x := Store.some_ne_mark hx fun hkept heq =>
    hd.kept_not_gone hinv.sweep hkept (heq ▸ hgone)
  obtain ⟨more, s', heq, hinv', hhandles⟩ :=
    delete_sweeping (s := { s with toStore := s.toStore.endHandle h }) hd hx hinv.sweep.endHandle
      hinv.ptr (hinv.managed.endHandle hlive hne)
  refine ⟨more, s', ?_, hinv', ?_⟩
  · have hread : s.read h = .ok (s.ptr h) := if_pos hlive
    rw [dtor, hread]
    exact heq
  · rw [hhandles]
    exact Finset.card_erase_lt_of_mem hlive

theorem destroyAll_sweeping (hx : x = none ∨ x = some y)
    (hinv : s₀.Sweeping caller y x hs s) :
    ∃ s', s.destroyAll hs = .ok s' ∧ s₀.Sweeping caller y x [] s' :=
  Ownership.teardown_ok (dtor_sweeping hd hx) s.handles.card hs s hinv le_rfl

omit hd

theorem deleteAll_sweeping (hd : s.toStore.Dropping (s.graph.without y) y (some y = some y))
    (hm : s.Managed caller none none) (hy : y ∈ s.handles) :
    ∃ s', s.deleteAll (s.ptr y) = .ok s' ∧ s.Sweeping caller y (some y) [] s' := by
  obtain ⟨more, s₁, heq, hinv, -⟩ :=
    delete_sweeping hd (Or.inr rfl) (hd.start_kept rfl hy) rfl (hm.mark hy)
  rw [List.append_nil] at hinv
  obtain ⟨s', hrun, hend⟩ := destroyAll_sweeping hd (Or.inr rfl) hinv
  refine ⟨s', ?_, hend⟩
  rw [deleteAll, heq]
  exact hrun

theorem destroy_sweeping
    (hd : s.toStore.Dropping (s.graph.without y) y ((none : Option Addr) = some y))
    (hm : s.Managed caller none none) (hy : y ∈ s.handles) :
    ∃ s', s.destroy y = .ok s' ∧ s.Sweeping caller y none [] s' := by
  have hstart := hd.start_ended (Option.some_ne_none y).symm hy
  exact destroyAll_sweeping hd (Or.inl rfl) ⟨hstart, rfl, hm⟩

/-! ## Moving between handles in one structure -/

/-- An acyclic heap in which every object is owned by a handle. -/
structure Valid (s : UniqueHeap) : Prop where
  wf : s.toStore.WellFormed
  managed : s.Managed ∅ none none
  acyclic : s.graph.Acyclic

/-- The object of the handle, and what is owned by that in turn. -/
def Owns (s : UniqueHeap) (h o : Addr) : Prop := s.graph.Owned h o

variable {dst src o : Addr}

theorem Valid.held (hs : s.Valid) (ho : o ∈ s.objects) : ∃ h ∈ s.handles, s.ptr h = some o := by
  rcases hs.managed.held o ho with hcaller | hdue | ⟨h, hh, -, hptr⟩
  · cases hcaller
  · cases hdue
  · exact ⟨h, hh, hptr⟩

theorem Valid.alive (hs : s.Valid) (hh : h ∈ s.handles) (hptr : s.ptr h = some o) :
    o ∈ s.objects :=
  (hs.managed.alive h hh (Option.some_ne_none h) o hptr).1

theorem Valid.exclusive (hs : s.Valid) : s.graph.Exclusive where
  target h h' := hs.managed.exclusive _ h.1 _ h'.1 (Option.some_ne_none _) (Option.some_ne_none _)
    _ h.2 h'.2
  member h h' := hs.wf.disjoint _ h.1 _ h'.1 _ h.2 h'.2

theorem Valid.reach (hs : s.Valid) : ∀ o ∈ s.objects, s.graph.Reach o :=
  Store.reach_all hs.acyclic (fun _ _ => Iff.rfl) fun _ ho => hs.held ho

theorem Valid.owns_alive (hs : s.Valid) (ho : s.Owns dst o) : o ∈ s.objects := by
  obtain ⟨t, ⟨hh, hptr⟩, hchain⟩ := ho
  induction hchain with
  | refl => exact hs.alive hh hptr
  | tail _ hpoints _ =>
      obtain ⟨h, -, hh, hptr⟩ := hpoints
      exact hs.alive hh hptr

theorem Valid.dropping (hs : s.Valid) {y : Addr} {kept : Prop}
    (hkept : kept ∨ ∀ o ∈ s.objects, y ∉ s.members o) :
    s.toStore.Dropping (s.graph.without y) y kept :=
  hs.wf.dropping hs.acyclic (fun _ _ => Iff.rfl) (fun _ _ h => h.1) hs.reach hkept

/-- All that the handle owned is gone, with the handles in it, and nothing else. -/
structure Emptied (s : UniqueHeap) (dst : Addr) (s' : UniqueHeap) : Prop where
  ptr : s'.ptr = s.ptr
  managed : s'.Managed ∅ (some dst) none
  dstAlive : dst ∈ s'.handles
  handles : ∀ h, h ∈ s'.handles ↔ h ∈ s.handles ∧ ∀ o, s.Owns dst o → h ∉ s.members o
  objects : ∀ o, o ∈ s'.objects ↔ o ∈ s.objects ∧ ¬ s.Owns dst o
  deleted : ∃ D, s'.deleted = s.deleted ++ D ∧ D.Nodup ∧ ∀ o, o ∈ D ↔ s.Owns dst o

/-- What is left after the destructors is what the handle did not own. -/
theorem Valid.sweeping_left (hs : s.Valid)
    (hd : s.toStore.Dropping (s.graph.without y) y (x = some y)) {s' : UniqueHeap}
    (hsweeping : s.Sweeping ∅ y x [] s') (hy : y ∈ s'.handles → x = some y) (ho : o ∈ s.objects) :
    o ∉ s'.objects ↔ s.Owns y o := by
  have hheld : ∀ o ∈ s'.objects, ∃ h ∈ s'.handles, (s.graph.without y).target h o := by
    intro o ho
    rcases hsweeping.managed.held o ho with hcaller | hdue | ⟨h, hh, hne, hptr⟩
    · cases hcaller
    · cases hdue
    · have hother : h ≠ y := by
        rintro rfl
        exact hne (hy hh).symm
      exact ⟨h, hh, hother, ((hsweeping.sweep.handles h).mp hh).1,
        (congrFun hsweeping.ptr h).symm.trans hptr⟩
  rw [hd.objects_iff hsweeping.sweep (hs.acyclic.without y) hheld ho,
    Ownership.reach_without_iff hs.exclusive (hs.reach o ho), not_not]
  rfl

theorem Valid.destroy (hs : s.Valid) (hh : h ∈ s.handles)
    (hroot : ∀ o ∈ s.objects, h ∉ s.members o) :
    ∃ s' D, s.destroy h = .ok s' ∧ h ∉ s'.handles ∧ s'.Managed ∅ none none ∧
      s'.deleted = s.deleted ++ D ∧ D.Nodup ∧ ∀ o, o ∈ D ↔ s.Owns h o := by
  have hkept : ¬ (none : Option Addr) = some h := (Option.some_ne_none h).symm
  have hd : s.toStore.Dropping (s.graph.without h) h ((none : Option Addr) = some h) :=
    hs.dropping (Or.inr hroot)
  obtain ⟨s', hrun, hsweeping⟩ := destroy_sweeping hd hs.managed hh
  have hgone : h ∉ s'.handles := hsweeping.sweep.ended hkept
  have hleft {o : Addr} (ho : o ∈ s.objects) :=
    hs.sweeping_left hd hsweeping (fun hin => (hgone hin).elim) ho
  obtain ⟨D, hdeleted, hnodup, hD⟩ := hsweeping.sweep.deleted
  refine ⟨s', D, hrun, hgone, hsweeping.managed, hdeleted, hnodup, fun o => (hD o).trans ?_⟩
  exact ⟨fun h => (hleft h.1).mp h.2,
    fun h => ⟨hs.owns_alive h, (hleft (hs.owns_alive h)).mpr h⟩⟩

theorem Valid.deleteAll (hs : s.Valid) (hdst : dst ∈ s.handles) :
    ∃ s', s.deleteAll (s.ptr dst) = .ok s' ∧ s.Emptied dst s' := by
  have hd := hs.dropping (y := dst) (Or.inl (rfl : some dst = some dst))
  obtain ⟨s', hrun, hsweeping⟩ := deleteAll_sweeping hd hs.managed hdst
  have hleft {o : Addr} (ho : o ∈ s.objects) := hs.sweeping_left hd hsweeping (fun _ => rfl) ho
  have hsweep := hsweeping.sweep
  have hgone (h : Addr) : s.toStore.Gone s'.toStore dst (some dst = some dst) h ↔
      ∃ o, s.Owns dst o ∧ h ∈ s.members o := by
    constructor
    · rintro (⟨-, hnot⟩ | ⟨o, ho, hno, hmember⟩)
      · exact (hnot rfl).elim
      · exact ⟨o, (hleft ho).mp hno, hmember⟩
    · rintro ⟨o, howns, hmember⟩
      have ho := hs.owns_alive howns
      exact Or.inr ⟨o, ho, (hleft ho).mpr howns, hmember⟩
  refine ⟨s', hrun, hsweeping.ptr, hsweeping.managed, ?_, fun h => ?_, fun o => ?_, ?_⟩
  · exact hd.kept_alive hsweep rfl hdst
  · rw [hsweep.handles, hgone, or_iff_right List.not_mem_nil, not_exists]
    simp only [not_and]
  · refine ⟨fun ho => ⟨hsweep.objects ho, fun howns => ?_⟩, fun ⟨ho, hnot⟩ => ?_⟩
    · exact (hleft (hsweep.objects ho)).mpr howns ho
    · by_contra hno
      exact hnot ((hleft ho).mp hno)
  · obtain ⟨D, hdeleted, hnodup, hD⟩ := hsweep.deleted
    refine ⟨D, hdeleted, hnodup, fun o => (hD o).trans ⟨fun h => (hleft h.1).mp h.2, fun h => ?_⟩⟩
    exact ⟨hs.owns_alive h, (hleft (hs.owns_alive h)).mpr h⟩

/-- `src` is a member of something that `dst` owns. -/
def Within (s : UniqueHeap) (dst src : Addr) : Prop := ∃ o, s.Owns dst o ∧ src ∈ s.members o

/-- A move assignment leaves `dst` with the object of `src`, and `src` with none. It deletes
what `dst` owned otherwise than through `src`, each object once and none that a handle is
left with. -/
def Moved (s : UniqueHeap) (dst src : Addr) : Prop :=
  ∃ s' D, s.moveAssign dst src = .ok s' ∧ s'.ptr dst = s.ptr src ∧
    (dst ≠ src → s'.ptr src = none) ∧
    (∀ o, s.ptr src = some o → o ∈ s'.objects ∧ o ∉ D ∧
      ∀ h ∈ s'.handles, s'.ptr h = some o → h = dst) ∧
    s'.deleted = s.deleted ++ D ∧ D.Nodup ∧ (∀ o ∈ D, ∀ h ∈ s'.handles, s'.ptr h ≠ some o) ∧
    ∀ o, o ∈ D ↔ dst ≠ src ∧ s.Owns dst o ∧ (s.Within dst src → ¬ s.Owns src o)

theorem Valid.moved_self (hs : s.Valid) (hdst : dst ∈ s.handles) : s.Moved dst dst := by
  refine ⟨s, [], if_pos rfl, rfl, fun hne => absurd rfl hne, fun o ho => ?_,
    (List.append_nil _).symm, List.nodup_nil, fun o ho => (nomatch ho), fun o => ?_⟩
  · refine ⟨hs.alive hdst ho, List.not_mem_nil, fun h hh hptr => ?_⟩
    exact hs.exclusive.target ⟨hh, hptr⟩ ⟨hdst, ho⟩
  · exact iff_of_false List.not_mem_nil fun hdeleted => hdeleted.1 rfl

/-- The `ptr`s behind a move. -/
def movedPtr (ptr : Addr → Option Addr) (dst src : Addr) : Addr → Option Addr :=
  Function.update (Function.update ptr dst (ptr src)) src none

theorem movedPtr_src (ptr : Addr → Option Addr) : movedPtr ptr dst src src = none := by
  rw [movedPtr, Function.update_self]

theorem movedPtr_dst (ptr : Addr → Option Addr) (hne : dst ≠ src) :
    movedPtr ptr dst src dst = ptr src := by
  rw [movedPtr, Function.update_of_ne hne, Function.update_self]

theorem movedPtr_eq_some {ptr : Addr → Option Addr} (heq : movedPtr ptr dst src h = some o) :
    h ≠ src ∧ (h = dst ∧ ptr src = some o ∨ h ≠ dst ∧ ptr h = some o) := by
  by_cases hsrc : h = src
  · rw [hsrc, movedPtr, Function.update_self] at heq
    cases heq
  · rw [movedPtr, Function.update_of_ne hsrc] at heq
    by_cases hdst : h = dst
    · rw [hdst, Function.update_self] at heq
      exact ⟨hsrc, Or.inl ⟨hdst, heq⟩⟩
    · rw [Function.update_of_ne hdst] at heq
      exact ⟨hsrc, Or.inr ⟨hdst, heq⟩⟩

theorem moveAssign_eq {s₁ : UniqueHeap} (hne : dst ≠ src) (hdst : dst ∈ s.handles)
    (hdelete : s.deleteAll (s.ptr dst) = .ok s₁) (hdst₁ : dst ∈ s₁.handles)
    (hsrc₁ : src ∈ s₁.handles) :
    s.moveAssign dst src = .ok { s₁ with ptr := movedPtr s₁.ptr dst src } := by
  have hread : s.read dst = .ok (s.ptr dst) := if_pos hdst
  have hread₁ : s₁.read src = .ok (s₁.ptr src) := if_pos hsrc₁
  have hwrite : s₁.write dst (s₁.ptr src)
      = .ok { s₁ with ptr := Function.update s₁.ptr dst (s₁.ptr src) } := if_pos hdst₁
  rw [moveAssign, if_neg hne, hread]
  show (s.deleteAll (s.ptr dst) >>= fun s => _) = _
  rw [hdelete]
  show (s₁.read src >>= fun ptr => _) = _
  rw [hread₁]
  show (s₁.write dst (s₁.ptr src) >>= fun s => _) = _
  rw [hwrite]
  exact if_pos hsrc₁

theorem Valid.moved_apart (hs : s.Valid) (hdst : dst ∈ s.handles) (hsrc : src ∈ s.handles)
    (hne : dst ≠ src) (hapart : ∀ o, s.Owns dst o → src ∉ s.members o) : s.Moved dst src := by
  obtain ⟨s₁, hdelete, h₁⟩ := hs.deleteAll hdst
  have hsrc₁ := (h₁.handles src).mpr ⟨hsrc, hapart⟩
  obtain ⟨D, hdeleted, hnodup, hD⟩ := h₁.deleted
  have hkeep (o : Addr) (ho : s₁.ptr src = some o) : o ∈ s₁.objects :=
    (h₁.managed.alive src hsrc₁ (fun h => hne (Option.some.inj h).symm) o ho).1
  refine ⟨_, D, moveAssign_eq hne hdst hdelete h₁.dstAlive hsrc₁, ?_, fun _ => movedPtr_src _,
    fun o ho => ?_, hdeleted, hnodup, fun o ho h hh heq => ?_, fun o => ?_⟩
  · exact (movedPtr_dst _ hne).trans (congrFun h₁.ptr src)
  · have ho₁ := hkeep o ((congrFun h₁.ptr src).trans ho)
    refine ⟨ho₁, fun hin => ((h₁.objects o).mp ho₁).2 ((hD o).mp hin), fun h hh heq => ?_⟩
    obtain ⟨hn, ⟨hd, -⟩ | ⟨-, hh'⟩⟩ := movedPtr_eq_some heq
    · exact hd
    · rw [h₁.ptr] at hh'
      exact (hn (hs.exclusive.target ⟨((h₁.handles h).mp hh).1, hh'⟩ ⟨hsrc, ho⟩)).elim
  · refine ((h₁.objects o).mp ?_).2 ((hD o).mp ho)
    obtain ⟨-, ⟨-, hsrc'⟩ | ⟨hd, hh'⟩⟩ := movedPtr_eq_some heq
    · exact hkeep o hsrc'
    · exact (h₁.managed.alive h hh (fun h => hd (Option.some.inj h)) o hh').1
  · rw [hD]
    refine ⟨fun howns => ⟨hne, howns, ?_⟩, fun hdeleted => hdeleted.2.1⟩
    rintro ⟨o', howns', hmember⟩
    exact absurd hmember (hapart o' howns')

/-- `src` is in what `dst` owns, so it is gone when it is read. -/
theorem Valid.moveAssign_within (hs : s.Valid) (hdst : dst ∈ s.handles) (hne : dst ≠ src)
    (howns : s.Owns dst o) (hmember : src ∈ s.members o) :
    s.moveAssign dst src = .error .destroyed := by
  obtain ⟨s₁, hdelete, h₁⟩ := hs.deleteAll hdst
  have hgone : src ∉ s₁.handles := fun h => ((h₁.handles src).mp h).2 o howns hmember
  have hread : s.read dst = .ok (s.ptr dst) := if_pos hdst
  rw [moveAssign, if_neg hne, hread]
  show (s.deleteAll (s.ptr dst) >>= fun s => _) = _
  rw [hdelete]
  have hfault : s₁.read src = .error .destroyed := if_neg hgone
  show (s₁.read src >>= fun ptr => _) = _
  rw [hfault]
  rfl

end UniqueHeap

open UniqueHeap

/-- In an acyclic heap of owned objects: a move assignment does what it should exactly if
it is to the handle itself, or `src` is not a member of something that `dst` owns. -/
theorem moved_iff {s : UniqueHeap} {dst src : Addr} (hs : s.Valid) (hdst : dst ∈ s.handles)
    (hsrc : src ∈ s.handles) :
    s.Moved dst src ↔ dst = src ∨ ∀ o, s.Owns dst o → src ∉ s.members o := by
  constructor
  · rintro ⟨s', D, hrun, -⟩
    refine or_iff_not_imp_left.mpr fun hne o howns hmember => ?_
    rw [hs.moveAssign_within hdst hne howns hmember] at hrun
    cases hrun
  · rintro (rfl | hapart)
    · exact hs.moved_self hdst
    · by_cases hne : dst = src
      · exact hne ▸ hs.moved_self hdst
      · exact hs.moved_apart hdst hsrc hne hapart

/-- `head` at 0, and a list of two nodes, the objects 10 and 11, with the handles 1 and 2
for `next`; 3 holds nothing. -/
def twoNodes : UniqueHeap where
  handles := {0, 1, 2, 3}
  objects := {10, 11}
  members o := if o = 10 then [1] else if o = 11 then [2] else []
  deleted := []
  ptr h := if h = 0 then some 10 else if h = 1 then some 11 else none

theorem twoNodes_valid : twoNodes.Valid where
  wf := ⟨by decide, by decide, by decide⟩
  managed := ⟨by decide, by decide, by decide, by decide, by decide⟩
  acyclic := by
    refine Ownership.acyclic_of_rank id ?_
    rintro o o' ⟨h, ⟨ho, hmember⟩, hh, hptr⟩
    rcases Finset.mem_insert.mp ho with rfl | ho
    · obtain rfl := List.mem_singleton.mp hmember
      obtain rfl := Option.some.inj hptr
      decide
    · obtain rfl := Finset.mem_singleton.mp ho
      obtain rfl := List.mem_singleton.mp hmember
      cases hptr

theorem moved_iff_twoNodes :
    twoNodes.Moved 3 1 ↔ (3 : Addr) = 1 ∨ ∀ o, twoNodes.Owns 3 o → 1 ∉ twoNodes.members o :=
  moved_iff twoNodes_valid (by decide) (by decide)

/-- `head = std::move(head->next)`: the node of `next` is deleted with the first one. -/
theorem head_next_destroyed : ¬ twoNodes.Moved 0 1 := by
  rintro ⟨s', D, hrun, -⟩
  cases hrun

end CppDemos
