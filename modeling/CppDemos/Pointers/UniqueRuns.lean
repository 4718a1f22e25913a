import CppDemos.Pointers.UniquePtr

/-!
# Runs on `UniquePtr`s

Any number of handles on objects that contain none, and a caller who hands raw pointers
in and gets them back from `release`. Every object has one owner throughout
(`Managed`): what one step takes from an owner it gives to another or deletes.
-/

namespace CppDemos

namespace UniqueHeap

variable {s : UniqueHeap} {caller : Finset Addr} {x due p : Option Addr} {h dst src o : Addr}

/-! ## Passing objects on -/

theorem Managed.add (hm : s.Managed caller none none) (hh : h ∉ s.handles) :
    UniqueHeap.Managed { s with handles := insert h s.handles } caller (some h) none := by
  have hold {h' : Addr} (hin : h' ∈ insert h s.handles) (hne : some h' ≠ some h) :
      h' ∈ s.handles :=
    (Finset.mem_insert.mp hin).resolve_left fun heq => hne (congrArg some heq)
  refine ⟨fun h₁ hh₁ h₂ hh₂ hne₁ hne₂ => ?_, fun h₁ hh₁ hne₁ => ?_, hm.dueAlive, hm.callers,
    fun o ho => ?_⟩
  · exact hm.exclusive h₁ (hold hh₁ hne₁) h₂ (hold hh₂ hne₂) (Option.some_ne_none _)
      (Option.some_ne_none _)
  · exact hm.alive h₁ (hold hh₁ hne₁) (Option.some_ne_none _)
  · refine (hm.held o ho).imp_right (Or.imp_right ?_)
    rintro ⟨h₁, hh₁, -, hptr⟩
    exact ⟨h₁, Finset.mem_insert_of_mem hh₁, fun heq => hh (Option.some.inj heq ▸ hh₁), hptr⟩

theorem Managed.fill (hm : s.Managed caller (some h) none) (hh : h ∈ s.handles)
    (hp : ∀ o, p = some o → o ∈ caller) :
    UniqueHeap.Managed { s with ptr := Function.update s.ptr h p } (caller \ p.toFinset) none
      none := by
  have hself : Function.update s.ptr h p h = p := Function.update_self ..
  have hother {h' : Addr} (hne : h' ≠ h) : Function.update s.ptr h p h' = s.ptr h' :=
    Function.update_of_ne hne ..
  have hmarked {h' : Addr} (hne : h' ≠ h) : some h' ≠ some h := fun heq =>
    hne (Option.some.inj heq)
  have hcases {h' o : Addr} (hptr : Function.update s.ptr h p h' = some o) :
      h' = h ∧ p = some o ∨ h' ≠ h ∧ s.ptr h' = some o := by
    by_cases hne : h' = h
    · rw [hne, hself] at hptr
      exact Or.inl ⟨hne, hptr⟩
    · rw [hother hne] at hptr
      exact Or.inr ⟨hne, hptr⟩
  refine ⟨fun h₁ hh₁ h₂ hh₂ _ _ o hptr₁ hptr₂ => ?_, fun h₁ hh₁ _ o hptr₁ => ?_,
    fun _ ho => (Option.some_ne_none _ ho.symm).elim,
    fun o ho => hm.callers o (Finset.mem_sdiff.mp ho).1, fun o ho => ?_⟩
  · rcases hcases hptr₁ with ⟨heq₁, hp₁⟩ | ⟨hne₁, hold₁⟩ <;>
      rcases hcases hptr₂ with ⟨heq₂, hp₂⟩ | ⟨hne₂, hold₂⟩
    · exact heq₁.trans heq₂.symm
    · exact ((hm.alive h₂ hh₂ (hmarked hne₂) o hold₂).2.1 (hp o hp₁)).elim
    · exact ((hm.alive h₁ hh₁ (hmarked hne₁) o hold₁).2.1 (hp o hp₂)).elim
    · exact hm.exclusive h₁ hh₁ h₂ hh₂ (hmarked hne₁) (hmarked hne₂) o hold₁ hold₂
  · rcases hcases hptr₁ with ⟨-, hp₁⟩ | ⟨hne₁, hptr₁⟩
    · refine ⟨hm.callers o (hp o hp₁), fun hin => ?_, fun hdue => by cases hdue⟩
      exact (Finset.mem_sdiff.mp hin).2 (Option.mem_toFinset.mpr hp₁)
    · obtain ⟨hobj, hcaller, -⟩ := hm.alive h₁ hh₁ (hmarked hne₁) o hptr₁
      exact ⟨hobj, fun hin => hcaller (Finset.mem_sdiff.mp hin).1, fun hdue => by cases hdue⟩
  · by_cases hin : p = some o
    · exact Or.inr (Or.inr ⟨h, hh, Option.some_ne_none h, hself.trans hin⟩)
    · rcases hm.held o ho with hcaller | hdue | ⟨h₁, hh₁, hne₁, hptr₁⟩
      · exact Or.inl (Finset.mem_sdiff.mpr ⟨hcaller, fun h => hin (Option.mem_toFinset.mp h)⟩)
      · cases hdue
      · refine Or.inr (Or.inr ⟨h₁, hh₁, Option.some_ne_none _, ?_⟩)
        exact (hother fun heq => hne₁ (congrArg some heq)).trans hptr₁

theorem Managed.take (hm : s.Managed caller none none) (hh : h ∈ s.handles) :
    s.Managed (caller ∪ (s.ptr h).toFinset) (some h) none := by
  refine ⟨fun h₁ hh₁ h₂ hh₂ _ _ => ?_, fun h₁ hh₁ hne o hptr => ?_,
    fun _ ho => (Option.some_ne_none _ ho.symm).elim, fun o ho => ?_, fun o ho => ?_⟩
  · exact hm.exclusive h₁ hh₁ h₂ hh₂ (Option.some_ne_none _) (Option.some_ne_none _)
  · obtain ⟨hobj, hcaller, -⟩ := hm.alive h₁ hh₁ (Option.some_ne_none _) o hptr
    refine ⟨hobj, fun hin => ?_, fun hdue => by cases hdue⟩
    refine (Finset.mem_union.mp hin).elim hcaller fun hin => hne (congrArg some ?_)
    exact hm.exclusive h₁ hh₁ h hh (Option.some_ne_none _) (Option.some_ne_none _) o hptr
      (Option.mem_toFinset.mp hin)
  · rcases Finset.mem_union.mp ho with hcaller | hin
    · exact hm.callers o hcaller
    · exact (hm.alive h hh (Option.some_ne_none _) o (Option.mem_toFinset.mp hin)).1
  · rcases hm.held o ho with hcaller | hdue | ⟨h₁, hh₁, -, hptr⟩
    · exact Or.inl (Finset.mem_union_left _ hcaller)
    · cases hdue
    · by_cases heq : h₁ = h
      · exact Or.inl (Finset.mem_union_right _ (Option.mem_toFinset.mpr (heq ▸ hptr)))
      · exact Or.inr (Or.inr ⟨h₁, hh₁, fun h => heq (Option.some.inj h), hptr⟩)

theorem Managed.moved (hm : s.Managed caller (some dst) none) (hdst : dst ∈ s.handles)
    (hsrc : src ∈ s.handles) (hne : dst ≠ src) :
    UniqueHeap.Managed { s with ptr := movedPtr s.ptr dst src } caller none none := by
  have hmarked {h : Addr} (hn : h ≠ dst) : some h ≠ some dst := fun heq =>
    hn (Option.some.inj heq)
  refine ⟨fun h₁ hh₁ h₂ hh₂ _ _ o hptr₁ hptr₂ => ?_, fun h₁ hh₁ _ o hptr₁ => ?_,
    fun _ ho => (Option.some_ne_none _ ho.symm).elim, hm.callers, fun o ho => ?_⟩
  · obtain ⟨hn₁, ⟨rfl, hp₁⟩ | ⟨hd₁, hp₁⟩⟩ := movedPtr_eq_some hptr₁ <;>
      obtain ⟨hn₂, ⟨rfl, hp₂⟩ | ⟨hd₂, hp₂⟩⟩ := movedPtr_eq_some hptr₂
    · rfl
    · exact (hn₂ (hm.exclusive h₂ hh₂ src hsrc (hmarked hd₂) (hmarked hne.symm) o hp₂ hp₁)).elim
    · exact (hn₁ (hm.exclusive h₁ hh₁ src hsrc (hmarked hd₁) (hmarked hne.symm) o hp₁ hp₂)).elim
    · exact hm.exclusive h₁ hh₁ h₂ hh₂ (hmarked hd₁) (hmarked hd₂) o hp₁ hp₂
  · obtain ⟨-, ⟨-, hp₁⟩ | ⟨hd₁, hp₁⟩⟩ := movedPtr_eq_some hptr₁
    · exact hm.alive src hsrc (hmarked hne.symm) o hp₁
    · exact hm.alive h₁ hh₁ (hmarked hd₁) o hp₁
  · refine (hm.held o ho).imp_right (Or.imp_right ?_)
    rintro ⟨h, hh, hd, hptr⟩
    by_cases heq : h = src
    · exact ⟨dst, hdst, Option.some_ne_none _, (movedPtr_dst s.ptr hne).trans (heq ▸ hptr)⟩
    · refine ⟨h, hh, Option.some_ne_none _, ?_⟩
      have hn : h ≠ dst := fun h => hd (congrArg some h)
      show movedPtr s.ptr dst src h = some o
      rw [movedPtr, Function.update_of_ne heq, Function.update_of_ne hn]
      exact hptr

/-! ## The operations -/

/-- An object that has been allocated is there, or was deleted. -/
def Known (s : UniqueHeap) (o : Addr) : Prop := o ∈ s.objects ∨ o ∈ s.deleted

/-- Every object has one owner, or was deleted once; no object contains a handle. -/
structure Sound (s : UniqueHeap) (caller : Finset Addr) (x due : Option Addr) : Prop where
  managed : s.Managed caller x due
  flat : ∀ o, s.members o = []
  nodup : s.deleted.Nodup
  apart : ∀ o ∈ s.deleted, o ∉ s.objects

theorem Sound.owners {s' : UniqueHeap} {caller' : Finset Addr} {x' due' : Option Addr}
    (hs : s.Sound caller x due) (hm : s'.Managed caller' x' due')
    (hmembers : s'.members = s.members) (hobjects : s'.objects = s.objects)
    (hdeleted : s'.deleted = s.deleted) :
    s'.Sound caller' x' due' ∧ ∀ o, s'.Known o ↔ s.Known o := by
  refine ⟨⟨hm, ?_, ?_, ?_⟩, fun o => ?_⟩
  · rw [hmembers]
    exact hs.flat
  · rw [hdeleted]
    exact hs.nodup
  · rw [hdeleted, hobjects]
    exact hs.apart
  · rw [Known, Known, hobjects, hdeleted]

theorem Sound.delete (hs : s.Sound caller x due) :
    ∃ s', s.delete due = .ok ([], s') ∧ s'.Sound caller x none ∧ s'.handles = s.handles ∧
      s'.ptr = s.ptr ∧ ∀ o, s'.Known o ↔ s.Known o := by
  cases due with
  | none => exact ⟨s, rfl, hs, rfl, rfl, fun _ => Iff.rfl⟩
  | some o =>
      have ho := (hs.managed.dueAlive o rfl).1
      have hgone (o' : Addr) : o' ∈ s.objects.erase o ↔ o' ≠ o ∧ o' ∈ s.objects :=
        Finset.mem_erase
      have hlog (o' : Addr) : o' ∈ s.deleted ++ [o] ↔ o' ∈ s.deleted ∨ o' = o := by
        rw [List.mem_append, List.mem_singleton]
      refine ⟨{ s with toStore := s.toStore.delete o }, ?_, ⟨hs.managed.delete, hs.flat, ?_, ?_⟩,
        rfl, rfl, fun o' => ?_⟩
      · exact (if_pos ho).trans (by rw [hs.flat])
      · refine hs.nodup.append (List.nodup_singleton o) fun o' hin hlast => ?_
        exact hs.apart o' hin (List.mem_singleton.mp hlast ▸ ho)
      · intro o' hin
        refine fun hobj => ((hlog o').mp hin).elim (fun h => ?_) ((hgone o').mp hobj).1
        exact hs.apart o' h ((hgone o').mp hobj).2
      · show o' ∈ s.objects.erase o ∨ o' ∈ s.deleted ++ [o] ↔ o' ∈ s.objects ∨ o' ∈ s.deleted
        rw [hgone, hlog]
        constructor
        · rintro (⟨-, hobj⟩ | hin | rfl)
          · exact Or.inl hobj
          · exact Or.inr hin
          · exact Or.inl ho
        · rintro (hobj | hin)
          · by_cases heq : o' = o
            · exact Or.inr (Or.inr heq)
            · exact Or.inl ⟨heq, hobj⟩
          · exact Or.inr (Or.inl hin)

theorem destroyAll_nil (s : UniqueHeap) : s.destroyAll [] = .ok s := by
  rw [destroyAll]
  cases s.handles.card <;> rfl

theorem Sound.deleteAll (hs : s.Sound caller x due) :
    ∃ s', s.deleteAll due = .ok s' ∧ s'.Sound caller x none ∧ s'.handles = s.handles ∧
      s'.ptr = s.ptr ∧ ∀ o, s'.Known o ↔ s.Known o := by
  obtain ⟨s', heq, hs'⟩ := hs.delete
  refine ⟨s', ?_, hs'⟩
  rw [UniqueHeap.deleteAll, heq]
  exact destroyAll_nil s'

theorem Sound.empty (hs : s.Sound caller none none) (hh : h ∈ s.handles) :
    ∃ s', s.deleteAll (s.ptr h) = .ok s' ∧ s'.Sound caller (some h) none ∧
      s'.handles = s.handles ∧ s'.ptr = s.ptr ∧ ∀ o, s'.Known o ↔ s.Known o :=
  (hs.owners (hs.managed.mark hh) rfl rfl rfl).1.deleteAll

theorem Sound.construct (hs : s.Sound caller none none) (hh : h ∉ s.handles)
    (hp : ∀ o, p = some o → o ∈ caller) :
    (s.construct h p).Sound (caller \ p.toFinset) none none ∧
      ∀ o, (s.construct h p).Known o ↔ s.Known o :=
  hs.owners ((hs.managed.add hh).fill (Finset.mem_insert_self ..) hp) rfl rfl rfl

theorem Sound.moveConstruct (hs : s.Sound caller none none) (hdst : dst ∉ s.handles)
    (hsrc : src ∈ s.handles) :
    ∃ s', s.moveConstruct dst src = .ok s' ∧ s'.Sound caller none none ∧
      ∀ o, s'.Known o ↔ s.Known o := by
  have hne : dst ≠ src := fun heq => hdst (heq ▸ hsrc)
  have hread : s.read src = .ok (s.ptr src) := if_pos hsrc
  refine ⟨{ s with handles := insert dst s.handles, ptr := movedPtr s.ptr dst src }, ?_, ?_⟩
  · rw [UniqueHeap.moveConstruct, hread]
    exact if_pos (Finset.mem_insert_of_mem hsrc)
  · exact hs.owners ((hs.managed.add hdst).moved (Finset.mem_insert_self ..)
      (Finset.mem_insert_of_mem hsrc) hne) rfl rfl rfl

theorem Sound.moveAssign (hs : s.Sound caller none none) (hdst : dst ∈ s.handles)
    (hsrc : src ∈ s.handles) :
    ∃ s', s.moveAssign dst src = .ok s' ∧ s'.Sound caller none none ∧
      ∀ o, s'.Known o ↔ s.Known o := by
  by_cases hne : dst = src
  · exact ⟨s, if_pos hne, hs, fun _ => Iff.rfl⟩
  · obtain ⟨s₁, hdelete, hs₁, hhandles, -, hknown⟩ := hs.empty hdst
    rw [← hhandles] at hdst hsrc
    obtain ⟨hsound, hsame⟩ := hs₁.owners (hs₁.managed.moved hdst hsrc hne) rfl rfl rfl
    exact ⟨_, moveAssign_eq hne (hhandles ▸ hdst) hdelete hdst hsrc, hsound,
      fun o => (hsame o).trans (hknown o)⟩

theorem Sound.release (hs : s.Sound caller none none) (hh : h ∈ s.handles) :
    ∃ s', s.release h = .ok (s.ptr h, s') ∧ s'.Sound (caller ∪ (s.ptr h).toFinset) none none ∧
      ∀ o, s'.Known o ↔ s.Known o := by
  have hread : s.read h = .ok (s.ptr h) := if_pos hh
  have hwrite : s.write h none = .ok { s with ptr := Function.update s.ptr h none } := if_pos hh
  have hfill := (hs.managed.take hh).fill hh (p := none) fun o ho => by cases ho
  rw [Option.toFinset_none, Finset.sdiff_empty] at hfill
  refine ⟨_, ?_, hs.owners hfill rfl rfl rfl⟩
  rw [UniqueHeap.release, hread]
  show (s.write h none >>= fun s' => _) = _
  rw [hwrite]
  rfl

theorem Sound.reset (hs : s.Sound caller none none) (hh : h ∈ s.handles)
    (hp : ∀ o, p = some o → o ∈ caller ∨ s.ptr h = some o) :
    ∃ s', s.reset h p = .ok s' ∧ s'.Sound (caller \ p.toFinset) none none ∧
      ∀ o, s'.Known o ↔ s.Known o := by
  have hread : s.read h = .ok (s.ptr h) := if_pos hh
  rw [UniqueHeap.reset, hread]
  by_cases heq : s.ptr h = p
  · refine ⟨s, if_pos heq, ?_, fun _ => Iff.rfl⟩
    have hown : caller \ p.toFinset = caller := by
      refine Finset.sdiff_eq_self_of_disjoint (Finset.disjoint_right.mpr fun o ho => ?_)
      have hptr := heq.trans (Option.mem_toFinset.mp ho)
      exact (hs.managed.alive h hh (Option.some_ne_none _) o hptr).2.1
    rw [hown]
    exact hs
  · obtain ⟨s₁, hdelete, hs₁, hhandles, hptr, hknown⟩ := hs.empty hh
    have hh₁ : h ∈ s₁.handles := hhandles ▸ hh
    have hmine (o : Addr) (ho : p = some o) : o ∈ caller :=
      (hp o ho).resolve_right fun h => heq (h.trans ho.symm)
    obtain ⟨hsound, hsame⟩ := hs₁.owners (hs₁.managed.fill hh₁ hmine) rfl rfl rfl
    refine ⟨_, ?_, hsound, fun o => (hsame o).trans (hknown o)⟩
    show (if s.ptr h = p then _ else s.deleteAll (s.ptr h) >>= fun s' => _) = _
    rw [if_neg heq, hdelete]
    exact if_pos hh₁

theorem Sound.destroy (hs : s.Sound caller none none) (hh : h ∈ s.handles) :
    ∃ s', s.destroy h = .ok s' ∧ s'.Sound caller none none ∧ ∀ o, s'.Known o ↔ s.Known o := by
  have hread : s.read h = .ok (s.ptr h) := if_pos hh
  obtain ⟨hmarked, hsame⟩ := hs.owners (hs.managed.endHandle hh (Option.some_ne_none _)) rfl rfl rfl
  obtain ⟨s', hdelete, hs', -, -, hknown⟩ := hmarked.delete
  refine ⟨s', ?_, hs', fun o => (hknown o).trans (hsame o)⟩
  have hdtor : dtor h s = .ok ([], s') := by
    rw [dtor, hread]
    exact hdelete
  obtain ⟨n, hn⟩ := Nat.exists_eq_add_one_of_ne_zero (Finset.card_ne_zero_of_mem hh)
  rw [UniqueHeap.destroy, destroyAll, hn, Ownership.teardown, hdtor]
  cases n <;> rfl

end UniqueHeap

/-! ## Runs -/

/-- The handles and the objects, and the pointers that are the caller's. -/
structure UniqueRun where
  heap : UniqueHeap
  caller : Finset Addr

/-- One operation; `allocate` is a `new` of the caller. -/
inductive UniqueOp where
  | allocate (o : Addr)
  | construct (h : Addr) (p : Option Addr)
  | moveConstruct (h other : Addr)
  | moveAssign (dst src : Addr)
  | release (h : Addr)
  | reset (h : Addr) (p : Option Addr)
  | destroy (h : Addr)

namespace UniqueRun

/-- Nothing is there yet; no object will contain a handle. -/
def initial : UniqueRun where
  heap :=
    { handles := ∅, objects := ∅, members := fun _ => [], deleted := [], ptr := fun _ => none }
  caller := ∅

/-- What the caller has to see to: a new handle is where none is, the others are there,
and a raw pointer is the caller's own, or for `reset` that of the handle. -/
def Allowed (r : UniqueRun) : UniqueOp → Prop
  | .allocate o => ¬ r.heap.Known o
  | .construct h p => h ∉ r.heap.handles ∧ ∀ o, p = some o → o ∈ r.caller
  | .moveConstruct h other => h ∉ r.heap.handles ∧ other ∈ r.heap.handles
  | .moveAssign dst src => dst ∈ r.heap.handles ∧ src ∈ r.heap.handles
  | .release h => h ∈ r.heap.handles
  | .reset h p =>
      h ∈ r.heap.handles ∧ ∀ o, p = some o → o ∈ r.caller ∨ r.heap.ptr h = some o
  | .destroy h => h ∈ r.heap.handles

/-- The operation, and whose the pointers are then. -/
def step (r : UniqueRun) : UniqueOp → Except Fault UniqueRun
  | .allocate o =>
      .ok ⟨{ r.heap with objects := insert o r.heap.objects }, insert o r.caller⟩
  | .construct h p => .ok ⟨r.heap.construct h p, r.caller \ p.toFinset⟩
  | .moveConstruct h other => do
      let heap ← r.heap.moveConstruct h other
      .ok ⟨heap, r.caller⟩
  | .moveAssign dst src => do
      let heap ← r.heap.moveAssign dst src
      .ok ⟨heap, r.caller⟩
  | .release h => do
      let (temp, heap) ← r.heap.release h
      .ok ⟨heap, r.caller ∪ temp.toFinset⟩
  | .reset h p => do
      let heap ← r.heap.reset h p
      .ok ⟨heap, r.caller \ p.toFinset⟩
  | .destroy h => do
      let heap ← r.heap.destroy h
      .ok ⟨heap, r.caller⟩

def run (r : UniqueRun) : List UniqueOp → Except Fault UniqueRun
  | [] => .ok r
  | op :: ops => do
      let r ← r.step op
      r.run ops

/-- Every operation is allowed when its turn comes. -/
def AllowedAll (r : UniqueRun) : List UniqueOp → Prop
  | [] => True
  | op :: ops => r.Allowed op ∧ ∀ r', r.step op = .ok r' → r'.AllowedAll ops

def Sound (r : UniqueRun) : Prop := r.heap.Sound r.caller none none

variable {r : UniqueRun}

theorem initial_sound : initial.Sound where
  managed := ⟨by decide, by decide, by decide, by decide, by decide⟩
  flat _ := rfl
  nodup := List.nodup_nil
  apart := by decide

theorem Sound.allocate {o : Addr} (hr : r.Sound) (ho : ¬ r.heap.Known o) :
    UniqueHeap.Sound { r.heap with objects := insert o r.heap.objects } (insert o r.caller) none
      none where
  managed := by
    obtain ⟨hobj, -⟩ := not_or.mp ho
    refine ⟨hr.managed.exclusive, fun h hh hx o' hptr => ?_,
      fun _ hdue => (Option.some_ne_none _ hdue.symm).elim, fun o' ho' => ?_, fun o' ho' => ?_⟩
    · obtain ⟨hobj', hcaller, hdue⟩ := hr.managed.alive h hh hx o' hptr
      refine ⟨Finset.mem_insert_of_mem hobj', fun hin => ?_, hdue⟩
      exact (Finset.mem_insert.mp hin).elim (fun heq => hobj (heq ▸ hobj')) hcaller
    · exact Finset.insert_subset_insert o hr.managed.callers ho'
    · rcases Finset.mem_insert.mp ho' with rfl | ho'
      · exact Or.inl (Finset.mem_insert_self ..)
      · exact (hr.managed.held o' ho').imp_left Finset.mem_insert_of_mem
  flat := hr.flat
  nodup := hr.nodup
  apart o' ho' hobj :=
    (Finset.mem_insert.mp hobj).elim (fun heq => ho (Or.inr (heq ▸ ho'))) (hr.apart o' ho')

theorem Sound.step (hr : r.Sound) {op : UniqueOp} (hop : r.Allowed op) :
    ∃ r', r.step op = .ok r' ∧ r'.Sound ∧
      ∀ o, r'.heap.Known o ↔ r.heap.Known o ∨ op = .allocate o := by
  have hsame {heap : UniqueHeap} (h : ∀ o, heap.Known o ↔ r.heap.Known o)
      (hno : ∀ o, op ≠ .allocate o) (o : Addr) :
      heap.Known o ↔ r.heap.Known o ∨ op = .allocate o := by
    rw [h, or_iff_left (hno o)]
  cases op with
  | allocate o =>
      refine ⟨_, rfl, hr.allocate hop, fun o' => ?_⟩
      show o' ∈ insert o r.heap.objects ∨ _ ↔ (o' ∈ r.heap.objects ∨ _) ∨ _
      rw [Finset.mem_insert, UniqueOp.allocate.injEq, @eq_comm _ o o']
      exact ⟨fun h => h.elim (fun h => h.elim Or.inr fun h => Or.inl (Or.inl h))
        fun h => Or.inl (Or.inr h), fun h => h.elim (fun h => h.imp_left Or.inr)
        fun h => Or.inl (Or.inl h)⟩
  | construct h p =>
      obtain ⟨hs, hknown⟩ := UniqueHeap.Sound.construct hr hop.1 hop.2
      exact ⟨_, rfl, hs, hsame hknown fun o heq => by cases heq⟩
  | moveConstruct h other =>
      obtain ⟨s', heq, hs, hknown⟩ := UniqueHeap.Sound.moveConstruct hr hop.1 hop.2
      exact ⟨⟨s', r.caller⟩, by rw [UniqueRun.step, heq]; rfl, hs,
        hsame hknown fun o heq => by cases heq⟩
  | moveAssign dst src =>
      obtain ⟨s', heq, hs, hknown⟩ := UniqueHeap.Sound.moveAssign hr hop.1 hop.2
      exact ⟨⟨s', r.caller⟩, by rw [UniqueRun.step, heq]; rfl, hs,
        hsame hknown fun o heq => by cases heq⟩
  | release h =>
      obtain ⟨s', heq, hs, hknown⟩ := UniqueHeap.Sound.release hr hop
      exact ⟨⟨s', _⟩, by rw [UniqueRun.step, heq]; rfl, hs,
        hsame hknown fun o heq => by cases heq⟩
  | reset h p =>
      obtain ⟨s', heq, hs, hknown⟩ := UniqueHeap.Sound.reset hr hop.1 hop.2
      exact ⟨⟨s', _⟩, by rw [UniqueRun.step, heq]; rfl, hs,
        hsame hknown fun o heq => by cases heq⟩
  | destroy h =>
      obtain ⟨s', heq, hs, hknown⟩ := UniqueHeap.Sound.destroy hr hop
      exact ⟨⟨s', r.caller⟩, by rw [UniqueRun.step, heq]; rfl, hs,
        hsame hknown fun o heq => by cases heq⟩

theorem Sound.run :
    ∀ (ops : List UniqueOp) {r : UniqueRun}, r.Sound → r.AllowedAll ops →
      ∃ r', r.run ops = .ok r' ∧ r'.Sound ∧
        ∀ o, r'.heap.Known o ↔ r.heap.Known o ∨ .allocate o ∈ ops
  | [], r, hr, _ => ⟨r, rfl, hr, fun o => (or_iff_left List.not_mem_nil).symm⟩
  | op :: ops, r, hr, hall => by
      obtain ⟨r₁, hstep, hr₁, hknown₁⟩ := hr.step hall.1
      obtain ⟨r', hrun, hr', hknown⟩ := Sound.run ops hr₁ (hall.2 r₁ hstep)
      refine ⟨r', by rw [UniqueRun.run, hstep]; exact hrun, hr', fun o => ?_⟩
      rw [hknown, hknown₁, List.mem_cons, or_assoc, @eq_comm _ op]

/-- The object is held by one handle, is the caller's, or has been deleted once. -/
def Placed (r : UniqueRun) (o : Addr) : Prop :=
  (∃! h, h ∈ r.heap.handles ∧ r.heap.ptr h = some o) ∧ o ∉ r.caller ∧ o ∉ r.heap.deleted ∨
  (∀ h ∈ r.heap.handles, r.heap.ptr h ≠ some o) ∧ o ∈ r.caller ∧ o ∉ r.heap.deleted ∨
  (∀ h ∈ r.heap.handles, r.heap.ptr h ≠ some o) ∧ o ∉ r.caller ∧ r.heap.deleted.count o = 1

theorem Sound.placed (hr : r.Sound) {o : Addr} (ho : r.heap.Known o) : r.Placed o := by
  rcases ho with ho | ho
  · have hlive : o ∉ r.heap.deleted := fun hin => hr.apart o hin ho
    rcases hr.managed.held o ho with hcaller | hdue | ⟨h, hh, -, hptr⟩
    · refine Or.inr (Or.inl ⟨fun h hh hptr => ?_, hcaller, hlive⟩)
      exact (hr.managed.alive h hh (Option.some_ne_none _) o hptr).2.1 hcaller
    · cases hdue
    · refine Or.inl ⟨⟨h, ⟨hh, hptr⟩, fun h' hh' => ?_⟩, ?_, hlive⟩
      · exact hr.managed.exclusive h' hh'.1 h hh (Option.some_ne_none _) (Option.some_ne_none _)
          o hh'.2 hptr
      · exact (hr.managed.alive h hh (Option.some_ne_none _) o hptr).2.1
  · have hgone := hr.apart o ho
    refine Or.inr (Or.inr ⟨fun h hh hptr => ?_, fun hcaller => ?_, ?_⟩)
    · exact hgone (hr.managed.alive h hh (Option.some_ne_none _) o hptr).1
    · exact hgone (hr.managed.callers o hcaller)
    · exact List.count_eq_one_of_mem hr.nodup ho

end UniqueRun

open UniqueRun

/-- After any operations that the caller is allowed, and so after every step of a run: none
has met anything destroyed, no two handles hold one object, and every object allocated so
far is held by one handle, is the caller's, or has been deleted once. Once no handle is
left, it is the caller's or has been deleted. -/
theorem exclusive_ownership {ops : List UniqueOp} (h : initial.AllowedAll ops) :
    ∃ r, initial.run ops = .ok r ∧
      (∀ h ∈ r.heap.handles, ∀ h' ∈ r.heap.handles, ∀ o,
        r.heap.ptr h = some o → r.heap.ptr h' = some o → h = h') ∧
      (∀ o, .allocate o ∈ ops → r.Placed o) ∧
      (r.heap.handles = ∅ → ∀ o, .allocate o ∈ ops →
        o ∈ r.caller ∨ r.heap.deleted.count o = 1) := by
  obtain ⟨r, hrun, hr, hknown⟩ := Sound.run ops initial_sound h
  have hplaced (o : Addr) (ho : .allocate o ∈ ops) : r.Placed o :=
    hr.placed ((hknown o).mpr (Or.inr ho))
  refine ⟨r, hrun, fun h hh h' hh' => ?_, hplaced, fun hnone o ho => ?_⟩
  · exact hr.managed.exclusive h hh h' hh' (Option.some_ne_none _) (Option.some_ne_none _)
  · rcases hplaced o ho with ⟨⟨h, hh, -⟩, -⟩ | ⟨-, hcaller, -⟩ | ⟨-, -, hdeleted⟩
    · rw [hnone] at hh
      exact (Finset.notMem_empty h hh.1).elim
    · exact Or.inl hcaller
    · exact Or.inr hdeleted

/-- A pointer is handed in, moved on and deleted with its handle. -/
def moveAndDestroy : List UniqueOp :=
  [.allocate 10, .construct 1 (some 10), .moveConstruct 2 1, .destroy 2]

theorem moveAndDestroy_allowed : initial.AllowedAll moveAndDestroy := by
  refine ⟨?_, fun r h => ?_⟩
  · rintro (h | h)
    · cases h
    · cases h
  obtain rfl := Except.ok.inj h
  refine ⟨⟨Finset.notMem_empty 1, fun o ho => ?_⟩, fun r h => ?_⟩
  · obtain rfl := Option.some.inj ho
    exact Finset.mem_insert_self 10 ∅
  obtain rfl := Except.ok.inj h
  refine ⟨⟨?_, Finset.mem_insert_self 1 ∅⟩, fun r h => ?_⟩
  · exact fun hin => absurd (Finset.mem_singleton.mp hin) (by decide)
  obtain rfl := Except.ok.inj h
  exact ⟨Finset.mem_insert_self 2 _, fun _ _ => trivial⟩

theorem exclusive_ownership_moveAndDestroy :
    ∃ r, initial.run moveAndDestroy = .ok r ∧
      (∀ h ∈ r.heap.handles, ∀ h' ∈ r.heap.handles, ∀ o,
        r.heap.ptr h = some o → r.heap.ptr h' = some o → h = h') ∧
      (∀ o, .allocate o ∈ moveAndDestroy → r.Placed o) ∧
      (r.heap.handles = ∅ → ∀ o, .allocate o ∈ moveAndDestroy →
        o ∈ r.caller ∨ r.heap.deleted.count o = 1) :=
  exclusive_ownership moveAndDestroy_allowed

end CppDemos
