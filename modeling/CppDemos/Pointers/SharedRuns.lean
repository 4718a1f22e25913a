import CppDemos.Pointers.SharedPtr

/-!
# Runs on `SharedPtr`s

Any number of handles on objects that contain none. Each operation takes a handle from
the count of one `RefCount` (`mark`, `endHandle`, then `release`) and adds one to that of
another (`attach`, `adopt`); in between the handle does not count.
-/

namespace CppDemos

namespace SharedHeap

variable {s : SharedHeap} {x due ref : Option Addr} {h r o dst src : Addr}

/-! ## Handles that start to count -/

theorem users_none : s.users none r = s.handles.filter fun h => s.ref h = some r := by
  ext h
  rw [mem_users, Finset.mem_filter]
  exact and_congr_right fun _ => and_iff_right (Option.some_ne_none h)

theorem Managed.add (hm : s.Managed none none) (hh : h ∉ s.handles) :
    (s.addHandle h).Managed (some h) none where
  counted r rc hrc := by
    have hsame : (s.addHandle h).users (some h) r = s.users none r := by
      ext h'
      rw [mem_users, mem_users]
      constructor
      · rintro ⟨hin, hne, href⟩
        have hold := (Finset.mem_insert.mp hin).resolve_left fun heq => hne (congrArg some heq)
        exact ⟨hold, Option.some_ne_none h', href⟩
      · rintro ⟨hin, -, href⟩
        refine ⟨Finset.mem_insert_of_mem hin, fun heq => hh ?_, href⟩
        exact Option.some.inj heq ▸ hin
    rw [hsame]
    exact hm.counted r rc hrc
  alive h' hh' hne := hm.alive h'
    ((Finset.mem_insert.mp hh').resolve_left fun heq => hne (congrArg some heq))
    (Option.some_ne_none h')
  dueAlive := hm.dueAlive
  data := hm.data
  injective := hm.injective
  managed := hm.managed

theorem mem_users_setRef :
    o ∈ (s.setRef h ref).users none r ↔
      o ∈ s.users (some h) r ∨ o = h ∧ h ∈ s.handles ∧ ref = some r := by
  rw [mem_users, mem_users, setRef_eq_some]
  constructor
  · rintro ⟨hh, -, ⟨rfl, href⟩ | ⟨hne, href⟩⟩
    · exact Or.inr ⟨rfl, hh, href⟩
    · exact Or.inl ⟨hh, fun heq => hne (Option.some.inj heq), href⟩
  · rintro (⟨hh, hne, href⟩ | ⟨rfl, hh, href⟩)
    · exact ⟨hh, Option.some_ne_none o, Or.inr ⟨fun heq => hne (congrArg some heq), href⟩⟩
    · exact ⟨hh, Option.some_ne_none o, Or.inl ⟨rfl, href⟩⟩

theorem Managed.clear (hm : s.Managed (some h) none) : (s.setRef h none).Managed none none where
  counted r rc hrc := by
    have hsame : (s.setRef h none).users none r = s.users (some h) r := by
      ext h'
      rw [mem_users_setRef]
      exact or_iff_left fun hin => Option.some_ne_none r hin.2.2.symm
    rw [hsame]
    exact hm.counted r rc hrc
  alive h' hh' _ r href := by
    rcases setRef_eq_some.mp href with ⟨-, hnone⟩ | ⟨hne, href⟩
    · cases hnone
    · exact hm.alive h' hh' (fun heq => hne (Option.some.inj heq)) r href
  dueAlive := hm.dueAlive
  data := hm.data
  injective := hm.injective
  managed := hm.managed

theorem Managed.attach {rc : RefCount} (hm : s.Managed (some h) none) (hh : h ∈ s.handles)
    (hrc : s.refs r = some rc) (hfew : s.handles.card < 2 ^ 31) :
    ∃ s', (s.setRef h (some r)).increment r = .ok s' ∧ s'.Managed none none ∧
      s'.toStore = s.toStore := by
  have husers (r' h' : Addr) : h' ∈ (s.setRef h (some r)).users none r' ↔
      h' ∈ s.users (some h) r' ∨ h' = h ∧ r' = r := by
    rw [mem_users_setRef, Option.some.injEq]
    refine or_congr_right (and_congr_right fun _ => ?_)
    exact ⟨fun hin => hin.2.symm, fun heq => ⟨hh, heq.symm⟩⟩
  have hother : h ∉ s.users (some h) r := fun hin => (mem_users.mp hin).2.1 rfl
  refine ⟨_, increment_eq (s := s.setRef h (some r)) hrc,
    hm.recount hrc rfl rfl (fun h' hh' _ r' href => ?_) fun r' rc' hrc' => ?_, rfl⟩
  · rcases setRef_eq_some.mp href with ⟨-, heq⟩ | ⟨hne, href⟩
    · obtain rfl := Option.some.inj heq
      exact ⟨rc, hrc⟩
    · exact hm.alive h' hh' (fun heq => hne (Option.some.inj heq)) r' href
  · show rc'.count.toInt = (((s.setRef h (some r)).users none r').card : Nat) ∧ _
    rcases update_some_eq_some hrc' with ⟨rfl, rfl⟩ | ⟨hne, hrc'⟩
    · obtain ⟨hcount, hpos⟩ := hm.counted r' rc hrc
      rw [owed, if_neg (Option.some_ne_none r').symm, add_zero] at hcount
      have hinsert : (s.setRef h (some r')).users none r' = insert h (s.users (some h) r') := by
        ext h'
        rw [husers, Finset.mem_insert, or_comm]
        exact or_congr_left (and_iff_left rfl)
      have hcard : (insert h (s.users (some h) r')).card ≤ s.handles.card :=
        Finset.card_le_card (Finset.insert_subset hh (Finset.filter_subset ..))
      rw [Finset.card_insert_of_notMem hother] at hcard
      have hadd : (rc.count + 1).toInt = rc.count.toInt + 1 := toInt_add_one hpos (by omega)
      rw [hinsert, Finset.card_insert_of_notMem hother]
      exact ⟨hadd.trans (by omega), by rw [hadd]; omega⟩
    · have hsame : (s.setRef h (some r)).users none r' = s.users (some h) r' := by
        ext h'
        rw [husers]
        exact or_iff_left fun hin => hne hin.2
      rw [hsame]
      exact hm.counted r' rc' hrc'

theorem Managed.adopt (hm : s.Managed (some h) none) (hh : h ∈ s.handles) (hr : s.refs r = none)
    (ho : o ∉ s.objects) :
    (SharedHeap.setRef
      { s with
        objects := insert o s.objects
        refs := Function.update s.refs r (some ⟨o, 1⟩) } h (some r)).Managed none none where
  counted r' rc hrc := by
    have husers (h' : Addr) : h' ∈ (s.setRef h (some r)).users none r' ↔
        h' ∈ s.users (some h) r' ∨ h' = h ∧ h ∈ s.handles ∧ some r = some r' := mem_users_setRef
    show rc.count.toInt = (((s.setRef h (some r)).users none r').card : Nat) ∧ _
    rcases update_some_eq_some hrc with ⟨rfl, rfl⟩ | ⟨hne, hrc⟩
    · have hone : (s.setRef h (some r')).users none r' = {h} := by
        ext h'
        rw [husers, Finset.mem_singleton]
        refine ⟨fun hin => hin.elim (fun hin => ?_) And.left, fun heq => Or.inr ⟨heq, hh, rfl⟩⟩
        obtain ⟨hh', hne, href⟩ := mem_users.mp hin
        obtain ⟨rc, hrc⟩ := hm.alive h' hh' hne r' href
        rw [hr] at hrc
        cases hrc
      rw [hone, Finset.card_singleton]
      exact ⟨rfl, Int.one_pos⟩
    · have hsame : (s.setRef h (some r)).users none r' = s.users (some h) r' := by
        ext h'
        rw [husers]
        exact or_iff_left fun hin => hne (Option.some.inj hin.2.2).symm
      rw [hsame]
      exact hm.counted r' rc hrc
  alive h' hh' _ r' href := by
    rcases setRef_eq_some.mp href with ⟨-, heq⟩ | ⟨hne, href⟩
    · obtain rfl := Option.some.inj heq
      exact ⟨_, Function.update_self ..⟩
    · obtain ⟨rc, hrc⟩ := hm.alive h' hh' (fun heq => hne (Option.some.inj heq)) r' href
      have hother : r' ≠ r := by
        rintro rfl
        rw [hr] at hrc
        cases hrc
      exact ⟨rc, (Function.update_of_ne hother ..).trans hrc⟩
  dueAlive _ hdue := by cases hdue
  data r' rc hrc := by
    rcases update_some_eq_some hrc with ⟨-, rfl⟩ | ⟨-, hrc⟩
    · exact Finset.mem_insert_self ..
    · exact Finset.mem_insert_of_mem (hm.data r' rc hrc)
  injective r₁ rc₁ r₂ rc₂ hrc₁ hrc₂ heq := by
    rcases update_some_eq_some hrc₁ with ⟨hnew₁, rfl⟩ | ⟨-, hold₁⟩ <;>
      rcases update_some_eq_some hrc₂ with ⟨hnew₂, rfl⟩ | ⟨-, hold₂⟩
    · exact hnew₁.trans hnew₂.symm
    · have hdata : rc₂.data = o := heq.symm
      exact (ho (hdata ▸ hm.data r₂ rc₂ hold₂)).elim
    · have hdata : rc₁.data = o := heq
      exact (ho (hdata ▸ hm.data r₁ rc₁ hold₁)).elim
    · exact hm.injective r₁ rc₁ r₂ rc₂ hold₁ hold₂ heq
  managed o' ho' := by
    rcases Finset.mem_insert.mp ho' with rfl | ho'
    · exact ⟨r, _, Function.update_self .., rfl⟩
    · obtain ⟨r', rc, hrc, hdata⟩ := hm.managed o' ho'
      have hother : r' ≠ r := by
        rintro rfl
        rw [hr] at hrc
        cases hrc
      exact ⟨r', rc, (Function.update_of_ne hother ..).trans hrc, hdata⟩

/-! ## The operations -/

/-- An object that has been adopted is there, or was deleted. -/
def Known (s : SharedHeap) (o : Addr) : Prop := o ∈ s.objects ∨ o ∈ s.deleted

/-- Every count is right, and what was deleted was deleted once; no object contains a
handle. -/
structure Sound (s : SharedHeap) : Prop where
  managed : s.Managed none none
  flat : ∀ o, s.members o = []
  nodup : s.deleted.Nodup
  apart : ∀ o ∈ s.deleted, o ∉ s.objects

theorem Sound.valid (hs : s.Sound) : s.Valid where
  wf := by
    refine ⟨fun o _ => ?_, fun o _ h hh => ?_, fun o _ o' _ h hh => ?_⟩
    · rw [hs.flat]
      exact List.nodup_nil
    · rw [hs.flat] at hh
      cases hh
    · rw [hs.flat] at hh
      cases hh
  managed := hs.managed
  acyclic := by
    refine Ownership.acyclic_of_rank (fun _ => 0) ?_
    rintro o o' ⟨h, ⟨-, hmember⟩, -⟩
    rw [hs.flat] at hmember
    cases hmember

theorem Sound.dropping (hs : s.Sound) (y : Addr) (kept : Prop) :
    s.toStore.Dropping (s.graph.without y) y kept :=
  hs.valid.dropping (Or.inr fun o _ hmember => by
    rw [hs.flat] at hmember
    cases hmember)

theorem Sound.same {s' : SharedHeap} (hs : s.Sound) (hm : s'.Managed none none)
    (hmembers : s'.members = s.members) (hobjects : s'.objects = s.objects)
    (hdeleted : s'.deleted = s.deleted) : s'.Sound ∧ ∀ o, s'.Known o ↔ s.Known o := by
  refine ⟨⟨hm, ?_, ?_, ?_⟩, fun o => ?_⟩
  · rw [hmembers]
    exact hs.flat
  · rw [hdeleted]
    exact hs.nodup
  · rw [hdeleted, hobjects]
    exact hs.apart
  · rw [Known, Known, hobjects, hdeleted]

theorem Sound.swept {s' : SharedHeap} (hs : s.Sound) {y : Addr} {kept : Prop}
    (hsweep : s.toStore.Sweep (s.graph.without y) y kept [] s'.toStore) :
    (∀ o, s'.members o = []) ∧ s'.deleted.Nodup ∧ (∀ o ∈ s'.deleted, o ∉ s'.objects) ∧
      ∀ o, s'.Known o ↔ s.Known o := by
  obtain ⟨D, heq, hnodup, hD⟩ := hsweep.deleted
  refine ⟨fun o => ?_, ?_, fun o ho hobj => ?_, fun o => ?_⟩
  · rw [hsweep.members]
    exact hs.flat o
  · rw [heq]
    exact hs.nodup.append hnodup fun o hin hnew => hs.apart o hin ((hD o).mp hnew).1
  · rw [heq] at ho
    rcases List.mem_append.mp ho with hin | hnew
    · exact hs.apart o hin (hsweep.objects hobj)
    · exact ((hD o).mp hnew).2 hobj
  · rw [Known, Known, heq, List.mem_append, hD]
    constructor
    · rintro (hobj | hin | hnew)
      · exact Or.inl (hsweep.objects hobj)
      · exact Or.inr hin
      · exact Or.inl hnew.1
    · rintro (hobj | hin)
      · by_cases hleft : o ∈ s'.objects
        · exact Or.inl hleft
        · exact Or.inr (Or.inr ⟨hobj, hleft⟩)
      · exact Or.inr (Or.inl hin)

theorem Sound.destroy (hs : s.Sound) (hh : h ∈ s.handles) :
    ∃ s', s.destroy h = .ok s' ∧ s'.Sound ∧ s'.handles ⊆ s.handles ∧
      ∀ o, s'.Known o ↔ s.Known o := by
  obtain ⟨s', hrun, hsweeping⟩ := destroy_sweeping (hs.dropping h _) hs.managed hh
  obtain ⟨hflat, hnodup, hapart, hknown⟩ := hs.swept hsweeping.sweep
  exact ⟨s', hrun, ⟨hsweeping.managed, hflat, hnodup, hapart⟩,
    fun h' hh' => ((hsweeping.sweep.handles h').mp hh').1, hknown⟩

/-- The end of an assignment and of the copy constructor: the handle `dst` is written with
the `ref` of another. -/
theorem Managed.rewrite (hm : s.Managed (some dst) none) (hdst : dst ∈ s.handles)
    (hsrc : src ∈ s.handles) (hne : src ≠ dst) (hfew : s.handles.card < 2 ^ 31) :
    ∃ s', (s.setRef dst (s.ref src)).incrementRef (s.ref src) = .ok s' ∧
      s'.Managed none none ∧ s'.toStore = s.toStore := by
  cases href : s.ref src with
  | none => exact ⟨_, rfl, hm.clear, rfl⟩
  | some r =>
      obtain ⟨rc, hrc⟩ := hm.alive src hsrc (fun heq => hne (Option.some.inj heq)) r href
      exact hm.attach hdst hrc hfew

theorem Sound.assign (hs : s.Sound) (hdst : dst ∈ s.handles) (hsrc : src ∈ s.handles)
    (hfew : s.handles.card < 2 ^ 31) :
    ∃ s', s.assign dst src = .ok s' ∧ s'.Sound ∧ s'.handles = s.handles ∧
      ∀ o, s'.Known o ↔ s.Known o := by
  by_cases hne : dst = src
  · exact ⟨s, if_pos hne, hs, rfl, fun _ => Iff.rfl⟩
  · obtain ⟨s₁, hrelease, hsweeping⟩ := releaseAll_sweeping (hs.dropping dst _) hs.managed hdst
    obtain ⟨hflat, hnodup, hapart, hknown⟩ := hs.swept hsweeping.sweep
    have hhandles : s₁.handles = s.handles := by
      ext h
      rw [hsweeping.sweep.handles, or_iff_right List.not_mem_nil, and_iff_left_iff_imp]
      rintro - (⟨-, hnot⟩ | ⟨o, -, -, hmember⟩)
      · exact hnot rfl
      · rw [hs.flat] at hmember
        cases hmember
    have hdst₁ : dst ∈ s₁.handles := hhandles ▸ hdst
    have hsrc₁ : src ∈ s₁.handles := hhandles ▸ hsrc
    obtain ⟨s', hwrite, hm, hstore⟩ := hsweeping.managed.rewrite hdst₁ hsrc₁ (Ne.symm hne)
      (hhandles ▸ hfew)
    refine ⟨s', (assign_eq hne hdst hrelease hdst₁ hsrc₁).trans hwrite, ⟨hm, ?_, ?_, ?_⟩, ?_, ?_⟩
    · rw [hstore]
      exact hflat
    · rw [hstore]
      exact hnodup
    · rw [hstore]
      exact hapart
    · rw [hstore]
      exact hhandles
    · intro o
      rw [← hknown, Known, Known, hstore]

theorem Sound.copyConstruct (hs : s.Sound) (hh : h ∉ s.handles) (hsrc : src ∈ s.handles)
    (hfew : s.handles.card + 1 < 2 ^ 31) :
    ∃ s', s.copyConstruct h src = .ok s' ∧ s'.Sound ∧ s'.handles = insert h s.handles ∧
      ∀ o, s'.Known o ↔ s.Known o := by
  have hread : s.read src = .ok (s.ref src) := if_pos hsrc
  have hne : src ≠ h := fun heq => hh (heq ▸ hsrc)
  have hcard : (s.addHandle h).handles.card < 2 ^ 31 := by
    rw [addHandle, Finset.card_insert_of_notMem hh]
    exact hfew
  obtain ⟨s', hwrite, hm, hstore⟩ := (hs.managed.add hh).rewrite (Finset.mem_insert_self ..)
    (Finset.mem_insert_of_mem hsrc) hne hcard
  obtain ⟨hs', hknown⟩ := hs.same hm (by rw [hstore]; rfl) (by rw [hstore]; rfl)
    (by rw [hstore]; rfl)
  refine ⟨s', ?_, hs', by rw [hstore]; rfl, hknown⟩
  rw [SharedHeap.copyConstruct, hread]
  exact hwrite

theorem Sound.construct_null (hs : s.Sound) (hh : h ∉ s.handles) (r : Addr) :
    (s.construct h none r).Sound ∧ ∀ o, (s.construct h none r).Known o ↔ s.Known o :=
  hs.same (hs.managed.add hh).clear rfl rfl rfl

theorem Sound.construct (hs : s.Sound) (hh : h ∉ s.handles) (hr : s.refs r = none)
    (ho : ¬ s.Known o) :
    (s.construct h (some o) r).Sound ∧
      ∀ o', (s.construct h (some o) r).Known o' ↔ s.Known o' ∨ o' = o := by
  have hempty : ((s.addHandle h).setRef h none).ref h = none := Function.update_self ..
  have hmarked := (hs.managed.add hh).clear.mark (Finset.mem_insert_self h s.handles)
  rw [hempty] at hmarked
  refine ⟨⟨hmarked.adopt (Finset.mem_insert_self ..) hr fun h => ho (Or.inl h), hs.flat, hs.nodup,
    fun o' ho' hobj => ?_⟩, fun o' => ?_⟩
  · exact (Finset.mem_insert.mp hobj).elim (fun heq => ho (Or.inr (heq ▸ ho'))) (hs.apart o' ho')
  · show o' ∈ insert o s.objects ∨ o' ∈ s.deleted ↔ _
    rw [Finset.mem_insert, Known, or_assoc, or_comm]

theorem Sound.deleted_iff (hs : s.Sound) (ho : s.Known o) :
    o ∈ s.deleted ↔ ∀ h ∈ s.handles, s.target h ≠ some o := by
  constructor
  · exact fun hin h _ htarget => hs.apart o hin (hs.valid.target_alive htarget)
  · intro hnone
    refine ho.resolve_left fun hobj => ?_
    obtain ⟨h, hh, -, htarget⟩ := hs.managed.held hobj
    exact hnone h hh htarget

/-! ## Runs -/

/-- Nothing is there yet; no object will contain a handle. -/
def initial : SharedHeap :=
  { handles := ∅, objects := ∅, members := fun _ => [], deleted := [], ref := fun _ => none,
    refs := fun _ => none }

/-- One operation; `r` is what `new RefCount` would return. -/
inductive Op where
  | construct (h : Addr) (ptr : Option Addr) (r : Addr)
  | copyConstruct (h other : Addr)
  | assign (dst src : Addr)
  | destroy (h : Addr)

def step (s : SharedHeap) : Op → Except Fault SharedHeap
  | .construct h ptr r => .ok (s.construct h ptr r)
  | .copyConstruct h other => s.copyConstruct h other
  | .assign dst src => s.assign dst src
  | .destroy h => s.destroy h

/-- What the caller has to see to: a new handle is where none is and leaves fewer than
2^31 of them, the others are there, and a raw pointer was not adopted before. A `new` returns
what is not in use. -/
def Allowed (s : SharedHeap) : Op → Prop
  | .construct h ptr r =>
      h ∉ s.handles ∧ s.handles.card + 1 < 2 ^ 31 ∧
        ∀ o, ptr = some o → ¬ s.Known o ∧ s.refs r = none
  | .copyConstruct h other => h ∉ s.handles ∧ s.handles.card + 1 < 2 ^ 31 ∧ other ∈ s.handles
  | .assign dst src => dst ∈ s.handles ∧ src ∈ s.handles
  | .destroy h => h ∈ s.handles

def run (s : SharedHeap) : List Op → Except Fault SharedHeap
  | [] => .ok s
  | op :: ops => do
      let s ← s.step op
      s.run ops

/-- Every operation is allowed when its turn comes. -/
def AllowedAll (s : SharedHeap) : List Op → Prop
  | [] => True
  | op :: ops => s.Allowed op ∧ ∀ s', s.step op = .ok s' → s'.AllowedAll ops

/-- The raw pointer that an operation adopts. -/
def Op.adopts : Op → Option Addr
  | .construct _ ptr _ => ptr
  | _ => none

/-- Fewer handles than the count can tell apart. -/
def Few (s : SharedHeap) : Prop := s.handles.card < 2 ^ 31

theorem initial_sound : initial.Sound where
  managed := by
    refine ⟨fun _ _ hrc => ?_, fun _ hh => ?_, fun _ hdue => ?_, fun _ _ hrc => ?_,
      fun _ _ _ _ hrc => ?_, fun _ ho => ?_⟩
    · cases hrc
    · cases hh
    · cases hdue
    · cases hrc
    · cases hrc
    · cases ho
  flat _ := rfl
  nodup := List.nodup_nil
  apart := by decide

theorem initial_few : initial.Few := Nat.two_pow_pos 31

/-- An allowed operation meets nothing destroyed and keeps every count right. -/
theorem Sound.step (hs : s.Sound) (hfew : s.Few) {op : Op} (hop : s.Allowed op) :
    ∃ s', s.step op = .ok s' ∧ s'.Sound ∧ s'.Few ∧
      (∀ o, s'.Known o ↔ s.Known o ∨ op.adopts = some o) ∧
      ∀ o, op.adopts = some o → o ∈ s'.objects := by
  have hsame {s' : SharedHeap} (hno : op.adopts = none) (h : ∀ o, s'.Known o ↔ s.Known o)
      (o : Addr) : s'.Known o ↔ s.Known o ∨ op.adopts = some o := by
    rw [h, hno, or_iff_left (Option.some_ne_none o).symm]
  cases op with
  | construct h ptr r =>
      obtain ⟨hh, hcard, hptr⟩ := hop
      have hcard' : (insert h s.handles).card < 2 ^ 31 := by
        rw [Finset.card_insert_of_notMem hh]
        exact hcard
      cases ptr with
      | none =>
          obtain ⟨hs', hknown⟩ := hs.construct_null hh r
          exact ⟨_, rfl, hs', hcard', hsame rfl hknown, fun o ho => by cases ho⟩
      | some o =>
          obtain ⟨ho, hr⟩ := hptr o rfl
          obtain ⟨hs', hknown⟩ := hs.construct hh hr ho
          refine ⟨_, rfl, hs', hcard', fun o' => (hknown o').trans (or_congr_right ?_),
            fun o' ho' => ?_⟩
          · rw [Op.adopts, Option.some.injEq, eq_comm]
          · obtain rfl := Option.some.inj ho'
            exact Finset.mem_insert_self ..
  | copyConstruct h other =>
      obtain ⟨hh, hcard, hother⟩ := hop
      obtain ⟨s', heq, hs', hhandles, hknown⟩ := hs.copyConstruct hh hother hcard
      refine ⟨s', heq, hs', ?_, hsame rfl hknown, fun o ho => by cases ho⟩
      rw [Few, hhandles, Finset.card_insert_of_notMem hh]
      exact hcard
  | assign dst src =>
      obtain ⟨s', heq, hs', hhandles, hknown⟩ := hs.assign hop.1 hop.2 hfew
      refine ⟨s', heq, hs', ?_, hsame rfl hknown, fun o ho => by cases ho⟩
      rw [Few, hhandles]
      exact hfew
  | destroy h =>
      obtain ⟨s', heq, hs', hhandles, hknown⟩ := hs.destroy hop
      exact ⟨s', heq, hs', (Finset.card_le_card hhandles).trans_lt hfew, hsame rfl hknown,
        fun o ho => by cases ho⟩

theorem Sound.run :
    ∀ (ops : List Op) {s : SharedHeap}, s.Sound → s.Few → s.AllowedAll ops →
      ∃ s', s.run ops = .ok s' ∧ s'.Sound ∧ s'.Few ∧
        ∀ o, s'.Known o ↔ s.Known o ∨ ∃ op ∈ ops, op.adopts = some o
  | [], s, hs, hfew, _ => ⟨s, rfl, hs, hfew, fun o =>
      (or_iff_left fun ⟨_, hin, _⟩ => List.not_mem_nil hin).symm⟩
  | op :: ops, s, hs, hfew, hall => by
      obtain ⟨s₁, hstep, hs₁, hfew₁, hknown₁, -⟩ := hs.step hfew hall.1
      obtain ⟨s', hrun, hs', hfew', hknown⟩ := Sound.run ops hs₁ hfew₁ (hall.2 s₁ hstep)
      refine ⟨s', by rw [SharedHeap.run, hstep]; exact hrun, hs', hfew', fun o => ?_⟩
      rw [hknown, hknown₁, or_assoc, List.exists_mem_cons_iff]

/-- What an operation deletes is what it takes the last handle away from. -/
theorem Sound.deleted_now {s' : SharedHeap} (hs : s.Sound) (hs' : s'.Sound) {adopts : Prop}
    (hknown : s'.Known o ↔ s.Known o ∨ adopts) (hadopts : adopts → o ∈ s'.objects) :
    o ∈ s'.deleted ∧ o ∉ s.deleted ↔
      (∃ h ∈ s.handles, s.target h = some o) ∧ ∀ h ∈ s'.handles, s'.target h ≠ some o := by
  constructor
  · rintro ⟨hin, hnot⟩
    have hold := (hknown.mp (Or.inr hin)).resolve_right fun h => hs'.apart o hin (hadopts h)
    obtain ⟨h, hh, -, htarget⟩ := hs.managed.held (hold.resolve_right hnot)
    exact ⟨⟨h, hh, htarget⟩, (hs'.deleted_iff (Or.inr hin)).mp hin⟩
  · rintro ⟨⟨h, -, htarget⟩, hnone⟩
    have ho := hs.valid.target_alive htarget
    exact ⟨(hs'.deleted_iff (hknown.mpr (Or.inl (Or.inl ho)))).mpr hnone,
      fun hin => hs.apart o hin ho⟩

theorem Sound.useCount (hs : s.Sound) (hh : h ∈ s.handles) :
    ∃ c, s.useCount h = .ok c ∧ c.toInt = match s.ref h with
      | none => 0
      | some r => ((s.handles.filter fun h => s.ref h = some r).card : Int) := by
  have hread : s.read h = .ok (s.ref h) := if_pos hh
  rw [SharedHeap.useCount, hread]
  cases href : s.ref h with
  | none => exact ⟨0, rfl, rfl⟩
  | some r =>
      obtain ⟨rc, hrc⟩ := hs.managed.alive h hh (Option.some_ne_none h) r href
      obtain ⟨hcount, -⟩ := hs.managed.counted r rc hrc
      rw [owed, if_neg (Option.some_ne_none r).symm, users_none] at hcount
      refine ⟨rc.count, ?_, hcount⟩
      simp only [Bind.bind, Except.bind, hrc]

end SharedHeap

open SharedHeap

/-- After any operations that the caller is allowed, and so after every step of a run: none
has met anything destroyed; every `RefCount` that is there counts the handles that refer to
it, and there is one; `use_count` says so; and of the objects adopted so far those have been
deleted, each once, that no handle refers to. So the next operation deletes exactly the
objects whose last handle it takes away. -/
theorem reference_counting {ops : List Op} (h : initial.AllowedAll ops) :
    ∃ s, initial.run ops = .ok s ∧
      (∀ r rc, s.refs r = some rc →
        rc.count.toInt = (s.handles.filter fun h => s.ref h = some r).card ∧
          1 ≤ rc.count.toInt) ∧
      (∀ h ∈ s.handles, ∃ c, s.useCount h = .ok c ∧ c.toInt = match s.ref h with
        | none => 0
        | some r => ((s.handles.filter fun h => s.ref h = some r).card : Int)) ∧
      s.deleted.Nodup ∧
      (∀ op ∈ ops, ∀ o, op.adopts = some o →
        (o ∈ s.deleted ↔ ∀ h ∈ s.handles, s.target h ≠ some o)) ∧
      ∀ op, s.Allowed op → ∃ s', s.step op = .ok s' ∧
        ∀ o, (o ∈ s'.deleted ∧ o ∉ s.deleted ↔
          (∃ h ∈ s.handles, s.target h = some o) ∧ ∀ h ∈ s'.handles, s'.target h ≠ some o) := by
  obtain ⟨s, hrun, hs, hfew, hknown⟩ := Sound.run ops initial_sound initial_few h
  refine ⟨s, hrun, fun r rc hrc => ?_, fun h hh => hs.useCount hh, hs.nodup,
    fun op hop o ho => hs.deleted_iff ((hknown o).mpr (Or.inr ⟨op, hop, ho⟩)), fun op hop => ?_⟩
  · obtain ⟨hcount, hpos⟩ := hs.managed.counted r rc hrc
    rw [owed, if_neg (Option.some_ne_none r).symm, users_none] at hcount
    exact ⟨hcount, hpos⟩
  · obtain ⟨s', hstep, hs', -, hknown', hadopts⟩ := hs.step hfew hop
    exact ⟨s', hstep, fun o => hs.deleted_now hs' (hknown' o) (hadopts o)⟩

/-- Two handles on one object, and the first is destroyed. -/
def shareAndDrop : List Op := [.construct 1 (some 10) 20, .copyConstruct 2 1, .destroy 1]

theorem shareAndDrop_allowed : initial.AllowedAll shareAndDrop := by
  refine ⟨⟨Finset.notMem_empty 1, by decide, fun o ho => ⟨?_, rfl⟩⟩, fun s hs => ?_⟩
  · rintro (hin | hin)
    · cases hin
    · cases hin
  obtain rfl := Except.ok.inj hs
  refine ⟨⟨?_, by decide, Finset.mem_insert_self 1 ∅⟩, fun s hs => ?_⟩
  · exact fun hin => absurd (Finset.mem_singleton.mp hin) (by decide)
  obtain rfl := Except.ok.inj hs
  exact ⟨Finset.mem_insert_of_mem (Finset.mem_insert_self 1 ∅), fun _ _ => trivial⟩

theorem reference_counting_shareAndDrop :
    ∃ s, initial.run shareAndDrop = .ok s ∧
      (∀ r rc, s.refs r = some rc →
        rc.count.toInt = (s.handles.filter fun h => s.ref h = some r).card ∧
          1 ≤ rc.count.toInt) ∧
      (∀ h ∈ s.handles, ∃ c, s.useCount h = .ok c ∧ c.toInt = match s.ref h with
        | none => 0
        | some r => ((s.handles.filter fun h => s.ref h = some r).card : Int)) ∧
      s.deleted.Nodup ∧
      (∀ op ∈ shareAndDrop, ∀ o, op.adopts = some o →
        (o ∈ s.deleted ↔ ∀ h ∈ s.handles, s.target h ≠ some o)) ∧
      ∀ op, s.Allowed op → ∃ s', s.step op = .ok s' ∧
        ∀ o, (o ∈ s'.deleted ∧ o ∉ s.deleted ↔
          (∃ h ∈ s.handles, s.target h = some o) ∧ ∀ h ∈ s'.handles, s'.target h ≠ some o) :=
  reference_counting shareAndDrop_allowed

end CppDemos
