import CppDemos.Pointers.UniquePtr

/-!
# shared_ptr.cpp

`SharedPtr` and `RefCount`, with objects that may themselves contain `SharedPtr`s. As for
`UniquePtr`, what is destroyed is gone with the call of its destructor, and the calls
still to come are a list of handles.

A count goes with the handles that refer to its `RefCount` (`Managed`). While a handle is
destroyed or about to be written it no longer counts, but is still counted (`due`) until
`release` has run.
-/

namespace CppDemos

open Ownership (RefGraph Store teardown)

structure RefCount where
  data : Addr
  count : Int32
deriving DecidableEq, Repr

/-- The `SharedPtr`s, with their `ref`, the `RefCount`s and the objects they manage. -/
structure SharedHeap extends Store Addr Addr where
  ref : Addr → Option Addr
  refs : Addr → Option RefCount

namespace SharedHeap

/-! ## Definitions -/

def read (s : SharedHeap) (h : Addr) : Except Fault (Option Addr) :=
  if h ∈ s.handles then .ok (s.ref h) else .error .destroyed

def setRef (s : SharedHeap) (h : Addr) (ref : Option Addr) : SharedHeap :=
  { s with ref := Function.update s.ref h ref }

def addHandle (s : SharedHeap) (h : Addr) : SharedHeap :=
  { s with handles := insert h s.handles }

def write (s : SharedHeap) (h : Addr) (ref : Option Addr) : Except Fault SharedHeap :=
  if h ∈ s.handles then .ok (s.setRef h ref) else .error .destroyed

def increment (s : SharedHeap) (r : Addr) : Except Fault SharedHeap :=
  match s.refs r with
  | none => .error .destroyed
  | some rc =>
      .ok { s with refs := Function.update s.refs r (some { rc with count := rc.count + 1 }) }

/-- `if (ref) ref->increment();` -/
def incrementRef (s : SharedHeap) : Option Addr → Except Fault SharedHeap
  | none => .ok s
  | some r => s.increment r

def decrement (s : SharedHeap) (r : Addr) : Except Fault (Int32 × SharedHeap) :=
  match s.refs r with
  | none => .error .destroyed
  | some rc =>
      .ok (rc.count - 1,
        { s with refs := Function.update s.refs r (some { rc with count := rc.count - 1 }) })

/-- `delete ref`, which is `delete data`, up to the members of the object. -/
def deleteRef (s : SharedHeap) (r : Addr) : Except Fault (List Addr × SharedHeap) :=
  match s.refs r with
  | none => .error .destroyed
  | some rc =>
      if rc.data ∈ s.objects then
        .ok (s.members rc.data,
          { s with toStore := s.toStore.delete rc.data, refs := Function.update s.refs r none })
      else .error .destroyed

/-- `if (ref && ref->decrement() == 0) delete ref;` -/
def release (s : SharedHeap) : Option Addr → Except Fault (List Addr × SharedHeap)
  | none => .ok ([], s)
  | some r => do
      let (count, s) ← s.decrement r
      if count = 0 then s.deleteRef r else .ok ([], s)

/-- `~SharedPtr`, up to the members of what it deletes. -/
def dtor (h : Addr) (s : SharedHeap) : Except Fault (List Addr × SharedHeap) := do
  let ref ← s.read h
  SharedHeap.release { s with toStore := s.toStore.endHandle h } ref

/-- The destructors of these handles, with all that they call. -/
def destroyAll (s : SharedHeap) (hs : List Addr) : Except Fault SharedHeap :=
  teardown dtor .fuel s.handles.card hs s

/-- `release`, with the destructors it runs. -/
def releaseAll (s : SharedHeap) (ref : Option Addr) : Except Fault SharedHeap := do
  let (members, s) ← s.release ref
  s.destroyAll members

def destroy (s : SharedHeap) (h : Addr) : Except Fault SharedHeap := s.destroyAll [h]

/-- The constructor from a raw pointer; `r` is what `new RefCount` returns. The object is
managed from now on. -/
def construct (s : SharedHeap) (h : Addr) (ptr : Option Addr) (r : Addr) : SharedHeap :=
  let s := (s.addHandle h).setRef h none
  match ptr with
  | none => s
  | some o =>
      SharedHeap.setRef
        { s with
          objects := insert o s.objects
          refs := Function.update s.refs r (some ⟨o, 1⟩) } h (some r)

def copyConstruct (s : SharedHeap) (h other : Addr) : Except Fault SharedHeap := do
  let ref ← s.read other
  ((s.addHandle h).setRef h ref).incrementRef ref

/-- `operator=`. -/
def assign (s : SharedHeap) (dst src : Addr) : Except Fault SharedHeap :=
  if dst = src then .ok s
  else do
    let ref ← s.read dst
    let s ← s.releaseAll ref
    let ref ← s.read src
    let s ← s.write dst ref
    s.incrementRef ref

def useCount (s : SharedHeap) (h : Addr) : Except Fault Int32 := do
  let ref ← s.read h
  match ref with
  | none => .ok 0
  | some r =>
      match s.refs r with
      | none => .error .destroyed
      | some rc => .ok rc.count

/-! ## Counting -/

/-- The handles that refer to a `RefCount`, `x` apart. -/
def users (s : SharedHeap) (x : Option Addr) (r : Addr) : Finset Addr :=
  s.handles.filter fun h => some h ≠ x ∧ s.ref h = some r

/-- What the handle that is due still adds to the count. -/
def owed (due : Option Addr) (r : Addr) : Nat := if due = some r then 1 else 0

/-- Every `RefCount` counts its handles, `x` apart, and the one that is `due`; there is one
for each object, and none that nothing refers to. -/
structure Managed (s : SharedHeap) (x due : Option Addr) : Prop where
  counted : ∀ r rc, s.refs r = some rc →
    rc.count.toInt = ((s.users x r).card + owed due r : Nat) ∧ 0 < rc.count.toInt
  alive : ∀ h ∈ s.handles, some h ≠ x → ∀ r, s.ref h = some r → ∃ rc, s.refs r = some rc
  dueAlive : ∀ r, due = some r → ∃ rc, s.refs r = some rc
  data : ∀ r rc, s.refs r = some rc → rc.data ∈ s.objects
  injective : ∀ r rc r' rc', s.refs r = some rc → s.refs r' = some rc' →
    rc.data = rc'.data → r = r'
  managed : ∀ o ∈ s.objects, ∃ r rc, s.refs r = some rc ∧ rc.data = o

theorem toInt_sub_one {c : Int32} (h : 0 < c.toInt) : (c - 1).toInt = c.toInt - 1 := by
  have hlt := c.toInt_lt
  rw [Int32.toInt_sub, Int32.toInt_one]
  exact Int.bmod_eq_of_le (by omega) (by omega)

theorem toInt_add_one {c : Int32} (h : 0 < c.toInt) (hlt : c.toInt + 1 < 2 ^ 31) :
    (c + 1).toInt = c.toInt + 1 := by
  rw [Int32.toInt_add, Int32.toInt_one]
  exact Int.bmod_eq_of_le (by omega) (by omega)

variable {s s₀ : SharedHeap} {x due : Option Addr} {h r y : Addr} {hs : List Addr}

theorem setRef_eq_some {ref : Option Addr} {h' : Addr} :
    (s.setRef h ref).ref h' = some r ↔ h' = h ∧ ref = some r ∨ h' ≠ h ∧ s.ref h' = some r := by
  show Function.update s.ref h ref h' = some r ↔ _
  by_cases heq : h' = h
  · rw [heq, Function.update_self, or_iff_left fun hne => hne.1 rfl, and_iff_right rfl]
  · rw [Function.update_of_ne heq, or_iff_right fun h => heq h.1, and_iff_right heq]

theorem mem_users : h ∈ s.users x r ↔ h ∈ s.handles ∧ some h ≠ x ∧ s.ref h = some r :=
  Finset.mem_filter

theorem card_erase_add (S : Finset Addr) (due : Option Addr) (href : h ∈ S ↔ due = some r) :
    (S.erase h).card + owed due r = S.card := by
  unfold owed
  by_cases hin : h ∈ S
  · rw [if_pos (href.mp hin), Finset.card_erase_add_one hin]
  · rw [if_neg fun hdue => hin (href.mpr hdue), Finset.erase_eq_of_notMem hin, add_zero]

theorem Managed.endHandle (hm : s.Managed x none) (hh : h ∈ s.handles) (hx : some h ≠ x) :
    SharedHeap.Managed { s with toStore := s.toStore.endHandle h } x (s.ref h) where
  counted r rc hrc := by
    obtain ⟨hcount, hpos⟩ := hm.counted r rc hrc
    have hgone : SharedHeap.users { s with toStore := s.toStore.endHandle h } x r
        = (s.users x r).erase h := Finset.filter_erase ..
    have hcard := card_erase_add (s.users x r) (s.ref h) (h := h)
      (mem_users.trans ⟨fun h => h.2.2, fun href => ⟨hh, hx, href⟩⟩)
    rw [hgone]
    exact ⟨hcount.trans (congrArg Nat.cast hcard.symm), hpos⟩
  alive h' hh' := hm.alive h' (Finset.mem_of_mem_erase hh')
  dueAlive := hm.alive h hh hx
  data := hm.data
  injective := hm.injective
  managed := hm.managed

theorem Managed.mark (hm : s.Managed none none) (hh : h ∈ s.handles) :
    s.Managed (some h) (s.ref h) where
  counted r rc hrc := by
    obtain ⟨hcount, hpos⟩ := hm.counted r rc hrc
    have hmarked : s.users (some h) r = (s.users none r).erase h := by
      ext h'
      rw [Finset.mem_erase, mem_users, mem_users, ne_eq, Option.some.injEq]
      exact ⟨fun ⟨hh', hne, href⟩ => ⟨hne, hh', Option.some_ne_none _, href⟩,
        fun ⟨hne, hh', _, href⟩ => ⟨hh', hne, href⟩⟩
    have hcard := card_erase_add (s.users none r) (s.ref h) (h := h)
      (mem_users.trans ⟨fun h => h.2.2, fun href => ⟨hh, Option.some_ne_none h, href⟩⟩)
    rw [hmarked]
    exact ⟨hcount.trans (congrArg Nat.cast hcard.symm), hpos⟩
  alive h' hh' _ := hm.alive h' hh' (Option.some_ne_none h')
  dueAlive := hm.alive h hh (Option.some_ne_none h)
  data := hm.data
  injective := hm.injective
  managed := hm.managed

/-- What `release` does: nothing but counting, or the object is deleted, which no handle
referred to any more. -/
structure Released (s : SharedHeap) (x due : Option Addr) (more : List Addr) (s' : SharedHeap) :
    Prop where
  managed : s'.Managed x none
  ref : s'.ref = s.ref
  data : ∀ r rc, s'.refs r = some rc → ∃ rc₀, s.refs r = some rc₀ ∧ rc₀.data = rc.data
  store : more = [] ∧ s'.toStore = s.toStore ∨
    ∃ r rc, due = some r ∧ s.refs r = some rc ∧ s.users x r = ∅ ∧ more = s.members rc.data ∧
      s'.toStore = s.toStore.delete rc.data

theorem update_none_eq_some {refs : Addr → Option RefCount} {r' : Addr} {rc : RefCount}
    (h : Function.update refs r none r' = some rc) : r' ≠ r ∧ refs r' = some rc := by
  by_cases heq : r' = r
  · rw [heq, Function.update_self] at h
    cases h
  · rw [Function.update_of_ne heq] at h
    exact ⟨heq, h⟩

theorem Managed.deleteRef {rc : RefCount} (hm : s.Managed x (some r)) (hrc : s.refs r = some rc)
    (hlast : s.users x r = ∅) :
    SharedHeap.Managed
      { s with toStore := s.toStore.delete rc.data, refs := Function.update s.refs r none } x
      none where
  counted r' rc' hrc' := by
    obtain ⟨hne, hrc'⟩ := update_none_eq_some hrc'
    obtain ⟨hcount, hpos⟩ := hm.counted r' rc' hrc'
    rw [owed, if_neg fun h => hne (Option.some.inj h).symm] at hcount
    exact ⟨hcount, hpos⟩
  alive h hh hx r' href := by
    obtain ⟨rc', hrc'⟩ := hm.alive h hh hx r' href
    have hne : r' ≠ r := by
      rintro rfl
      have hin : h ∈ s.users x r' := mem_users.mpr ⟨hh, hx, href⟩
      rw [hlast] at hin
      cases hin
    exact ⟨rc', (Function.update_of_ne hne ..).trans hrc'⟩
  dueAlive _ hdue := by cases hdue
  data r' rc' hrc' := by
    obtain ⟨hne, hrc'⟩ := update_none_eq_some hrc'
    exact Finset.mem_erase.mpr
      ⟨fun hdata => hne (hm.injective r' rc' r rc hrc' hrc hdata), hm.data r' rc' hrc'⟩
  injective r₁ rc₁ r₂ rc₂ hrc₁ hrc₂ :=
    hm.injective r₁ rc₁ r₂ rc₂ (update_none_eq_some hrc₁).2 (update_none_eq_some hrc₂).2
  managed o ho := by
    obtain ⟨hne, ho⟩ := Finset.mem_erase.mp ho
    obtain ⟨r', rc', hrc', hdata⟩ := hm.managed o ho
    have heq : r' ≠ r := by
      rintro rfl
      rw [hrc] at hrc'
      obtain rfl := Option.some.inj hrc'
      exact hne hdata.symm
    exact ⟨r', rc', (Function.update_of_ne heq ..).trans hrc', hdata⟩

theorem update_some_eq_some {refs : Addr → Option RefCount} {r' : Addr} {rc rc' : RefCount}
    (h : Function.update refs r (some rc) r' = some rc') :
    r' = r ∧ rc' = rc ∨ r' ≠ r ∧ refs r' = some rc' := by
  by_cases heq : r' = r
  · rw [heq, Function.update_self] at h
    exact Or.inl ⟨heq, (Option.some.inj h).symm⟩
  · rw [Function.update_of_ne heq] at h
    exact Or.inr ⟨heq, h⟩

theorem Managed.recount {rc : RefCount} {c : Int32} {s' : SharedHeap} {x' : Option Addr}
    (hm : s.Managed x due) (hrc : s.refs r = some rc) (hstore : s'.toStore = s.toStore)
    (hrefs : s'.refs = Function.update s.refs r (some { rc with count := c }))
    (halive : ∀ h ∈ s.handles, some h ≠ x' → ∀ r, s'.ref h = some r →
      ∃ rc, s.refs r = some rc)
    (hcounted : ∀ r' rc', s'.refs r' = some rc' →
      rc'.count.toInt = ((s'.users x' r').card : Nat) ∧ 0 < rc'.count.toInt) :
    s'.Managed x' none := by
  have hdata {r' : Addr} {rc' : RefCount} (hrc' : s'.refs r' = some rc') :
      ∃ rc₀, s.refs r' = some rc₀ ∧ rc₀.data = rc'.data := by
    rw [hrefs] at hrc'
    rcases update_some_eq_some hrc' with ⟨rfl, rfl⟩ | ⟨-, hrc'⟩
    · exact ⟨rc, hrc, rfl⟩
    · exact ⟨rc', hrc', rfl⟩
  have hsome {r' : Addr} {rc₀ : RefCount} (hrc₀ : s.refs r' = some rc₀) :
      ∃ rc', s'.refs r' = some rc' ∧ rc'.data = rc₀.data := by
    rw [hrefs]
    by_cases heq : r' = r
    · subst heq
      obtain rfl := Option.some.inj (hrc.symm.trans hrc₀)
      exact ⟨_, Function.update_self .., rfl⟩
    · exact ⟨rc₀, (Function.update_of_ne heq ..).trans hrc₀, rfl⟩
  refine ⟨hcounted, fun h hh hx r' href => ?_, fun _ hdue => ?_, fun r' rc' hrc' => ?_,
    fun r₁ rc₁ r₂ rc₂ hrc₁ hrc₂ heq => ?_, fun o ho => ?_⟩
  · obtain ⟨rc₀, hrc₀⟩ := halive h (hstore ▸ hh) hx r' href
    exact (hsome hrc₀).imp fun _ => And.left
  · cases hdue
  · obtain ⟨rc₀, hrc₀, hsame⟩ := hdata hrc'
    rw [hstore, ← hsame]
    exact hm.data r' rc₀ hrc₀
  · obtain ⟨rc₁', hrc₁', hsame₁⟩ := hdata hrc₁
    obtain ⟨rc₂', hrc₂', hsame₂⟩ := hdata hrc₂
    exact hm.injective r₁ rc₁' r₂ rc₂' hrc₁' hrc₂' (hsame₁.trans (heq.trans hsame₂.symm))
  · rw [hstore] at ho
    obtain ⟨r', rc₀, hrc₀, hsame⟩ := hm.managed o ho
    obtain ⟨rc', hrc', hsame'⟩ := hsome hrc₀
    exact ⟨r', rc', hrc', hsame'.trans hsame⟩

theorem deleteRef_eq {rc : RefCount} (hrc : s.refs r = some rc) (ho : rc.data ∈ s.objects) :
    s.deleteRef r = .ok (s.members rc.data,
      { s with toStore := s.toStore.delete rc.data, refs := Function.update s.refs r none }) := by
  unfold SharedHeap.deleteRef
  rw [hrc]
  exact if_pos ho

theorem Managed.decremented {rc : RefCount} (hm : s.Managed x (some r))
    (hrc : s.refs r = some rc) :
    (rc.count - 1).toInt = ((s.users x r).card : Nat) ∧
      (rc.count - 1 = 0 ↔ s.users x r = ∅) := by
  obtain ⟨hcount, hpos⟩ := hm.counted r rc hrc
  rw [owed, if_pos rfl] at hcount
  have hcard : (rc.count - 1).toInt = ((s.users x r).card : Nat) := by
    rw [toInt_sub_one hpos, hcount]
    omega
  refine ⟨hcard, ?_⟩
  rw [← Int32.toInt_inj, hcard, Int32.toInt_zero, Int.natCast_eq_zero, Finset.card_eq_zero]

theorem Managed.release (hm : s.Managed x due) :
    ∃ more s', s.release due = .ok (more, s') ∧ s.Released x due more s' := by
  cases due with
  | none => exact ⟨[], s, rfl, hm, rfl, fun r rc hrc => ⟨rc, hrc, rfl⟩, Or.inl ⟨rfl, rfl⟩⟩
  | some r =>
      obtain ⟨rc, hrc⟩ := hm.dueAlive r rfl
      obtain ⟨hcard, hzero⟩ := hm.decremented hrc
      let refs := Function.update s.refs r (some { rc with count := rc.count - 1 })
      have hdecrement : s.decrement r = .ok (rc.count - 1, { s with refs := refs }) := by
        unfold SharedHeap.decrement
        rw [hrc]
      have hrelease : s.release (some r) =
          if rc.count - 1 = 0 then SharedHeap.deleteRef { s with refs := refs } r
          else .ok ([], { s with refs := refs }) := by
        rw [SharedHeap.release, hdecrement]
        rfl
      rw [hrelease]
      by_cases hlast : rc.count - 1 = 0
      · have hempty := hzero.mp hlast
        refine ⟨s.members rc.data, { s with
          toStore := s.toStore.delete rc.data, refs := Function.update s.refs r none }, ?_,
          hm.deleteRef hrc hempty, rfl, fun r' rc' hrc' => ?_,
          Or.inr ⟨r, rc, rfl, hrc, hempty, rfl, rfl⟩⟩
        · have hdelete := deleteRef_eq (s := { s with refs := refs }) (r := r)
            (Function.update_self ..) (hm.data r rc hrc)
          rw [if_pos hlast, hdelete]
          simp only [refs, Function.update_idem]
        · exact ⟨rc', (update_none_eq_some hrc').2, rfl⟩
      · refine ⟨[], { s with refs := refs }, if_neg hlast, ?_, rfl, fun r' rc' hrc' => ?_,
          Or.inl ⟨rfl, rfl⟩⟩
        · refine hm.recount hrc rfl rfl hm.alive fun r' rc' hrc' => ?_
          rcases update_some_eq_some hrc' with ⟨rfl, rfl⟩ | ⟨hne, hrc'⟩
          · refine ⟨hcard, ?_⟩
            have hsome := Finset.card_pos.mpr
              (Finset.nonempty_iff_ne_empty.mpr fun h => hlast (hzero.mpr h))
            show 0 < (rc.count - 1).toInt
            rw [hcard]
            omega
          · obtain ⟨hcount, hpos⟩ := hm.counted r' rc' hrc'
            rw [owed, if_neg fun h => hne (Option.some.inj h).symm] at hcount
            exact ⟨hcount, hpos⟩
        · rcases update_some_eq_some hrc' with ⟨rfl, rfl⟩ | ⟨-, hrc'⟩
          · exact ⟨rc, hrc, rfl⟩
          · exact ⟨rc', hrc', rfl⟩

/-! ## Destructors -/

def graph (s : SharedHeap) : RefGraph Addr Addr where
  target h o := h ∈ s.handles ∧ ∃ r rc, s.ref h = some r ∧ s.refs r = some rc ∧ rc.data = o
  member o h := o ∈ s.objects ∧ h ∈ s.members o

/-- The destructors are under way since `s₀`, in which a handle `y` was about to be
destroyed (`x` is `none`) or written (`x` is that handle). -/
structure Sweeping (s₀ : SharedHeap) (y : Addr) (x : Option Addr) (hs : List Addr)
    (s : SharedHeap) : Prop where
  sweep : s₀.toStore.Sweep (s₀.graph.without y) y (x = some y) hs s.toStore
  ref : s.ref = s₀.ref
  data : ∀ r rc, s.refs r = some rc → ∃ rc₀, s₀.refs r = some rc₀ ∧ rc₀.data = rc.data
  managed : s.Managed x none

variable (hd : s₀.toStore.Dropping (s₀.graph.without y) y (x = some y))
include hd

/-- The `release` that is about to run: if it deletes, nothing else refers to the object. -/
theorem release_sweeping (hx : x = none ∨ x = some y)
    (hsweep : s₀.toStore.Sweep (s₀.graph.without y) y (x = some y) hs s.toStore)
    (href : s.ref = s₀.ref)
    (hdata : ∀ r rc, s.refs r = some rc → ∃ rc₀, s₀.refs r = some rc₀ ∧ rc₀.data = rc.data)
    (hm : s.Managed x due) :
    ∃ more s', s.release due = .ok (more, s') ∧ s₀.Sweeping y x (more ++ hs) s' ∧
      s'.handles = s.handles := by
  obtain ⟨more, s', hrelease, hreleased⟩ := hm.release
  have hdata' (r : Addr) (rc : RefCount) (hrc : s'.refs r = some rc) :
      ∃ rc₀, s₀.refs r = some rc₀ ∧ rc₀.data = rc.data := by
    obtain ⟨rc₁, hrc₁, hsame⟩ := hreleased.data r rc hrc
    obtain ⟨rc₀, hrc₀, hsame₀⟩ := hdata r rc₁ hrc₁
    exact ⟨rc₀, hrc₀, hsame₀.trans hsame⟩
  rcases hreleased.store with ⟨rfl, hstore⟩ | ⟨r, rc, -, hrc, hlast, rfl, hstore⟩
  · refine ⟨[], s', hrelease, ⟨?_, hreleased.ref.trans href, hdata', hreleased.managed⟩,
      congrArg Store.handles hstore⟩
    rw [hstore]
    exact hsweep
  · have hcut : ¬ (s₀.graph.without y).Reach rc.data := by
      refine hd.not_reach hsweep fun h htarget hlive => ?_
      obtain ⟨hne, -, r₀, rc₀, href₀, hrc₀, hsame₀⟩ := htarget
      have hnx : some h ≠ x := Store.some_ne_mark hx fun _ => hne
      have href' : s.ref h = some r₀ := (congrFun href h).trans href₀
      obtain ⟨rc₁, hrc₁⟩ := hm.alive h hlive hnx r₀ href'
      obtain ⟨rc₀', hrc₀', hsame₁⟩ := hdata r₀ rc₁ hrc₁
      obtain rfl := Option.some.inj (hrc₀.symm.trans hrc₀')
      obtain rfl := hm.injective r₀ rc₁ r rc hrc₁ hrc (hsame₁.symm.trans hsame₀)
      have hin : h ∈ s.users x r₀ := mem_users.mpr ⟨hlive, hnx, href'⟩
      rw [hlast] at hin
      cases hin
    have hhandles : s'.toStore.handles = (s.toStore.delete rc.data).handles := by rw [hstore]
    refine ⟨_, s', hrelease, ⟨?_, hreleased.ref.trans href, hdata', hreleased.managed⟩, hhandles⟩
    rw [hstore]
    exact hd.delete hsweep (hm.data r rc hrc) hcut

theorem dtor_sweeping (hx : x = none ∨ x = some y) (h : Addr) (hs : List Addr) (s : SharedHeap)
    (hinv : s₀.Sweeping y x (h :: hs) s) :
    ∃ more s', dtor h s = .ok (more, s') ∧ s₀.Sweeping y x (more ++ hs) s' ∧
      s'.handles.card < s.handles.card := by
  obtain ⟨hlive, hgone⟩ := hinv.sweep.waiting h (List.mem_cons_self ..)
  have hne : some h ≠ x := Store.some_ne_mark hx fun hkept heq =>
    hd.kept_not_gone hinv.sweep hkept (heq ▸ hgone)
  obtain ⟨more, s', heq, hinv', hhandles⟩ :=
    release_sweeping (s := { s with toStore := s.toStore.endHandle h }) hd hx
      hinv.sweep.endHandle hinv.ref hinv.data (hinv.managed.endHandle hlive hne)
  refine ⟨more, s', ?_, hinv', ?_⟩
  · have hread : s.read h = .ok (s.ref h) := if_pos hlive
    rw [dtor, hread]
    exact heq
  · rw [hhandles]
    exact Finset.card_erase_lt_of_mem hlive

theorem destroyAll_sweeping (hx : x = none ∨ x = some y) (hinv : s₀.Sweeping y x hs s) :
    ∃ s', s.destroyAll hs = .ok s' ∧ s₀.Sweeping y x [] s' :=
  Ownership.teardown_ok (dtor_sweeping hd hx) s.handles.card hs s hinv le_rfl

omit hd

theorem releaseAll_sweeping (hd : s.toStore.Dropping (s.graph.without y) y (some y = some y))
    (hm : s.Managed none none) (hy : y ∈ s.handles) :
    ∃ s', s.releaseAll (s.ref y) = .ok s' ∧ s.Sweeping y (some y) [] s' := by
  obtain ⟨more, s₁, heq, hinv, -⟩ := release_sweeping hd (Or.inr rfl) (hd.start_kept rfl hy) rfl
    (fun r rc hrc => ⟨rc, hrc, rfl⟩) (hm.mark hy)
  rw [List.append_nil] at hinv
  obtain ⟨s', hrun, hend⟩ := destroyAll_sweeping hd (Or.inr rfl) hinv
  refine ⟨s', ?_, hend⟩
  rw [releaseAll, heq]
  exact hrun

theorem destroy_sweeping
    (hd : s.toStore.Dropping (s.graph.without y) y ((none : Option Addr) = some y))
    (hm : s.Managed none none) (hy : y ∈ s.handles) :
    ∃ s', s.destroy y = .ok s' ∧ s.Sweeping y none [] s' := by
  have hstart := hd.start_ended (Option.some_ne_none y).symm hy
  exact destroyAll_sweeping hd (Or.inl rfl) ⟨hstart, rfl, fun r rc hrc => ⟨rc, hrc, rfl⟩, hm⟩

/-! ## Assigning between handles in one structure -/

/-- An acyclic heap in which every object is managed: it has one `RefCount`, and
the count is the number of handles that refer to it. No handle is marked and no
`release` is due, as it is between two operations of the client. -/
structure Valid (s : SharedHeap) : Prop where
  wf : s.toStore.WellFormed
  managed : s.Managed none none
  acyclic : s.graph.Acyclic

def target (s : SharedHeap) (h : Addr) : Option Addr :=
  (s.ref h).bind fun r => (s.refs r).map RefCount.data

variable {dst src o : Addr}

theorem target_eq_some :
    s.target h = some o ↔ ∃ r rc, s.ref h = some r ∧ s.refs r = some rc ∧ rc.data = o := by
  simp only [target, Option.bind_eq_some_iff, Option.map_eq_some_iff]
  exact ⟨fun ⟨r, href, rc, hrc, hdata⟩ => ⟨r, rc, href, hrc, hdata⟩,
    fun ⟨r, rc, href, hrc, hdata⟩ => ⟨r, href, rc, hrc, hdata⟩⟩

theorem target_eq_none (href : s.ref h = none) : s.target h = none := by
  rw [target, href]
  rfl

theorem Managed.has_user (hm : s.Managed x none) {rc : RefCount} (hrc : s.refs r = some rc) :
    ∃ h ∈ s.handles, some h ≠ x ∧ s.ref h = some r := by
  obtain ⟨hcount, hpos⟩ := hm.counted r rc hrc
  rw [owed, if_neg (Option.some_ne_none r).symm] at hcount
  obtain ⟨h, hin⟩ := Finset.card_pos.mp (show 0 < (s.users x r).card by omega)
  exact ⟨h, mem_users.mp hin⟩

theorem Managed.held (hm : s.Managed x none) (ho : o ∈ s.objects) :
    ∃ h ∈ s.handles, some h ≠ x ∧ s.target h = some o := by
  obtain ⟨r, rc, hrc, hdata⟩ := hm.managed o ho
  obtain ⟨h, hh, hx, href⟩ := hm.has_user hrc
  exact ⟨h, hh, hx, target_eq_some.mpr ⟨r, rc, href, hrc, hdata⟩⟩

theorem Valid.reach (hs : s.Valid) : ∀ o ∈ s.objects, s.graph.Reach o := by
  refine Store.reach_all hs.acyclic (fun _ _ => Iff.rfl) fun o ho => ?_
  obtain ⟨h, hh, -, htarget⟩ := hs.managed.held ho
  exact ⟨h, hh, target_eq_some.mp htarget⟩

theorem Valid.dropping (hs : s.Valid) {y : Addr} {kept : Prop}
    (hkept : kept ∨ ∀ o ∈ s.objects, y ∉ s.members o) :
    s.toStore.Dropping (s.graph.without y) y kept :=
  hs.wf.dropping hs.acyclic (fun _ _ => Iff.rfl) (fun _ _ h => h.1) hs.reach hkept

/-- What is not reached without the handle is gone, with the handles in it, and nothing
else. -/
structure Freed (s : SharedHeap) (dst : Addr) (s' : SharedHeap) : Prop where
  ref : s'.ref = s.ref
  data : ∀ r rc, s'.refs r = some rc → ∃ rc₀, s.refs r = some rc₀ ∧ rc₀.data = rc.data
  managed : s'.Managed (some dst) none
  dstAlive : dst ∈ s'.handles
  handles : ∀ h, h ∈ s'.handles ↔ h ∈ s.handles ∧
    ∀ o ∈ s.objects, h ∈ s.members o → (s.graph.without dst).Reach o
  objects : ∀ o, o ∈ s'.objects ↔ o ∈ s.objects ∧ (s.graph.without dst).Reach o
  deleted : ∃ D, s'.deleted = s.deleted ++ D ∧ D.Nodup ∧
    ∀ o, o ∈ D ↔ o ∈ s.objects ∧ ¬ (s.graph.without dst).Reach o

/-- What is left after the destructors is what is reached without the handle. -/
theorem Valid.sweeping_left (hs : s.Valid)
    (hd : s.toStore.Dropping (s.graph.without y) y (x = some y)) {s' : SharedHeap}
    (hsweeping : s.Sweeping y x [] s') (hy : y ∈ s'.handles → x = some y) (ho : o ∈ s.objects) :
    o ∈ s'.objects ↔ (s.graph.without y).Reach o := by
  have hsweep := hsweeping.sweep
  refine hd.objects_iff hsweep (hs.acyclic.without y) (fun o ho => ?_) ho
  obtain ⟨h, hh, hne, htarget⟩ := hsweeping.managed.held ho
  obtain ⟨r, rc, href, hrc, hdata⟩ := target_eq_some.mp htarget
  obtain ⟨rc₀, hrc₀, hsame⟩ := hsweeping.data r rc hrc
  have hother : h ≠ y := by
    rintro rfl
    exact hne (hy hh).symm
  exact ⟨h, hh, hother, ((hsweep.handles h).mp hh).1, r, rc₀,
    (congrFun hsweeping.ref h).symm.trans href, hrc₀, hsame.trans hdata⟩

theorem Valid.releaseAll (hs : s.Valid) (hdst : dst ∈ s.handles) :
    ∃ s', s.releaseAll (s.ref dst) = .ok s' ∧ s.Freed dst s' := by
  have hd := hs.dropping (y := dst) (Or.inl (rfl : some dst = some dst))
  obtain ⟨s', hrun, hsweeping⟩ := releaseAll_sweeping hd hs.managed hdst
  have hleft {o : Addr} (ho : o ∈ s.objects) := hs.sweeping_left hd hsweeping (fun _ => rfl) ho
  have hsweep := hsweeping.sweep
  refine ⟨s', hrun, hsweeping.ref, hsweeping.data, hsweeping.managed, ?_, fun h => ?_,
    fun o => ?_, ?_⟩
  · exact hd.kept_alive hsweep rfl hdst
  · rw [hsweep.handles, or_iff_right List.not_mem_nil]
    refine and_congr_right fun _ => ⟨fun hnot o ho hmember => ?_, ?_⟩
    · by_contra hcut
      exact hnot (Or.inr ⟨o, ho, fun hin => hcut ((hleft ho).mp hin), hmember⟩)
    · rintro hall (⟨-, hnot⟩ | ⟨o, ho, hno, hmember⟩)
      · exact hnot rfl
      · exact hno ((hleft ho).mpr (hall o ho hmember))
  · exact ⟨fun ho => ⟨hsweep.objects ho, (hleft (hsweep.objects ho)).mp ho⟩,
      fun ho => (hleft ho.1).mpr ho.2⟩
  · obtain ⟨D, hdeleted, hnodup, hD⟩ := hsweep.deleted
    exact ⟨D, hdeleted, hnodup, fun o => (hD o).trans (and_congr_right fun ho => (hleft ho).not)⟩

theorem Valid.destroy (hs : s.Valid) (hh : h ∈ s.handles)
    (hroot : ∀ o ∈ s.objects, h ∉ s.members o) :
    ∃ s' D, s.destroy h = .ok s' ∧ h ∉ s'.handles ∧ s'.Managed none none ∧
      s'.deleted = s.deleted ++ D ∧ D.Nodup ∧
      ∀ o, o ∈ D ↔ o ∈ s.objects ∧ ¬ (s.graph.without h).Reach o := by
  have hkept : ¬ (none : Option Addr) = some h := (Option.some_ne_none h).symm
  have hd : s.toStore.Dropping (s.graph.without h) h ((none : Option Addr) = some h) :=
    hs.dropping (Or.inr hroot)
  obtain ⟨s', hrun, hsweeping⟩ := destroy_sweeping hd hs.managed hh
  have hgone : h ∉ s'.handles := hsweeping.sweep.ended hkept
  obtain ⟨D, hdeleted, hnodup, hD⟩ := hsweeping.sweep.deleted
  refine ⟨s', D, hrun, hgone, hsweeping.managed, hdeleted, hnodup, fun o => ?_⟩
  rw [hD]
  exact and_congr_right fun ho =>
    (hs.sweeping_left hd hsweeping (fun hin => (hgone hin).elim) ho).not

/-- The graph in which `dst` refers to what `src` does. -/
def redirected (s : SharedHeap) (dst src : Addr) : RefGraph Addr Addr :=
  s.graph.retarget dst (s.graph.target src)

/-- An assignment leaves `dst` with the object of `src`, and deletes what is then no longer
reached, each once. -/
def Assigned (s : SharedHeap) (dst src : Addr) : Prop :=
  ∃ s' D, s.assign dst src = .ok s' ∧ s'.target dst = s.target src ∧
    (∀ o, s.target src = some o → o ∈ s'.objects ∧ o ∉ D) ∧
    s'.deleted = s.deleted ++ D ∧ D.Nodup ∧
    ∀ o, o ∈ D ↔ o ∈ s.objects ∧ ¬ (s.redirected dst src).Reach o

theorem Valid.target_alive (hs : s.Valid) (htarget : s.target h = some o) : o ∈ s.objects := by
  obtain ⟨r, rc, -, hrc, rfl⟩ := target_eq_some.mp htarget
  exact hs.managed.data r rc hrc

theorem Valid.assigned_self (hs : s.Valid) : s.Assigned dst dst := by
  refine ⟨s, [], if_pos rfl, rfl, fun o ho => ⟨hs.target_alive ho, List.not_mem_nil⟩,
    (List.append_nil _).symm, List.nodup_nil, fun o => iff_of_false List.not_mem_nil ?_⟩
  exact fun ⟨ho, hnot⟩ => hnot ((hs.reach o ho).retarget_self dst)

theorem assign_eq {s₁ : SharedHeap} (hne : dst ≠ src) (hdst : dst ∈ s.handles)
    (hrelease : s.releaseAll (s.ref dst) = .ok s₁) (hdst₁ : dst ∈ s₁.handles)
    (hsrc₁ : src ∈ s₁.handles) :
    s.assign dst src = (s₁.setRef dst (s₁.ref src)).incrementRef (s₁.ref src) := by
  have hread : s.read dst = .ok (s.ref dst) := if_pos hdst
  have hread₁ : s₁.read src = .ok (s₁.ref src) := if_pos hsrc₁
  have hwrite : s₁.write dst (s₁.ref src) = .ok (s₁.setRef dst (s₁.ref src)) := if_pos hdst₁
  rw [assign, if_neg hne, hread]
  show (s.releaseAll (s.ref dst) >>= fun s => _) = _
  rw [hrelease]
  show (s₁.read src >>= fun ref => _) = _
  rw [hread₁]
  show (s₁.write dst (s₁.ref src) >>= fun s => _) = _
  rw [hwrite]
  rfl

/-- `src` is in what is deleted, so it is gone when it is read. -/
theorem Valid.assign_within (hs : s.Valid) (hdst : dst ∈ s.handles) (hne : dst ≠ src)
    (ho : o ∈ s.objects) (hmember : src ∈ s.members o)
    (hcut : ¬ (s.graph.without dst).Reach o) : s.assign dst src = .error .destroyed := by
  obtain ⟨s₁, hrelease, h₁⟩ := hs.releaseAll hdst
  have hgone : src ∉ s₁.handles := fun h => hcut (((h₁.handles src).mp h).2 o ho hmember)
  have hread : s.read dst = .ok (s.ref dst) := if_pos hdst
  have hfault : s₁.read src = .error .destroyed := if_neg hgone
  rw [assign, if_neg hne, hread]
  show (s.releaseAll (s.ref dst) >>= fun s => _) = _
  rw [hrelease]
  show (s₁.read src >>= fun ref => _) = _
  rw [hfault]
  rfl

theorem increment_eq {rc : RefCount} (hrc : s.refs r = some rc) :
    s.increment r = .ok { s with
      refs := Function.update s.refs r (some { rc with count := rc.count + 1 }) } := by
  unfold SharedHeap.increment
  rw [hrc]

/-- What `src` refers to is reached without `dst`, if `src` is left. -/
theorem reach_src (hne : dst ≠ src)
    (hapart : ∀ o ∈ s.objects, src ∈ s.members o → (s.graph.without dst).Reach o)
    (htarget : s.graph.target src o) : (s.graph.without dst).Reach o := by
  by_cases hroot : s.graph.Root src
  · exact .root hroot ⟨hne.symm, htarget⟩
  · obtain ⟨o', hmember⟩ := not_forall_not.mp hroot
    exact .step (hapart o' hmember.1 hmember.2) hmember ⟨hne.symm, htarget⟩

theorem Freed.assign {s₁ : SharedHeap} (h₁ : s.Freed dst s₁) (hne : dst ≠ src)
    (hdst : dst ∈ s.handles) (hsrc₁ : src ∈ s₁.handles)
    (hrelease : s.releaseAll (s.ref dst) = .ok s₁) :
    ∃ s', s.assign dst src = .ok s' ∧ s'.toStore = s₁.toStore ∧ s'.target dst = s.target src ∧
      ∀ o, s.target src = some o → o ∈ s₁.objects := by
  rw [assign_eq hne hdst hrelease h₁.dstAlive hsrc₁]
  cases href : s₁.ref src with
  | none =>
      have hnone : s.target src = none := target_eq_none ((congrFun h₁.ref src).symm.trans href)
      refine ⟨_, rfl, rfl, ?_, fun o ho => ?_⟩
      · rw [hnone]
        exact target_eq_none (Function.update_self ..)
      · rw [hnone] at ho
        cases ho
  | some r =>
      have hmarked : some src ≠ some dst := fun heq => hne (Option.some.inj heq).symm
      obtain ⟨rc, hrc⟩ := h₁.managed.alive src hsrc₁ hmarked r href
      obtain ⟨rc₀, hrc₀, hsame⟩ := h₁.data r rc hrc
      have hsome : s.target src = some rc.data :=
        target_eq_some.mpr ⟨r, rc₀, (congrFun h₁.ref src).symm.trans href, hrc₀, hsame⟩
      refine ⟨_, increment_eq (s := s₁.setRef dst (some r)) hrc, rfl, ?_, fun o ho => ?_⟩
      · rw [hsome]
        exact target_eq_some.mpr ⟨r, _, Function.update_self .., Function.update_self .., rfl⟩
      · obtain rfl := Option.some.inj (hsome.symm.trans ho)
        exact h₁.managed.data r rc hrc

theorem Valid.assigned_apart (hs : s.Valid) (hdst : dst ∈ s.handles) (hsrc : src ∈ s.handles)
    (hne : dst ≠ src)
    (hapart : ∀ o ∈ s.objects, src ∈ s.members o → (s.graph.without dst).Reach o) :
    s.Assigned dst src := by
  obtain ⟨s₁, hrelease, h₁⟩ := hs.releaseAll hdst
  have hsrc₁ := (h₁.handles src).mpr ⟨hsrc, hapart⟩
  obtain ⟨s', hassign, hstore, htarget, halive⟩ := h₁.assign hne hdst hsrc₁ hrelease
  obtain ⟨D, hdeleted, hnodup, hD⟩ := h₁.deleted
  refine ⟨s', D, hassign, htarget, fun o ho => ⟨?_, fun hin => ?_⟩, ?_, hnodup, fun o => ?_⟩
  · rw [hstore]
    exact halive o ho
  · exact ((hD o).mp hin).2 ((h₁.objects o).mp (halive o ho)).2
  · rw [hstore]
    exact hdeleted
  · rw [hD, redirected, Ownership.reach_retarget_iff fun o => reach_src hne hapart]

end SharedHeap

open SharedHeap

/-- In an acyclic heap of managed objects: an assignment does what it should exactly if it
is to the handle itself, or `src` is not a member of an object that is reached through
`dst` only. -/
theorem assigned_iff {s : SharedHeap} {dst src : Addr} (hs : s.Valid) (hdst : dst ∈ s.handles)
    (hsrc : src ∈ s.handles) :
    s.Assigned dst src ↔
      dst = src ∨ ∀ o ∈ s.objects, src ∈ s.members o → (s.graph.without dst).Reach o := by
  constructor
  · rintro ⟨s', D, hrun, -⟩
    refine or_iff_not_imp_left.mpr fun hne o ho hmember => ?_
    by_contra hcut
    rw [hs.assign_within hdst hne ho hmember hcut] at hrun
    cases hrun
  · rintro (rfl | hapart)
    · exact hs.assigned_self
    · by_cases hne : dst = src
      · exact hne ▸ hs.assigned_self
      · exact hs.assigned_apart hdst hsrc hne hapart

/-- `p` at 0, and a list of two nodes, the objects 10 and 11, with the handles 1 and 2 for
`next` and the `RefCount`s 20 and 21; 3 refers to nothing. -/
def twoSharedNodes : SharedHeap where
  handles := {0, 1, 2, 3}
  objects := {10, 11}
  members o := if o = 10 then [1] else if o = 11 then [2] else []
  deleted := []
  ref h := if h = 0 then some 20 else if h = 1 then some 21 else none
  refs r := if r = 20 then some ⟨10, 1⟩ else if r = 21 then some ⟨11, 1⟩ else none

theorem twoSharedNodes_refs {r : Addr} {rc : RefCount} (h : twoSharedNodes.refs r = some rc) :
    r = 20 ∧ rc = ⟨10, 1⟩ ∨ r = 21 ∧ rc = ⟨11, 1⟩ := by
  by_cases h20 : r = 20
  · subst h20
    exact Or.inl ⟨rfl, (Option.some.inj h).symm⟩
  · by_cases h21 : r = 21
    · subst h21
      exact Or.inr ⟨rfl, (Option.some.inj h).symm⟩
    · have hnone : twoSharedNodes.refs r = none := (if_neg h20).trans (if_neg h21)
      rw [hnone] at h
      cases h

theorem twoSharedNodes_ref {h r : Addr} (href : twoSharedNodes.ref h = some r) :
    h = 0 ∧ r = 20 ∨ h = 1 ∧ r = 21 := by
  by_cases h0 : h = 0
  · subst h0
    exact Or.inl ⟨rfl, (Option.some.inj href).symm⟩
  · by_cases h1 : h = 1
    · subst h1
      exact Or.inr ⟨rfl, (Option.some.inj href).symm⟩
    · have hnone : twoSharedNodes.ref h = none := (if_neg h0).trans (if_neg h1)
      rw [hnone] at href
      cases href

theorem twoSharedNodes_valid : twoSharedNodes.Valid where
  wf := ⟨by decide, by decide, by decide⟩
  managed := by
    refine ⟨fun r rc hrc => ?_, fun h _ _ r href => ?_, fun r hr => ?_, fun r rc hrc => ?_,
      fun r rc r' rc' hrc hrc' heq => ?_, fun o ho => ?_⟩
    · rcases twoSharedNodes_refs hrc with ⟨rfl, rfl⟩ | ⟨rfl, rfl⟩
      · exact ⟨by decide, by decide⟩
      · exact ⟨by decide, by decide⟩
    · rcases twoSharedNodes_ref href with ⟨-, rfl⟩ | ⟨-, rfl⟩
      · exact ⟨⟨10, 1⟩, rfl⟩
      · exact ⟨⟨11, 1⟩, rfl⟩
    · cases hr
    · rcases twoSharedNodes_refs hrc with ⟨rfl, rfl⟩ | ⟨rfl, rfl⟩
      · exact Finset.mem_insert_self 10 _
      · exact Finset.mem_insert_of_mem (Finset.mem_singleton_self 11)
    · rcases twoSharedNodes_refs hrc with ⟨rfl, rfl⟩ | ⟨rfl, rfl⟩ <;>
        rcases twoSharedNodes_refs hrc' with ⟨rfl, rfl⟩ | ⟨rfl, rfl⟩
      · rfl
      · cases heq
      · cases heq
      · rfl
    · rcases Finset.mem_insert.mp ho with rfl | ho
      · exact ⟨20, ⟨10, 1⟩, rfl, rfl⟩
      · obtain rfl := Finset.mem_singleton.mp ho
        exact ⟨21, ⟨11, 1⟩, rfl, rfl⟩
  acyclic := by
    refine Ownership.acyclic_of_rank id ?_
    rintro o o' ⟨h, ⟨ho, hmember⟩, -, r, rc, href, hrc, rfl⟩
    rcases Finset.mem_insert.mp ho with rfl | ho
    · obtain rfl := List.mem_singleton.mp hmember
      obtain rfl := Option.some.inj href
      obtain rfl := Option.some.inj hrc
      decide
    · obtain rfl := Finset.mem_singleton.mp ho
      obtain rfl := List.mem_singleton.mp hmember
      cases href

theorem assigned_iff_twoSharedNodes :
    twoSharedNodes.Assigned 3 1 ↔ (3 : Addr) = 1 ∨ ∀ o ∈ twoSharedNodes.objects,
      1 ∈ twoSharedNodes.members o → (twoSharedNodes.graph.without 3).Reach o :=
  assigned_iff twoSharedNodes_valid (by decide) (by decide)

/-- `p = p->next`: the handle in the first node is destroyed with it, before it is read. -/
theorem p_next_destroyed : ¬ twoSharedNodes.Assigned 0 1 := by
  rintro ⟨s', D, hrun, -⟩
  cases hrun

end CppDemos
