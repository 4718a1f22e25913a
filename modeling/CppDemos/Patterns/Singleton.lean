import CppDemos.Lib.Machine
import CppDemos.Lib.Monitor

/-!
# LazySingleton.cpp

`LazySingleton::get` with any number of threads `ι` in it, objects being known by their
addresses `P`. A step is one access to `instance` or to the mutex, or one part of the `new`.

The first test and the final read are made without the mutex, so all that is asked of a thread
outside it is what its test has told it: that `instance` is set (`Holds`). Everything else is
known of the one thread inside. Whether the object has been begun is a matter of whether
`instance` is set or that thread is at it (`Single.idle`).
-/

namespace CppDemos

open Machine

/-! ## The threads -/

/-- Where a thread stands in `get`. -/
inductive LazySingleton.Pc (P : Type) where
  | outside
  /-- Before the first test. -/
  | entered
  /-- Before `lock_guard<mutex> lock(mtx)`. -/
  | toLock
  /-- Before the second test. -/
  | locked
  /-- Before the memory for the object is there. -/
  | allocating
  /-- In the constructor. -/
  | constructing (tmp : P)
  /-- Before `atomic_thread_fence`. -/
  | constructed (tmp : P)
  /-- Before `instance = tmp`. -/
  | publishing (tmp : P)
  /-- Before the mutex is unlocked. -/
  | unlocking
  /-- There was no memory; the mutex is unlocked on the way out. -/
  | unwinding
  /-- Before `return instance`. -/
  | returning

/-- `instance`, and what has happened to objects: constructors begun and finished, and what was
assigned to `instance`. -/
structure LazySingleton.Memory (P : Type) where
  inst : Option P := none
  begun : List P := []
  finished : List P := []
  assigned : List P := []

/-- `LazySingleton` with its mutex, the threads, and what they have got from `get`. -/
structure LazySingleton (ι P : Type) where
  mem : LazySingleton.Memory P
  mtx : Monitor ι Empty
  pc : ι → LazySingleton.Pc P
  returned : List (Option P)

inductive LazySingleton.ThreadStep (P : Type) where
  | call
  | test
  | lock
  | retest
  | allocate (p : P)
  | badAlloc
  | construct
  | fence
  | publish
  | unlock
  | unwind
  | ret

namespace LazySingleton

variable {ι P : Type}

def init : LazySingleton ι P where
  mem := {}
  mtx := .free
  pc _ := .outside
  returned := []

variable [DecidableEq ι]

def goto (s : LazySingleton ι P) (t : ι) (next : Pc P) : LazySingleton ι P :=
  { s with pc := Function.update s.pc t next }

def step (s : LazySingleton ι P) : ι × ThreadStep P → Option (LazySingleton ι P)
  | (t, e) =>
    match s.pc t, e with
    | .outside, .call => some (s.goto t .entered)
    | .entered, .test => some (s.goto t (if s.mem.inst.isNone then .toLock else .returning))
    | .toLock, .lock => (s.mtx.lock t).map fun m => { s.goto t .locked with mtx := m }
    | .locked, .retest => some (s.goto t (if s.mem.inst.isNone then .allocating else .unlocking))
    | .allocating, .allocate p =>
        some { s.goto t (.constructing p) with
          mem := { s.mem with begun := s.mem.begun ++ [p] } }
    | .allocating, .badAlloc => some (s.goto t .unwinding)
    | .constructing tmp, .construct =>
        some { s.goto t (.constructed tmp) with
          mem := { s.mem with finished := s.mem.finished ++ [tmp] } }
    | .constructed tmp, .fence => some (s.goto t (.publishing tmp))
    | .publishing tmp, .publish =>
        some { s.goto t .unlocking with
          mem := { s.mem with inst := some tmp, assigned := s.mem.assigned ++ [tmp] } }
    | .unlocking, .unlock => (s.mtx.unlock t).map fun m => { s.goto t .returning with mtx := m }
    | .unwinding, .unwind => (s.mtx.unlock t).map fun m => { s.goto t .outside with mtx := m }
    | .returning, .ret => some { s.goto t .outside with returned := s.returned ++ [s.mem.inst] }
    | _, _ => none

/-! ## The invariant -/

def Pc.Inside : Pc P → Prop
  | .locked | .allocating | .constructing _ | .constructed _ | .publishing _ | .unlocking
  | .unwinding => True
  | .outside | .entered | .toLock | .returning => False

/-- An object is begun and not yet published. -/
def Pc.Making : Pc P → Prop
  | .constructing _ | .constructed _ | .publishing _ => True
  | _ => False

/-- What is so where a thread is at that place. -/
def Memory.Holds (mem : Memory P) : Pc P → Prop
  | .allocating => mem.inst = none ∧ mem.begun = [] ∧ mem.finished = []
  | .constructing tmp => mem.inst = none ∧ mem.begun = [tmp] ∧ mem.finished = []
  | .constructed tmp | .publishing tmp => mem.inst = none ∧ mem.begun = [tmp] ∧ mem.finished = [tmp]
  | .unlocking | .returning => mem.inst ≠ none
  | .outside | .entered | .toLock | .locked | .unwinding => True

/-- The object that is published is the only one. -/
structure Memory.Single (mem : Memory P) (making : Prop) : Prop where
  published : ∀ p, mem.inst = some p →
    mem.begun = [p] ∧ mem.finished = [p] ∧ mem.assigned = [p]
  unassigned : mem.inst = none → mem.assigned = []
  idle : mem.inst = none → mem.begun = [] ∧ mem.finished = [] ∨ making

structure Inv (s : LazySingleton ι P) : Prop where
  inside : ∀ t, (s.pc t).Inside → s.mtx.owner = some t
  here : ∀ t, s.mem.Holds (s.pc t)
  single : s.mem.Single (∃ t, (s.pc t).Making)
  returned : ∀ r ∈ s.returned, r = s.mem.inst ∧ r ≠ none

variable {s s' : LazySingleton ι P} {t : ι} {next : Pc P}

omit [DecidableEq ι] in
theorem inv_init : (init : LazySingleton ι P).Inv where
  inside _ h := h.elim
  here _ := trivial
  single :=
    { published _ h := nomatch h
      unassigned _ := rfl
      idle _ := .inl ⟨rfl, rfl⟩ }
  returned _ h := nomatch h

omit [DecidableEq ι] in
theorem Inv.outside (h : s.Inv) (howner : s.mtx.owner = some t) {u : ι} (hu : u ≠ t) :
    ¬ (s.pc u).Inside := by
  intro hin
  exact hu (Option.some.inj ((h.inside u hin).symm.trans howner))

omit [DecidableEq ι] in
theorem Inv.not_making (h : s.Inv) (howner : s.mtx.owner = some t) (ht : ¬ (s.pc t).Making) :
    ¬ ∃ u, (s.pc u).Making := by
  rintro ⟨u, hu⟩
  by_cases hut : u = t
  · exact ht (hut ▸ hu)
  · refine h.outside howner hut ?_
    cases hpc : s.pc u <;> rw [hpc] at hu
    case constructing => trivial
    case constructed => trivial
    case publishing => trivial
    all_goals exact hu.elim

theorem Inv.move (h : s.Inv) {m : Monitor ι Empty} {returned : List (Option P)}
    (hself : next.Inside → m.owner = some t)
    (hother : ∀ u, u ≠ t → s.mtx.owner = some u → m.owner = some u)
    (hmaking : (s.pc t).Making → next.Making) (hholds : s.mem.Holds next)
    (hreturned : ∀ r ∈ returned, r = s.mem.inst ∧ r ≠ none) :
    Inv { s.goto t next with mtx := m, returned := returned } where
  inside u hu := by
    by_cases hut : u = t
    · simp only [goto, hut, Function.update_self] at hu
      exact hut ▸ hself hu
    · simp only [goto, Function.update_of_ne hut] at hu
      exact hother u hut (h.inside u hu)
  here u := by
    by_cases hut : u = t
    · simpa [goto, hut] using hholds
    · simpa [goto, Function.update_of_ne hut] using h.here u
  single := by
    refine ⟨h.single.published, h.single.unassigned, fun hinst => ?_⟩
    refine (h.single.idle hinst).imp_right ?_
    rintro ⟨u, hu⟩
    refine ⟨u, ?_⟩
    by_cases hut : u = t
    · simpa [goto, hut] using hmaking (hut ▸ hu)
    · simpa [goto, Function.update_of_ne hut] using hu
  returned := hreturned

theorem Inv.write (h : s.Inv) (howner : s.mtx.owner = some t) (hinst : s.mem.inst = none)
    {mem : Memory P} (hholds : mem.Holds next) (hsingle : mem.Single next.Making) :
    Inv { s.goto t next with mem := mem } where
  inside u hu := by
    by_cases hut : u = t
    · exact hut ▸ howner
    · simp only [goto, Function.update_of_ne hut] at hu
      exact absurd hu (h.outside howner hut)
  here u := by
    by_cases hut : u = t
    · simpa [goto, hut] using hholds
    · have hout := h.outside howner hut
      have hu := h.here u
      simp only [goto, Function.update_of_ne hut]
      cases hpc : s.pc u <;> rw [hpc] at hout hu
      case outside => trivial
      case entered => trivial
      case toLock => trivial
      case returning => exact absurd hinst hu
      all_goals exact absurd trivial hout
  single := by
    refine ⟨hsingle.published, hsingle.unassigned, fun hnone => ?_⟩
    refine (hsingle.idle hnone).imp_right fun hmaking => ⟨t, ?_⟩
    simpa [goto] using hmaking
  returned r hr := by
    obtain ⟨heq, hne⟩ := h.returned r hr
    exact absurd (heq.trans hinst) hne

theorem Inv.read (h : s.Inv) (hself : next.Inside → s.mtx.owner = some t)
    (hmaking : (s.pc t).Making → next.Making) (hholds : s.mem.Holds next) :
    (s.goto t next).Inv :=
  h.move hself (fun _ _ howner => howner) hmaking hholds h.returned

theorem Inv.unlock (h : s.Inv) {m : Monitor ι Empty} (hm : s.mtx.unlock t = some m)
    (hnext : ¬ next.Inside) (hmaking : ¬ (s.pc t).Making) (hholds : s.mem.Holds next) :
    Inv { s.goto t next with mtx := m } := by
  obtain ⟨howner, -, -⟩ := Monitor.unlock_eq_some hm
  refine h.move (fun hin => absurd hin hnext) (fun u hut hu => ?_)
    (fun hmake => absurd hmake hmaking) hholds h.returned
  exact absurd (Option.some.inj (hu.symm.trans howner)) hut

/-- One case for each place; the thread has just been there. -/
theorem Inv.step {e : ι × ThreadStep P} (h : s.Inv) (hstep : s.step e = some s') : s'.Inv := by
  obtain ⟨t, e⟩ := e
  have hin := h.inside t
  have hhere := h.here t
  simp only [LazySingleton.step] at hstep
  split at hstep
  case h_1 hpc =>
    obtain rfl := Option.some.inj hstep
    exact h.read False.elim (by rw [hpc]; exact False.elim) trivial
  case h_2 hpc =>
    obtain rfl := Option.some.inj hstep
    split
    · exact h.read False.elim (by rw [hpc]; exact False.elim) trivial
    · rename_i hset
      exact h.read False.elim (by rw [hpc]; exact False.elim) fun hnone => by simp [hnone] at hset
  case h_3 hpc =>
    obtain ⟨m, hm, rfl⟩ := Option.map_eq_some_iff.mp hstep
    obtain ⟨hfree, -, howner, -⟩ := Monitor.lock_eq_some hm
    refine h.move (fun _ => howner) (fun u _ hu => ?_) (by rw [hpc]; exact False.elim) trivial
      h.returned
    rw [hfree] at hu
    cases hu
  case h_4 hpc =>
    obtain rfl := Option.some.inj hstep
    have howner : s.mtx.owner = some t := hin (by rw [hpc]; trivial)
    have hnot : ¬ (s.pc t).Making := by rw [hpc]; exact id
    split
    · rename_i hnone
      have hinst : s.mem.inst = none := by simpa using hnone
      have hidle := (h.single.idle hinst).resolve_right (h.not_making howner hnot)
      exact h.read (fun _ => howner) (fun hmake => absurd hmake hnot) ⟨hinst, hidle⟩
    · rename_i hset
      exact h.read (fun _ => howner) (fun hmake => absurd hmake hnot)
        fun hnone => by simp [hnone] at hset
  case h_5 p hpc =>
    obtain rfl := Option.some.inj hstep
    have howner : s.mtx.owner = some t := hin (by rw [hpc]; trivial)
    rw [hpc] at hhere
    obtain ⟨hinst, hbegun, hfinished⟩ := hhere
    refine h.write howner hinst ⟨hinst, by simp [hbegun], hfinished⟩ ?_
    exact
      { published q hq := nomatch hinst.symm.trans hq
        unassigned := h.single.unassigned
        idle _ := .inr trivial }
  case h_6 hpc =>
    obtain rfl := Option.some.inj hstep
    have howner : s.mtx.owner = some t := hin (by rw [hpc]; trivial)
    exact h.read (fun _ => howner) (by rw [hpc]; exact False.elim) trivial
  case h_7 tmp hpc =>
    obtain rfl := Option.some.inj hstep
    have howner : s.mtx.owner = some t := hin (by rw [hpc]; trivial)
    rw [hpc] at hhere
    obtain ⟨hinst, hbegun, hfinished⟩ := hhere
    refine h.write howner hinst ⟨hinst, hbegun, by simp [hfinished]⟩ ?_
    exact
      { published q hq := nomatch hinst.symm.trans hq
        unassigned := h.single.unassigned
        idle _ := .inr trivial }
  case h_8 tmp hpc =>
    obtain rfl := Option.some.inj hstep
    have howner : s.mtx.owner = some t := hin (by rw [hpc]; trivial)
    rw [hpc] at hhere
    exact h.read (fun _ => howner) (fun _ => trivial) hhere
  case h_9 tmp hpc =>
    obtain rfl := Option.some.inj hstep
    have howner : s.mtx.owner = some t := hin (by rw [hpc]; trivial)
    rw [hpc] at hhere
    obtain ⟨hinst, hbegun, hfinished⟩ := hhere
    refine h.write howner hinst (fun hnone => nomatch hnone) ?_
    exact
      { published q hq := by
          obtain rfl := Option.some.inj hq
          exact ⟨hbegun, hfinished, by simp [h.single.unassigned hinst]⟩
        unassigned hnone := nomatch hnone
        idle hnone := nomatch hnone }
  case h_10 hpc =>
    obtain ⟨m, hm, rfl⟩ := Option.map_eq_some_iff.mp hstep
    rw [hpc] at hhere
    exact h.unlock hm id (by rw [hpc]; exact id) hhere
  case h_11 hpc =>
    obtain ⟨m, hm, rfl⟩ := Option.map_eq_some_iff.mp hstep
    exact h.unlock hm id (by rw [hpc]; exact id) trivial
  case h_12 hpc =>
    obtain rfl := Option.some.inj hstep
    rw [hpc] at hhere
    refine h.move False.elim (fun _ _ howner => howner) (by rw [hpc]; exact False.elim) trivial ?_
    intro r hr
    rcases List.mem_append.mp hr with hold | hnew
    · exact h.returned r hold
    · obtain rfl := List.mem_singleton.mp hnew
      exact ⟨rfl, hhere⟩
  case h_13 => cases hstep

/-! ## Every run -/

/-- The object is made once and published once it is made, and all get it. The
lists of the memory are histories: what has been begun, finished or assigned is
never taken off them, so their lengths count the constructions. -/
structure Once (s : LazySingleton ι P) : Prop where
  begun : s.mem.begun.length ≤ 1
  assigned : s.mem.assigned.length ≤ 1
  after : ∀ p ∈ s.mem.assigned, p ∈ s.mem.finished
  made : ∀ r ∈ s.returned, ∃ p ∈ s.mem.finished, r = some p
  same : ∀ r ∈ s.returned, ∀ r' ∈ s.returned, r = r'

omit [DecidableEq ι] in
theorem Inv.begun (h : s.Inv) : s.mem.begun.length ≤ 1 := by
  cases hinst : s.mem.inst with
  | some p => simp [(h.single.published p hinst).1]
  | none =>
      rcases h.single.idle hinst with ⟨hbegun, -⟩ | ⟨t, ht⟩
      · simp [hbegun]
      · have hhere := h.here t
        cases hpc : s.pc t <;> rw [hpc] at ht hhere
        case constructing => simp [hhere.2.1]
        case constructed => simp [hhere.2.1]
        case publishing => simp [hhere.2.1]
        all_goals exact ht.elim

omit [DecidableEq ι] in
theorem Inv.once (h : s.Inv) : s.Once where
  begun := h.begun
  assigned := by
    cases hinst : s.mem.inst with
    | some p => simp [(h.single.published p hinst).2.2]
    | none => simp [h.single.unassigned hinst]
  after p hp := by
    cases hinst : s.mem.inst with
    | some q =>
        obtain ⟨-, hfinished, hassigned⟩ := h.single.published q hinst
        rw [hassigned] at hp
        rwa [hfinished]
    | none => simp [h.single.unassigned hinst] at hp
  made r hr := by
    obtain ⟨rfl, hne⟩ := h.returned r hr
    obtain ⟨p, hp⟩ := Option.ne_none_iff_exists'.mp hne
    exact ⟨p, by simp [(h.single.published p hp).2.1], hp⟩
  same r hr r' hr' := (h.returned r hr).1.trans (h.returned r' hr').1.symm

/-- However the threads go about it. -/
theorem constructed_once {es : List (ι × ThreadStep P)}
    (h : run LazySingleton.step (init : LazySingleton ι P) es = some s) : s.Once :=
  (run_invariant (fun _ _ _ hi hstep => hi.step hstep) h inv_init).once

/-- Two threads find `instance` unset, and the one waits for the mutex while the other makes the
object. -/
def twoCallers : List (Bool × ThreadStep Nat) :=
  [(true, .call), (false, .call), (true, .test), (false, .test), (true, .lock), (true, .retest),
    (true, .allocate 7), (true, .construct), (true, .fence), (true, .publish), (true, .unlock),
    (false, .lock), (false, .retest), (false, .unlock), (false, .ret), (true, .ret)]

theorem constructed_once_two : ∃ s : LazySingleton Bool Nat,
    run LazySingleton.step init twoCallers = some s ∧ s.returned = [some 7, some 7] ∧ s.Once := by
  have hreturned : (run LazySingleton.step init twoCallers).map (·.returned) =
      some [some 7, some 7] := by decide
  obtain ⟨s, hrun, hs⟩ := Option.map_eq_some_iff.mp hreturned
  exact ⟨s, hrun, hs, constructed_once hrun⟩

end LazySingleton

end CppDemos
