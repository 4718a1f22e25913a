import Mathlib.Data.Fintype.Basic
import Mathlib.Logic.Function.Basic

/-!
# Mutexes with condition variables

A mutex and its condition variables as threads `ι` use them: who owns the mutex
and, for each thread, whether it is blocked on a condition variable, has been
woken and has yet to get the mutex back, or neither. A signal wakes at least
one of the threads that wait, if there are any, and possibly more; any thread
may wake spuriously.

Every operation is described by what it does to the owner and by who is blocked
after it. Threads leave `blocked` by being woken only, so that a statement about
the threads blocked on a condition variable survives every operation but
`sleep`.
-/

/-- Where a thread stands with respect to the condition variables `κ`. -/
inductive Monitor.Wait (κ : Type*) where
  | running
  | blocked (c : κ)
  | woken
deriving DecidableEq, Repr

/-- The owner of the mutex, who is running, and where each thread stands. A
thread that has been woken is not running yet: it has to get the mutex back
first, and until then others may get in before it. -/
@[ext] structure Monitor (ι κ : Type*) where
  owner : Option ι
  wait : ι → Monitor.Wait κ
  running : ∀ t, owner = some t → wait t = .running

namespace Monitor

variable {ι κ : Type*} {m m' : Monitor ι κ} {t u : ι} {c d : κ}

/-- Nobody owns the mutex and nobody waits. -/
def free : Monitor ι κ where
  owner := none
  wait _ := .running
  running _ h := nomatch h

/-- `pthread_mutex_lock`, when it returns. -/
def lock [DecidableEq ι] [DecidableEq κ] (m : Monitor ι κ) (t : ι) : Option (Monitor ι κ) :=
  if h : m.owner = none ∧ m.wait t = .running then
    some
      { m with
        owner := some t
        running := fun _ hu => Option.some.inj hu ▸ h.2 }
  else none

/-- `pthread_mutex_unlock`. -/
def unlock [DecidableEq ι] (m : Monitor ι κ) (t : ι) : Option (Monitor ι κ) :=
  if m.owner = some t then
    some { m with owner := none, running := fun _ h => nomatch h }
  else none

/-- `pthread_cond_wait`, up to where it blocks. -/
def sleep [DecidableEq ι] (m : Monitor ι κ) (t : ι) (c : κ) : Option (Monitor ι κ) :=
  if m.owner = some t then
    some
      { owner := none
        wait := Function.update m.wait t (.blocked c)
        running := fun _ h => nomatch h }
  else none

/-- The chosen threads, as far as they are blocked on `c`, are woken. -/
def wake [DecidableEq κ] (m : Monitor ι κ) (c : κ) (p : ι → Bool) : Monitor ι κ where
  owner := m.owner
  wait t := if p t ∧ m.wait t = .blocked c then .woken else m.wait t
  running t h := by
    rw [if_neg, m.running t h]
    rw [m.running t h]
    rintro ⟨-, heq⟩
    cases heq

/-- What is woken when the condition may have changed. -/
inductive Notify (κ : Type*) where
  | signal (c : κ)
  | broadcast (c : κ)
deriving DecidableEq, Repr

/-- `pthread_cond_signal` with the threads that it wakes, or
`pthread_cond_broadcast`. -/
def notify [Fintype ι] [DecidableEq ι] [DecidableEq κ] (m : Monitor ι κ) (woken : Finset ι) :
    Notify κ → Option (Monitor ι κ)
  | .signal c =>
      if (∀ t ∈ woken, m.wait t = .blocked c) ∧ (woken = ∅ → ∀ t, m.wait t ≠ .blocked c) then
        some (m.wake c (· ∈ woken))
      else none
  | .broadcast c => some (m.wake c fun _ => true)

def spurious [DecidableEq ι] [DecidableEq κ] (m : Monitor ι κ) (t : ι) (c : κ) :
    Option (Monitor ι κ) :=
  if m.wait t = .blocked c then some (m.wake c (· = t)) else none

/-- A woken thread gets the mutex back, and `pthread_cond_wait` returns. -/
def resume [DecidableEq ι] [DecidableEq κ] (m : Monitor ι κ) (t : ι) : Option (Monitor ι κ) :=
  if m.owner = none ∧ m.wait t = .woken then
    some
      { owner := some t
        wait := Function.update m.wait t .running
        running := fun _ h => Option.some.inj h ▸ Function.update_self .. }
  else none

/-! ## What the operations do -/

theorem not_blocked (h : m.owner = some t) : m.wait t ≠ .blocked c := by
  rw [m.running t h]
  intro heq
  cases heq

theorem lock_eq_some [DecidableEq ι] [DecidableEq κ] (h : m.lock t = some m') :
    m.owner = none ∧ m.wait t = .running ∧ m'.owner = some t ∧ m'.wait = m.wait := by
  unfold lock at h
  split at h
  · rename_i hfree
    cases h
    exact ⟨hfree.1, hfree.2, rfl, rfl⟩
  · cases h

theorem unlock_eq_some [DecidableEq ι] (h : m.unlock t = some m') :
    m.owner = some t ∧ m'.owner = none ∧ m'.wait = m.wait := by
  unfold unlock at h
  split at h
  · rename_i howner
    cases h
    exact ⟨howner, rfl, rfl⟩
  · cases h

theorem sleep_eq_some [DecidableEq ι] (h : m.sleep t c = some m') :
    m.owner = some t ∧ m'.owner = none ∧ m'.wait = Function.update m.wait t (.blocked c) := by
  unfold sleep at h
  split at h
  · rename_i howner
    cases h
    exact ⟨howner, rfl, rfl⟩
  · cases h

theorem resume_eq_some [DecidableEq ι] [DecidableEq κ] (h : m.resume t = some m') :
    m.owner = none ∧ m.wait t = .woken ∧ m'.owner = some t ∧
      m'.wait = Function.update m.wait t .running := by
  unfold resume at h
  split at h
  · rename_i hfree
    cases h
    exact ⟨hfree.1, hfree.2, rfl, rfl⟩
  · cases h

theorem spurious_others [DecidableEq ι] [DecidableEq κ] (h : m.spurious t c = some m')
    (hu : u ≠ t) : m'.wait u = m.wait u := by
  unfold spurious at h
  split at h
  · cases h
    simp [wake, hu]
  · cases h

/-! ### When they succeed -/

theorem exists_lock [DecidableEq ι] [DecidableEq κ] (hfree : m.owner = none)
    (hrun : m.wait t = .running) : ∃ m', m.lock t = some m' :=
  ⟨_, dif_pos ⟨hfree, hrun⟩⟩

theorem exists_unlock [DecidableEq ι] (h : m.owner = some t) : ∃ m', m.unlock t = some m' :=
  ⟨_, if_pos h⟩

theorem exists_sleep [DecidableEq ι] (h : m.owner = some t) (c : κ) :
    ∃ m', m.sleep t c = some m' :=
  ⟨_, if_pos h⟩

theorem exists_resume [DecidableEq ι] [DecidableEq κ] (hfree : m.owner = none)
    (hwoken : m.wait t = .woken) : ∃ m', m.resume t = some m' :=
  ⟨_, if_pos ⟨hfree, hwoken⟩⟩

theorem exists_signal [Fintype ι] [DecidableEq ι] [DecidableEq κ] (m : Monitor ι κ) (c : κ) :
    ∃ woken m', m.notify woken (.signal c) = some m' := by
  refine ⟨Finset.univ.filter fun t => m.wait t = .blocked c, _, if_pos ⟨?_, fun hempty t ht => ?_⟩⟩
  · simp
  · have hin : t ∈ Finset.univ.filter fun t => m.wait t = .blocked c := by simp [ht]
    simp [hempty] at hin

/-- What waking threads leaves alone. -/
structure Wakes (m m' : Monitor ι κ) : Prop where
  owner : m'.owner = m.owner
  wait : ∀ u, m'.wait u = m.wait u ∨ ((∃ c, m.wait u = .blocked c) ∧ m'.wait u = .woken)

theorem wake_wakes [DecidableEq κ] (m : Monitor ι κ) (c : κ) (p : ι → Bool) :
    m.Wakes (m.wake c p) where
  owner := rfl
  wait u := by
    simp only [wake]
    split
    · rename_i hu
      exact .inr ⟨⟨c, hu.2⟩, rfl⟩
    · exact .inl rfl

theorem spurious_wakes [DecidableEq ι] [DecidableEq κ] (h : m.spurious t c = some m') :
    m.Wakes m' := by
  unfold spurious at h
  split at h
  · cases h
    exact wake_wakes ..
  · cases h

theorem notify_wakes [Fintype ι] [DecidableEq ι] [DecidableEq κ] {woken : Finset ι} {n : Notify κ}
    (h : m.notify woken n = some m') : m.Wakes m' := by
  cases n with
  | signal c =>
      simp only [notify] at h
      split at h
      · cases h
        exact wake_wakes ..
      · cases h
  | broadcast c =>
      cases h
      exact wake_wakes ..

theorem Wakes.blocked (h : m.Wakes m') (hu : m'.wait u = .blocked c) : m.wait u = .blocked c := by
  rcases h.wait u with heq | ⟨-, hwoken⟩
  · rw [← heq, hu]
  · rw [hwoken] at hu
    cases hu

theorem Wakes.running_iff (h : m.Wakes m') : m'.wait u = .running ↔ m.wait u = .running := by
  rcases h.wait u with heq | ⟨⟨c, hblocked⟩, hwoken⟩
  · rw [heq]
  · rw [hwoken, hblocked]
    constructor <;> intro heq <;> cases heq

theorem broadcast_wakes [Fintype ι] [DecidableEq ι] [DecidableEq κ] {woken : Finset ι}
    (h : m.notify woken (.broadcast c) = some m') (u : ι) : m'.wait u ≠ .blocked c := by
  cases h
  simp only [wake]
  split
  · intro heq
    cases heq
  · rename_i hu
    exact fun heq => hu ⟨trivial, heq⟩

/-- After a signal somebody of any group of threads is not blocked: the group
cannot all have slept through it unless others were woken in its place. -/
theorem signal_wakes [Fintype ι] [DecidableEq ι] [DecidableEq κ] {woken : Finset ι} {s : ι → Prop}
    (h : m.notify woken (.signal c) = some m') (hs : ∃ t, s t)
    (hall : ∀ t, m.wait t = .blocked c → s t) : ∃ t, s t ∧ m'.wait t ≠ .blocked c := by
  simp only [notify] at h
  split at h
  · rename_i hwoken
    cases h
    by_cases hempty : woken = ∅
    · obtain ⟨t, ht⟩ := hs
      refine ⟨t, ht, fun heq => ?_⟩
      exact hwoken.2 hempty t ((wake_wakes m c _).blocked heq)
    · obtain ⟨t, ht⟩ := Finset.nonempty_iff_ne_empty.mpr hempty
      have hblocked := hwoken.1 t ht
      refine ⟨t, hall t hblocked, ?_⟩
      simp only [wake, ht, hblocked, decide_true, and_self, if_true]
      intro heq
      cases heq
  · cases h

end Monitor
