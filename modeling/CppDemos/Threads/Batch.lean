import Mathlib.Data.Fintype.Basic
import CppDemos.Lib.Machine
import CppDemos.Lib.Monitor

/-!
# pthread_condition1.cpp

`task2` counts to 100, and `task1` takes ten at a time for as long as it finds `is_running` set.
What `task1` tests outside the mutex is the flag, and what it waits for inside is the count: so
it must not begin to wait once there is nothing more to come (`due`). If it reads the flag while
`task2` has made its last increment but has not yet cleared it, and all ten batches are taken,
then it waits for ever, and the last signal, like any other wakeup, only makes it test the count
again.
-/

namespace CppDemos

open Machine

/-! ## The threads -/

inductive Batch.Task where
  | task1
  | task2
deriving DecidableEq

instance : Fintype Batch.Task where
  elems := {.task1, .task2}
  complete t := by cases t <;> decide

/-- Where `task1` stands: before it tests `is_running`, before it locks the mutex, at the inner
`while`, behind the subtraction, and out of the loop. -/
inductive Batch.Pc1 where
  | testing
  | toLock
  | waiting
  | taken
  | returned
deriving DecidableEq

/-- Where `task2` stands: before it tests `i`, before it locks the mutex, before and behind the
increment, before the signal, before it clears `is_running`, before the last signal, and at its
end. -/
inductive Batch.Pc2 where
  | testing
  | toLock
  | locked
  | counted
  | toSignal
  | clearing
  | lastSignal
  | returned
deriving DecidableEq

structure Batch where
  count : Int
  is_running : Bool
  i : Nat
  sync : Monitor Batch.Task Unit
  pc1 : Batch.Pc1
  pc2 : Batch.Pc2

inductive Batch.TaskStep where
  | readFlag
  | lock1
  | testCount
  | unlock1
  | spurious
  | resume
  | testLoop
  | lock2
  | increment
  | unlock2
  | signal (woken : Finset Batch.Task)
  | clear
deriving DecidableEq

namespace Batch

def init : Batch where
  count := 0
  is_running := true
  i := 0
  sync := .free
  pc1 := .testing
  pc2 := .testing

/-- `task1` up to `resume`, and then `task2`. A thread that gets the mutex back is at its inner
`while` again. -/
def step (s : Batch) : TaskStep → Option Batch
  | .readFlag =>
      if s.pc1 = .testing then
        some { s with pc1 := if s.is_running then .toLock else .returned }
      else none
  | .lock1 =>
      if s.pc1 = .toLock then
        (s.sync.lock .task1).map fun m => { s with sync := m, pc1 := .waiting }
      else none
  | .testCount =>
      if s.pc1 = .waiting ∧ s.sync.owner = some .task1 then
        if s.count < 10 then (s.sync.sleep .task1 ()).map fun m => { s with sync := m }
        else some { s with count := s.count - 10, pc1 := .taken }
      else none
  | .unlock1 =>
      if s.pc1 = .taken then
        (s.sync.unlock .task1).map fun m => { s with sync := m, pc1 := .testing }
      else none
  | .spurious => (s.sync.spurious .task1 ()).map fun m => { s with sync := m }
  | .resume => (s.sync.resume .task1).map fun m => { s with sync := m }
  | .testLoop =>
      if s.pc2 = .testing then
        some { s with pc2 := if s.i < 100 then .toLock else .clearing }
      else none
  | .lock2 =>
      if s.pc2 = .toLock then
        (s.sync.lock .task2).map fun m => { s with sync := m, pc2 := .locked }
      else none
  | .increment =>
      if s.pc2 = .locked then some { s with count := s.count + 1, pc2 := .counted } else none
  | .unlock2 =>
      if s.pc2 = .counted then
        (s.sync.unlock .task2).map fun m => { s with sync := m, pc2 := .toSignal }
      else none
  | .signal woken =>
      match s.pc2 with
      | .toSignal =>
          (s.sync.notify woken (.signal ())).map fun m =>
            { s with sync := m, i := s.i + 1, pc2 := .testing }
      | .lastSignal =>
          (s.sync.notify woken (.signal ())).map fun m => { s with sync := m, pc2 := .returned }
      | _ => none
  | .clear =>
      if s.pc2 = .clearing then some { s with is_running := false, pc2 := .lastSignal } else none

/-- `task1` sleeps in `pthread_cond_wait`. -/
def Blocked (s : Batch) : Prop := s.sync.wait .task1 = .blocked ()

/-- `task2` has returned, and nothing lets `task1` out of the inner loop. -/
structure Hung (s : Batch) : Prop where
  returned : s.pc2 = .returned
  blocked : s.Blocked
  stays : ∀ es s', run step s es = some s' → s'.pc1 = .waiting

/-! ## What a step is -/

/-- A step, with what was so before it. -/
inductive Does (s : Batch) : TaskStep → Batch → Prop where
  | readFlag (hpc : s.pc1 = .testing) :
      Does s .readFlag { s with pc1 := if s.is_running then .toLock else .returned }
  | lock1 {m : Monitor Task Unit} (hpc : s.pc1 = .toLock) (hm : s.sync.lock .task1 = some m) :
      Does s .lock1 { s with sync := m, pc1 := .waiting }
  | sleep {m : Monitor Task Unit} (hpc : s.pc1 = .waiting) (hfew : s.count < 10)
      (hm : s.sync.sleep .task1 () = some m) : Does s .testCount { s with sync := m }
  | take (hpc : s.pc1 = .waiting) (howner : s.sync.owner = some .task1) (hbatch : 10 ≤ s.count) :
      Does s .testCount { s with count := s.count - 10, pc1 := .taken }
  | unlock1 {m : Monitor Task Unit} (hpc : s.pc1 = .taken) (hm : s.sync.unlock .task1 = some m) :
      Does s .unlock1 { s with sync := m, pc1 := .testing }
  | spurious {m : Monitor Task Unit} (hm : s.sync.spurious .task1 () = some m) :
      Does s .spurious { s with sync := m }
  | resume {m : Monitor Task Unit} (hm : s.sync.resume .task1 = some m) :
      Does s .resume { s with sync := m }
  | testLoop (hpc : s.pc2 = .testing) :
      Does s .testLoop { s with pc2 := if s.i < 100 then .toLock else .clearing }
  | lock2 {m : Monitor Task Unit} (hpc : s.pc2 = .toLock) (hm : s.sync.lock .task2 = some m) :
      Does s .lock2 { s with sync := m, pc2 := .locked }
  | increment (hpc : s.pc2 = .locked) :
      Does s .increment { s with count := s.count + 1, pc2 := .counted }
  | unlock2 {m : Monitor Task Unit} (hpc : s.pc2 = .counted)
      (hm : s.sync.unlock .task2 = some m) :
      Does s .unlock2 { s with sync := m, pc2 := .toSignal }
  | signal {woken : Finset Task} {m : Monitor Task Unit} (hpc : s.pc2 = .toSignal)
      (hm : s.sync.notify woken (.signal ()) = some m) :
      Does s (.signal woken) { s with sync := m, i := s.i + 1, pc2 := .testing }
  | lastSignal {woken : Finset Task} {m : Monitor Task Unit} (hpc : s.pc2 = .lastSignal)
      (hm : s.sync.notify woken (.signal ()) = some m) :
      Does s (.signal woken) { s with sync := m, pc2 := .returned }
  | clear (hpc : s.pc2 = .clearing) :
      Does s .clear { s with is_running := false, pc2 := .lastSignal }

variable {s s' : Batch}

theorem does_of_advance {p : Prop} [Decidable p] {m : Option (Monitor Task Unit)} {e : TaskStep}
    {f : Monitor Task Unit → Batch}
    (h : (if p then m.map f else none) = some s')
    (hdoes : ∀ m', p → m = some m' → s.Does e (f m')) : s.Does e s' := by
  split at h
  · rename_i hp
    obtain ⟨m', hm, rfl⟩ := Option.map_eq_some_iff.mp h
    exact hdoes m' hp hm
  · cases h

theorem does_of_local {p : Prop} [Decidable p] {e : TaskStep} {next : Batch}
    (h : (if p then some next else none) = some s') (hdoes : p → s.Does e next) :
    s.Does e s' := by
  split at h
  · rename_i hp
    exact Option.some.inj h ▸ hdoes hp
  · cases h

theorem does {e : TaskStep} (hstep : s.step e = some s') : s.Does e s' := by
  cases e with
  | readFlag => exact does_of_local hstep .readFlag
  | lock1 => exact does_of_advance hstep fun _ => .lock1
  | testCount =>
      simp only [Batch.step] at hstep
      split at hstep
      · rename_i hin
        split at hstep
        · rename_i hfew
          obtain ⟨m, hm, rfl⟩ := Option.map_eq_some_iff.mp hstep
          exact .sleep hin.1 hfew hm
        · rename_i hmany
          obtain rfl := Option.some.inj hstep
          exact .take hin.1 hin.2 (Int.not_lt.mp hmany)
      · cases hstep
  | unlock1 => exact does_of_advance hstep fun _ => .unlock1
  | spurious =>
      obtain ⟨m, hm, rfl⟩ := Option.map_eq_some_iff.mp hstep
      exact .spurious hm
  | resume =>
      obtain ⟨m, hm, rfl⟩ := Option.map_eq_some_iff.mp hstep
      exact .resume hm
  | testLoop => exact does_of_local hstep .testLoop
  | lock2 => exact does_of_advance hstep fun _ => .lock2
  | increment => exact does_of_local hstep .increment
  | unlock2 => exact does_of_advance hstep fun _ => .unlock2
  | signal woken =>
      simp only [Batch.step] at hstep
      split at hstep
      · rename_i hpc
        obtain ⟨m, hm, rfl⟩ := Option.map_eq_some_iff.mp hstep
        exact .signal hpc hm
      · rename_i hpc
        obtain ⟨m, hm, rfl⟩ := Option.map_eq_some_iff.mp hstep
        exact .lastSignal hpc hm
      · cases hstep
  | clear => exact does_of_local hstep .clear

/-! ## The invariant -/

/-- An increment has been made in this round. -/
def Pc2.owes : Pc2 → Bool
  | .counted | .toSignal => true
  | _ => false

/-- What there is for `task1` to take, now or later. -/
def due (s : Batch) : Int := s.count + (100 - (s.i + if s.pc2.owes then 1 else 0))

/-- Where the index of `task2`'s loop is. -/
def Pc2.Within (i : Nat) : Pc2 → Prop
  | .testing => i ≤ 100
  | .toLock | .locked | .counted | .toSignal => i < 100
  | .clearing | .lastSignal | .returned => i = 100

/-- `task1` takes whole batches only. -/
structure Counts (s : Batch) : Prop where
  low : 0 ≤ s.count
  whole : 10 ∣ s.due
  within : s.pc2.Within s.i

/-- Whoever waits is at the inner loop, and a signal is owed to it if there is a
batch: `task1` sleeps over a full batch only as long as `task2` has incremented
the count in this round and has not yet signalled. -/
structure Inv (s : Batch) : Prop extends Counts s where
  place : s.sync.wait .task1 ≠ .running → s.pc1 = .waiting
  awake : s.sync.wait .task2 = .running
  asleep : s.Blocked → s.count < 10 ∨ s.pc2.owes

theorem inv_init : init.Inv where
  low := Int.le_refl 0
  whole := by decide
  within := Nat.zero_le 100
  place h := absurd rfl h
  awake := rfl
  asleep h := nomatch h

theorem Counts.count_le_due (h : s.Counts) : s.count ≤ s.due := by
  have hwithin := h.within
  rw [due]
  cases hpc : s.pc2 <;> rw [hpc] at hwithin <;> simp only [Pc2.Within, Pc2.owes] at hwithin ⊢ <;>
    simp <;> omega

theorem Counts.same (h : s.Counts) (hcount : s'.count = s.count) (hi : s'.i = s.i)
    (hpc : s'.pc2 = s.pc2) : s'.Counts := by
  obtain ⟨hlow, hwhole, hwithin⟩ := h
  refine ⟨hcount ▸ hlow, ?_, ?_⟩
  · rwa [due, hcount, hi, hpc]
  · rwa [hi, hpc]

theorem Counts.of_due (h : s.Counts) (hcount : 0 ≤ s'.count) (hdue : s'.due = s.due)
    (hwithin : s'.pc2.Within s'.i) : s'.Counts :=
  ⟨hcount, hdue ▸ h.whole, hwithin⟩

theorem Inv.keeps (h : s.Inv) (hcounts : s'.Counts)
    (hpc1 : s.sync.wait .task1 ≠ .running → s'.pc1 = s.pc1)
    (hrun : ∀ t, s.sync.wait t = .running → s'.sync.wait t = .running)
    (hblocked : s'.Blocked → s.Blocked ∧ (s'.count < 10 ∨ s'.pc2.owes)) : s'.Inv where
  toCounts := hcounts
  place hwait := by
    have hbefore : s.sync.wait .task1 ≠ .running := fun heq => hwait (hrun _ heq)
    rw [hpc1 hbefore, h.place hbefore]
  awake := hrun _ h.awake
  asleep hb := (hblocked hb).2

/-- What a step does to `task1` and to what is due to it. -/
inductive Turn (s : Batch) : TaskStep → Batch → Prop where
  | other {e : TaskStep} {s' : Batch} (hpc : s'.pc1 = s.pc1) (hdue : s'.due = s.due) : Turn s e s'
  | read {s' : Batch} (hpc : s.pc1 = .testing)
      (hpc' : s'.pc1 = if s.is_running then .toLock else .returned) (hdue : s'.due = s.due) :
      Turn s .readFlag s'
  | lock {s' : Batch} (hpc : s.pc1 = .toLock) (hpc' : s'.pc1 = .waiting) (hdue : s'.due = s.due) :
      Turn s .lock1 s'
  | take {s' : Batch} (hpc : s.pc1 = .waiting) (hpc' : s'.pc1 = .taken) (hcount : 10 ≤ s.count) :
      Turn s .testCount s'
  | unlock {s' : Batch} (hpc : s.pc1 = .taken) (hpc' : s'.pc1 = .testing) (hdue : s'.due = s.due) :
      Turn s .unlock1 s'

/-! ### task1 -/

theorem Inv.lock1 (h : s.Inv) {m : Monitor Task Unit} (hm : s.sync.lock .task1 = some m) :
    Inv { s with sync := m, pc1 := .waiting } := by
  obtain ⟨-, hrun, -, hwait⟩ := Monitor.lock_eq_some hm
  refine h.keeps (h.toCounts.same rfl rfl rfl) (fun hne => absurd hrun hne)
    (fun _ ht => hwait ▸ ht) fun hb => ?_
  have hbefore : s.Blocked := by
    rw [Blocked, ← hwait]
    exact hb
  exact ⟨hbefore, h.asleep hbefore⟩

theorem Inv.sleep (h : s.Inv) {m : Monitor Task Unit} (hpc : s.pc1 = .waiting)
    (hfew : s.count < 10) (hm : s.sync.sleep .task1 () = some m) : Inv { s with sync := m } := by
  obtain ⟨-, -, hwait⟩ := Monitor.sleep_eq_some hm
  have hne : Task.task2 ≠ .task1 := by decide
  refine ⟨h.toCounts.same rfl rfl rfl, fun _ => hpc, ?_, fun _ => .inl hfew⟩
  simpa [hwait, Function.update_of_ne hne] using h.awake

theorem Inv.take (h : s.Inv) (howner : s.sync.owner = some .task1) (hbatch : 10 ≤ s.count) :
    Inv { s with count := s.count - 10, pc1 := .taken } := by
  have hcounts : Counts { s with count := s.count - 10, pc1 := .taken } := by
    refine ⟨by simpa using hbatch, ?_, h.within⟩
    have hwhole := h.whole
    simp only [due] at hwhole ⊢
    omega
  exact h.keeps hcounts (fun hne => absurd (s.sync.running _ howner) hne) (fun _ ht => ht)
    fun hb => absurd hb (s.sync.not_blocked howner)

theorem Inv.unlock1 (h : s.Inv) {m : Monitor Task Unit} (hm : s.sync.unlock .task1 = some m) :
    Inv { s with sync := m, pc1 := .testing } := by
  obtain ⟨howner, -, hwait⟩ := Monitor.unlock_eq_some hm
  refine h.keeps (h.toCounts.same rfl rfl rfl)
    (fun hne => absurd (s.sync.running _ howner) hne) (fun _ ht => hwait ▸ ht) fun hb => ?_
  have hbefore : s.Blocked := by
    rw [Blocked, ← hwait]
    exact hb
  exact ⟨hbefore, h.asleep hbefore⟩

theorem Inv.wakes (h : s.Inv) {m : Monitor Task Unit} (hm : s.sync.Wakes m) :
    Inv { s with sync := m } :=
  h.keeps (h.toCounts.same rfl rfl rfl) (fun _ => rfl) (fun _ ht => hm.running_iff.mpr ht)
    fun hb => ⟨hm.blocked hb, h.asleep (hm.blocked hb)⟩

theorem Inv.resume (h : s.Inv) {m : Monitor Task Unit} (hm : s.sync.resume .task1 = some m) :
    Inv { s with sync := m } := by
  obtain ⟨-, -, -, hwait⟩ := Monitor.resume_eq_some hm
  refine h.keeps (h.toCounts.same rfl rfl rfl) (fun _ => rfl) (fun t ht => ?_) fun hb => ?_
  · by_cases htask : t = .task1
    · simp [hwait, htask]
    · simpa [hwait, Function.update_of_ne htask] using ht
  · simp [Blocked, hwait] at hb

/-! ### task2 -/

theorem Inv.other (h : s.Inv) {e : TaskStep} (hpc1 : s'.pc1 = s.pc1)
    (hrun : ∀ t, s.sync.wait t = .running → s'.sync.wait t = .running) (hcount : 0 ≤ s'.count)
    (hdue : s'.due = s.due) (hwithin : s'.pc2.Within s'.i)
    (hblocked : s'.Blocked → s.Blocked ∧ (s'.count < 10 ∨ s'.pc2.owes)) :
    s'.Inv ∧ s.Turn e s' :=
  ⟨h.keeps (h.toCounts.of_due hcount hdue hwithin) (fun _ => hpc1) hrun hblocked, .other hpc1 hdue⟩

theorem Inv.few (h : s.Inv) (howes : s.pc2.owes = false) (hb : s.Blocked) : s.count < 10 := by
  rcases h.asleep hb with hfew | howed
  · exact hfew
  · rw [howes] at howed
    cases howed

/-- The signal behind an increment reaches `task1`, if it is asleep. -/
theorem Inv.not_blocked_of_signal (h : s.Inv) {woken : Finset Task} {m : Monitor Task Unit}
    (hm : s.sync.notify woken (.signal ()) = some m) : m.wait .task1 ≠ .blocked () := by
  have honly : ∀ t, s.sync.wait t = .blocked () → Task.task1 = t := by
    intro t ht
    cases t with
    | task1 => rfl
    | task2 =>
        rw [h.awake] at ht
        cases ht
  obtain ⟨t, rfl, hawake⟩ := Monitor.signal_wakes hm ⟨Task.task1, rfl⟩ honly
  exact hawake

theorem Inv.step {e : TaskStep} (h : s.Inv) (hstep : s.step e = some s') :
    s'.Inv ∧ s.Turn e s' := by
  have hwithin := h.within
  cases does hstep with
  | readFlag hpc =>
      have hawake : s.sync.wait .task1 ≠ .running → False := fun hne => by
        rw [h.place hne] at hpc
        cases hpc
      exact ⟨h.keeps (h.toCounts.same rfl rfl rfl) (fun hne => (hawake hne).elim) (fun _ ht => ht)
        fun hb => ⟨hb, h.asleep hb⟩, .read hpc rfl rfl⟩
  | lock1 hpc hm => exact ⟨h.lock1 hm, .lock hpc rfl rfl⟩
  | sleep hpc hfew hm => exact ⟨h.sleep hpc hfew hm, .other rfl rfl⟩
  | take hpc howner hbatch => exact ⟨h.take howner hbatch, .take hpc rfl hbatch⟩
  | unlock1 hpc hm => exact ⟨h.unlock1 hm, .unlock hpc rfl rfl⟩
  | spurious hm => exact ⟨h.wakes (Monitor.spurious_wakes hm), .other rfl rfl⟩
  | resume hm => exact ⟨h.resume hm, .other rfl rfl⟩
  | testLoop hpc =>
      rw [hpc] at hwithin
      have hfew : s.Blocked → s.count < 10 := h.few (by simp [hpc, Pc2.owes])
      by_cases hi : s.i < 100
      · simp only [if_pos hi]
        exact h.other rfl (fun _ ht => ht) h.low (by simp [due, hpc, Pc2.owes]) hi
          fun hb => ⟨hb, .inl (hfew hb)⟩
      · simp only [if_neg hi]
        have hend : s.i = 100 := Nat.le_antisymm hwithin (Nat.not_lt.mp hi)
        exact h.other rfl (fun _ ht => ht) h.low (by simp [due, hpc, Pc2.owes]) hend
          fun hb => ⟨hb, .inl (hfew hb)⟩
  | lock2 hpc hm =>
      obtain ⟨-, -, -, hwait⟩ := Monitor.lock_eq_some hm
      rw [hpc] at hwithin
      refine h.other rfl (fun _ ht => hwait ▸ ht) h.low (by simp [due, hpc, Pc2.owes]) hwithin
        fun hb => ?_
      have hbefore : s.Blocked := by
        rw [Blocked, ← hwait]
        exact hb
      exact ⟨hbefore, .inl (h.few (by simp [hpc, Pc2.owes]) hbefore)⟩
  | increment hpc =>
      rw [hpc] at hwithin
      have hlow : 0 ≤ s.count + 1 := Int.add_nonneg h.low (by decide)
      refine h.other rfl (fun _ ht => ht) hlow ?_ hwithin fun hb => ⟨hb, .inr rfl⟩
      simp [due, hpc, Pc2.owes]
      omega
  | unlock2 hpc hm =>
      obtain ⟨-, -, hwait⟩ := Monitor.unlock_eq_some hm
      rw [hpc] at hwithin
      refine h.other rfl (fun _ ht => hwait ▸ ht) h.low (by simp [due, hpc, Pc2.owes]) hwithin
        fun hb => ⟨?_, .inr rfl⟩
      rw [Blocked, ← hwait]
      exact hb
  | signal hpc hm =>
      have hwakes := Monitor.notify_wakes hm
      rw [hpc] at hwithin
      exact h.other rfl (fun _ ht => hwakes.running_iff.mpr ht) h.low
        (by simp [due, hpc, Pc2.owes]) hwithin fun hb => absurd hb (h.not_blocked_of_signal hm)
  | lastSignal hpc hm =>
      have hwakes := Monitor.notify_wakes hm
      rw [hpc] at hwithin
      refine h.other rfl (fun _ ht => hwakes.running_iff.mpr ht) h.low
        (by simp [due, hpc, Pc2.owes]) hwithin fun hb => ?_
      have hbefore : s.Blocked := hwakes.blocked hb
      exact ⟨hbefore, .inl (h.few (by simp [hpc, Pc2.owes]) hbefore)⟩
  | clear hpc =>
      rw [hpc] at hwithin
      exact h.other rfl (fun _ ht => ht) h.low (by simp [due, hpc, Pc2.owes]) hwithin
        fun hb => ⟨hb, .inl (h.few (by simp [hpc, Pc2.owes]) hb)⟩

/-! ## The mutex -/

/-- The mutex belongs to the thread that is inside. -/
structure Owned (s : Batch) : Prop where
  inside1 : s.sync.owner = some .task1 ↔
    s.pc1 = .taken ∨ s.pc1 = .waiting ∧ s.sync.wait .task1 = .running
  inside2 : s.sync.owner = some .task2 ↔ s.pc2 = .locked ∨ s.pc2 = .counted

theorem owned_init : init.Owned := ⟨by decide, by decide⟩

theorem Owned.step1 (h : s.Owned) (h₁ : s'.sync.owner = some .task1 ↔
      s'.pc1 = .taken ∨ s'.pc1 = .waiting ∧ s'.sync.wait .task1 = .running)
    (howner : s'.sync.owner = some .task2 ↔ s.sync.owner = some .task2)
    (hpc : s'.pc2 = s.pc2) : s'.Owned :=
  ⟨h₁, by rw [howner, hpc]; exact h.inside2⟩

theorem Owned.step2 (h : s.Owned)
    (h₂ : s'.sync.owner = some .task2 ↔ s'.pc2 = .locked ∨ s'.pc2 = .counted)
    (howner : s'.sync.owner = some .task1 ↔ s.sync.owner = some .task1)
    (hwait : s'.sync.wait .task1 = .running ↔ s.sync.wait .task1 = .running)
    (hpc : s'.pc1 = s.pc1) : s'.Owned :=
  ⟨by rw [howner, hpc, hwait]; exact h.inside1, h₂⟩

theorem Owned.step {e : TaskStep} (h : s.Owned) (hi : s.Inv) (hstep : s.step e = some s') :
    s'.Owned := by
  have h₁ := h.inside1
  have h₂ := h.inside2
  cases does hstep with
  | readFlag hpc =>
      refine h.step1 ?_ Iff.rfl rfl
      cases s.is_running <;> simpa [hpc] using h₁
  | lock1 hpc hm =>
      obtain ⟨hfree, hrun, howner, hwait⟩ := Monitor.lock_eq_some hm
      exact h.step1 (by simp [howner, hwait, hrun]) (by simp [howner, hfree]) rfl
  | sleep hpc hfew hm =>
      obtain ⟨howner, howner', hwait⟩ := Monitor.sleep_eq_some hm
      exact h.step1 (by simp [howner', hwait, hpc]) (by simp [howner', howner]) rfl
  | take hpc howner hbatch => exact h.step1 (by simp [howner]) Iff.rfl rfl
  | unlock1 hpc hm =>
      obtain ⟨howner, howner', -⟩ := Monitor.unlock_eq_some hm
      exact h.step1 (by simp [howner']) (by simp [howner', howner]) rfl
  | spurious hm =>
      have hwakes := Monitor.spurious_wakes hm
      refine h.step1 ?_ (by simp [hwakes.owner]) rfl
      simpa [hwakes.owner, hwakes.running_iff] using h₁
  | resume hm =>
      obtain ⟨hfree, hwoken, howner, hwait⟩ := Monitor.resume_eq_some hm
      have hpc : s.pc1 = .waiting := hi.place (by simp [hwoken])
      exact h.step1 (by simp [howner, hwait, hpc]) (by simp [howner, hfree]) rfl
  | testLoop hpc =>
      refine h.step2 ?_ Iff.rfl Iff.rfl rfl
      by_cases hlt : s.i < 100 <;> simpa [hlt, hpc] using h₂
  | lock2 hpc hm =>
      obtain ⟨hfree, -, howner, hwait⟩ := Monitor.lock_eq_some hm
      exact h.step2 (by simp [howner]) (by simp [howner, hfree]) (by simp [hwait]) rfl
  | increment hpc => exact h.step2 (by simpa [hpc] using h₂) Iff.rfl Iff.rfl rfl
  | unlock2 hpc hm =>
      obtain ⟨howner, howner', hwait⟩ := Monitor.unlock_eq_some hm
      exact h.step2 (by simp [howner']) (by simp [howner', howner]) (by simp [hwait]) rfl
  | signal hpc hm =>
      have hwakes := Monitor.notify_wakes hm
      refine h.step2 ?_ (by simp [hwakes.owner]) hwakes.running_iff rfl
      simpa [hwakes.owner, hpc] using h₂
  | lastSignal hpc hm =>
      have hwakes := Monitor.notify_wakes hm
      refine h.step2 ?_ (by simp [hwakes.owner]) hwakes.running_iff rfl
      simpa [hwakes.owner, hpc] using h₂
  | clear hpc => exact h.step2 (by simpa [hpc] using h₂) Iff.rfl Iff.rfl rfl

end Batch

end CppDemos
