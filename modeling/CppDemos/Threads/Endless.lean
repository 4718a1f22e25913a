import CppDemos.Threads.Batch

/-!
# pthread_condition.cpp

The tasks of pthread_condition1.cpp without a flag: `task2` counts to 100 and returns, `task1`
takes ten at a time and never looks at anything but the count. It has no way out of its loop, so
it has no position behind it here, and `main` does not get past its first `pthread_join`.

Every step but a spurious wakeup uses up something of what `task2` still has to do (`rank`), so
no schedule goes on for ever, and where it stops `task1` is asleep with all ten batches taken.
-/

namespace CppDemos

open Machine
open Batch (Task)

/-! ## The threads -/

/-- Where `task1` stands: before it locks the mutex, at the inner `while`, and behind the
subtraction. -/
inductive Endless.Pc1 where
  | toLock
  | waiting
  | taken
deriving DecidableEq

/-- Where `task2` stands: before it tests `i`, before it locks the mutex, before and behind the
increment, before the signal, and at its end. -/
inductive Endless.Pc2 where
  | testing
  | toLock
  | locked
  | counted
  | toSignal
  | returned
deriving DecidableEq

/-- `batches` is how often `task1` has printed that it is unblocked. -/
structure Endless where
  count : Int
  i : Nat
  batches : Nat
  sync : Monitor Task Unit
  pc1 : Endless.Pc1
  pc2 : Endless.Pc2

inductive Endless.TaskStep where
  | lock1
  | testCount
  | unlock1
  | spurious
  | resume
  | testLoop
  | lock2
  | increment
  | unlock2
  | signal (woken : Finset Task)
deriving DecidableEq

namespace Endless

def init : Endless where
  count := 0
  i := 0
  batches := 0
  sync := .free
  pc1 := .toLock
  pc2 := .testing

def step (s : Endless) : TaskStep → Option Endless
  | .lock1 =>
      if s.pc1 = .toLock then
        (s.sync.lock .task1).map fun m => { s with sync := m, pc1 := .waiting }
      else none
  | .testCount =>
      if s.pc1 = .waiting ∧ s.sync.owner = some .task1 then
        if s.count < 10 then (s.sync.sleep .task1 ()).map fun m => { s with sync := m }
        else some { s with count := s.count - 10, batches := s.batches + 1, pc1 := .taken }
      else none
  | .unlock1 =>
      if s.pc1 = .taken then
        (s.sync.unlock .task1).map fun m => { s with sync := m, pc1 := .toLock }
      else none
  | .spurious => (s.sync.spurious .task1 ()).map fun m => { s with sync := m }
  | .resume => (s.sync.resume .task1).map fun m => { s with sync := m }
  | .testLoop =>
      if s.pc2 = .testing then
        some { s with pc2 := if s.i < 100 then .toLock else .returned }
      else none
  | .lock2 =>
      if s.pc2 = .toLock then
        (s.sync.lock .task2).map fun m => { s with sync := m, pc2 := .locked }
      else none
  | .increment =>
      if s.pc2 = .locked then some { s with count := s.count + 1, pc2 := .counted } else none
  | .unlock2 =>
      if s.pc2 = .counted then
        (s.sync.unlock .task2).map fun m => { s with sync := m, pc2 := .toSignal }
      else none
  | .signal woken =>
      if s.pc2 = .toSignal then
        (s.sync.notify woken (.signal ())).map fun m =>
          { s with sync := m, i := s.i + 1, pc2 := .testing }
      else none

/-- The one thing that happens to the program from outside. -/
def TaskStep.outside : TaskStep → Bool
  | .spurious => true
  | _ => false

def Blocked (s : Endless) : Prop := s.sync.wait .task1 = .blocked ()

/-- `task2` has returned, `task1` has taken all there was, and sleeps. -/
structure Hung (s : Endless) : Prop where
  returned : s.pc2 = .returned
  blocked : s.Blocked
  count : s.count = 0
  batches : s.batches = 10

/-! ## What a step is -/

inductive Does (s : Endless) : TaskStep → Endless → Prop where
  | lock1 {m : Monitor Task Unit} (hpc : s.pc1 = .toLock) (hm : s.sync.lock .task1 = some m) :
      Does s .lock1 { s with sync := m, pc1 := .waiting }
  | sleep {m : Monitor Task Unit} (hpc : s.pc1 = .waiting) (hfew : s.count < 10)
      (hm : s.sync.sleep .task1 () = some m) : Does s .testCount { s with sync := m }
  | take (hpc : s.pc1 = .waiting) (howner : s.sync.owner = some .task1) (hbatch : 10 ≤ s.count) :
      Does s .testCount
        { s with count := s.count - 10, batches := s.batches + 1, pc1 := .taken }
  | unlock1 {m : Monitor Task Unit} (hpc : s.pc1 = .taken) (hm : s.sync.unlock .task1 = some m) :
      Does s .unlock1 { s with sync := m, pc1 := .toLock }
  | spurious {m : Monitor Task Unit} (hm : s.sync.spurious .task1 () = some m) :
      Does s .spurious { s with sync := m }
  | resume {m : Monitor Task Unit} (hm : s.sync.resume .task1 = some m) :
      Does s .resume { s with sync := m }
  | again (hpc : s.pc2 = .testing) (hi : s.i < 100) : Does s .testLoop { s with pc2 := .toLock }
  | leave (hpc : s.pc2 = .testing) (hi : ¬ s.i < 100) :
      Does s .testLoop { s with pc2 := .returned }
  | lock2 {m : Monitor Task Unit} (hpc : s.pc2 = .toLock) (hm : s.sync.lock .task2 = some m) :
      Does s .lock2 { s with sync := m, pc2 := .locked }
  | increment (hpc : s.pc2 = .locked) :
      Does s .increment { s with count := s.count + 1, pc2 := .counted }
  | unlock2 {m : Monitor Task Unit} (hpc : s.pc2 = .counted)
      (hm : s.sync.unlock .task2 = some m) :
      Does s .unlock2 { s with sync := m, pc2 := .toSignal }
  | signal {woken : Finset Task} {m : Monitor Task Unit} (hpc : s.pc2 = .toSignal)
      (hm : s.sync.notify woken (.signal ()) = some m) :
      Does s (.signal woken) { s with sync := m, i := s.i + 1, pc2 := .testing }

variable {s s' : Endless}

theorem does_of_advance {p : Prop} [Decidable p] {m : Option (Monitor Task Unit)} {e : TaskStep}
    {f : Monitor Task Unit → Endless} (h : (if p then m.map f else none) = some s')
    (hdoes : ∀ m', p → m = some m' → s.Does e (f m')) : s.Does e s' := by
  split at h
  · rename_i hp
    obtain ⟨m', hm, rfl⟩ := Option.map_eq_some_iff.mp h
    exact hdoes m' hp hm
  · cases h

theorem does {e : TaskStep} (hstep : s.step e = some s') : s.Does e s' := by
  cases e with
  | lock1 => exact does_of_advance hstep fun _ => .lock1
  | testCount =>
      simp only [Endless.step] at hstep
      split at hstep
      · rename_i hin
        split at hstep
        · rename_i hfew
          obtain ⟨m, hm, rfl⟩ := Option.map_eq_some_iff.mp hstep
          exact .sleep hin.1 hfew hm
        · rename_i hmany
          obtain rfl := Option.some.inj hstep
          exact .take hin.1 hin.2 (Int.not_lt.mp hmany)
      · cases hstep
  | unlock1 => exact does_of_advance hstep fun _ => .unlock1
  | spurious =>
      obtain ⟨m, hm, rfl⟩ := Option.map_eq_some_iff.mp hstep
      exact .spurious hm
  | resume =>
      obtain ⟨m, hm, rfl⟩ := Option.map_eq_some_iff.mp hstep
      exact .resume hm
  | testLoop =>
      simp only [Endless.step] at hstep
      split at hstep
      · rename_i hpc
        obtain rfl := Option.some.inj hstep
        split
        · rename_i hi
          exact .again hpc hi
        · rename_i hi
          exact .leave hpc hi
      · cases hstep
  | lock2 => exact does_of_advance hstep fun _ => .lock2
  | increment =>
      simp only [Endless.step] at hstep
      split at hstep
      · rename_i hpc
        exact Option.some.inj hstep ▸ .increment hpc
      · cases hstep
  | unlock2 => exact does_of_advance hstep fun _ => .unlock2
  | signal woken => exact does_of_advance hstep fun _ => .signal

/-! ## The invariant -/

def Pc2.owes : Pc2 → Bool
  | .counted | .toSignal => true
  | _ => false

def increments (s : Endless) : Nat := s.i + if s.pc2.owes then 1 else 0

def Pc2.Within (i : Nat) : Pc2 → Prop
  | .testing => i ≤ 100
  | .toLock | .locked | .counted | .toSignal => i < 100
  | .returned => i = 100

/-- What is counted is what is left of the increments. Whoever waits is at the inner loop, a
signal is owed to it if there is a batch, and the mutex belongs to the thread that is inside. -/
structure Inv (s : Endless) : Prop where
  low : 0 ≤ s.count
  account : s.count + 10 * s.batches = s.increments
  within : s.pc2.Within s.i
  place : s.sync.wait .task1 ≠ .running → s.pc1 = .waiting
  awake : s.sync.wait .task2 = .running
  asleep : s.Blocked → s.count < 10 ∨ s.pc2.owes
  inside1 : s.sync.owner = some .task1 ↔
    s.pc1 = .taken ∨ s.pc1 = .waiting ∧ s.sync.wait .task1 = .running
  inside2 : s.sync.owner = some .task2 ↔ s.pc2 = .locked ∨ s.pc2 = .counted

theorem inv_init : init.Inv where
  low := Int.le_refl 0
  account := rfl
  within := Nat.zero_le 100
  place h := absurd rfl h
  awake := rfl
  asleep h := nomatch h
  inside1 := by simp [init, Monitor.free]
  inside2 := by simp [init, Monitor.free]

theorem Inv.task1 (h : s.Inv) (hi : s'.i = s.i) (hpc : s'.pc2 = s.pc2)
    (hawake : s'.sync.wait .task2 = s.sync.wait .task2)
    (howner : s'.sync.owner = some .task2 ↔ s.sync.owner = some .task2) (hlow : 0 ≤ s'.count)
    (haccount : s'.count + 10 * s'.batches = s.count + 10 * s.batches)
    (hplace : s'.sync.wait .task1 ≠ .running → s'.pc1 = .waiting)
    (hasleep : s'.Blocked → s'.count < 10 ∨ s.pc2.owes)
    (hinside : s'.sync.owner = some .task1 ↔
      s'.pc1 = .taken ∨ s'.pc1 = .waiting ∧ s'.sync.wait .task1 = .running) : s'.Inv where
  low := hlow
  account := by rw [haccount, h.account, increments, increments, hi, hpc]
  within := by rw [hi, hpc]; exact h.within
  place := hplace
  awake := by rw [hawake]; exact h.awake
  asleep := by rw [hpc]; exact hasleep
  inside1 := hinside
  inside2 := by rw [howner, hpc]; exact h.inside2

theorem Inv.task2 (h : s.Inv) (hbatches : s'.batches = s.batches) (hpc : s'.pc1 = s.pc1)
    (hrun : ∀ t, s'.sync.wait t = .running ↔ s.sync.wait t = .running)
    (howner : s'.sync.owner = some .task1 ↔ s.sync.owner = some .task1)
    (haccount : s'.count + s.increments = s.count + s'.increments) (hless : s.count ≤ s'.count)
    (hwithin : s'.pc2.Within s'.i) (hasleep : s'.Blocked → s'.count < 10 ∨ s'.pc2.owes)
    (hinside : s'.sync.owner = some .task2 ↔ s'.pc2 = .locked ∨ s'.pc2 = .counted) : s'.Inv where
  low := Int.le_trans h.low hless
  account := by
    have hbefore := h.account
    rw [hbatches]
    omega
  within := hwithin
  place hwait := by rw [hpc]; exact h.place fun heq => hwait ((hrun _).mpr heq)
  awake := (hrun _).mpr h.awake
  asleep := hasleep
  inside1 := by rw [howner, hpc, hrun]; exact h.inside1
  inside2 := hinside

theorem Inv.few (h : s.Inv) (howes : s.pc2.owes = false) (hb : s.Blocked) : s.count < 10 := by
  simpa [howes] using h.asleep hb

theorem Inv.not_blocked_of_signal (h : s.Inv) {woken : Finset Task} {m : Monitor Task Unit}
    (hm : s.sync.notify woken (.signal ()) = some m) : m.wait .task1 ≠ .blocked () := by
  have honly : ∀ t, s.sync.wait t = .blocked () → Task.task1 = t := by
    intro t ht
    cases t with
    | task1 => rfl
    | task2 =>
        rw [h.awake] at ht
        cases ht
  obtain ⟨t, rfl, hawake⟩ := Monitor.signal_wakes hm ⟨Task.task1, rfl⟩ honly
  exact hawake

theorem Inv.step {e : TaskStep} (h : s.Inv) (hstep : s.step e = some s') : s'.Inv := by
  have hwithin := h.within
  have hinside1 := h.inside1
  have hinside2 := h.inside2
  have hne : Task.task2 ≠ .task1 := by decide
  cases does hstep with
  | lock1 hpc hm =>
      obtain ⟨hfree, hrun, howner, hwait⟩ := Monitor.lock_eq_some hm
      exact h.task1 rfl rfl (by rw [hwait]) (by simp [howner, hfree]) h.low rfl (fun _ => rfl)
        (by simp [Blocked, hwait, hrun]) (by simp [howner, hwait, hrun])
  | sleep hpc hfew hm =>
      obtain ⟨howner, howner', hwait⟩ := Monitor.sleep_eq_some hm
      exact h.task1 rfl rfl (by simp [hwait, hne]) (by simp [howner', howner]) h.low rfl
        (fun _ => hpc) (fun _ => .inl hfew) (by simp [howner', hwait, hpc])
  | take hpc howner hbatch =>
      have hrun := s.sync.running _ howner
      refine h.task1 rfl rfl rfl Iff.rfl ?_ ?_ (fun hw => absurd hrun hw) (by simp [Blocked, hrun])
        (by simp [howner])
      · simpa using hbatch
      · simp
        omega
  | unlock1 hpc hm =>
      obtain ⟨howner, howner', hwait⟩ := Monitor.unlock_eq_some hm
      have hrun := s.sync.running _ howner
      exact h.task1 rfl rfl (by rw [hwait]) (by simp [howner', howner]) h.low rfl
        (fun hw => absurd (hwait ▸ hrun) hw) (by simp [Blocked, hwait, hrun]) (by simp [howner'])
  | spurious hm =>
      have hwakes := Monitor.spurious_wakes hm
      refine h.task1 rfl rfl ?_ (by simp [hwakes.owner]) h.low rfl
        (fun hw => h.place fun heq => hw (hwakes.running_iff.mpr heq))
        (fun hb => h.asleep (hwakes.blocked hb)) ?_
      · rw [h.awake]
        exact hwakes.running_iff.mpr h.awake
      · simpa [hwakes.owner, hwakes.running_iff] using hinside1
  | resume hm =>
      obtain ⟨hfree, hwoken, howner, hwait⟩ := Monitor.resume_eq_some hm
      have hpc : s.pc1 = .waiting := h.place (by simp [hwoken])
      exact h.task1 rfl rfl (by simp [hwait, hne]) (by simp [howner, hfree]) h.low rfl
        (fun _ => hpc) (by simp [Blocked, hwait]) (by simp [howner, hwait, hpc])
  | again hpc hi =>
      have howes : s.pc2.owes = false := by simp [hpc, Pc2.owes]
      exact h.task2 rfl rfl (fun _ => Iff.rfl) Iff.rfl (by simp [increments, hpc, Pc2.owes])
        (Int.le_refl _) hi (fun hb => .inl (h.few howes hb)) (by simpa [hpc] using hinside2)
  | leave hpc hi =>
      have howes : s.pc2.owes = false := by simp [hpc, Pc2.owes]
      rw [hpc] at hwithin
      have hend : s.i = 100 := Nat.le_antisymm hwithin (Nat.not_lt.mp hi)
      exact h.task2 rfl rfl (fun _ => Iff.rfl) Iff.rfl (by simp [increments, hpc, Pc2.owes])
        (Int.le_refl _) hend (fun hb => .inl (h.few howes hb)) (by simpa [hpc] using hinside2)
  | lock2 hpc hm =>
      obtain ⟨hfree, -, howner, hwait⟩ := Monitor.lock_eq_some hm
      have howes : s.pc2.owes = false := by simp [hpc, Pc2.owes]
      rw [hpc] at hwithin
      refine h.task2 rfl rfl (by simp [hwait]) (by simp [howner, hfree])
        (by simp [increments, hpc, Pc2.owes]) (Int.le_refl _) hwithin (fun hb => ?_)
        (by simp [howner])
      exact .inl (h.few howes (by simpa [Blocked, hwait] using hb))
  | increment hpc =>
      rw [hpc] at hwithin
      have hmore : s.count ≤ s.count + 1 := by omega
      refine h.task2 rfl rfl (fun _ => Iff.rfl) Iff.rfl ?_ hmore hwithin (fun _ => .inr rfl)
        (by simpa [hpc] using hinside2)
      simp [increments, hpc, Pc2.owes]
      omega
  | unlock2 hpc hm =>
      obtain ⟨howner, howner', hwait⟩ := Monitor.unlock_eq_some hm
      rw [hpc] at hwithin
      exact h.task2 rfl rfl (by simp [hwait]) (by simp [howner', howner])
        (by simp [increments, hpc, Pc2.owes]) (Int.le_refl _) hwithin (fun _ => .inr rfl)
        (by simp [howner'])
  | signal hpc hm =>
      have hwakes := Monitor.notify_wakes hm
      rw [hpc] at hwithin
      exact h.task2 rfl rfl (fun _ => hwakes.running_iff) (by simp [hwakes.owner])
        (by simp [increments, hpc, Pc2.owes]) (Int.le_refl _) hwithin
        (fun hb => absurd hb (h.not_blocked_of_signal hm))
        (by simpa [hwakes.owner, hpc] using hinside2)

/-! ## Every step costs -/

/-- What `task1` does before it sleeps again, if it does not find a batch. -/
def toSleep (s : Endless) : Nat :=
  match s.pc1, s.sync.wait .task1 with
  | .taken, _ => 3
  | .toLock, _ => 2
  | .waiting, .woken => 2
  | .waiting, .running => 1
  | .waiting, .blocked _ => 0

/-- What `task2` has still to do, and to pay for. -/
def toCount (s : Endless) : Nat :=
  match s.pc2 with
  | .testing => 9 * (100 - s.i) + 1
  | .toLock => 9 * (100 - s.i)
  | .locked => 9 * (100 - s.i) - 1
  | .counted => 9 * (100 - s.i) - 3
  | .toSignal => 9 * (100 - s.i) - 4
  | .returned => 0

def rank (s : Endless) : Nat := s.toSleep + s.count.toNat + s.toCount

theorem toSleep_wakes (hpc : s'.pc1 = s.pc1) (hwakes : s.sync.Wakes s'.sync) :
    s'.toSleep ≤ s.toSleep + 2 := by
  unfold toSleep
  rw [hpc]
  rcases hwakes.wait .task1 with heq | ⟨⟨c, hblocked⟩, hwoken⟩
  · rw [heq]
    omega
  · rw [hblocked, hwoken]
    cases s.pc1 <;> simp

theorem toSleep_same (hpc : s'.pc1 = s.pc1) (hwait : s'.sync.wait = s.sync.wait) :
    s'.toSleep = s.toSleep := by
  rw [toSleep, toSleep, hpc, hwait]

theorem Inv.rank_step {e : TaskStep} (h : s.Inv) (hstep : s.step e = some s') :
    s'.rank + 1 ≤ s.rank + if e.outside then 3 else 0 := by
  have hlow := h.low
  have hwithin := h.within
  unfold rank
  cases does hstep with
  | lock1 hpc hm =>
      obtain ⟨-, hrun, -, hwait⟩ := Monitor.lock_eq_some hm
      simp [toSleep, toCount, hpc, hwait, hrun]
      omega
  | sleep hpc hfew hm =>
      obtain ⟨howner, -, hwait⟩ := Monitor.sleep_eq_some hm
      simp [toSleep, toCount, hpc, hwait, s.sync.running _ howner]
      omega
  | take hpc howner hbatch =>
      simp [toSleep, toCount, hpc, s.sync.running _ howner]
      omega
  | unlock1 hpc hm =>
      simp [toSleep, toCount, hpc]
      omega
  | @spurious m hm =>
      have hmore : toSleep { s with sync := m } ≤ s.toSleep + 2 :=
        toSleep_wakes rfl (Monitor.spurious_wakes hm)
      simp [toCount, TaskStep.outside]
      omega
  | resume hm =>
      obtain ⟨-, hwoken, -, hwait⟩ := Monitor.resume_eq_some hm
      simp [toSleep, toCount, h.place (by simp [hwoken]), hwait, hwoken]
      omega
  | again hpc hi =>
      have hsame : toSleep { s with pc2 := .toLock } = s.toSleep := rfl
      simp [toCount, hpc, hsame]
      omega
  | leave hpc hi =>
      have hsame : toSleep { s with pc2 := .returned } = s.toSleep := rfl
      simp [toCount, hpc, hsame]
      omega
  | @lock2 m hpc hm =>
      have hsame : toSleep { s with sync := m, pc2 := .locked } = s.toSleep :=
        toSleep_same rfl (Monitor.lock_eq_some hm).2.2.2
      rw [hpc] at hwithin
      have hlt : s.i < 100 := hwithin
      simp [toCount, hpc, hsame]
      omega
  | increment hpc =>
      have hsame : toSleep { s with count := s.count + 1, pc2 := .counted } = s.toSleep := rfl
      rw [hpc] at hwithin
      have hlt : s.i < 100 := hwithin
      simp [toCount, hpc, hsame]
      omega
  | @unlock2 m hpc hm =>
      have hsame : toSleep { s with sync := m, pc2 := .toSignal } = s.toSleep :=
        toSleep_same rfl (Monitor.unlock_eq_some hm).2.2
      rw [hpc] at hwithin
      have hlt : s.i < 100 := hwithin
      simp [toCount, hpc, hsame]
      omega
  | @signal woken m hpc hm =>
      have hmore : toSleep { s with sync := m, i := s.i + 1, pc2 := .testing } ≤ s.toSleep + 2 :=
        toSleep_wakes rfl (Monitor.notify_wakes hm)
      rw [hpc] at hwithin
      have hlt : s.i < 100 := hwithin
      simp [toCount, hpc]
      omega

theorem costs : Costs Endless.step (fun _ _ => True) TaskStep.outside Inv rank 3 :=
  fun _ _ _ h _ hstep => ⟨h.step hstep, h.rank_step hstep⟩

/-! ## Where it stops -/

/-- Somebody is inside the mutex, and goes on. -/
theorem Inv.exists_inside (h : s.Inv) (howner : s.sync.owner ≠ none) :
    ∃ e s', s.step e = some s' ∧ ¬ e.outside := by
  cases hown : s.sync.owner with
  | none => exact absurd hown howner
  | some t =>
      cases t with
      | task1 =>
          rcases h.inside1.mp hown with hpc | ⟨hpc, -⟩
          · obtain ⟨m, hm⟩ := Monitor.exists_unlock hown
            exact ⟨.unlock1, _, by simp [Endless.step, hpc, hm]; rfl, by simp [TaskStep.outside]⟩
          · by_cases hfew : s.count < 10
            · obtain ⟨m, hm⟩ := Monitor.exists_sleep hown ()
              exact ⟨.testCount, { s with sync := m }, by simp [Endless.step, hpc, hown, hfew, hm],
                by simp [TaskStep.outside]⟩
            · exact ⟨.testCount, _, by simp [Endless.step, hpc, hown, hfew]; rfl,
                by simp [TaskStep.outside]⟩
      | task2 =>
          rcases h.inside2.mp hown with hpc | hpc
          · exact ⟨.increment, _, if_pos hpc, by simp [TaskStep.outside]⟩
          · obtain ⟨m, hm⟩ := Monitor.exists_unlock hown
            exact ⟨.unlock2, _, by simp [Endless.step, hpc, hm]; rfl, by simp [TaskStep.outside]⟩

/-- With the mutex free, `task2` goes on until it has returned. -/
theorem Inv.exists_step2 (h : s.Inv) (hfree : s.sync.owner = none) (hpc : s.pc2 ≠ .returned) :
    ∃ e s', s.step e = some s' ∧ ¬ e.outside := by
  cases hpc2 : s.pc2 with
  | testing => exact ⟨.testLoop, _, if_pos hpc2, by simp [TaskStep.outside]⟩
  | toLock =>
      obtain ⟨m, hm⟩ := Monitor.exists_lock hfree h.awake
      exact ⟨.lock2, { s with sync := m, pc2 := .locked }, by simp [Endless.step, hpc2, hm],
        by simp [TaskStep.outside]⟩
  | locked => exact ⟨.increment, _, if_pos hpc2, by simp [TaskStep.outside]⟩
  | counted =>
      have howner := h.inside2.mpr (.inr hpc2)
      rw [hfree] at howner
      cases howner
  | toSignal =>
      obtain ⟨woken, m, hm⟩ := s.sync.exists_signal ()
      exact ⟨.signal woken, { s with sync := m, i := s.i + 1, pc2 := .testing },
        by simp [Endless.step, hpc2, hm], by simp [TaskStep.outside]⟩
  | returned => exact absurd hpc2 hpc

/-- So does `task1` until it sleeps. -/
theorem Inv.exists_step1 (h : s.Inv) (hfree : s.sync.owner = none) (hawake : ¬ s.Blocked) :
    ∃ e s', s.step e = some s' ∧ ¬ e.outside := by
  cases hwait : s.sync.wait .task1 with
  | running =>
      have hout : ¬ (s.pc1 = .taken ∨ s.pc1 = .waiting ∧ s.sync.wait .task1 = .running) := by
        rw [← h.inside1, hfree]
        simp
      have hpc : s.pc1 = .toLock := by
        cases hpc1 : s.pc1 with
        | toLock => rfl
        | waiting => exact absurd (.inr ⟨hpc1, hwait⟩) hout
        | taken => exact absurd (.inl hpc1) hout
      obtain ⟨m, hm⟩ := Monitor.exists_lock hfree hwait
      exact ⟨.lock1, { s with sync := m, pc1 := .waiting }, by simp [Endless.step, hpc, hm],
        by simp [TaskStep.outside]⟩
  | blocked c => exact absurd hwait hawake
  | woken =>
      obtain ⟨m, hm⟩ := Monitor.exists_resume hfree hwait
      exact ⟨.resume, { s with sync := m }, by simp [Endless.step, hm], by simp [TaskStep.outside]⟩

theorem Hung.stuck (h : s.Inv) (hung : s.Hung) : Stuck Endless.step TaskStep.outside s := by
  have hblocked := hung.blocked
  have hpc1 : s.pc1 = .waiting := h.place (by rw [hblocked]; simp)
  have hreturned := hung.returned
  have howner1 : s.sync.owner ≠ some .task1 := fun howner =>
    Monitor.not_blocked howner hblocked
  intro e s' hstep
  cases does hstep with
  | spurious hm => rfl
  | resume hm =>
      rw [Blocked, (Monitor.resume_eq_some hm).2.1] at hblocked
      cases hblocked
  | sleep hpc hfew hm => exact absurd (Monitor.sleep_eq_some hm).1 howner1
  | take hpc howner hbatch => exact absurd howner howner1
  | lock1 hpc _ | unlock1 hpc _ =>
      rw [hpc] at hpc1
      cases hpc1
  | again hpc _ | leave hpc _ | lock2 hpc _ | increment hpc | unlock2 hpc _ | signal hpc _ =>
      rw [hpc] at hreturned
      cases hreturned

/-- When `task2` has returned, everything is in `count` or has been taken. -/
theorem Inv.all_counted (h : s.Inv) (hreturned : s.pc2 = .returned) :
    s.count + 10 * s.batches = 100 := by
  have haccount := h.account
  have hwithin := h.within
  rw [hreturned] at hwithin
  have hend : s.i = 100 := hwithin
  simpa [increments, hreturned, Pc2.owes, hend] using haccount

/-- The program comes to rest only with `task1` asleep and nothing left. -/
theorem Inv.stuck_iff (h : s.Inv) : Stuck Endless.step TaskStep.outside s ↔ s.Hung := by
  refine ⟨fun hstuck => ?_, Hung.stuck h⟩
  have hno : ¬ ∃ e s', s.step e = some s' ∧ ¬ e.outside := by
    rintro ⟨e, s', hstep, hin⟩
    exact hin (hstuck e s' hstep)
  have hfree : s.sync.owner = none := by
    by_contra howner
    exact hno (h.exists_inside howner)
  have hreturned : s.pc2 = .returned := by
    by_contra hpc
    exact hno (h.exists_step2 hfree hpc)
  have hblocked : s.Blocked := by
    by_contra hawake
    exact hno (h.exists_step1 hfree hawake)
  have hfew : s.count < 10 := h.few (by simp [hreturned, Pc2.owes]) hblocked
  have hlow := h.low
  have hall := h.all_counted hreturned
  exact ⟨hreturned, hblocked, by omega, by omega⟩

end Endless

open Endless in
/-- However the two tasks are scheduled, the program hangs: a run has at most 903 steps and three
for each spurious wakeup, it can always go on until it hangs, and that is the only place where it
stops. There `task2` has returned, nothing is left of what it counted, and `task1` has taken ten
batches and sleeps; all along, what has been counted is in `count` or has been taken. -/
theorem always_hangs {es : List TaskStep} {s : Endless}
    (h : run Endless.step init es = some s) :
    es.length ≤ 903 + 3 * es.countP TaskStep.outside ∧
    (0 ≤ s.count ∧ s.count + 10 * s.batches = s.increments) ∧
    (∃ es' s', run Endless.step s es' = some s' ∧ (∀ e ∈ es', ¬ e.outside) ∧ s'.Hung) ∧
    (Stuck Endless.step TaskStep.outside s ↔ s.Hung) := by
  have hinv : s.Inv := run_invariant (fun _ _ _ => Inv.step) h inv_init
  refine ⟨?_, ⟨hinv.low, hinv.account⟩, ?_, hinv.stuck_iff⟩
  · have hlength := run_length_le costs h (along_true ..) inv_init
    have hrank : init.rank = 903 := rfl
    omega
  · obtain ⟨es', s', hrun, hin, hs', hstuck⟩ := exists_stuck costs hinv
    exact ⟨es', s', hrun, hin, hs'.stuck_iff.mp hstuck⟩

open Endless in
/-- `task1` has gone to sleep at once, and `task2` has made its first increment. -/
theorem always_hangs_first : ∃ s : Endless,
    run Endless.step init [.lock1, .testCount, .testLoop, .lock2, .increment] = some s ∧
    s.count = 1 ∧ s.Blocked ∧
    ∃ es' s', run Endless.step s es' = some s' ∧ (∀ e ∈ es', ¬ e.outside) ∧ s'.Hung := by
  obtain ⟨s, hrun, hcount, hblocked⟩ : ∃ s : Endless,
      run Endless.step init [.lock1, .testCount, .testLoop, .lock2, .increment] = some s ∧
      s.count = 1 ∧ s.Blocked := ⟨_, rfl, rfl, rfl⟩
  exact ⟨s, hrun, hcount, hblocked, (always_hangs hrun).2.2.1⟩

end CppDemos
