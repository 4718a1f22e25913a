import Mathlib.Data.Fintype.Sum
import CppDemos.Lib.Machine
import CppDemos.Lib.Monitor

/-!
# Producers and consumers

`mydata` of `producerAndConsumer1.cpp` with its threads: any finite number in
`produce` and in `consume`, one mutex and two condition variables. Both bodies
are one loop with different parts, and each step of a thread is one of its calls
or what it does between two of them.

The buffer is never out of bounds, and the threads never all block: a consumer
is blocked only on an empty buffer and the producers are all blocked only on a
full one. Both may fail between a change of `index` and the notification, when
the mutex is owned, so the invariant asks for them only where nobody is there.
-/

namespace CppDemos

open Machine

/-! ## The threads -/

inductive MyData.Cond where
  | cond1
  | cond2
deriving DecidableEq, Repr

/-- Where the body of a thread stands: before `pthread_mutex_lock`, at its inner
`while`, behind the change of `index`, and behind the notification. -/
inductive MyData.Pc where
  | outside
  | testing
  | changed
  | notified
deriving DecidableEq, Repr

/-- What is different between `consume` and `produce`. -/
structure MyData.Body where
  waits : (index capicity : Int) → Bool
  cond : MyData.Cond
  change : Int → Int
  notify : Monitor.Notify MyData.Cond

def MyData.consume : Body where
  waits index _ := decide (index ≤ 0)
  cond := .cond1
  change index := index - 1
  notify := .signal .cond2

def MyData.produce : Body where
  waits index capicity := decide (index ≥ capicity)
  cond := .cond2
  change index := index + 1
  notify := .broadcast .cond1

/-- `mydata`, with producers `P` and consumers `C` at work on it. -/
structure MyData (P C : Type) where
  index : Int
  capicity : Int
  sync : Monitor (P ⊕ C) MyData.Cond
  pc : P ⊕ C → MyData.Pc

inductive MyData.ThreadStep (T : Type) where
  | lock
  | test
  | notify (woken : Finset T)
  | unlock
  | spurious
  | resume

namespace MyData

variable {P C : Type}

/-- The constructor, and threads that have not begun. -/
def init (n : Int) : MyData P C where
  index := 0
  capicity := n
  sync := .free
  pc _ := .outside

def body : P ⊕ C → Body
  | .inl _ => produce
  | .inr _ => consume

/-- Thread `t` goes from one place to the next with a call on the mutex or a
condition variable. -/
def advance [DecidableEq P] [DecidableEq C] (s : MyData P C) (t : P ⊕ C) (place next : Pc)
    (m : Option (Monitor (P ⊕ C) Cond)) : Option (MyData P C) :=
  if s.pc t = place then m.map fun m => { s with sync := m, pc := Function.update s.pc t next }
  else none

/-- A step of thread `t`. A thread that gets the mutex back is at its inner
`while` again. -/
def step [Fintype P] [DecidableEq P] [Fintype C] [DecidableEq C] (s : MyData P C) :
    (P ⊕ C) × ThreadStep (P ⊕ C) → Option (MyData P C)
  | (t, .lock) => s.advance t .outside .testing (s.sync.lock t)
  | (t, .test) =>
      if s.pc t = .testing ∧ s.sync.owner = some t then
        if (body t).waits s.index s.capicity then
          (s.sync.sleep t (body t).cond).map fun m => { s with sync := m }
        else
          some
            { s with
              index := (body t).change s.index
              pc := Function.update s.pc t .changed }
      else none
  | (t, .notify woken) =>
      s.advance t .changed .notified (s.sync.notify woken (body t).notify)
  | (t, .unlock) => s.advance t .notified .outside (s.sync.unlock t)
  | (t, .spurious) => (s.sync.spurious t (body t).cond).map fun m => { s with sync := m }
  | (t, .resume) => (s.sync.resume t).map fun m => { s with sync := m }

/-- A thread that sleeps in `pthread_cond_wait`, and that nobody has woken. -/
def Blocked (s : MyData P C) (t : P ⊕ C) : Prop :=
  ∃ c, s.sync.wait t = .blocked c

/-! ## The invariant -/

/-- The threads keep to the mutex and to their condition variables. Producers
sleep on the one and consumers on the other, and only where they test the index,
so a notification is never spent on a thread that waits for the opposite. -/
structure Ordered (s : MyData P C) : Prop where
  inside : ∀ t, s.sync.wait t = .running → s.pc t ≠ .outside → s.sync.owner = some t
  sleeping : ∀ t, s.sync.wait t ≠ .running → s.pc t = .testing
  cond : ∀ t c, s.sync.wait t = .blocked c → c = (body t).cond

/-- The bounds of the buffer, and what is known of its index when a consumer or
all the producers are blocked. -/
structure Inv (n : Int) (s : MyData P C) : Prop extends Ordered s where
  capicity : s.capicity = n
  low : 0 ≤ s.index
  high : s.index ≤ n
  consumers : ∀ c, s.sync.wait (.inr c) = .blocked .cond1 →
    s.index ≤ 0 ∨ ∃ p, s.pc (.inl p) = .changed
  producers : (∀ p, s.sync.wait (.inl p) = .blocked .cond2) →
    n ≤ s.index ∨ ∃ c, s.pc (.inr c) = .changed

variable {s s' : MyData P C} {t : P ⊕ C} {n : Int}

/-- Whoever is past its inner `while` and not yet out owns the mutex. -/
theorem Ordered.owner (h : s.Ordered) (hpc : s.pc t = .changed) : s.sync.owner = some t := by
  refine h.inside t ?_ (by rw [hpc]; decide)
  by_contra hwait
  rw [h.sleeping t hwait] at hpc
  cases hpc

theorem inv_init [Nonempty P] (hn : 1 ≤ n) : (init n : MyData P C).Inv n where
  inside _ _ hpc := absurd rfl hpc
  sleeping _ hwait := absurd rfl hwait
  cond _ _ hwait := by cases hwait
  capicity := rfl
  low := Int.le_refl _
  high := show (0 : Int) ≤ n by omega
  consumers _ _ := .inl (Int.le_refl _)
  producers hall := by
    have hwait := hall (Classical.arbitrary P)
    cases hwait

/-- A consumer is blocked only where the buffer is empty or a producer has still
to broadcast. -/
theorem Inv.not_blocked_consumer (hi : s.Inv n) {c : C} (howner : s.sync.owner = some (.inr c))
    (hindex : 0 < s.index) (c' : C) : s.sync.wait (.inr c') ≠ .blocked .cond1 := by
  intro hwait
  rcases hi.consumers c' hwait with hle | ⟨p, hp⟩
  · omega
  · have heq := hi.owner hp
    rw [howner] at heq
    cases heq

variable [DecidableEq P] [DecidableEq C]

theorem advance_eq_some {place next : Pc} {m : Option (Monitor (P ⊕ C) Cond)} :
    s.advance t place next m = some s' ↔
      s.pc t = place ∧ ∃ m', m = some m' ∧
        { s with sync := m', pc := Function.update s.pc t next } = s' := by
  unfold advance
  split
  · rename_i hpc
    simp [hpc, Option.map_eq_some_iff]
  · rename_i hpc
    simp [hpc]

/-! ### The mutex and the condition variables -/

theorem Ordered.lock (h : s.Ordered) (hm : s.sync.lock t = some s'.sync)
    (hpc : s'.pc = Function.update s.pc t .testing) : s'.Ordered := by
  obtain ⟨hfree, hrun, howner, hwait⟩ := Monitor.lock_eq_some hm
  refine ⟨?_, ?_, ?_⟩
  · intro u hu hout
    by_cases hut : u = t
    · exact hut ▸ howner
    · rw [hpc, Function.update_of_ne hut] at hout
      have hother := h.inside u (hwait ▸ hu) hout
      rw [hfree] at hother
      cases hother
  · intro u hu
    rw [hpc]
    by_cases hut : u = t
    · exact hut ▸ Function.update_self ..
    · rw [Function.update_of_ne hut]
      exact h.sleeping u (hwait ▸ hu)
  · intro u c hu
    exact h.cond u c (hwait ▸ hu)

omit [DecidableEq P] [DecidableEq C] in
/-- Only the owner moves, and threads may be woken. -/
theorem Ordered.wakes (h : s.Ordered) (hw : s.sync.Wakes s'.sync)
    (hpc : ∀ u, s'.pc u = s.pc u ∨ s.sync.owner = some u) : s'.Ordered := by
  refine ⟨?_, ?_, ?_⟩
  · intro u hu hout
    rw [hw.owner]
    rcases hpc u with heq | howner
    · exact h.inside u (hw.running_iff.mp hu) (heq ▸ hout)
    · exact howner
  · intro u hu
    have hwait : s.sync.wait u ≠ .running := fun heq => hu (hw.running_iff.mpr heq)
    rcases hpc u with heq | howner
    · rw [heq]
      exact h.sleeping u hwait
    · exact absurd (s.sync.running u howner) hwait
  · intro u c hu
    exact h.cond u c (hw.blocked hu)

theorem Ordered.sleep (h : s.Ordered) (hm : s.sync.sleep t (body t).cond = some s'.sync)
    (hpc : s'.pc = s.pc) (htest : s.pc t = .testing) : s'.Ordered := by
  obtain ⟨howner, -, hwait⟩ := Monitor.sleep_eq_some hm
  refine ⟨?_, ?_, ?_⟩
  · intro u hu hout
    have hut : u ≠ t := by
      rintro rfl
      rw [hwait, Function.update_self] at hu
      cases hu
    rw [hwait, Function.update_of_ne hut] at hu
    have hother := h.inside u hu (hpc ▸ hout)
    exact absurd (Option.some.inj (howner.symm.trans hother)).symm hut
  · intro u hu
    rw [hpc]
    by_cases hut : u = t
    · exact hut ▸ htest
    · rw [hwait, Function.update_of_ne hut] at hu
      exact h.sleeping u hu
  · intro u c hu
    by_cases hut : u = t
    · subst hut
      rw [hwait, Function.update_self] at hu
      cases hu
      rfl
    · rw [hwait, Function.update_of_ne hut] at hu
      exact h.cond u c hu

theorem Ordered.unlock (h : s.Ordered) (hm : s.sync.unlock t = some s'.sync)
    (hpc : s'.pc = Function.update s.pc t .outside) : s'.Ordered := by
  obtain ⟨howner, -, hwait⟩ := Monitor.unlock_eq_some hm
  refine ⟨?_, ?_, ?_⟩
  · intro u hu hout
    rw [hpc] at hout
    by_cases hut : u = t
    · subst hut
      exact absurd (Function.update_self ..) hout
    · rw [Function.update_of_ne hut] at hout
      have hother := h.inside u (hwait ▸ hu) hout
      exact absurd (Option.some.inj (howner.symm.trans hother)).symm hut
  · intro u hu
    have hut : u ≠ t := by
      rintro rfl
      exact hu (hwait ▸ s.sync.running u howner)
    rw [hpc, Function.update_of_ne hut]
    exact h.sleeping u (hwait ▸ hu)
  · intro u c hu
    exact h.cond u c (hwait ▸ hu)

theorem Ordered.resume (h : s.Ordered) (hm : s.sync.resume t = some s'.sync)
    (hpc : s'.pc = s.pc) : s'.Ordered := by
  obtain ⟨hfree, hwoken, howner, hwait⟩ := Monitor.resume_eq_some hm
  refine ⟨?_, ?_, ?_⟩
  · intro u hu hout
    by_cases hut : u = t
    · exact hut ▸ howner
    · rw [hwait, Function.update_of_ne hut] at hu
      have hother := h.inside u hu (hpc ▸ hout)
      rw [hfree] at hother
      cases hother
  · intro u hu
    rw [hpc]
    by_cases hut : u = t
    · subst hut
      exact absurd (hwait ▸ Function.update_self ..) hu
    · rw [hwait, Function.update_of_ne hut] at hu
      exact h.sleeping u hu
  · intro u c hu
    have hut : u ≠ t := by
      rintro rfl
      rw [hwait, Function.update_self] at hu
      cases hu
    rw [hwait, Function.update_of_ne hut] at hu
    exact h.cond u c hu

/-! ### The buffer -/

omit [DecidableEq P] [DecidableEq C] in
/-- Nobody falls asleep, the index stays, and whoever owes a notification still
owes it. -/
theorem Inv.keep (hi : s.Inv n) (ho : s'.Ordered) (hcap : s'.capicity = s.capicity)
    (hindex : s'.index = s.index)
    (hblocked : ∀ u c, s'.sync.wait u = .blocked c → s.sync.wait u = .blocked c)
    (hchanged : ∀ u, s.pc u = .changed → s'.pc u = .changed) : s'.Inv n where
  toOrdered := ho
  capicity := hcap.trans hi.capicity
  low := hindex ▸ hi.low
  high := hindex ▸ hi.high
  consumers c hc := by
    rw [hindex]
    exact (hi.consumers c (hblocked _ _ hc)).imp_right fun ⟨p, hp⟩ => ⟨p, hchanged _ hp⟩
  producers hall := by
    rw [hindex]
    exact (hi.producers fun p => hblocked _ _ (hall p)).imp_right fun ⟨c, hc⟩ =>
      ⟨c, hchanged _ hc⟩

theorem update_changed {next : Pc} (hpc : s.pc t ≠ .changed) {u : P ⊕ C}
    (hu : s.pc u = .changed) : Function.update s.pc t next u = .changed := by
  have hut : u ≠ t := by
    rintro rfl
    exact hpc hu
  rw [Function.update_of_ne hut, hu]

theorem Inv.sleep (hi : s.Inv n) (htest : s.pc t = .testing)
    (hwaits : (body t).waits s.index s.capicity = true)
    (hm : s.sync.sleep t (body t).cond = some s'.sync) (hpc : s'.pc = s.pc)
    (hcap : s'.capicity = s.capicity) (hindex : s'.index = s.index) : s'.Inv n := by
  have ho := hi.toOrdered.sleep hm hpc htest
  obtain ⟨howner, -, hwait⟩ := Monitor.sleep_eq_some hm
  refine ⟨ho, hcap.trans hi.capicity, hindex ▸ hi.low, hindex ▸ hi.high, ?_, ?_⟩
  · intro c hc
    rw [hindex, hpc]
    by_cases hct : (.inr c : P ⊕ C) = t
    · subst hct
      exact .inl (of_decide_eq_true hwaits)
    · rw [hwait, Function.update_of_ne hct] at hc
      exact hi.consumers c hc
  · intro hall
    rw [hindex, hpc]
    cases t with
    | inl p =>
        have hfull : s.index ≥ s.capicity := of_decide_eq_true hwaits
        exact .inl (hi.capicity ▸ hfull)
    | inr c =>
        refine hi.producers fun p => ?_
        have hp := hall p
        rwa [hwait, Function.update_of_ne Sum.inl_ne_inr] at hp

/-- A change of the index by the owner, which found it in bounds and owes a
notification now. -/
theorem Inv.change (hi : s.Inv n) (howner : s.sync.owner = some t)
    (hwaits : (body t).waits s.index s.capicity = false) (hsync : s'.sync = s.sync)
    (hpc : s'.pc = Function.update s.pc t .changed) (hcap : s'.capicity = s.capicity)
    (hindex : s'.index = (body t).change s.index) : s'.Inv n := by
  have ho : s'.Ordered := by
    refine hi.toOrdered.wakes ⟨by rw [hsync], fun u => .inl (by rw [hsync])⟩ fun u => ?_
    by_cases hut : u = t
    · exact .inr (hut ▸ howner)
    · exact .inl (by rw [hpc, Function.update_of_ne hut])
  have howes : s'.pc t = .changed := by rw [hpc, Function.update_self]
  have hlow := hi.low
  have hhigh := hi.high
  cases t with
  | inl p =>
      have hroom : ¬ s.capicity ≤ s.index := of_decide_eq_false hwaits
      rw [hi.capicity] at hroom
      have hinc : s'.index = s.index + 1 := hindex
      refine ⟨ho, hcap.trans hi.capicity, by omega, by omega, fun _ _ => .inr ⟨p, howes⟩, ?_⟩
      intro hall
      exact absurd (hall p) (hsync ▸ s.sync.not_blocked howner)
  | inr c =>
      have hsome : ¬ s.index ≤ 0 := of_decide_eq_false hwaits
      have hdec : s'.index = s.index - 1 := hindex
      refine ⟨ho, hcap.trans hi.capicity, by omega, by omega, ?_, fun _ => .inr ⟨c, howes⟩⟩
      intro c' hc'
      exact absurd (hsync ▸ hc') (hi.not_blocked_consumer howner (by omega) c')

theorem Inv.notify [Fintype P] [Fintype C] [Nonempty P] {woken : Finset (P ⊕ C)} (hi : s.Inv n)
    (hat : s.pc t = .changed)
    (hm : s.sync.notify woken (body t).notify = some s'.sync)
    (hpc : s'.pc = Function.update s.pc t .notified) (hcap : s'.capicity = s.capicity)
    (hindex : s'.index = s.index) : s'.Inv n := by
  have howner := hi.owner hat
  have hw := Monitor.notify_wakes hm
  have ho : s'.Ordered := hi.toOrdered.wakes hw fun u => by
    by_cases hut : u = t
    · exact .inr (hut ▸ howner)
    · exact .inl (by rw [hpc, Function.update_of_ne hut])
  have hkeeps : ∀ u, u ≠ t → s.pc u = .changed → s'.pc u = .changed := fun u hut hu => by
    rw [hpc, Function.update_of_ne hut, hu]
  refine ⟨ho, hcap.trans hi.capicity, hindex ▸ hi.low, hindex ▸ hi.high, ?_, ?_⟩
  · intro c hc
    cases t with
    | inl p => exact absurd hc (Monitor.broadcast_wakes hm _)
    | inr c₀ =>
        rw [hindex]
        exact (hi.consumers c (hw.blocked hc)).imp_right fun ⟨p, hp⟩ =>
          ⟨p, hkeeps _ Sum.inl_ne_inr hp⟩
  · intro hall
    cases t with
    | inl p => exact absurd (hw.blocked (hall p)) (s.sync.not_blocked howner)
    | inr c =>
        -- the signal has reached a producer, if they were all blocked
        obtain ⟨p⟩ := ‹Nonempty P›
        obtain ⟨u, hu, hawake⟩ := Monitor.signal_wakes (s := fun u => ∃ p : P, u = .inl p) hm
          ⟨_, p, rfl⟩ fun u hu => by
            cases u with
            | inl p => exact ⟨p, rfl⟩
            | inr c' => cases hi.cond _ _ hu
        obtain ⟨p', rfl⟩ := hu
        exact absurd (hall p') hawake

omit [DecidableEq P] [DecidableEq C] in
theorem Inv.exists_not_blocked [hC : Nonempty C] (hi : s.Inv n) (hn : 1 ≤ n) :
    ∃ t, ¬ s.Blocked t := by
  by_contra hnone
  have hall : ∀ t, s.Blocked t := fun t => not_not.mp fun ht => hnone ⟨t, ht⟩
  have hwait : ∀ t, s.sync.wait t = .blocked (body t).cond := by
    intro t
    obtain ⟨c, hc⟩ := hall t
    rw [hc, hi.cond t c hc]
  have hnever : ∀ t, s.pc t ≠ .changed := fun t hpc => by
    have hsleep := hi.sleeping t (by rw [hwait t]; intro heq; cases heq)
    rw [hsleep] at hpc
    cases hpc
  obtain ⟨c⟩ := hC
  rcases hi.consumers c (hwait (.inr c)) with hempty | ⟨p, hp⟩
  · rcases hi.producers fun p => hwait (.inl p) with hfull | ⟨c', hc'⟩
    · omega
    · exact hnever _ hc'
  · exact hnever _ hp

variable [Fintype P] [Fintype C]

theorem Inv.step [Nonempty P] (hi : s.Inv n) {a : ThreadStep (P ⊕ C)}
    (h : s.step (t, a) = some s') : s'.Inv n := by
  cases a with
  | lock =>
      obtain ⟨hpc, m, hm, rfl⟩ := advance_eq_some.mp h
      obtain ⟨-, -, -, hwait⟩ := Monitor.lock_eq_some hm
      refine hi.keep (hi.toOrdered.lock hm rfl) rfl rfl (fun u c hu => hwait ▸ hu) fun u hu => ?_
      exact update_changed (by rw [hpc]; decide) hu
  | test =>
      simp only [MyData.step] at h
      split at h
      · rename_i hpc
        split at h
        · rename_i hwaits
          obtain ⟨m, hm, rfl⟩ := Option.map_eq_some_iff.mp h
          exact hi.sleep hpc.1 hwaits hm rfl rfl rfl
        · rename_i hwaits
          cases h
          exact hi.change hpc.2 (Bool.eq_false_iff.mpr hwaits) rfl rfl rfl rfl
      · cases h
  | notify woken =>
      obtain ⟨hpc, m, hm, rfl⟩ := advance_eq_some.mp h
      exact hi.notify hpc hm rfl rfl rfl
  | unlock =>
      obtain ⟨hpc, m, hm, rfl⟩ := advance_eq_some.mp h
      obtain ⟨-, -, hwait⟩ := Monitor.unlock_eq_some hm
      refine hi.keep (hi.toOrdered.unlock hm rfl) rfl rfl (fun u c hu => hwait ▸ hu) fun u hu => ?_
      exact update_changed (by rw [hpc]; decide) hu
  | spurious =>
      obtain ⟨m, hm, rfl⟩ := Option.map_eq_some_iff.mp h
      have hw := Monitor.spurious_wakes hm
      exact hi.keep (hi.toOrdered.wakes hw fun _ => .inl rfl) rfl rfl (fun _ _ => hw.blocked)
        fun _ hu => hu
  | resume =>
      obtain ⟨m, hm, rfl⟩ := Option.map_eq_some_iff.mp h
      have ho : Ordered { s with sync := m } := hi.toOrdered.resume hm rfl
      obtain ⟨-, hwoken, -, hwait⟩ := Monitor.resume_eq_some hm
      refine hi.keep ho rfl rfl (fun u c hu => ?_) fun _ hu => hu
      have hut : u ≠ t := by
        rintro rfl
        rw [hwait, Function.update_self] at hu
        cases hu
      rwa [hwait, Function.update_of_ne hut] at hu

/-- The index stays in bounds, and the threads never all block. -/
theorem bounded_buffer [Nonempty P] [Nonempty C] (hn : 1 ≤ n)
    {es : List ((P ⊕ C) × ThreadStep (P ⊕ C))} (h : run MyData.step (init n) es = some s) :
    s.capicity = n ∧ (0 ≤ s.index ∧ s.index ≤ n) ∧ ¬ ∀ t, s.Blocked t := by
  have hi : s.Inv n := run_invariant (P := fun s => s.Inv n)
    (fun _ _ _ hs hstep => hs.step hstep) h (inv_init hn)
  obtain ⟨t, ht⟩ := hi.exists_not_blocked hn
  exact ⟨hi.capicity, ⟨hi.low, hi.high⟩, fun hall => ht (hall t)⟩

/-- `main`: one producer and eight consumers of ten places. A consumer blocks
and is woken by the first thing produced. -/
def firstProduced : List ((Fin 1 ⊕ Fin 8) × ThreadStep (Fin 1 ⊕ Fin 8)) :=
  [(.inr 0, .lock), (.inr 0, .test), (.inl 0, .lock), (.inl 0, .test), (.inl 0, .notify ∅),
    (.inl 0, .unlock), (.inr 0, .resume), (.inr 0, .test), (.inr 0, .notify ∅)]

theorem bounded_buffer_main : ∃ s, run MyData.step (init 10) firstProduced = some s ∧
    s.capicity = 10 ∧ (0 ≤ s.index ∧ s.index ≤ 10) ∧ ¬ ∀ t, s.Blocked t := by
  have hsome : (run MyData.step (init 10) firstProduced).isSome := by decide
  obtain ⟨s, hs⟩ := Option.isSome_iff_exists.mp hsome
  exact ⟨s, hs, bounded_buffer (by decide) hs⟩

end MyData

end CppDemos
