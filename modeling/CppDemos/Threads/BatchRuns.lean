import CppDemos.Threads.Batch

/-!
# Runs of pthread_condition1.cpp

As long as `task1` reads the flag in time there is a batch for it whenever it waits (`Fed`), and
it is not left behind. Once it has read it too late there is none (`Starved`), whatever happens
then; and since `task2` is held up by nobody, both come to where `task2` has returned and `task1`
sleeps.
-/

namespace CppDemos

open Machine

namespace Batch

variable {s s' : Batch}

/-! ## Every run -/

/-- `task1` does not find `is_running` set when there is nothing more to come. -/
def InTime (s : Batch) (e : TaskStep) : Prop :=
  ¬ (e = .readFlag ∧ s.is_running = true ∧ s.due = 0)

instance (s : Batch) (e : TaskStep) : Decidable (s.InTime e) := inferInstanceAs (Decidable (¬ _))

/-- `task1` is on its way to the inner loop, or in it. -/
def Pc1.Committed : Pc1 → Prop
  | .toLock | .waiting => True
  | .testing | .taken | .returned => False

/-- There is a batch for it. -/
def Fed (s : Batch) : Prop := s.pc1.Committed → 10 ≤ s.due

structure Starved (s : Batch) : Prop where
  committed : s.pc1.Committed
  due : s.due = 0

theorem Inv.fed {e : TaskStep} (h : s.Inv) (hfed : s.Fed) (hok : s.InTime e)
    (hturn : s.Turn e s') : s'.Fed := by
  cases hturn with
  | other hpc hdue => rwa [Fed, hpc, hdue]
  | read hpc hpc' hdue =>
      intro hcommitted
      have hrunning : s.is_running = true := by
        by_contra hnot
        rw [hpc', if_neg hnot] at hcommitted
        exact hcommitted
      have hne : s.due ≠ 0 := fun heq => hok ⟨rfl, hrunning, heq⟩
      have hpos := Int.le_trans h.low h.count_le_due
      have hwhole := h.whole
      rw [hdue]
      omega
  | lock hpc hpc' hdue =>
      intro _
      rw [hdue]
      exact hfed (by rw [hpc]; trivial)
  | take hpc hpc' hcount =>
      intro hcommitted
      rw [hpc'] at hcommitted
      exact hcommitted.elim
  | unlock hpc hpc' hdue =>
      intro hcommitted
      rw [hpc'] at hcommitted
      exact hcommitted.elim

theorem Inv.starved {e : TaskStep} (h : s.Inv) (hs : s.Starved) (hturn : s.Turn e s') :
    s'.Starved := by
  obtain ⟨hcommitted, hzero⟩ := hs
  cases hturn with
  | other hpc hdue => exact ⟨by rwa [hpc], hdue.trans hzero⟩
  | read hpc hpc' hdue =>
      rw [hpc] at hcommitted
      exact hcommitted.elim
  | lock hpc hpc' hdue => exact ⟨by rw [hpc']; trivial, hdue.trans hzero⟩
  | take hpc hpc' hcount =>
      have hle := h.count_le_due
      omega
  | unlock hpc hpc' hdue =>
      rw [hpc] at hcommitted
      exact hcommitted.elim

/-- `task1` has read the flag too late. -/
theorem starved_of_late {e : TaskStep} (hlate : ¬ s.InTime e) (hstep : s.step e = some s') :
    s'.Starved := by
  obtain ⟨rfl, hrunning, hzero⟩ := not_not.mp hlate
  cases does hstep with
  | readFlag hpc => exact ⟨by simp [hrunning, Pc1.Committed], hzero⟩

theorem Inv.waiting {e : TaskStep} (h : s.Inv) (hs : s.Starved) (hpc : s.pc1 = .waiting)
    (hturn : s.Turn e s') : s'.pc1 = .waiting := by
  cases hturn with
  | other heq hdue => exact heq.trans hpc
  | read hpc₁ hpc' hdue =>
      rw [hpc] at hpc₁
      cases hpc₁
  | lock hpc₁ hpc' hdue => exact hpc'
  | take hpc₁ hpc' hcount =>
      have hle := h.count_le_due
      have hzero := hs.due
      omega
  | unlock hpc₁ hpc' hdue =>
      rw [hpc] at hpc₁
      cases hpc₁

/-- All that is known of `task1` where nothing more comes to it. It has read
`is_running` as true when the batches left were too few, and from there every
schedule leads to the same end. -/
structure Lost (s : Batch) : Prop extends Inv s, Owned s, Starved s

theorem Lost.step {e : TaskStep} (h : s.Lost) (hstep : s.step e = some s') : s'.Lost := by
  obtain ⟨hinv, hturn⟩ := h.toInv.step hstep
  exact ⟨hinv, h.toOwned.step h.toInv hstep, h.toInv.starved h.toStarved hturn⟩

theorem Lost.count (h : s.Lost) : s.count < 10 := by
  have hle := h.count_le_due
  have hdue := h.due
  omega

theorem Lost.hung (h : s.Lost) (hreturned : s.pc2 = .returned) (hblocked : s.Blocked) :
    s.Hung where
  returned := hreturned
  blocked := hblocked
  stays es s' hrun := by
    have hpc : s.pc1 = .waiting := h.place (by rw [hblocked]; decide)
    have hall := run_invariant (P := fun s => s.Lost ∧ s.pc1 = .waiting)
      (fun _ _ _ hi hstep =>
        ⟨hi.1.step hstep, hi.1.toInv.waiting hi.1.toStarved hi.2 (hi.1.toInv.step hstep).2⟩)
      hrun ⟨h, hpc⟩
    exact hall.2

/-! ## How it comes to hang -/

/-- What `task2` has still to do. -/
def rank (s : Batch) : Nat :=
  match s.pc2 with
  | .testing => 5 * (100 - s.i) + 3
  | .toLock => 5 * (100 - s.i) + 2
  | .locked => 5 * (100 - s.i) + 1
  | .counted => 5 * (100 - s.i)
  | .toSignal => 5 * (100 - s.i) - 1
  | .clearing => 2
  | .lastSignal => 1
  | .returned => 0

theorem Owned.free (ho : s.Owned) (hfree : s.sync.owner ≠ some .task1)
    (hout : ¬ (s.pc2 = .locked ∨ s.pc2 = .counted)) : s.sync.owner = none := by
  cases howner : s.sync.owner with
  | none => rfl
  | some t =>
      cases t with
      | task1 => exact absurd howner hfree
      | task2 => exact absurd (ho.inside2.mp howner) hout

/-- `task2` is never held up but by `task1` in the mutex. -/
theorem exists_step2 (hi : s.Inv) (ho : s.Owned) (hfree : s.sync.owner ≠ some .task1)
    (hpc : s.pc2 ≠ .returned) :
    ∃ e s', s.step e = some s' ∧ s'.sync.owner ≠ some .task1 ∧ s'.rank < s.rank := by
  have hwithin := hi.within
  cases hpc2 : s.pc2 with
  | testing =>
      refine ⟨.testLoop, _, if_pos hpc2, hfree, ?_⟩
      by_cases hlt : s.i < 100
      · simp [rank, hpc2, hlt]
      · simp [rank, hpc2, hlt]
  | toLock =>
      obtain ⟨m, hm⟩ := Monitor.exists_lock (ho.free hfree (by simp [hpc2])) hi.awake
      have hstep : s.step .lock2 = some { s with sync := m, pc2 := .locked } := by
        simp [Batch.step, hpc2, hm]
      exact ⟨_, _, hstep, by simp [(Monitor.lock_eq_some hm).2.2.1], by simp [rank, hpc2]⟩
  | locked =>
      exact ⟨.increment, _, if_pos hpc2, hfree, by simp [rank, hpc2]⟩
  | counted =>
      obtain ⟨m, hm⟩ := Monitor.exists_unlock (ho.inside2.mpr (.inr hpc2))
      have hstep : s.step .unlock2 = some { s with sync := m, pc2 := .toSignal } := by
        simp [Batch.step, hpc2, hm]
      rw [hpc2] at hwithin
      have hlt : s.i < 100 := hwithin
      refine ⟨_, _, hstep, by simp [(Monitor.unlock_eq_some hm).2.1], ?_⟩
      simp only [rank, hpc2]
      omega
  | toSignal =>
      obtain ⟨woken, m, hm⟩ := s.sync.exists_signal ()
      have hstep : s.step (.signal woken) =
          some { s with sync := m, i := s.i + 1, pc2 := .testing } := by
        simp [Batch.step, hpc2, hm]
      rw [hpc2] at hwithin
      have hlt : s.i < 100 := hwithin
      refine ⟨_, _, hstep, by simpa [(Monitor.notify_wakes hm).owner] using hfree, ?_⟩
      simp only [rank, hpc2]
      omega
  | clearing =>
      exact ⟨.clear, _, if_pos hpc2, hfree, by simp [rank, hpc2]⟩
  | lastSignal =>
      obtain ⟨woken, m, hm⟩ := s.sync.exists_signal ()
      have hstep : s.step (.signal woken) = some { s with sync := m, pc2 := .returned } := by
        simp [Batch.step, hpc2, hm]
      exact ⟨_, _, hstep, by simpa [(Monitor.notify_wakes hm).owner] using hfree,
        by simp [rank, hpc2]⟩
  | returned => exact absurd hpc2 hpc

theorem Lost.exists_returned : ∀ (n : Nat) {s : Batch}, s.rank ≤ n → s.Lost →
    s.sync.owner ≠ some .task1 → ∃ es s', run Batch.step s es = some s' ∧ s'.Lost ∧
      s'.sync.owner ≠ some .task1 ∧ s'.pc2 = .returned
  | n, s, hrank, h, hfree => by
      by_cases hpc : s.pc2 = .returned
      · exact ⟨[], s, rfl, h, hfree, hpc⟩
      · obtain ⟨e, s₁, hstep, hfree₁, hless⟩ := exists_step2 h.toInv h.toOwned hfree hpc
        match n with
        | 0 => omega
        | n + 1 =>
            obtain ⟨es, s', hrun, hend⟩ := exists_returned n (by omega) (h.step hstep) hfree₁
            exact ⟨e :: es, s', run_cons_eq_some.mpr ⟨s₁, hstep, hrun⟩, hend⟩

theorem Lost.exists_blocked (h : s.Lost) (howner : s.sync.owner = some .task1) :
    ∃ s', s.step .testCount = some s' ∧ s'.Blocked ∧ s'.sync.owner = none ∧ s'.pc2 = s.pc2 := by
  have hpc : s.pc1 = .waiting := by
    rcases h.inside1.mp howner with htaken | ⟨hwaiting, -⟩
    · have hcommitted := h.committed
      rw [htaken] at hcommitted
      exact hcommitted.elim
    · exact hwaiting
  obtain ⟨m, hm⟩ := Monitor.exists_sleep howner ()
  obtain ⟨-, hnone, hwait⟩ := Monitor.sleep_eq_some hm
  refine ⟨{ s with sync := m }, ?_, by simp [Blocked, hwait], hnone, rfl⟩
  simp [Batch.step, hpc, howner, h.count, hm]

theorem Lost.exists_inside (h : s.Lost) (hfree : s.sync.owner = none) (hawake : ¬ s.Blocked) :
    ∃ e s', s.step e = some s' ∧ s'.sync.owner = some .task1 ∧ s'.pc2 = s.pc2 := by
  cases hwait : s.sync.wait .task1 with
  | running =>
      have hpc : s.pc1 = .toLock := by
        have hcommitted := h.committed
        have hout : ¬ (s.pc1 = .waiting) := fun hpc => by
          have howner := h.inside1.mpr (.inr ⟨hpc, hwait⟩)
          rw [hfree] at howner
          cases howner
        cases hpc : s.pc1 with
        | toLock => rfl
        | waiting => exact absurd hpc hout
        | testing => exact (hpc ▸ hcommitted : Pc1.testing.Committed).elim
        | taken => exact (hpc ▸ hcommitted : Pc1.taken.Committed).elim
        | returned => exact (hpc ▸ hcommitted : Pc1.returned.Committed).elim
      obtain ⟨m, hm⟩ := Monitor.exists_lock hfree hwait
      refine ⟨.lock1, { s with sync := m, pc1 := .waiting }, ?_, (Monitor.lock_eq_some hm).2.2.1,
        rfl⟩
      simp [Batch.step, hpc, hm]
  | blocked c => exact absurd hwait hawake
  | woken =>
      obtain ⟨m, hm⟩ := Monitor.exists_resume hfree hwait
      refine ⟨.resume, { s with sync := m }, ?_, (Monitor.resume_eq_some hm).2.2.1, rfl⟩
      simp [Batch.step, hm]

theorem Lost.exists_hung (h : s.Lost) : ∃ es s', run Batch.step s es = some s' ∧ s'.Hung := by
  obtain ⟨es, s₁, hrun, h₁, hfree⟩ : ∃ es s₁, run Batch.step s es = some s₁ ∧ s₁.Lost ∧
      s₁.sync.owner ≠ some .task1 := by
    by_cases howner : s.sync.owner = some .task1
    · obtain ⟨s₁, hstep, -, hnone, -⟩ := h.exists_blocked howner
      exact ⟨[.testCount], s₁, run_cons_eq_some.mpr ⟨s₁, hstep, rfl⟩, h.step hstep, by simp [hnone]⟩
    · exact ⟨[], s, rfl, h, howner⟩
  obtain ⟨es₂, s₂, hrun₂, h₂, hfree₂, hreturned⟩ := h₁.exists_returned _ (Nat.le_refl _) hfree
  have hrun₁₂ : run Batch.step s (es ++ es₂) = some s₂ := run_append.mpr ⟨s₁, hrun, hrun₂⟩
  by_cases hblocked : s₂.Blocked
  · exact ⟨es ++ es₂, s₂, hrun₁₂, h₂.hung hreturned hblocked⟩
  · have hnone := h₂.toOwned.free hfree₂ (by simp [hreturned])
    obtain ⟨e, s₃, hstep₃, howner, hpc₃⟩ := h₂.exists_inside hnone hblocked
    have h₃ := h₂.step hstep₃
    obtain ⟨s₄, hstep₄, hblocked₄, -, hpc₄⟩ := h₃.exists_blocked howner
    refine ⟨es ++ es₂ ++ [e, .testCount], s₄, run_append.mpr ⟨s₂, hrun₁₂, ?_⟩,
      (h₃.step hstep₄).hung (by rw [hpc₄, hpc₃, hreturned]) hblocked₄⟩
    exact run_cons_eq_some.mpr ⟨s₃, hstep₃, run_cons_eq_some.mpr ⟨s₄, hstep₄, rfl⟩⟩

/-! ## The condition -/

theorem inv_owned_run {es : List TaskStep} (h : run Batch.step init es = some s) :
    s.Inv ∧ s.Owned :=
  run_invariant (P := fun s => s.Inv ∧ s.Owned)
    (fun _ _ _ hi hstep => ⟨(hi.1.step hstep).1, hi.2.step hi.1 hstep⟩) h ⟨inv_init, owned_init⟩

/-- With nothing more to come, `task1` blocked means that it came too late. -/
theorem Inv.not_hung (h : s.Inv) (hfed : s.Fed) : ¬ s.Hung := by
  intro hhung
  have hwithin := h.within
  rw [hhung.returned] at hwithin
  have hpc : s.pc1 = .waiting := h.place (by rw [hhung.blocked]; decide)
  have hbatch : 10 ≤ s.due := hfed (by rw [hpc]; trivial)
  have hfew : s.count < 10 := h.few (by rw [hhung.returned]; rfl) hhung.blocked
  have hdue : s.due = s.count := by
    simp [due, hhung.returned, Pc2.owes, show s.i = 100 from hwithin]
  omega

theorem fed_run {es : List TaskStep} (h : run Batch.step init es = some s)
    (hall : Along Batch.step InTime init es) : s.Fed :=
  have hstep : ∀ (s : Batch) (e : TaskStep) (s' : Batch), s.Inv ∧ s.Fed → s.InTime e →
      s.step e = some s' → s'.Inv ∧ s'.Fed := fun _ _ _ hi hok hstep =>
    ⟨(hi.1.step hstep).1, hi.1.fed hi.2 hok (hi.1.step hstep).2⟩
  (run_invariant_along hstep h hall ⟨inv_init, fun hcommitted => hcommitted.elim⟩).2

/-- Where `task1` never finds `is_running` set after the last batch, the run has not come to a
hang; where it does, the run may go on to one, and in no way to where `task1` has returned. -/
theorem task1_gets_out {es : List TaskStep} (h : run Batch.step init es = some s) :
    (Along Batch.step InTime init es → ¬ s.Hung) ∧
    (¬ Along Batch.step InTime init es →
      (∃ es' s', run Batch.step s es' = some s' ∧ s'.Hung) ∧
      ∀ es' s', run Batch.step s es' = some s' → s'.pc1 ≠ .returned) := by
  have hboth := inv_owned_run h
  constructor
  · intro hall
    exact hboth.1.not_hung (fed_run h hall)
  · intro hnot
    have hstarved : s.Starved :=
      run_of_not_along (fun _ _ _ (hi : Inv _) hstep => (hi.step hstep).1)
        (fun _ _ _ _ hlate hstep => starved_of_late hlate hstep)
        (fun _ _ _ hi hs hstep => hi.starved hs (hi.step hstep).2) h hnot inv_init
    have hlost : s.Lost := ⟨hboth.1, hboth.2, hstarved⟩
    refine ⟨hlost.exists_hung, fun es' s' hrun hpc => ?_⟩
    have hcommitted := (run_invariant (fun _ _ _ hi hstep => hi.step hstep) hrun hlost).committed
    rw [hpc] at hcommitted
    exact hcommitted

/-- It waits for the first batch, and the first signal reaches it. -/
def firstSignal : List TaskStep :=
  [.readFlag, .lock1, .testCount, .testLoop, .lock2, .increment, .unlock2, .signal {.task1}]

theorem first_signal_not_hung : ∃ s, run Batch.step init firstSignal = some s ∧
    s.sync.wait .task1 = .woken ∧ ¬ s.Hung := by
  have hwoken : (run Batch.step init firstSignal).map (·.sync.wait .task1) = some .woken := by
    decide
  obtain ⟨s, hrun, hs⟩ := Option.map_eq_some_iff.mp hwoken
  exact ⟨s, hrun, hs, (task1_gets_out hrun).1 (by decide)⟩

/-! ## The run in which it does not -/

/-- Both threads are at the heads of their loops. -/
def between (count : Int) (i : Nat) : Batch where
  count := count
  is_running := true
  i := i
  sync := .free
  pc1 := .testing
  pc2 := .testing

def produceOne : List TaskStep := [.testLoop, .lock2, .increment, .unlock2, .signal ∅]

def consumeBatch : List TaskStep := [.readFlag, .lock1, .testCount, .unlock1]

theorem run_produceOne {count : Int} {i : Nat} (hi : i < 100) :
    run Batch.step (between count i) produceOne = some (between (count + 1) (i + 1)) := by
  simp [run, Batch.step, between, produceOne, hi, Monitor.free, Monitor.lock, Monitor.unlock,
    Monitor.notify, Monitor.wake]

theorem run_consumeBatch {count : Int} {i : Nat} (hcount : 10 ≤ count) :
    run Batch.step (between count i) consumeBatch = some (between (count - 10) i) := by
  have hmany : ¬ count < 10 := Int.not_lt.mpr hcount
  simp [run, Batch.step, between, consumeBatch, hmany, Monitor.free, Monitor.lock, Monitor.unlock]

theorem run_produce : ∀ (n : Nat) (count : Int) (i : Nat), i + n ≤ 100 →
    run Batch.step (between count i) (List.replicate n produceOne).flatten =
      some (between (count + n) (i + n))
  | 0, _, _, _ => by simp
  | n + 1, count, i, hi => by
      have hrest := run_produce n (count + 1) (i + 1) (by omega)
      rw [List.replicate_succ, List.flatten_cons]
      refine run_append.mpr ⟨_, run_produceOne (by omega), hrest.trans ?_⟩
      congr 2
      · push_cast
        omega
      · omega

theorem run_consume : ∀ (n : Nat) (count : Int) (i : Nat), 10 * n ≤ count →
    run Batch.step (between count i) (List.replicate n consumeBatch).flatten =
      some (between (count - 10 * n) i)
  | 0, _, _, _ => by simp
  | n + 1, count, i, hcount => by
      push_cast at hcount
      have hrest := run_consume n (count - 10) i (by omega)
      rw [List.replicate_succ, List.flatten_cons]
      refine run_append.mpr ⟨_, run_consumeBatch (by omega), hrest.trans ?_⟩
      congr 2
      push_cast
      omega

/-- `task1` reads the flag after the last batch, and before it is cleared. -/
def lateRead : List TaskStep :=
  [.testLoop, .readFlag, .lock1, .testCount, .clear, .signal {.task1}, .resume, .testCount]

theorem late_read_hangs : ∃ es s, run Batch.step init es = some s ∧ s.Hung := by
  have hlate : (run Batch.step (between 0 100) lateRead).map
      (fun s => (s.pc1, s.pc2, s.sync.wait .task1, s.due)) =
        some (.waiting, .returned, .blocked (), 0) := by decide
  obtain ⟨s, htail, hs⟩ := Option.map_eq_some_iff.mp hlate
  have hwhole : run Batch.step init ((List.replicate 100 produceOne).flatten ++
      ((List.replicate 10 consumeBatch).flatten ++ lateRead)) = some s :=
    run_append.mpr ⟨_, run_produce 100 0 0 (by omega),
      run_append.mpr ⟨_, run_consume 10 _ _ (by omega), htail⟩⟩
  obtain ⟨hpc1, hpc2, hwait, hdue⟩ : s.pc1 = .waiting ∧ s.pc2 = .returned ∧
      s.sync.wait .task1 = .blocked () ∧ s.due = 0 := by simpa using hs
  have hboth := inv_owned_run hwhole
  have hstarved : s.Starved := ⟨by rw [hpc1]; trivial, hdue⟩
  have hlost : s.Lost := ⟨hboth.1, hboth.2, hstarved⟩
  exact ⟨_, s, hwhole, hlost.hung hpc2 hwait⟩

end Batch

end CppDemos
