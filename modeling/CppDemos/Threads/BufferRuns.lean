import Mathlib.Algebra.Group.Action.Defs
import Mathlib.Algebra.Order.BigOperators.Ring.Finset
import CppDemos.Threads.Buffer

/-!
# The buffer keeps moving

Between two changes of `index` a thread can only get to its inner `while` and fall asleep there,
and only a notification, which follows a change, or a spurious wakeup gets it out. So there are
not many steps in a row without a change (`rank`), and there is always one to take.
-/

namespace CppDemos

open Machine

namespace MyData

variable {P C : Type} {s s' : MyData P C} {t u : P ⊕ C} {n : Int}

theorem sum_step {ι : Type} [Fintype ι] [DecidableEq ι] {f g : ι → Nat} {i : ι} {d : Nat}
    (h : ∀ j, j ≠ i → g j ≤ f j + d) :
    ∑ j, g j + f i ≤ ∑ j, f j + g i + d * Fintype.card ι := by
  have hf := Finset.add_sum_erase Finset.univ f (Finset.mem_univ i)
  have hg := Finset.add_sum_erase Finset.univ g (Finset.mem_univ i)
  have hothers : ∑ j ∈ Finset.univ.erase i, g j ≤ ∑ j ∈ Finset.univ.erase i, (f j + d) :=
    Finset.sum_le_sum fun j hj => h j (Finset.ne_of_mem_erase hj)
  have hcard : d * (Finset.univ.erase i).card ≤ d * Fintype.card ι :=
    Nat.mul_le_mul_left d (Finset.card_le_univ _)
  rw [Finset.sum_add_distrib, Finset.sum_const, smul_eq_mul, Nat.mul_comm] at hothers
  omega

/-! ## What is still to do without a change -/

/-- What a thread can do until it sleeps, if it finds nothing to change. -/
def toSleep (s : MyData P C) (t : P ⊕ C) : Nat :=
  match s.pc t, s.sync.wait t with
  | .outside, _ => 2
  | .testing, .running => 1
  | .testing, .woken => 2
  | .testing, .blocked _ => 0
  | .changed, _ => 4
  | .notified, _ => 3

theorem toSleep_wakes (hpc : s'.pc t = s.pc t) (hwakes : s.sync.Wakes s'.sync) :
    s'.toSleep t ≤ s.toSleep t + 2 := by
  unfold toSleep
  rw [hpc]
  rcases hwakes.wait t with heq | ⟨⟨c, hblocked⟩, hwoken⟩
  · rw [heq]
    omega
  · rw [hblocked, hwoken]
    cases s.pc t <;> simp

theorem toSleep_le (s : MyData P C) (t : P ⊕ C) : s.toSleep t ≤ 4 := by
  unfold toSleep
  split <;> omega

variable [Fintype P] [Fintype C]

/-- The same for a thread that has a notification to give, with all that it may wake. -/
def toPay (s : MyData P C) (t : P ⊕ C) : Nat :=
  s.toSleep t + if s.pc t = .changed then 2 * Fintype.card (P ⊕ C) else 0

def rank (s : MyData P C) : Nat := ∑ t, s.toPay t

/-- Only one thread at a time has a notification to give. -/
theorem Ordered.rank_le (h : s.Ordered) : s.rank ≤ 6 * Fintype.card (P ⊕ C) := by
  have hsleep : ∑ t, s.toSleep t ≤ Fintype.card (P ⊕ C) * 4 := by
    have hsum := Finset.sum_le_card_nsmul Finset.univ s.toSleep 4 fun t _ => s.toSleep_le t
    rwa [smul_eq_mul, Finset.card_univ] at hsum
  have hnotify : (∑ t, if s.pc t = .changed then 2 * Fintype.card (P ⊕ C) else 0)
      ≤ 2 * Fintype.card (P ⊕ C) := by
    by_cases hany : ∃ t, s.pc t = .changed
    · obtain ⟨t, ht⟩ := hany
      refine (Finset.sum_eq_single t (fun u _ hu => if_neg fun hpc => hu ?_)
        fun hout => absurd (Finset.mem_univ t) hout).trans_le ?_
      · exact Option.some.inj ((h.owner hpc).symm.trans (h.owner ht))
      · rw [if_pos ht]
    · rw [Finset.sum_eq_zero fun t _ => if_neg fun ht => hany ⟨t, ht⟩]
      exact Nat.zero_le _
  rw [rank, show s.toPay = fun t => s.toSleep t + _ from rfl, Finset.sum_add_distrib]
  omega

theorem toPay_same (hpc : s'.pc t = s.pc t) (hwait : s'.sync.wait t = s.sync.wait t) :
    s'.toPay t = s.toPay t := by
  rw [toPay, toPay, toSleep, toSleep, hpc, hwait]

theorem toPay_wakes (hpc : s'.pc t = s.pc t) (hwakes : s.sync.Wakes s'.sync) :
    s'.toPay t ≤ s.toPay t + 2 := by
  have hsleep := toSleep_wakes hpc hwakes
  rw [toPay, toPay, hpc]
  omega

variable [DecidableEq P] [DecidableEq C]

/-- A step of one thread that the others do not notice. -/
theorem rank_alone (hothers : ∀ u, u ≠ t → s'.pc u = s.pc u ∧ s'.sync.wait u = s.sync.wait u) :
    s'.rank + s.toPay t ≤ s.rank + s'.toPay t := by
  have hsum := sum_step (f := s.toPay) (g := s'.toPay) (d := 0) fun u hu =>
    (toPay_same (hothers u hu).1 (hothers u hu).2).le
  simpa [rank] using hsum

/-- A step that one thread pays for alone. -/
theorem rank_local {cost gain : Nat}
    (hothers : ∀ u, u ≠ t → s'.pc u = s.pc u ∧ s'.sync.wait u = s.sync.wait u)
    (hcost : s'.toPay t + cost ≤ s.toPay t + gain) : s'.rank + cost ≤ s.rank + gain := by
  have halone := rank_alone hothers
  omega

/-- A notification wakes all the others at most, which has been paid for. -/
theorem rank_notify {m : Monitor (P ⊕ C) Cond} (hpc : s.pc t = .changed)
    (hwakes : s.sync.Wakes m) :
    rank { s with sync := m, pc := Function.update s.pc t .notified } + 1 ≤ s.rank := by
  let s₁ : MyData P C := { s with sync := m, pc := Function.update s.pc t .notified }
  have hothers : ∀ u, u ≠ t → s₁.toPay u ≤ s.toPay u + 2 := fun u hu =>
    toPay_wakes (Function.update_of_ne hu ..) hwakes
  have hsum := sum_step hothers
  have hbefore : s.toPay t = 4 + 2 * Fintype.card (P ⊕ C) := by simp [toPay, toSleep, hpc]
  have hafter : s₁.toPay t = 3 := by simp [s₁, toPay, toSleep]
  show s₁.rank + 1 ≤ s.rank
  rw [hbefore, hafter] at hsum
  simp only [rank]
  omega

def Spurious (e : (P ⊕ C) × ThreadStep (P ⊕ C)) : Bool :=
  match e.2 with
  | .spurious => true
  | _ => false

/-- Without a change every step costs, and a spurious wakeup pays for two. -/
theorem Inv.rank_step [Nonempty P] (hi : s.Inv n) {e : (P ⊕ C) × ThreadStep (P ⊕ C)}
    (hsame : s'.index = s.index) (hstep : s.step e = some s') :
    s'.rank + 1 ≤ s.rank + if Spurious e then 3 else 0 := by
  obtain ⟨t, a⟩ := e
  cases a with
  | lock =>
      obtain ⟨hpc, m, hm, rfl⟩ := advance_eq_some.mp hstep
      obtain ⟨-, hrun, -, hwait⟩ := Monitor.lock_eq_some hm
      refine rank_local (t := t) (fun u hu => ⟨Function.update_of_ne hu .., by rw [hwait]⟩) ?_
      simp [toPay, toSleep, hpc, hwait, hrun]
  | test =>
      simp only [MyData.step] at hstep
      split at hstep
      · rename_i hpc
        split at hstep
        · obtain ⟨m, hm, rfl⟩ := Option.map_eq_some_iff.mp hstep
          obtain ⟨howner, -, hwait⟩ := Monitor.sleep_eq_some hm
          have hrun := s.sync.running t howner
          refine rank_local (t := t)
            (fun u hu => ⟨rfl, by rw [hwait, Function.update_of_ne hu]⟩) ?_
          simp [toPay, toSleep, hpc.1, hwait, hrun]
        · cases hstep
          cases t <;> simp [body, produce, consume] at hsame
      · cases hstep
  | notify woken =>
      obtain ⟨hpc, m, hm, rfl⟩ := advance_eq_some.mp hstep
      exact (rank_notify hpc (Monitor.notify_wakes hm)).trans (Nat.le_add_right ..)
  | unlock =>
      obtain ⟨hpc, m, hm, rfl⟩ := advance_eq_some.mp hstep
      obtain ⟨-, -, hwait⟩ := Monitor.unlock_eq_some hm
      refine rank_local (t := t) (fun u hu => ⟨Function.update_of_ne hu .., by rw [hwait]⟩) ?_
      simp [toPay, toSleep, hpc]
  | spurious =>
      obtain ⟨m, hm, rfl⟩ := Option.map_eq_some_iff.mp hstep
      refine rank_local (t := t) (fun u hu => ⟨rfl, Monitor.spurious_others hm hu⟩) ?_
      have hmore : toPay { s with sync := m } t ≤ s.toPay t + 2 :=
        toPay_wakes rfl (Monitor.spurious_wakes hm)
      simp [Spurious]
      omega
  | resume =>
      obtain ⟨m, hm, rfl⟩ := Option.map_eq_some_iff.mp hstep
      obtain ⟨-, hwoken, -, hwait⟩ := Monitor.resume_eq_some hm
      have hpc := hi.sleeping t (by rw [hwoken]; simp)
      refine rank_local (t := t) (fun u hu => ⟨rfl, by rw [hwait, Function.update_of_ne hu]⟩) ?_
      simp [toPay, toSleep, hpc, hwait, hwoken]

/-- The step leaves `index` as it is. -/
def Still (s : MyData P C) (e : (P ⊕ C) × ThreadStep (P ⊕ C)) : Prop :=
  (s.step e).all fun s' => s'.index = s.index

instance (s : MyData P C) (e : (P ⊕ C) × ThreadStep (P ⊕ C)) : Decidable (s.Still e) :=
  inferInstanceAs (Decidable (_ = true))

theorem costs [Nonempty P] :
    Costs MyData.step (Still (P := P) (C := C)) Spurious (fun s => s.Inv n) rank 3 := by
  intro s e s' hi hstill hstep
  refine ⟨hi.step hstep, hi.rank_step ?_ hstep⟩
  simpa [Still, hstep] using hstill

/-! ## There is always a step -/

/-- Whoever owns the mutex has locked it. -/
def Entered (s : MyData P C) : Prop := ∀ t, s.sync.owner = some t → s.pc t ≠ .outside

omit [Fintype P] [Fintype C] in
theorem Entered.update (h : s.Entered) {m : Monitor (P ⊕ C) Cond} {next : Pc} {index : Int}
    (hnext : m.owner = some t → next ≠ .outside)
    (hothers : ∀ u, u ≠ t → m.owner = some u → s.sync.owner = some u) :
    Entered { s with index := index, sync := m, pc := Function.update s.pc t next } := by
  intro u hu
  by_cases hut : u = t
  · subst hut
    simpa using hnext hu
  · simpa [Function.update_of_ne hut] using h u (hothers u hut hu)

theorem Entered.step (h : s.Entered) (ho : s.Ordered) {e : (P ⊕ C) × ThreadStep (P ⊕ C)}
    (hstep : s.step e = some s') : s'.Entered := by
  obtain ⟨t, a⟩ := e
  cases a with
  | lock =>
      obtain ⟨-, m, hm, rfl⟩ := advance_eq_some.mp hstep
      obtain ⟨-, -, howner, -⟩ := Monitor.lock_eq_some hm
      exact h.update (fun _ => by simp) fun u hu heq =>
        absurd (by simpa [howner] using heq) (Ne.symm hu)
  | test =>
      simp only [MyData.step] at hstep
      split at hstep
      · rename_i hpc
        split at hstep
        · obtain ⟨m, hm, rfl⟩ := Option.map_eq_some_iff.mp hstep
          intro u hu
          rw [(Monitor.sleep_eq_some hm).2.1] at hu
          cases hu
        · cases hstep
          exact h.update (fun _ => by simp) fun _ _ heq => heq
      · cases hstep
  | notify woken =>
      obtain ⟨-, m, hm, rfl⟩ := advance_eq_some.mp hstep
      exact h.update (fun _ => by simp) fun u _ heq => (Monitor.notify_wakes hm).owner ▸ heq
  | unlock =>
      obtain ⟨-, m, hm, rfl⟩ := advance_eq_some.mp hstep
      intro u hu
      rw [(Monitor.unlock_eq_some hm).2.1] at hu
      cases hu
  | spurious =>
      obtain ⟨m, hm, rfl⟩ := Option.map_eq_some_iff.mp hstep
      exact fun u hu => h u ((Monitor.spurious_wakes hm).owner ▸ hu)
  | resume =>
      obtain ⟨m, hm, rfl⟩ := Option.map_eq_some_iff.mp hstep
      obtain ⟨-, hwoken, howner, -⟩ := Monitor.resume_eq_some hm
      intro u hu
      obtain rfl : u = t := by simpa [howner, eq_comm] using hu
      have hpc : s.pc u = .testing := ho.sleeping u (by rw [hwoken]; simp)
      simp [hpc]

theorem Entered.exists_inside (h : s.Entered) (howner : s.sync.owner = some t) :
    ∃ a, (s.step (t, a)).isSome ∧ ¬ Spurious (t, a) := by
  cases hpc : s.pc t with
  | outside => exact absurd hpc (h t howner)
  | testing =>
      obtain ⟨m, hm⟩ := Monitor.exists_sleep howner (body t).cond
      refine ⟨.test, ?_, by simp [Spurious]⟩
      cases hwaits : (body t).waits s.index s.capicity <;>
        simp [MyData.step, hpc, howner, hm, hwaits]
  | changed =>
      have hnotify : ∃ woken m, s.sync.notify woken (body t).notify = some m := by
        cases t with
        | inl p => exact ⟨∅, _, rfl⟩
        | inr c => exact s.sync.exists_signal .cond2
      obtain ⟨woken, m, hm⟩ := hnotify
      exact ⟨.notify woken, by simp [MyData.step, advance, hpc, hm], by simp [Spurious]⟩
  | notified =>
      obtain ⟨m, hm⟩ := Monitor.exists_unlock howner
      exact ⟨.unlock, by simp [MyData.step, advance, hpc, hm], by simp [Spurious]⟩

theorem Ordered.exists_outside (h : s.Ordered) (hfree : s.sync.owner = none)
    (hawake : ¬ s.Blocked t) : ∃ a, (s.step (t, a)).isSome ∧ ¬ Spurious (t, a) := by
  cases hwait : s.sync.wait t with
  | running =>
      have hpc : s.pc t = .outside := by
        by_contra hin
        have howner := h.inside t hwait hin
        rw [hfree] at howner
        cases howner
      obtain ⟨m, hm⟩ := Monitor.exists_lock hfree hwait
      exact ⟨.lock, by simp [MyData.step, advance, hpc, hm], by simp [Spurious]⟩
  | blocked c => exact absurd ⟨c, hwait⟩ hawake
  | woken =>
      obtain ⟨m, hm⟩ := Monitor.exists_resume hfree hwait
      exact ⟨.resume, by simp [MyData.step, hm], by simp [Spurious]⟩

/-- However the threads are scheduled, the buffer keeps moving: there is always a step that is
no spurious wakeup, and from any reachable state at most six steps for each thread, and three
for each spurious wakeup, go by without a change of `index`. -/
theorem keeps_moving [Nonempty P] [Nonempty C] (hn : 1 ≤ n)
    {es es' : List ((P ⊕ C) × ThreadStep (P ⊕ C))} (h : run MyData.step (init n) es = some s)
    (h' : run MyData.step s es' = some s') :
    (∃ t a, (s.step (t, a)).isSome ∧ ¬ Spurious (t, a)) ∧
    (Along MyData.step Still s es' →
      es'.length ≤ 6 * Fintype.card (P ⊕ C) + 3 * es'.countP Spurious) := by
  obtain ⟨hi, hentered⟩ : s.Inv n ∧ s.Entered := by
    refine run_invariant (P := fun s => s.Inv n ∧ s.Entered)
      (fun _ _ _ hs hstep => ⟨hs.1.step hstep, hs.2.step hs.1.toOrdered hstep⟩) h
      ⟨inv_init hn, fun t ht => ?_⟩
    cases ht
  refine ⟨?_, fun hsame => ?_⟩
  · cases howner : s.sync.owner with
    | none =>
        obtain ⟨t, ht⟩ := hi.exists_not_blocked hn
        exact ⟨t, hi.exists_outside howner ht⟩
    | some t => exact ⟨t, hentered.exists_inside howner⟩
  · have hlength := run_length_le costs h' hsame hi
    have hrank := hi.rank_le
    omega

/-- `t` leaves, and `u` finds nothing. -/
def foundNothing (t u : P ⊕ C) : List ((P ⊕ C) × ThreadStep (P ⊕ C)) :=
  [(t, .unlock), (u, .lock), (u, .test)]

/-- Behind the first thing consumed. -/
theorem keeps_moving_main : ∃ s s' : MyData (Fin 1) (Fin 8),
    run MyData.step (init 10) firstProduced = some s ∧
    run MyData.step s (foundNothing (.inr 0) (.inr 1)) = some s' ∧
    (∃ t a, (s.step (t, a)).isSome ∧ ¬ Spurious (t, a)) ∧
    (foundNothing (.inr 0 : Fin 1 ⊕ Fin 8) (.inr 1)).length ≤ 6 * Fintype.card (Fin 1 ⊕ Fin 8)
      + 3 * (foundNothing (.inr 0 : Fin 1 ⊕ Fin 8) (.inr 1)).countP Spurious := by
  have hsome : (run MyData.step (init (P := Fin 1) (C := Fin 8) 10)
      (firstProduced ++ foundNothing (.inr 0) (.inr 1))).isSome := by decide
  have hstill : ((run MyData.step (init (P := Fin 1) (C := Fin 8) 10) firstProduced).all fun s =>
      Along MyData.step Still s (foundNothing (.inr 0) (.inr 1))) := by
    decide
  obtain ⟨s', hs'⟩ := Option.isSome_iff_exists.mp hsome
  obtain ⟨s, h, h'⟩ := run_append.mp hs'
  obtain ⟨hstep, hlength⟩ := keeps_moving (by decide) h h'
  rw [h] at hstill
  exact ⟨s, s', h, h', hstep, hlength (of_decide_eq_true hstill)⟩

end MyData

end CppDemos
