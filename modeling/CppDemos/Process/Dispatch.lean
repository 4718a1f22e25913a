import CppDemos.Process.Parent
import Mathlib.Data.List.Induction

/-!
# Several process pools

`nextWorker` is a static local of `submit`: the pools of a process share it. A submit finds it
where the submit before has left it, on this pool or on another, of another size.

The worker whose turn it is on the pool of the submit before is the one that the cursor
stands at, so a change of pools goes well exactly if the new pool's turn has the same index.
-/

namespace CppDemos

open Machine

/-! ## Definitions -/

/-- What `submit` reads of a pool that is made. -/
structure PoolPipes where
  numWorkers : Nat
  pipes : List Nat
  length_pipes : pipes.length = numWorkers
  one_le : 1 ≤ numWorkers
deriving Repr

/-- The pool of a constructor that has returned. -/
def PoolPipes.ofReady {τ μ α : Type} {s : ProcessPool τ μ α} {n r : Nat} (hi : s.ParentInv n r)
    (hpos : s.pos = .ready) (hn : 1 ≤ n) : PoolPipes where
  numWorkers := s.numWorkers
  pipes := s.pipes
  length_pipes := by
    have hcounts := hi.counts
    simp only [ProcessPool.Counts, hpos] at hcounts
    exact hcounts.2.2
  one_le := hi.size ▸ hn

/-- The static of `submit`, and what the submits so far have written: their pools and the
indices in `pipes`. -/
structure Dispatch (ι : Type) where
  nextWorker : Nat := 0
  writes : List (ι × Nat) := []
deriving DecidableEq, Repr

namespace Dispatch

open ProcessPool (getElem?_concat_cases)

variable {ι : Type}

/-- `submit` on a pool; `none` if `nextWorker` is no index of its `pipes`. -/
def submit (pools : ι → PoolPipes) (s : Dispatch ι) (pool : ι) : Option (Dispatch ι) :=
  (pools pool).pipes[s.nextWorker]?.map fun _ =>
    { nextWorker := (s.nextWorker + 1) % (pools pool).numWorkers
      writes := s.writes ++ [(pool, s.nextWorker)] }

/-- The worker of a pool whose turn it is after these submits. -/
def turn [DecidableEq ι] (pools : ι → PoolPipes) (calls : List ι) (pool : ι) : Nat :=
  calls.count pool % (pools pool).numWorkers

/-- Every submit has written to a pipe of its pool, that of the worker whose turn it was. -/
def InTurn [DecidableEq ι] (pools : ι → PoolPipes) (calls : List ι) (s : Dispatch ι) : Prop :=
  ∀ i pool, calls[i]? = some pool → ∃ k, s.writes[i]? = some (pool, k) ∧
    k < (pools pool).pipes.length ∧ k = turn pools (calls.take i) pool

/-- These submits, the first of the process, are round robin on each pool. -/
def RoundRobin [DecidableEq ι] (pools : ι → PoolPipes) (calls : List ι) : Prop :=
  ∃ s, run (submit pools) {} calls = some s ∧ InTurn pools calls s

/-- At every change from a pool to another, it is the turn of workers with the same index. -/
def InStep [DecidableEq ι] (pools : ι → PoolPipes) (calls : List ι) : Prop :=
  ∀ i old new, calls[i]? = some old → calls[i + 1]? = some new →
    turn pools (calls.take (i + 1)) old = turn pools (calls.take (i + 1)) new

/-! ## A submit -/

variable {pools : ι → PoolPipes} {calls : List ι} {pool : ι} {s s' : Dispatch ι}

theorem submit_eq_some : s.submit pools pool = some s' ↔
    s.nextWorker < (pools pool).pipes.length ∧
      s' = { nextWorker := (s.nextWorker + 1) % (pools pool).numWorkers
             writes := s.writes ++ [(pool, s.nextWorker)] } := by
  unfold submit
  rw [Option.map_eq_some_iff]
  constructor
  · rintro ⟨fd, hfd, rfl⟩
    exact ⟨(List.getElem?_eq_some_iff.mp hfd).1, rfl⟩
  · rintro ⟨hlt, rfl⟩
    exact ⟨_, List.getElem?_eq_getElem hlt, rfl⟩

/-- `submit` does with the static what `ProcessPool.submit` does with its own cursor. -/
theorem submit_agrees {τ μ α : Type} [DecidableEq α] {p : ProcessPool τ μ α} {n r : Nat}
    (hi : p.ParentInv n r) (hpos : p.pos = .ready) (hn : 1 ≤ n)
    (hpool : pools pool = .ofReady hi hpos hn) (hnext : s.nextWorker = p.nextWorker) (task : τ) :
    (s.submit pools pool).map nextWorker = (p.submit task).map ProcessPool.nextWorker := by
  unfold submit ProcessPool.submit
  rw [hpool, hnext, Option.map_map, Option.map_map]
  refine congrArg (Option.map · _) (funext fun fd => ?_)
  dsimp only [Function.comp_apply, PoolPipes.ofReady]
  split
  · split <;> rfl
  · rfl

/-! ## Runs -/

theorem length_writes (h : run (submit pools) {} calls = some s) :
    s.writes.length = calls.length := by
  induction calls using List.reverseRecOn generalizing s with
  | nil =>
      obtain rfl := Option.some.inj h
      rfl
  | append_singleton calls pool ih =>
      obtain ⟨s₀, hrun, hlast⟩ := run_concat.mp h
      obtain ⟨-, rfl⟩ := submit_eq_some.mp hlast
      rw [List.length_append, List.length_append, ih hrun, List.length_singleton,
        List.length_singleton]

variable [DecidableEq ι]

theorem turn_lt (pools : ι → PoolPipes) (calls : List ι) (pool : ι) :
    turn pools calls pool < (pools pool).pipes.length := by
  rw [(pools pool).length_pipes]
  exact Nat.mod_lt _ (pools pool).one_le

theorem turn_concat_self :
    turn pools (calls ++ [pool]) pool
      = (turn pools calls pool + 1) % (pools pool).numWorkers := by
  unfold turn
  rw [List.count_append, List.count_singleton_self, Nat.mod_add_mod]

theorem roundRobin_concat : RoundRobin pools (calls ++ [pool]) ↔
    ∃ s, run (submit pools) {} calls = some s ∧ InTurn pools calls s ∧
      s.nextWorker = turn pools calls pool := by
  constructor
  · rintro ⟨s, h, hturns⟩
    obtain ⟨s₀, hrun, hlast⟩ := run_concat.mp h
    obtain ⟨-, rfl⟩ := submit_eq_some.mp hlast
    have hlength := length_writes hrun
    refine ⟨s₀, hrun, fun i p hp => ?_, ?_⟩
    · have hi : i < calls.length := (List.getElem?_eq_some_iff.mp hp).1
      obtain ⟨k, hk, hrest⟩ := hturns i p (by rw [List.getElem?_append_left hi, hp])
      rw [List.getElem?_append_left (hlength ▸ hi)] at hk
      rw [List.take_append_of_le_length (Nat.le_of_lt hi)] at hrest
      exact ⟨k, hk, hrest⟩
    · obtain ⟨k, hk, -, hturn⟩ := hturns calls.length pool List.getElem?_concat_length
      rw [← hlength, List.getElem?_concat_length] at hk
      rw [List.take_left] at hturn
      cases hk
      exact hturn
  · rintro ⟨s, hrun, hturns, hnext⟩
    have hlength := length_writes hrun
    have hlast : s.nextWorker < (pools pool).pipes.length := hnext ▸ turn_lt pools calls pool
    refine ⟨_, run_concat.mpr ⟨s, hrun, submit_eq_some.mpr ⟨hlast, rfl⟩⟩,
      fun i p hp => ?_⟩
    · rcases getElem?_concat_cases hp with hold | ⟨rfl, rfl⟩
      · have hi : i < calls.length := (List.getElem?_eq_some_iff.mp hold).1
        obtain ⟨k, hk, hrest⟩ := hturns i p hold
        rw [List.take_append_of_le_length (Nat.le_of_lt hi)]
        exact ⟨k, by rw [List.getElem?_append_left (hlength ▸ hi), hk], hrest⟩
      · refine ⟨s.nextWorker, ?_, hlast, ?_⟩
        · rw [← hlength, List.getElem?_concat_length]
        · rw [List.take_left, hnext]

theorem nextWorker_eq_turn {last : ι} (hrun : run (submit pools) {} calls = some s)
    (hturns : InTurn pools calls s) (hlast : calls.getLast? = some last) :
    s.nextWorker = turn pools calls last := by
  obtain ⟨before, rfl⟩ := List.getLast?_eq_some_iff.mp hlast
  obtain ⟨s₀, hrun₀, -, hnext⟩ := roundRobin_concat.mp ⟨s, hrun, hturns⟩
  obtain ⟨s₁, hrun₁, hstep⟩ := run_concat.mp hrun
  obtain rfl : s₁ = s₀ := Option.some.inj (hrun₁.symm.trans hrun₀)
  obtain ⟨-, rfl⟩ := submit_eq_some.mp hstep
  rw [turn_concat_self, ← hnext]

/-- One more submit is in turn if it is on the pool of the submit before or the turn there has
the same index. -/
theorem roundRobin_concat_iff : RoundRobin pools (calls ++ [pool]) ↔
    RoundRobin pools calls ∧
      ∀ last, calls.getLast? = some last → turn pools calls last = turn pools calls pool := by
  rw [roundRobin_concat]
  constructor
  · rintro ⟨s, hrun, hturns, hnext⟩
    refine ⟨⟨s, hrun, hturns⟩, fun last hlast => ?_⟩
    rw [← nextWorker_eq_turn hrun hturns hlast, hnext]
  · rintro ⟨⟨s, hrun, hturns⟩, hsame⟩
    refine ⟨s, hrun, hturns, ?_⟩
    cases hlast : calls.getLast? with
    | none =>
        obtain rfl := List.getLast?_eq_none_iff.mp hlast
        obtain rfl := Option.some.inj hrun
        exact (Nat.zero_mod _).symm
    | some last => rw [nextWorker_eq_turn hrun hturns hlast, hsame last hlast]

theorem inStep_concat_iff : InStep pools (calls ++ [pool]) ↔
    InStep pools calls ∧
      ∀ last, calls.getLast? = some last → turn pools calls last = turn pools calls pool := by
  constructor
  · refine fun h => ⟨fun i old new hold hnew => ?_, fun last hlast => ?_⟩
    · have hi : i + 1 < calls.length := (List.getElem?_eq_some_iff.mp hnew).1
      have hstep := h i old new (by rw [List.getElem?_append_left (by omega), hold])
        (by rw [List.getElem?_append_left hi, hnew])
      rwa [List.take_append_of_le_length (by omega)] at hstep
    · obtain ⟨before, rfl⟩ := List.getLast?_eq_some_iff.mp hlast
      have hlength : (before ++ [last]).length = before.length + 1 := List.length_append
      have hstep := h before.length last pool
        (by rw [List.getElem?_append_left (by omega), List.getElem?_concat_length])
        (by rw [← hlength, List.getElem?_concat_length])
      rwa [← hlength, List.take_left] at hstep
  · rintro ⟨h, hlast⟩ i old new hold hnew
    rcases getElem?_concat_cases hnew with hmid | ⟨hend, rfl⟩
    · have hi : i + 1 < calls.length := (List.getElem?_eq_some_iff.mp hmid).1
      rw [List.getElem?_append_left (by omega)] at hold
      rw [List.take_append_of_le_length (by omega)]
      exact h i old new hold hmid
    · rw [List.getElem?_append_left (by omega)] at hold
      rw [hend, List.take_left]
      refine hlast old ?_
      rw [List.getLast?_eq_getElem?, ← hold]
      congr 1
      omega

theorem roundRobin_iff_inStep : RoundRobin pools calls ↔ InStep pools calls := by
  induction calls using List.reverseRecOn with
  | nil =>
      refine iff_of_true ⟨{}, rfl, fun i pool hpool => ?_⟩ fun i old new hold => ?_
      · cases hpool
      · cases hold
  | append_singleton calls pool ih => rw [roundRobin_concat_iff, inStep_concat_iff, ih]

/-- A pool of two workers or more is out of step with any other after its first submit. -/
theorem numWorkers_eq_one {old new : ι} (hne : new ≠ old) (h : InStep pools [old, new]) :
    (pools old).numWorkers = 1 := by
  have hstep : 1 % (pools old).numWorkers = 0 % (pools new).numWorkers := by
    have hturn := h 0 old new rfl rfl
    rwa [turn, turn, List.take_succ_cons, List.take_zero, List.count_singleton_self,
      List.count_eq_zero.mpr (by simpa using hne)] at hturn
  rw [Nat.zero_mod] at hstep
  exact Nat.dvd_one.mp (Nat.dvd_of_mod_eq_zero hstep)

end Dispatch

open Dispatch

/-- Submits on the pools of a process are round robin on each exactly if every change of pools
is in step; all submits are, exactly if there is one pool or every pool has one worker. -/
theorem round_robin_iff {ι : Type} [DecidableEq ι] (pools : ι → PoolPipes) :
    (∀ calls, RoundRobin pools calls ↔ InStep pools calls) ∧
      ((∀ calls, RoundRobin pools calls) ↔
        (∀ old new : ι, new = old) ∨ ∀ pool, (pools pool).numWorkers = 1) := by
  refine ⟨fun calls => roundRobin_iff_inStep, fun hall => ?_, fun hall calls => ?_⟩
  · by_contra hnot
    obtain ⟨hpools, pool, hworkers⟩ : (∃ old new : ι, new ≠ old) ∧
        ∃ pool, (pools pool).numWorkers ≠ 1 := by
      simpa only [not_or, not_forall] using hnot
    have hother : ∃ other, other ≠ pool := by
      obtain ⟨old, new, hne⟩ := hpools
      by_cases hold : old = pool
      · exact ⟨new, hold ▸ hne⟩
      · exact ⟨old, hold⟩
    obtain ⟨other, hother⟩ := hother
    exact hworkers (numWorkers_eq_one hother (roundRobin_iff_inStep.mp (hall [pool, other])))
  · refine roundRobin_iff_inStep.mpr fun i old new _ _ => ?_
    rcases hall with hone | hworkers
    · rw [hone old new]
    · rw [turn, turn, hworkers, hworkers, Nat.mod_one, Nat.mod_one]

/-- A pool of two workers and one of a single worker, made one after the other. -/
def unevenPools : Bool → PoolPipes
  | false => ⟨2, [4, 5], rfl, by decide⟩
  | true => ⟨1, [6], rfl, by decide⟩

/-- After a submit on the first pool there is no pipe for the second one's. -/
theorem submit_out_of_range :
    run (submit unevenPools) {} [false, true] = none ∧
      ¬ ∀ calls, RoundRobin unevenPools calls := by
  have hnone : run (submit unevenPools) {} [false, true] = none := rfl
  refine ⟨hnone, fun hall => ?_⟩
  obtain ⟨s, hrun, -⟩ := hall [false, true]
  exact Option.some_ne_none s (hrun.symm.trans hnone)

end CppDemos
