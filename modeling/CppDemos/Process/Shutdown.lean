import CppDemos.Process.Parent

/-!
# Shutting the pool down

The destructor closes the parent's write end of pipe `i` and waits for worker
`i`, which leaves its loop when `read` returns 0. But a worker is forked with a
copy of every write end that the parent has open by then and closes only its
own, so the pipe of worker `i` stays open in the workers behind it, and the
parent keeps theirs open until worker `i` is gone.

With one worker the destructor gets through; `shutdown_iff` says that with more
it does not, unless the constructor has ended the process for want of
descriptors.
-/

namespace CppDemos

open Machine

/-- A call of the parent, or a step of worker `i`. -/
inductive PoolEvent (τ : Type) where
  | create (c : CreateCall)
  | submit (task : τ)
  | destroy (c : DestroyCall)
  | worker (i : Nat)

namespace ProcessPool

variable {τ μ α : Type}

/-- A task that leaves the descriptors of its worker alone, as it returns. -/
def returns : Exec τ μ α := fun s i w readFd _ =>
  some (s.setWorker i { w with pos := .reading readFd })

variable [DecidableEq α]

def step (s : ProcessPool τ μ α) : PoolEvent τ → Option (ProcessPool τ μ α)
  | .create c => s.create c
  | .submit task => if s.pos = .ready then s.submit task else none
  | .destroy c => s.destroy c
  | .worker i => s.worker returns i

/-- Only worker `i` may have the write end of its pipe open, and only until it
has closed it before its loop. -/
def Released (s : ProcessPool τ μ α) (i : Nat) : Prop :=
  ¬ s.fds.Has (.writeEnd i) ∧ ∀ j w, s.workers[j]? = some w → w.fds.Has (.writeEnd i) →
    j = i ∧ ∃ fd0 fd1, w.pos = .forked fd0 fd1

/-- The parent waits for worker `i`, which is in `read`. -/
def Waits (s : ProcessPool τ μ α) (i : Nat) : Prop :=
  s.pos = .waiting i ∧ ∃ w readFd, s.workers[i]? = some w ∧ w.pos = .reading readFd

/-- The parent waits for worker `i`, which is in `read`, for ever. -/
def Stuck (s : ProcessPool τ μ α) (i : Nat) : Prop :=
  s.Waits i ∧ ∀ es s', run step s es = some s' → s'.Waits i

end ProcessPool

/-! ## The workers -/

/-- Worker `j` reads from its own pipe, and it has the write ends of the pipes
before its own open as long as it lives, and its own until its loop. -/
structure WorkerInv {τ μ α : Type} (j : Nat) (w : Worker τ μ α) : Prop where
  forked : ∀ fd0 fd1, w.pos = .forked fd0 fd1 →
    w.fds.get fd0 = some (.readEnd j) ∧ w.fds.get fd1 = some (.writeEnd j)
  looping : ∀ fd, w.pos.readFd = some fd → w.fds.get fd = some (.readEnd j)
  writes : ∀ i fd, w.fds.get fd = some (.writeEnd i) →
    i < j ∨ (i = j ∧ ∃ fd0, w.pos = .forked fd0 fd)
  keeps : ∀ i < j, w.pos ≠ .exited → w.fds.Has (.writeEnd i)

namespace WorkerInv

variable {τ μ α : Type} {j : Nat} {w : Worker τ μ α}

theorem enter (h : WorkerInv j w) {fd0 fd1 : Nat} (hpos : w.pos = .forked fd0 fd1) :
    WorkerInv j ({ w with fds := w.fds.close fd1, pos := .reading fd0 } : Worker τ μ α) := by
  obtain ⟨hget0, hget1⟩ := h.forked fd0 fd1 hpos
  refine ⟨?_, ?_, ?_, ?_⟩
  · intro _ _ heq
    cases heq
  · intro fd hfd
    cases hfd
    exact FdTable.close_keeps hget0 hget1 (by intro heq; cases heq)
  · intro i fd hget
    obtain ⟨hne, hold⟩ := FdTable.of_get_close hget
    rcases h.writes i fd hold with hlt | ⟨rfl, fd0', hfd⟩
    · exact .inl hlt
    · rw [hpos] at hfd
      cases hfd
      exact absurd rfl hne
  · intro i hij _
    obtain ⟨fd, hget⟩ := FdTable.has_iff.mp (h.keeps i hij (by rw [hpos]; intro heq; cases heq))
    refine FdTable.has_iff.mpr ⟨fd, FdTable.close_keeps hget hget1 ?_⟩
    intro heq
    cases heq
    exact absurd hij (Nat.lt_irrefl _)

theorem loops (h : WorkerInv j w) {readFd : Nat} {pos : WorkerPos τ}
    (hold : w.pos.readFd = some readFd) (hnew : pos.readFd = some readFd) :
    WorkerInv j { w with pos } := by
  refine ⟨?_, ?_, ?_, ?_⟩
  · intro fd0 fd1 heq
    cases heq
    cases hnew
  · intro fd hfd
    exact h.looping fd (hold.trans (hnew.symm.trans hfd))
  · intro i fd hget
    rcases h.writes i fd hget with hlt | ⟨-, fd0, hpos⟩
    · exact .inl hlt
    · rw [hpos] at hold
      cases hold
  · intro i hij _
    refine h.keeps i hij ?_
    intro heq
    rw [heq] at hold
    cases hold

theorem leave (h : WorkerInv j w) {readFd : Nat} (hpos : w.pos = .closing readFd) :
    WorkerInv j ({ w with fds := w.fds.close readFd, pos := .exiting } : Worker τ μ α) := by
  have hread := h.looping readFd (by rw [hpos]; rfl)
  refine ⟨?_, ?_, ?_, ?_⟩
  · intro _ _ heq
    cases heq
  · intro _ heq
    cases heq
  · intro i fd hget
    rcases h.writes i fd (FdTable.of_get_close hget).2 with hlt | ⟨-, fd0, heq⟩
    · exact .inl hlt
    · rw [hpos] at heq
      cases heq
  · intro i hij _
    obtain ⟨fd, hget⟩ := FdTable.has_iff.mp (h.keeps i hij (by rw [hpos]; intro heq; cases heq))
    exact FdTable.has_iff.mpr
      ⟨fd, FdTable.close_keeps hget hread (by intro heq; cases heq)⟩

theorem exited (j : Nat) (mem : μ) :
    WorkerInv j (⟨.empty, mem, .exited⟩ : Worker τ μ α) where
  forked _ _ heq := by cases heq
  looping _ heq := by cases heq
  writes _ _ hget := by cases hget
  keeps _ _ hne := absurd rfl hne

end WorkerInv

namespace ProcessPool

variable {τ μ α : Type} {s s' : ProcessPool τ μ α} {n r : Nat}

theorem ParentInv.worker (hi : s.ParentInv n r) {fd0 fd1 : Nat} (hpos : s.pos = .piped fd0 fd1) :
    WorkerInv s.pipes.length (⟨s.fds, s.mem, .forked fd0 fd1⟩ : Worker τ μ α) where
  forked fd0' fd1' heq := by
    cases heq
    exact hi.making fd0 fd1 (by rw [hpos]; rfl)
  looping _ heq := by cases heq
  writes i fd hget := by
    rcases (hi.worker_files hpos).1 i fd hget with hlt | ⟨hlast, rfl⟩
    · exact .inl hlt
    · exact .inr ⟨hlast, fd0, rfl⟩
  keeps i hlt _ := (hi.worker_files hpos).2 i hlt

structure Inv (n r : Nat) (s : ProcessPool τ μ α) : Prop where
  parent : s.ParentInv n r
  workers : ∀ j w, s.workers[j]? = some w → WorkerInv j w

theorem Inv.setWorker (hi : s.Inv n r) {queues : List (List τ)} {i : Nat} {w : Worker τ μ α}
    (hqueues : queues.length = s.queues.length) (hw : WorkerInv i w) :
    ({ s with queues := queues }.setWorker i w).Inv n r where
  parent := hi.parent.congr rfl rfl rfl rfl (List.length_set ..) hqueues
  workers j w' hj := by
    rcases getElem?_set_cases hj with ⟨rfl, rfl⟩ | ⟨-, hold⟩
    · exact hw
    · exact hi.workers j w' hold

variable [DecidableEq α]

theorem Inv.worker (hi : s.Inv n r) {i : Nat} (h : s.worker returns i = some s') : s'.Inv n r := by
  obtain ⟨w, hw, hcases⟩ := worker_eq_some h
  have hold := hi.workers i w hw
  rcases hcases with ⟨fd0, fd1, hpos, rfl⟩ | ⟨readFd, hpos, hread⟩ | ⟨readFd, task, hpos, hexec⟩ |
    ⟨readFd, hpos, rfl⟩ | ⟨hpos, rfl⟩
  · exact hi.setWorker rfl (hold.enter hpos)
  · have hreadFd : w.pos.readFd = some readFd := by rw [hpos]; rfl
    rcases read_eq_some hread with ⟨p, task, rest, -, -, rfl⟩ | ⟨rfl, -⟩
    · exact hi.setWorker (List.length_set ..) (hold.loops hreadFd rfl)
    · exact hi.setWorker rfl (hold.loops hreadFd rfl)
  · cases hexec
    have hreadFd : w.pos.readFd = some readFd := by rw [hpos]; rfl
    exact hi.setWorker rfl (hold.loops hreadFd rfl)
  · exact hi.setWorker rfl (hold.leave hpos)
  · exact hi.setWorker rfl (WorkerInv.exited ..)

omit [DecidableEq α] in
theorem Inv.create (hi : s.Inv n r) {c : CreateCall} (h : s.create c = some s') : s'.Inv n r := by
  refine ⟨hi.parent.create h, ?_⟩
  rcases create_eq_some h with ⟨-, -, fd0, fd1, fds, -, rfl⟩ | ⟨fd0, fd1, hpos, rfl⟩ |
    ⟨fd0, fd1, -, rfl⟩ | ⟨-, -, rfl⟩ | rfl
  · exact hi.workers
  · have hcounts := hi.parent.counts
    simp only [Counts, hpos] at hcounts
    intro j w hj
    rcases getElem?_concat_cases hj with hold | ⟨rfl, rfl⟩
    · exact hi.workers j w hold
    · exact hcounts.1 ▸ hi.parent.worker hpos
  · exact hi.workers
  · exact hi.workers
  · exact hi.workers

theorem Inv.step (hi : s.Inv n r) {e : PoolEvent τ} (h : s.step e = some s') : s'.Inv n r := by
  cases e with
  | create c => exact hi.create h
  | submit task =>
      simp only [ProcessPool.step] at h
      split at h
      · refine ⟨hi.parent.submit h, ?_⟩
        obtain ⟨next, ⟨p, rfl⟩ | rfl | rfl⟩ := submit_eq_some h <;> exact hi.workers
      · cases h
  | destroy c =>
      refine ⟨hi.parent.destroy h, ?_⟩
      rcases destroy_eq_some h with ⟨-, rfl⟩ | ⟨i, fd, -, -, rfl⟩ | ⟨i, w, -, -, -, rfl⟩ |
        ⟨i, -, -, rfl⟩ <;> exact hi.workers
  | worker i => exact hi.worker h

variable {fds : FdTable α} {mem : μ}

theorem inv_run {es : List (PoolEvent τ)} (h : run step (init n fds mem) es = some s) :
    s.Inv n fds.room :=
  run_invariant (P := fun s => s.Inv n fds.room) (fun _ _ _ hs hstep => hs.step hstep) h
    ⟨parentInv_init, fun _ _ hj => by cases hj⟩

/-! ## One worker -/

theorem Inv.not_stuck (hi : s.Inv n r) {i : Nat} (hreleased : s.Released i) : ¬ s.Stuck i := by
  rintro ⟨⟨hpos, w, readFd, hw, hread⟩, hstuck⟩
  have hget := (hi.workers i w hw).looping readFd (by rw [hread]; rfl)
  have hclosed : ¬ s.Open (.writeEnd i) := by
    rintro (hparent | ⟨w', hmem, hhas⟩)
    · exact hreleased.1 hparent
    · obtain ⟨j, hj⟩ := List.mem_iff_getElem?.mp hmem
      obtain ⟨rfl, fd0, fd1, hforked⟩ := hreleased.2 j w' hj hhas
      cases hw.symm.trans hj
      rw [hread] at hforked
      cases hforked
  have hlt := (List.getElem?_eq_some_iff.mp hw).1
  obtain ⟨s', hs', hother⟩ : ∃ s', s.step (.worker i) = some s' ∧
      ∃ w' : Worker τ μ α, s'.workers[i]? = some w' ∧ ∀ readFd, w'.pos ≠ .reading readFd := by
    simp only [ProcessPool.step, ProcessPool.worker, hw, Option.bind_some, hread,
      ProcessPool.read, hget, if_neg hclosed]
    rcases s.queues[i]? with _ | _ | ⟨task, rest⟩
    · exact ⟨_, rfl, _, List.getElem?_set_self hlt, fun _ heq => by cases heq⟩
    · exact ⟨_, rfl, _, List.getElem?_set_self hlt, fun _ heq => by cases heq⟩
    · exact ⟨_, rfl, _, List.getElem?_set_self hlt, fun _ heq => by cases heq⟩
  obtain ⟨w', hw', hgone⟩ := hother
  have hrun : run ProcessPool.step s [.worker i] = some s' := by
    simp only [run, hs', Option.bind_some]
  obtain ⟨-, w'', readFd', hw'', hread'⟩ := hstuck _ s' hrun
  cases hw'.symm.trans hw''
  exact hgone readFd' hread'

omit [DecidableEq α] in
/-- At `waitpid` the write end of pipe `i` is open in the workers behind worker
`i`, and in worker `i` before its loop. -/
theorem Inv.holders (hi : s.Inv n r) {i : Nat} (hpos : s.pos = .waiting i) :
    ¬ s.fds.Has (.writeEnd i) ∧ ∀ j w, s.workers[j]? = some w → w.fds.Has (.writeEnd i) →
      i < j ∨ (j = i ∧ ∃ fd0 fd1, w.pos = .forked fd0 fd1) := by
  constructor
  · intro hhas
    obtain ⟨fd, hget⟩ := FdTable.has_iff.mp hhas
    rcases hi.parent.held i fd hget with ⟨-, hle⟩ | ⟨-, fd0, hm⟩
    · simp only [closed, hpos] at hle
      omega
    · rw [hpos] at hm
      cases hm
  · intro j w hw hhas
    obtain ⟨fd, hget⟩ := FdTable.has_iff.mp hhas
    rcases (hi.workers j w hw).writes i fd hget with hlt | ⟨rfl, fd0, hforked⟩
    · exact .inl hlt
    · exact .inr ⟨rfl, fd0, fd, hforked⟩

omit [DecidableEq α] in
theorem Inv.released_one (hi : s.Inv 1 r) {i : Nat} (hpos : s.pos = .waiting i) :
    s.Released i := by
  obtain ⟨hparent, hworkers⟩ := hi.holders hpos
  refine ⟨hparent, fun j w hw hhas => ?_⟩
  have hcounts := hi.parent.counts_waiting hpos
  have hlt := (List.getElem?_eq_some_iff.mp hw).1
  rcases hworkers j w hw hhas with hij | hj
  · omega
  · exact hj

/-! ## Two workers and more -/

theorem exists_waiting (τ : Type) (mem : μ) (hn : 1 ≤ n) (hroom : n + 1 ≤ fds.room) :
    ∃ es s, run step (init n fds mem : ProcessPool τ μ α) es = some s ∧ s.pos = .waiting 0 ∧
      s.Made mem := by
  obtain ⟨cs, s, hrun, hpos, hmade⟩ := exists_made τ mem hroom
  have hi := parentInv_run hrun
  have hcounts := hi.counts
  have hsize := hi.size
  simp only [Counts, hpos] at hcounts
  have hsome : 0 < s.numWorkers := by omega
  have hpipe : 0 < s.pipes.length := by omega
  have hcreated : run step (init n fds mem) (cs.map .create) = some s :=
    (run_map (fun _ _ => rfl) _ cs).trans hrun
  refine ⟨cs.map .create ++ [.destroy .start, .destroy .close],
    { s with fds := s.fds.close s.pipes[0], pos := .waiting 0 },
    run_append.mpr ⟨s, hcreated, ?_⟩, rfl, hmade.memory, hmade.nextWorker, hmade.workers,
    hmade.queues⟩
  simp only [run, step, hpos, Option.bind_some, destroy, if_pos hsome,
    List.getElem?_eq_getElem hpipe, Option.map_some]

/-- The parent waits for worker 0, which reads from a pipe that worker 1 has
open, which reads from a pipe that the parent has open. -/
structure Deadlocked (s : ProcessPool τ μ α) : Prop where
  pos : s.pos = .waiting 0
  workers : ∀ i < 2, ∃ w readFd, s.workers[i]? = some w ∧ w.pos = .reading readFd
  queues : ∀ i < 2, s.queues[i]? = some []

theorem exists_deadlocked (mem : μ) (hn : 2 ≤ n) (hroom : n + 1 ≤ fds.room) :
    ∃ es s, run step (init n fds mem : ProcessPool τ μ α) es = some s ∧ s.Deadlocked := by
  obtain ⟨es, s, hrun, hpos, hmade⟩ := exists_waiting τ mem (show 1 ≤ n by omega) hroom
  have hcounts := (inv_run hrun).parent.counts_waiting hpos
  obtain ⟨w₀, w₁, rest, hworkers⟩ : ∃ w₀ w₁ rest, s.workers = w₀ :: w₁ :: rest := by
    rcases hlist : s.workers with _ | ⟨w₀, _ | ⟨w₁, rest⟩⟩
    · rw [hlist, List.length_nil] at hcounts
      omega
    · rw [hlist, List.length_singleton] at hcounts
      omega
    · exact ⟨w₀, w₁, rest, rfl⟩
  obtain ⟨-, fd0, fd1, hpos₀, -⟩ := hmade.workers 0 w₀ (by rw [hworkers]; rfl)
  obtain ⟨-, fd0', fd1', hpos₁, -⟩ := hmade.workers 1 w₁ (by rw [hworkers]; rfl)
  refine ⟨es ++ [.worker 0, .worker 1],
    { s with workers := { w₀ with fds := w₀.fds.close fd1, pos := .reading fd0 } ::
        { w₁ with fds := w₁.fds.close fd1', pos := .reading fd0' } :: rest },
    run_append.mpr ⟨s, hrun, ?_⟩, hpos, ?_, ?_⟩
  · simp only [run, step, worker, hworkers, List.getElem?_cons_zero, List.getElem?_cons_succ,
      Option.bind_some, hpos₀, hpos₁, setWorker, List.set_cons_zero, List.set_cons_succ]
  · intro i hlt
    rcases i with _ | _ | i
    · exact ⟨_, fd0, rfl, rfl⟩
    · exact ⟨_, fd0', rfl, rfl⟩
    · omega
  · intro i hlt
    have hi' : i < s.queues.length := by omega
    rw [← hmade.queues _ (List.getElem_mem hi')]
    exact List.getElem?_eq_getElem hi'

theorem Deadlocked.blocked (hd : s.Deadlocked) (hi : s.Inv n r) {i : Nat} (hlt : i < 2) :
    s.worker returns i = none := by
  obtain ⟨w, readFd, hw, hread⟩ := hd.workers i hlt
  have hget := (hi.workers i w hw).looping readFd (by rw [hread]; rfl)
  have hopen : s.Open (.writeEnd i) := by
    obtain ⟨w₁, readFd₁, hw₁, hread₁⟩ := hd.workers 1 (by decide)
    rcases Nat.eq_zero_or_pos i with rfl | hpos
    · refine .inr ⟨w₁, List.mem_of_getElem? hw₁, ?_⟩
      exact (hi.workers 1 w₁ hw₁).keeps 0 (by decide) (by rw [hread₁]; intro heq; cases heq)
    · have hone : i = 1 := by omega
      subst hone
      have hcounts := hi.parent.counts_waiting hd.pos
      have hpipes : 1 < s.pipes.length := by
        have hbound := (List.getElem?_eq_some_iff.mp hw₁).1
        omega
      refine .inl (FdTable.has_iff.mpr ⟨_, hi.parent.opened 1 _ ?_
        (List.getElem?_eq_getElem hpipes) ?_⟩)
      · rw [hd.pos]
        intro heq
        cases heq
      · simp [closed, hd.pos]
  simp only [worker, hw, Option.bind_some, hread, read, hget, hd.queues i hlt, if_pos hopen]

/-- A worker changes nothing but itself and what is in its own pipe. -/
theorem Inv.worker_frame (hi : s.Inv n r) {i : Nat} (h : s.worker returns i = some s') :
    s'.pos = s.pos ∧ ∀ j, j ≠ i →
      s'.workers[j]? = s.workers[j]? ∧ s'.queues[j]? = s.queues[j]? := by
  have hset : ∀ (s : ProcessPool τ μ α) (w : Worker τ μ α), (s.setWorker i w).pos = s.pos ∧
      ∀ j, j ≠ i → (s.setWorker i w).workers[j]? = s.workers[j]? ∧
        (s.setWorker i w).queues[j]? = s.queues[j]? := fun s w =>
    ⟨rfl, fun j hj => ⟨List.getElem?_set_ne hj.symm, rfl⟩⟩
  obtain ⟨w, hw, hcases⟩ := worker_eq_some h
  rcases hcases with ⟨fd0, fd1, hpos, rfl⟩ | ⟨readFd, hpos, hread⟩ | ⟨readFd, task, hpos, hexec⟩ |
    ⟨readFd, hpos, rfl⟩ | ⟨hpos, rfl⟩
  · exact hset s _
  · rcases read_eq_some hread with ⟨p, task, rest, hget, -, rfl⟩ | ⟨rfl, -⟩
    · -- the pipe it reads from is its own
      cases hget.symm.trans ((hi.workers i w hw).looping readFd (by rw [hpos]; rfl))
      refine ⟨rfl, fun j hj => ⟨List.getElem?_set_ne hj.symm, ?_⟩⟩
      exact List.getElem?_set_ne hj.symm
    · exact hset s _
  · cases hexec
    exact hset s _
  · exact hset s _
  · exact hset s _

theorem Deadlocked.step (hd : s.Deadlocked) (hi : s.Inv n r) {e : PoolEvent τ}
    (h : s.step e = some s') : s'.Deadlocked := by
  cases e with
  | create c =>
      simp only [ProcessPool.step, create, hd.pos] at h
      cases h
  | submit task =>
      simp only [ProcessPool.step, hd.pos] at h
      cases h
  | destroy c =>
      obtain ⟨w, readFd, hw, hread⟩ := hd.workers 0 (by decide)
      cases c <;> simp only [ProcessPool.step, destroy, hd.pos, hw, hread] at h <;> cases h
  | worker i =>
      have hge : ¬ i < 2 := fun hlt => by
        rw [ProcessPool.step, hd.blocked hi hlt] at h
        cases h
      obtain ⟨hpos, hframe⟩ := hi.worker_frame h
      refine ⟨hpos.trans hd.pos, fun j hlt => ?_, fun j hlt => ?_⟩
      · rw [(hframe j (by omega)).1]
        exact hd.workers j hlt
      · rw [(hframe j (by omega)).2]
        exact hd.queues j hlt

theorem Deadlocked.stuck (hd : s.Deadlocked) (hi : s.Inv n r) : s.Stuck 0 := by
  have hwaits : ∀ {s : ProcessPool τ μ α}, s.Deadlocked → s.Waits 0 := fun hd =>
    ⟨hd.pos, hd.workers 0 (by decide)⟩
  refine ⟨hwaits hd, fun es s' hrun => ?_⟩
  have hlast : s'.Inv n r ∧ s'.Deadlocked :=
    run_invariant (P := fun s => s.Inv n r ∧ s.Deadlocked)
      (fun _ _ _ hs hstep => ⟨hs.1.step hstep, hs.2.step hs.1 hstep⟩) hrun ⟨hi, hd⟩
  exact hwaits hlast.2

omit [DecidableEq α] in
theorem Deadlocked.not_released (hd : s.Deadlocked) (hi : s.Inv n r) : ¬ s.Released 0 := by
  intro hreleased
  obtain ⟨w, readFd, hw, hread⟩ := hd.workers 1 (by decide)
  have hhas := (hi.workers 1 w hw).keeps 0 (by decide) (by rw [hread]; intro heq; cases heq)
  obtain ⟨heq, -⟩ := hreleased.2 1 w hw hhas
  cases heq

/-! ## Which pools shut down -/

omit [DecidableEq α] in
/-- The destructor is reached only if every worker could be made. -/
theorem Inv.room_of_waiting (hi : s.Inv n fds.room) {i : Nat} (hpos : s.pos = .waiting i)
    (hn : 1 ≤ n) : ¬ fds.room ≤ n := by
  have hroom := hi.parent.room
  simp only [Room, hpos, hi.parent.size] at hroom
  have hlt := hroom hn
  omega

/-- In `waitpid` no process has the write end of the pipe open, not even a worker
that has still to close its own, only if the constructor does not get
descriptors for all the workers. The write end is always released, and the
parent never waits for ever, exactly in that case or with one worker. Only the
pool forks, and it is the only one. -/
theorem shutdown_iff (fds : FdTable α) (mem : μ) (hn : 1 ≤ n) :
    ((∀ (es : List (PoolEvent τ)) (s : ProcessPool τ μ α) (i : Nat),
        run step (init n fds mem) es = some s → s.pos = .waiting i → ¬ s.Open (.writeEnd i)) ↔
      fds.room ≤ n) ∧
    ((∀ (es : List (PoolEvent τ)) (s : ProcessPool τ μ α) (i : Nat),
        run step (init n fds mem) es = some s → s.pos = .waiting i → s.Released i) ↔
      n = 1 ∨ fds.room ≤ n) ∧
    ((∀ (es : List (PoolEvent τ)) (s : ProcessPool τ μ α) (i : Nat),
        run step (init n fds mem) es = some s → ¬ s.Stuck i) ↔
      n = 1 ∨ fds.room ≤ n) := by
  have hreleased : n = 1 ∨ fds.room ≤ n → ∀ (es : List (PoolEvent τ)) (s : ProcessPool τ μ α)
      (i : Nat), run step (init n fds mem) es = some s → s.pos = .waiting i → s.Released i := by
    intro hcond es s i hrun hpos
    have hi := inv_run hrun
    rcases hcond with rfl | hroom
    · exact hi.released_one hpos
    · exact absurd hroom (hi.room_of_waiting hpos hn)
  have hdeadlocked : ¬ (n = 1 ∨ fds.room ≤ n) → ∃ (es : List (PoolEvent τ))
      (s : ProcessPool τ μ α), run step (init n fds mem) es = some s ∧ s.Deadlocked :=
    fun hcond => exists_deadlocked mem (by omega) (by omega)
  refine ⟨⟨fun h => ?_, fun hroom es s i hrun hpos => ?_⟩, ⟨fun h => ?_, hreleased⟩,
    ⟨fun h => ?_, fun hcond es s i hrun hstuck => ?_⟩⟩
  · by_contra hroom
    obtain ⟨es, s, hrun, hpos, hmade⟩ :=
      exists_waiting τ mem hn (show n + 1 ≤ fds.room by omega)
    have hcounts := (inv_run hrun).parent.counts_waiting hpos
    have hfirst : 0 < s.workers.length := by omega
    have hw := List.getElem?_eq_getElem hfirst
    obtain ⟨-, fd0, fd1, -, -, hget⟩ := hmade.workers 0 _ hw
    exact h es s 0 hrun hpos
      (.inr ⟨_, List.mem_of_getElem? hw, FdTable.has_iff.mpr ⟨fd1, hget⟩⟩)
  · exact absurd hroom ((inv_run hrun).room_of_waiting hpos hn)
  · by_contra hcond
    obtain ⟨es, s, hrun, hd⟩ := hdeadlocked hcond
    exact hd.not_released (inv_run hrun) (h es s 0 hrun hd.pos)
  · by_contra hcond
    obtain ⟨es, s, hrun, hd⟩ := hdeadlocked hcond
    exact h es s 0 hrun (hd.stuck (inv_run hrun))
  · exact (inv_run hrun).not_stuck (hreleased hcond es s i hrun hstuck.1.1) hstuck

/-- Standard input, output and error, and room for four more files. -/
def standardFds : FdTable Nat :=
  ⟨[some 0, some 1, some 2, none, none, none, none]⟩

theorem shutdown_iff_one :
    ((∀ (es : List (PoolEvent Nat)) (s : ProcessPool Nat Unit Nat) (i : Nat),
        run step (init 1 standardFds ()) es = some s → s.pos = .waiting i →
          ¬ s.Open (.writeEnd i)) ↔
      standardFds.room ≤ 1) ∧
    ((∀ (es : List (PoolEvent Nat)) (s : ProcessPool Nat Unit Nat) (i : Nat),
        run step (init 1 standardFds ()) es = some s → s.pos = .waiting i → s.Released i) ↔
      1 = 1 ∨ standardFds.room ≤ 1) ∧
    ((∀ (es : List (PoolEvent Nat)) (s : ProcessPool Nat Unit Nat) (i : Nat),
        run step (init 1 standardFds ()) es = some s → ¬ s.Stuck i) ↔
      1 = 1 ∨ standardFds.room ≤ 1) :=
  shutdown_iff standardFds () (Nat.le_refl 1)

/-- Two workers are made and enter their loops, and the destructor begins. -/
def twoWorkers : List (PoolEvent Nat) :=
  [.create (.pipe true), .create (.fork true), .create .adopt, .worker 0,
    .create (.pipe true), .create (.fork true), .create .adopt, .worker 1,
    .create .done, .destroy .start, .destroy .close]

/-- Without any task the parent waits for worker 0 for ever. -/
theorem two_workers_stuck :
    ¬ ∀ (es : List (PoolEvent Nat)) (s : ProcessPool Nat Unit Nat) (i : Nat),
      run step (init 2 standardFds ()) es = some s → s.pos = .waiting i →
        s.Released i ∧ ¬ s.Stuck i := by
  intro h
  have hend : (run step (init 2 standardFds () : ProcessPool Nat Unit Nat) twoWorkers).map
      (fun s => (s.pos, s.workers.map (·.pos), s.queues)) =
        some (.waiting 0, [.reading 3, .reading 3], [[], []]) := by decide
  obtain ⟨s, hrun, hs⟩ := Option.map_eq_some_iff.mp hend
  simp only [Prod.mk.injEq] at hs
  obtain ⟨hpos, hworkers, hqueues⟩ := hs
  have hd : s.Deadlocked := by
    refine ⟨hpos, fun i hlt => ?_, fun i hlt => ?_⟩
    · have hpos' : (s.workers.map (·.pos))[i]? = some (.reading 3) := by
        rw [hworkers]
        rcases i with _ | _ | i
        · rfl
        · rfl
        · omega
      obtain ⟨w, hw, hread⟩ := Option.map_eq_some_iff.mp (List.getElem?_map ▸ hpos')
      exact ⟨w, 3, hw, hread⟩
    · rw [hqueues]
      rcases i with _ | _ | i
      · rfl
      · rfl
      · omega
  exact (h twoWorkers s 0 hrun hpos).2 (hd.stuck (inv_run hrun))

end ProcessPool

end CppDemos
