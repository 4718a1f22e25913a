import CppDemos.Lib.Deal
import CppDemos.Process.Shutdown
import Mathlib.Algebra.BigOperators.Ring.Finset
import Mathlib.Algebra.Order.BigOperators.Group.Finset
import Mathlib.Data.List.GetD

/-!
# What becomes of the tasks

A task is in the pipe of a worker, or a worker is in it, or it has been called.
`submit` deals the tasks to the workers in turn, and each worker calls its own
in the order of the submits: `Dealt` is kept by every step, of the constructor
and the destructor too, in whatever order the processes take theirs.

No task is left behind when the pool goes. A worker leaves its loop only when its
pipe is empty and nobody can write to it any more, and the parent has its write
end open as long as it can submit. Where the destructor does not get through,
the workers still come to the end of what is in their pipes.
-/

namespace CppDemos

open Machine

def WorkerPos.task {τ : Type} : WorkerPos τ → List τ
  | .running _ task => [task]
  | _ => []

def WorkerPos.Left {τ : Type} : WorkerPos τ → Prop
  | .closing _ | .exiting | .exited => True
  | _ => False

/-- The destructor has not come past its first worker. -/
def ParentPos.AtFirst : ParentPos → Prop
  | .destroying i | .waiting i => i = 0
  | .destroyed => False
  | _ => True

/-- The steps a worker still takes if its pipe stays empty. -/
def WorkerPos.steps {τ : Type} : WorkerPos τ → Nat
  | .forked _ _ | .running _ _ => 4
  | .reading _ => 3
  | .closing _ => 2
  | .exiting => 1
  | .exited => 0

namespace ProcessPool

variable {τ μ α : Type}

def submitted (es : List (PoolEvent τ)) : List τ :=
  es.filterMap fun
    | .submit task => some task
    | _ => none

def inPipe (s : ProcessPool τ μ α) (i : Nat) : List τ := s.queues.getD i []

def inTask (s : ProcessPool τ μ α) (i : Nat) : List τ :=
  ((s.workers[i]?).map fun w => w.pos.task).getD []

def returned (i : Nat) (s : ProcessPool τ μ α) : PoolEvent τ → List τ
  | .worker j => if j = i then s.inTask i else []
  | _ => []

def called [DecidableEq α] (s : ProcessPool τ μ α) (es : List (PoolEvent τ)) (i : Nat) : List τ :=
  outputs step (returned i) s es

/-! ## Who is in its loop -/

/-- A worker whose write end the parent has still open is in its loop, and one that has left
it has left nothing in its pipe. -/
structure Serving (s : ProcessPool τ μ α) : Prop where
  stays : ∀ i w, s.pos ≠ .exited → s.closed ≤ i → s.workers[i]? = some w → ¬ w.pos.Left
  drained : ∀ i w, s.workers[i]? = some w → w.pos.Left → s.inPipe i = []

variable {s s' : ProcessPool τ μ α} {n r i : Nat}

theorem ParentInv.has_writeEnd (hi : s.ParentInv n r) {w : Worker τ μ α} (hpos : s.pos ≠ .exited)
    (hclosed : s.closed ≤ i) (hw : s.workers[i]? = some w) : s.fds.Has (.writeEnd i) := by
  have hlt := (List.getElem?_eq_some_iff.mp hw).1
  have hcounts := hi.counts
  by_cases hpipe : i < s.pipes.length
  · exact FdTable.has_iff.mpr ⟨s.pipes[i], hi.opened i _ hpos (List.getElem?_eq_getElem hpipe)
      hclosed⟩
  · -- the one that has just been forked
    obtain ⟨fd0, fd1, hforked⟩ : ∃ fd0 fd1, s.pos = .forked fd0 fd1 := by
      cases hs : s.pos <;> simp only [Counts, hs] at hcounts hpos <;>
        first | exact ⟨_, _, rfl⟩ | omega | exact absurd rfl hpos
    simp only [Counts, hforked] at hcounts
    have hlast : i = s.pipes.length := by omega
    obtain ⟨-, hget⟩ := hi.making fd0 fd1 (by rw [hforked]; rfl)
    exact FdTable.has_iff.mpr ⟨fd1, hlast ▸ hget⟩

theorem Serving.goes (hs : s.Serving) {pos : ParentPos} {fds : FdTable (PoolFile α)}
    (hpos : pos ≠ .exited → s.pos ≠ .exited)
    (hclosed : ∀ i < s.workers.length, pos ≠ .exited →
      closed { s with pos := pos } ≤ i → s.closed ≤ i) :
    Serving { s with pos := pos, fds := fds } where
  stays i w hne hle hw := hs.stays i w (hpos hne)
    (hclosed i (List.getElem?_eq_some_iff.mp hw).1 hne hle) hw
  drained := hs.drained

theorem Serving.setWorker (hs : s.Serving) {queues : List (List τ)} {w : Worker τ μ α}
    (hqueues : ∀ j, j ≠ i → queues.getD j [] = s.inPipe j)
    (hstays : s.pos ≠ .exited → s.closed ≤ i → ¬ w.pos.Left)
    (hdrained : w.pos.Left → queues.getD i [] = []) :
    ({ s with queues := queues }.setWorker i w).Serving where
  stays j w' hne hle hj := by
    rcases getElem?_set_cases hj with ⟨rfl, rfl⟩ | ⟨-, hold⟩
    · exact hstays hne hle
    · exact hs.stays j w' hne hle hold
  drained j w' hj hleft := by
    rcases getElem?_set_cases hj with ⟨rfl, rfl⟩ | ⟨hne, hold⟩
    · exact hdrained hleft
    · exact (hqueues j hne).trans (hs.drained j w' hold hleft)

theorem getD_concat_nil (queues : List (List τ)) (i : Nat) :
    (queues ++ [[]]).getD i [] = queues.getD i [] := by
  rcases Nat.lt_trichotomy i queues.length with hlt | rfl | hgt
  · rw [List.getD_append _ _ _ _ hlt]
  · rw [List.getD_append_right _ _ _ _ (Nat.le_refl _), List.getD_eq_default _ _ (Nat.le_refl _)]
    simp
  · rw [List.getD_eq_default _ _ (by rw [List.length_append]; exact hgt),
      List.getD_eq_default _ _ (Nat.le_of_lt hgt)]

theorem getD_modify_concat {queues : List (List τ)} {p : Nat} (hp : p < queues.length) (task : τ)
    (i : Nat) : (queues.modify p (· ++ [task])).getD i [] =
      queues.getD i [] ++ if p = i then [task] else [] := by
  rw [List.getD_eq_getElem?_getD, List.getD_eq_getElem?_getD, List.getElem?_modify]
  split
  · rename_i heq
    subst heq
    rw [List.getElem?_eq_getElem hp]
    rfl
  · rw [List.append_nil, id_map']

theorem Serving.create (hs : s.Serving) {c : CreateCall} (h : s.create c = some s') :
    s'.Serving := by
  rcases create_eq_some h with ⟨hpos, -, fd0, fd1, fds, -, rfl⟩ | ⟨fd0, fd1, hpos, rfl⟩ |
    ⟨fd0, fd1, hpos, rfl⟩ | ⟨hpos, -, rfl⟩ | rfl
  · refine ⟨fun i w _ _ hw => hs.stays i w (by rw [hpos]; intro heq; cases heq)
      (by simp [closed, hpos]) hw, fun i w hw hleft => ?_⟩
    rw [inPipe, getD_concat_nil]
    exact hs.drained i w hw hleft
  · refine ⟨fun i w _ _ hw => ?_, fun i w hw hleft => ?_⟩
    · rcases getElem?_concat_cases hw with hold | ⟨-, rfl⟩
      · exact hs.stays i w (by rw [hpos]; intro heq; cases heq) (by simp [closed, hpos]) hold
      · exact id
    · rcases getElem?_concat_cases hw with hold | ⟨-, rfl⟩
      · exact hs.drained i w hold hleft
      · exact hleft.elim
  · refine ⟨fun i w _ _ hw => hs.stays i w (by rw [hpos]; intro heq; cases heq)
      (by simp [closed, hpos]) hw, hs.drained⟩
  · refine ⟨fun i w _ _ hw => hs.stays i w (by rw [hpos]; intro heq; cases heq)
      (by simp [closed, hpos]) hw, hs.drained⟩
  · exact ⟨fun _ _ hne => absurd rfl hne, hs.drained⟩

theorem Serving.destroy (hs : s.Serving) (hi : s.ParentInv n r) {c : DestroyCall}
    (h : s.destroy c = some s') : s'.Serving := by
  have hcounts := hi.counts
  rcases destroy_eq_some h with ⟨hpos, rfl⟩ | ⟨i, fd, hpos, -, rfl⟩ | ⟨i, w, hpos, -, -, rfl⟩ |
    ⟨i, hpos, hall, rfl⟩ <;> simp only [Counts, hpos] at hcounts <;>
    refine hs.goes (by simp [hpos]) fun j hlt _ hle => ?_ <;>
    simp only [closed, hpos] at hle ⊢ <;> omega

variable [DecidableEq α]

theorem Serving.submit (hs : s.Serving) (hpos : s.pos = .ready) {task : τ}
    (h : s.submit task = some s') : s'.Serving := by
  have hstays : ∀ i (w : Worker τ μ α), s.workers[i]? = some w → ¬ w.pos.Left := fun i w hw =>
    hs.stays i w (by rw [hpos]; intro heq; cases heq) (by simp [closed, hpos]) hw
  obtain ⟨next, ⟨p, rfl⟩ | rfl | rfl⟩ := submit_eq_some h <;>
    exact ⟨fun i w _ _ hw => hstays i w hw, fun i w hw hleft => absurd hleft (hstays i w hw)⟩

theorem Serving.worker (hs : s.Serving) (hi : s.Inv n r) (h : s.worker returns i = some s') :
    s'.Serving := by
  obtain ⟨w, hw, hcases⟩ := worker_eq_some h
  have hold := hi.workers i w hw
  rcases hcases with ⟨fd0, fd1, hpos, rfl⟩ | ⟨readFd, hpos, hread⟩ | ⟨readFd, task, hpos, hexec⟩ |
    ⟨readFd, hpos, rfl⟩ | ⟨hpos, rfl⟩
  · exact hs.setWorker (fun _ _ => rfl) (fun _ _ => id) (fun hleft => hleft.elim)
  · have hend := hold.looping readFd (by rw [hpos]; rfl)
    rcases read_eq_some hread with ⟨p, task, rest, hget, -, rfl⟩ | ⟨rfl, hclosed⟩
    · cases hget.symm.trans hend
      refine hs.setWorker (fun j hj => ?_) (fun _ _ => id) (fun hleft => hleft.elim)
      rw [inPipe, List.getD_eq_getElem?_getD, List.getD_eq_getElem?_getD,
        List.getElem?_set_ne (Ne.symm hj)]
    · obtain ⟨hclosed, hempty⟩ := hclosed i hend
      refine hs.setWorker (fun _ _ => rfl) (fun hne hle => ?_) fun _ => ?_
      · exact absurd (.inl (hi.parent.has_writeEnd hne hle hw)) hclosed
      · rw [List.getD_eq_getElem?_getD]
        rcases hqueue : s.queues[i]? with _ | _ | ⟨task, rest⟩
        · rfl
        · rfl
        · exact absurd hqueue (hempty task rest)
  · cases hexec
    exact hs.setWorker (fun _ _ => rfl) (fun _ _ => id) (fun hleft => hleft.elim)
  · have hleft : w.pos.Left := by rw [hpos]; trivial
    exact hs.setWorker (fun _ _ => rfl) (fun hne hle => absurd hleft (hs.stays i w hne hle hw))
      fun _ => hs.drained i w hw hleft
  · have hleft : w.pos.Left := by rw [hpos]; trivial
    exact hs.setWorker (fun _ _ => rfl) (fun hne hle => absurd hleft (hs.stays i w hne hle hw))
      fun _ => hs.drained i w hw hleft

theorem Serving.step (hs : s.Serving) (hi : s.Inv n r) {e : PoolEvent τ}
    (h : s.step e = some s') : s'.Serving := by
  cases e with
  | create c => exact hs.create h
  | submit task =>
      simp only [ProcessPool.step] at h
      split at h
      · rename_i hpos
        exact hs.submit hpos h
      · cases h
  | destroy c => exact hs.destroy hi.parent h
  | worker i => exact hs.worker hi h

/-! ## Where a task is -/

/-- Worker `i` has called, is in or has still to read what has been dealt to it, in that order,
and `nextWorker` is the one whose turn it is. -/
structure Dealt (n : Nat) (first : ProcessPool τ μ α) (es : List (PoolEvent τ))
    (s : ProcessPool τ μ α) : Prop where
  share : ∀ i < n, first.called es i ++ s.inTask i ++ s.inPipe i = Deal.hand n i (submitted es)
  turn : s.nextWorker = (submitted es).length % n
  early : s.workers.length = n ∨ submitted es = []
  few : s.workers.length ≤ n

variable {first : ProcessPool τ μ α} {es : List (PoolEvent τ)}

/-- A step of the parent other than `submit` moves no task. -/
theorem Dealt.parent (hd : Dealt n first es s) (hrun : run ProcessPool.step first es = some s)
    {e : PoolEvent τ} (hreturned : ∀ i, returned i s e = []) (hsubmitted : submitted [e] = [])
    (hnext : s'.nextWorker = s.nextWorker) (hpipe : ∀ i, s'.inPipe i = s.inPipe i)
    (htask : ∀ i < n, s'.inTask i = s.inTask i)
    (hworkers : s'.workers.length = s.workers.length ∨
      s.workers.length < n ∧ s'.workers.length = s.workers.length + 1) :
    Dealt n first (es ++ [e]) s' := by
  have hsame : submitted (es ++ [e]) = submitted es := by
    rw [submitted, List.filterMap_append]
    exact (congrArg _ hsubmitted).trans (List.append_nil _)
  have hfew := hd.few
  refine ⟨fun i hlt => ?_, ?_, ?_, by omega⟩
  · rw [called, outputs_concat hrun, hreturned, List.append_nil, hsame, hpipe, htask i hlt]
    exact hd.share i hlt
  · rw [hnext, hsame]
    exact hd.turn
  · rw [hsame]
    exact hd.early.imp_left fun hall => by omega

theorem Dealt.create (hd : Dealt n first es s) (hi : s.ParentInv n r)
    (hrun : run ProcessPool.step first es = some s) {c : CreateCall}
    (h : s.create c = some s') : Dealt n first (es ++ [.create c]) s' := by
  rcases create_eq_some h with ⟨-, -, fd0, fd1, fds, -, rfl⟩ | ⟨fd0, fd1, hpos, rfl⟩ |
    ⟨fd0, fd1, -, rfl⟩ | ⟨-, -, rfl⟩ | rfl
  · exact hd.parent hrun (fun _ => rfl) rfl rfl (fun _ => getD_concat_nil ..) (fun _ _ => rfl)
      (.inl rfl)
  · have hcounts := hi.counts
    simp only [Counts, hpos, hi.size] at hcounts
    refine hd.parent hrun (fun _ => rfl) rfl rfl (fun _ => rfl) (fun i _ => ?_)
      (.inr ⟨by omega, by rw [List.length_append, List.length_singleton]⟩)
    rcases Nat.lt_trichotomy i s.workers.length with hlt | rfl | hgt
    · rw [inTask, inTask, List.getElem?_append_left hlt]
    · rw [inTask, inTask, List.getElem?_concat_length, List.getElem?_eq_none (Nat.le_refl _)]
      rfl
    · rw [inTask, inTask, List.getElem?_eq_none (Nat.le_of_lt hgt), List.getElem?_eq_none]
      rw [List.length_append]
      exact hgt
  · exact hd.parent hrun (fun _ => rfl) rfl rfl (fun _ => rfl) (fun _ _ => rfl) (.inl rfl)
  · exact hd.parent hrun (fun _ => rfl) rfl rfl (fun _ => rfl) (fun _ _ => rfl) (.inl rfl)
  · exact hd.parent hrun (fun _ => rfl) rfl rfl (fun _ => rfl) (fun _ _ => rfl) (.inl rfl)

theorem Dealt.destroy (hd : Dealt n first es s)
    (hrun : run ProcessPool.step first es = some s) {c : DestroyCall}
    (h : s.destroy c = some s') : Dealt n first (es ++ [.destroy c]) s' := by
  rcases destroy_eq_some h with ⟨-, rfl⟩ | ⟨i, fd, -, -, rfl⟩ | ⟨i, w, -, -, -, rfl⟩ |
    ⟨i, -, -, rfl⟩ <;>
    exact hd.parent hrun (fun _ => rfl) rfl rfl (fun _ => rfl) (fun _ _ => rfl) (.inl rfl)

/-- Between the constructor and the destructor `submit` puts the task into the pipe of the
worker whose turn it is. -/
theorem Serving.submit_eq (hs : s.Serving) (hi : s.Inv n r) (hpos : s.pos = .ready)
    (hturn : s.nextWorker < n) (task : τ) :
    s.submit task = some { s with
      nextWorker := (s.nextWorker + 1) % s.numWorkers
      queues := s.queues.modify s.nextWorker (· ++ [task]) } := by
  have hcounts := hi.parent.counts
  simp only [Counts, hpos, hi.parent.size] at hcounts
  have hne : s.pos ≠ .exited := by rw [hpos]; intro heq; cases heq
  have hclosed : s.closed ≤ s.nextWorker := by simp [closed, hpos]
  obtain ⟨w, hw⟩ : ∃ w, s.workers[s.nextWorker]? = some w :=
    ⟨_, List.getElem?_eq_getElem (by omega)⟩
  obtain ⟨fd, hpipe⟩ : ∃ fd, s.pipes[s.nextWorker]? = some fd :=
    ⟨_, List.getElem?_eq_getElem (by omega)⟩
  have hinv := hi.workers _ w hw
  -- the worker is in its loop or before it, with the read end open
  obtain ⟨fd0, hread⟩ : ∃ fd0, w.fds.get fd0 = some (.readEnd s.nextWorker) := by
    have hstays := hs.stays _ w hne hclosed hw
    cases hw' : w.pos with
    | forked fd0 fd1 => exact ⟨fd0, (hinv.forked fd0 fd1 hw').1⟩
    | reading readFd => exact ⟨readFd, hinv.looping readFd (by rw [hw']; rfl)⟩
    | running readFd t => exact ⟨readFd, hinv.looping readFd (by rw [hw']; rfl)⟩
    | closing readFd => exact absurd (by rw [hw']; trivial) hstays
    | exiting => exact absurd (by rw [hw']; trivial) hstays
    | exited => exact absurd (by rw [hw']; trivial) hstays
  exact submit_of_open hpipe (hi.parent.opened _ _ hne hpipe hclosed)
    (.inr ⟨w, List.mem_of_getElem? hw, FdTable.has_iff.mpr ⟨fd0, hread⟩⟩)

theorem Dealt.turn_lt (hd : Dealt n first es s) (hn : 0 < n) : s.nextWorker < n :=
  hd.turn ▸ Nat.mod_lt _ hn

theorem Dealt.submit (hd : Dealt n first es s) (hs : s.Serving) (hi : s.Inv n r) (hn : 0 < n)
    (hrun : run ProcessPool.step first es = some s) (hpos : s.pos = .ready) {task : τ}
    (h : s.submit task = some s') : Dealt n first (es ++ [.submit task]) s' := by
  have hcounts := hi.parent.counts
  simp only [Counts, hpos, hi.parent.size] at hcounts
  obtain rfl := Option.some.inj ((hs.submit_eq hi hpos (hd.turn_lt hn) task).symm.trans h)
  have hone : submitted (es ++ [.submit task]) = submitted es ++ [task] := by
    rw [submitted, List.filterMap_append]
    rfl
  refine ⟨fun i hlt => ?_, ?_, .inl hcounts.1, Nat.le_of_eq hcounts.1⟩
  · rw [called, outputs_concat hrun, hone, Deal.hand_concat hlt, ← hd.share i hlt, ← hd.turn]
    have hpipe : ({ s with
          nextWorker := (s.nextWorker + 1) % s.numWorkers
          queues := s.queues.modify s.nextWorker (· ++ [task]) } : ProcessPool τ μ α).inPipe i
        = s.inPipe i ++ if s.nextWorker = i then [task] else [] :=
      getD_modify_concat (hcounts.2.1 ▸ hd.turn_lt hn) task i
    have hnone : returned i s (.submit task) = [] := rfl
    rw [hpipe, hnone, List.append_nil]
    simp only [List.append_assoc]
    rfl
  · rw [hone, List.length_append, List.length_singleton, hi.parent.size, hd.turn, Nat.mod_add_mod]

/-- Worker `i` goes on: what it has called, is in and has still to read is what it was. -/
theorem Dealt.goes (hd : Dealt n first es s) (hrun : run ProcessPool.step first es = some s)
    {queues : List (List τ)} {w w' : Worker τ μ α} (hw : s.workers[i]? = some w)
    (hqueues : ∀ j, j ≠ i → queues.getD j [] = s.inPipe j)
    (hmoved : returned i s (.worker i) ++ w'.pos.task ++ queues.getD i [] =
      w.pos.task ++ s.inPipe i) :
    Dealt n first (es ++ [.worker i]) ({ s with queues := queues }.setWorker i w') := by
  have hsame : submitted (es ++ [.worker i]) = submitted es := by
    rw [submitted, List.filterMap_append]
    exact List.append_nil _
  refine ⟨fun j hlt => ?_, ?_, ?_, (List.length_set ..).trans_le hd.few⟩
  · rw [called, outputs_concat hrun, hsame, ← hd.share j hlt]
    by_cases hj : j = i
    · subst hj
      have htask : s.inTask j = w.pos.task := by rw [inTask, hw]; rfl
      have htask' : inTask ({ s with queues := queues }.setWorker j w') j = w'.pos.task := by
        rw [inTask, setWorker, List.getElem?_set_self (List.getElem?_eq_some_iff.mp hw).1]
        rfl
      rw [htask, htask', List.append_assoc, List.append_assoc, List.append_assoc]
      exact congrArg _ ((List.append_assoc ..).symm.trans hmoved)
    · have htask : inTask ({ s with queues := queues }.setWorker i w') j = s.inTask j := by
        rw [inTask, setWorker, List.getElem?_set_ne (Ne.symm hj)]
        rfl
      rw [htask, returned, if_neg (Ne.symm hj), List.append_nil]
      exact congrArg _ (hqueues j hj)
  · rw [hsame]
    exact hd.turn
  · rw [hsame]
    exact hd.early.imp_left (List.length_set ..).trans

theorem Dealt.worker (hd : Dealt n first es s) (hi : s.Inv n r)
    (hrun : run ProcessPool.step first es = some s) (h : s.worker returns i = some s') :
    Dealt n first (es ++ [.worker i]) s' := by
  obtain ⟨w, hw, hcases⟩ := worker_eq_some h
  have hreturned : returned i s (.worker i) = w.pos.task := by
    rw [returned, if_pos rfl, inTask, hw]
    rfl
  rcases hcases with ⟨fd0, fd1, hpos, rfl⟩ | ⟨readFd, hpos, hread⟩ | ⟨readFd, task, hpos, hexec⟩ |
    ⟨readFd, hpos, rfl⟩ | ⟨hpos, rfl⟩
  · exact hd.goes hrun hw (fun _ _ => rfl) (by rw [hreturned, hpos]; rfl)
  · rcases read_eq_some hread with ⟨p, task, rest, hget, hqueue, rfl⟩ | ⟨rfl, -⟩
    · cases hget.symm.trans ((hi.workers i w hw).looping readFd (by rw [hpos]; rfl))
      refine hd.goes hrun hw (fun j hj => ?_) ?_
      · rw [inPipe, List.getD_eq_getElem?_getD, List.getD_eq_getElem?_getD,
          List.getElem?_set_ne (Ne.symm hj)]
      · rw [hreturned, hpos, inPipe, List.getD_eq_getElem?_getD, List.getD_eq_getElem?_getD,
          hqueue, List.getElem?_set_self (List.getElem?_eq_some_iff.mp hqueue).1]
        rfl
    · exact hd.goes hrun hw (fun _ _ => rfl) (by rw [hreturned, hpos]; rfl)
  · cases hexec
    exact hd.goes hrun hw (fun _ _ => rfl) (by rw [hreturned, hpos]; rfl)
  · exact hd.goes hrun hw (fun _ _ => rfl) (by rw [hreturned, hpos]; rfl)
  · exact hd.goes hrun hw (fun _ _ => rfl) (by rw [hreturned, hpos]; rfl)

theorem Dealt.step (hd : Dealt n first es s) (hs : s.Serving) (hi : s.Inv n r) (hn : 0 < n)
    (hrun : run ProcessPool.step first es = some s) {e : PoolEvent τ} (h : s.step e = some s') :
    Dealt n first (es ++ [e]) s' := by
  cases e with
  | create c => exact hd.create hi.parent hrun h
  | submit task =>
      simp only [ProcessPool.step] at h
      split at h
      · rename_i hpos
        exact hd.submit hs hi hn hrun hpos h
      · cases h
  | destroy c => exact hd.destroy hrun h
  | worker i => exact hd.worker hi hrun h

variable {fds : FdTable α} {mem : μ}

omit [DecidableEq α] in
theorem serving_init : (init n fds mem : ProcessPool τ μ α).Serving where
  stays _ _ _ _ hw := by cases hw
  drained _ _ hw := by cases hw

theorem dealt_run (hn : 0 < n) (h : run step (init n fds mem) es = some s) :
    s.Serving ∧ Dealt n (init n fds mem) es s := by
  refine run_history (P := fun es s => s.Serving ∧ Dealt n (init n fds mem) es s) h
    ⟨serving_init, ?_, ?_, .inr rfl, Nat.zero_le n⟩
    fun es s' e t hrun hs hstep => ?_
  · intro i _
    rw [submitted, List.filterMap_nil, Deal.hand_nil]
    rfl
  · rw [submitted, List.filterMap_nil, List.length_nil, Nat.zero_mod]
    rfl
  · have hi := inv_run hrun
    exact ⟨hs.1.step hi hstep, hs.2.step hs.1 hi hn hrun hstep⟩

/-! ## The destructor -/

/-- With two workers or more the first one stays in its loop. While the parent
has not closed pipe 0 it can write to it, and afterwards the second worker can,
which has inherited the write end: `read` never returns 0. -/
structure Barred (s : ProcessPool τ μ α) : Prop where
  parent : s.pos.AtFirst
  worker : s.pos ≠ .exited → ∀ w, s.workers[0]? = some w → ¬ w.pos.Left

omit [DecidableEq α] in
/-- Worker 0 does not get past `read`: the parent or worker 1 can write to its pipe. -/
theorem Barred.writable (hb : s.Barred) (hs : s.Serving) (hi : s.Inv n r) (hn : 2 ≤ n)
    (hne : s.pos ≠ .exited) {w : Worker τ μ α} (hw : s.workers[0]? = some w) :
    s.Open (.writeEnd 0) := by
  by_cases hclosed : s.closed = 0
  · exact .inl (hi.parent.has_writeEnd hne (by omega) hw)
  · obtain ⟨i, hpos⟩ : ∃ i, s.pos = .waiting i := by
      have hfirst := hb.parent
      cases hs' : s.pos with
      | waiting i => exact ⟨i, rfl⟩
      | destroying i =>
          simp only [ParentPos.AtFirst, hs'] at hfirst
          exact absurd (by simp only [closed, hs', hfirst]) hclosed
      | destroyed =>
          rw [hs'] at hfirst
          exact hfirst.elim
      | _ => exact absurd (by simp only [closed, hs']) hclosed
    obtain rfl : i = 0 := by simpa only [hpos, ParentPos.AtFirst] using hb.parent
    have hcounts := hi.parent.counts_waiting hpos
    obtain ⟨w', hw'⟩ : ∃ w', s.workers[1]? = some w' := ⟨_, List.getElem?_eq_getElem (by omega)⟩
    have hstays := hs.stays 1 w' hne (by simp [closed, hpos]) hw'
    refine .inr ⟨w', List.mem_of_getElem? hw', (hi.workers 1 w' hw').keeps 0 (by omega) ?_⟩
    intro heq
    rw [heq] at hstays
    exact hstays trivial

theorem Barred.step (hb : s.Barred) (hs : s.Serving) (hi : s.Inv n r) (hn : 2 ≤ n)
    {e : PoolEvent τ} (h : s.step e = some s') : s'.Barred := by
  cases e with
  | create c =>
      rcases create_eq_some h with ⟨hpos, -, fd0, fd1, fds, -, rfl⟩ | ⟨fd0, fd1, hpos, rfl⟩ |
        ⟨fd0, fd1, hpos, rfl⟩ | ⟨hpos, -, rfl⟩ | rfl
      · exact ⟨trivial, fun _ => hb.worker (by rw [hpos]; intro heq; cases heq)⟩
      · refine ⟨trivial, fun _ w hw => ?_⟩
        rcases getElem?_concat_cases hw with hold | ⟨-, rfl⟩
        · exact hb.worker (by rw [hpos]; intro heq; cases heq) w hold
        · exact id
      · exact ⟨trivial, fun _ => hb.worker (by rw [hpos]; intro heq; cases heq)⟩
      · exact ⟨trivial, fun _ => hb.worker (by rw [hpos]; intro heq; cases heq)⟩
      · exact ⟨trivial, fun hne => absurd rfl hne⟩
  | submit task =>
      simp only [ProcessPool.step] at h
      split at h
      · obtain ⟨next, ⟨p, rfl⟩ | rfl | rfl⟩ := submit_eq_some h
        · exact ⟨hb.parent, hb.worker⟩
        · exact ⟨hb.parent, hb.worker⟩
        · exact ⟨trivial, fun hne => absurd rfl hne⟩
      · cases h
  | destroy c =>
      have hfirst := hb.parent
      rcases destroy_eq_some h with ⟨hpos, rfl⟩ | ⟨i, fd, hpos, -, rfl⟩ |
        ⟨i, w, hpos, hw, hw', rfl⟩ | ⟨i, hpos, hall, rfl⟩ <;>
        have hlives := hb.worker (by rw [hpos]; intro heq; cases heq)
      · exact ⟨rfl, fun _ => hlives⟩
      · exact ⟨by simpa only [hpos, ParentPos.AtFirst] using hfirst, fun _ => hlives⟩
      · -- worker 0 would have to be gone
        obtain rfl : i = 0 := by simpa only [hpos, ParentPos.AtFirst] using hfirst
        exact absurd (by rw [hw']; trivial) (hlives w hw)
      · have hzero : i = 0 := by simpa only [hpos, ParentPos.AtFirst] using hfirst
        rw [hi.parent.size] at hall
        omega
  | worker i =>
      obtain ⟨hpos, hframe⟩ := hi.worker_frame h
      refine ⟨by rw [hpos]; exact hb.parent, fun hne w' hw' => ?_⟩
      rw [hpos] at hne
      by_cases hzero : i = 0
      · subst hzero
        obtain ⟨w, hw, hcases⟩ := worker_eq_some h
        have hlives := hb.worker hne w hw
        have hlt := (List.getElem?_eq_some_iff.mp hw).1
        rcases hcases with ⟨fd0, fd1, hw0, rfl⟩ | ⟨readFd, hw0, hread⟩ |
          ⟨readFd, task, hw0, hexec⟩ | ⟨readFd, hw0, rfl⟩ | ⟨hw0, rfl⟩
        · obtain rfl := Option.some.inj ((List.getElem?_set_self hlt).symm.trans hw')
          exact id
        · rcases read_eq_some hread with ⟨p, task, rest, -, -, rfl⟩ | ⟨rfl, hclosed⟩
          · obtain rfl := Option.some.inj ((List.getElem?_set_self hlt).symm.trans hw')
            exact id
          · have hend := (hi.workers 0 w hw).looping readFd (by rw [hw0]; rfl)
            exact absurd (hb.writable hs hi hn hne hw) (hclosed 0 hend).1
        · cases hexec
          obtain rfl := Option.some.inj ((List.getElem?_set_self hlt).symm.trans hw')
          exact id
        · exact absurd (by rw [hw0]; trivial) hlives
        · exact absurd (by rw [hw0]; trivial) hlives
      · rw [(hframe 0 (Ne.symm hzero)).1] at hw'
        exact hb.worker hne w' hw'

theorem destroyed_one (hn : 0 < n) (h : run step (init n fds mem) es = some s)
    (hpos : s.pos = .destroyed) : n = 1 := by
  by_contra hone
  have hbarred := run_history (P := fun es s => s.Serving ∧ Barred s) h
    ⟨serving_init, trivial, fun _ _ hw => by cases hw⟩ fun es s' e t hrun hs hstep =>
      ⟨hs.1.step (inv_run hrun) hstep, hs.2.step hs.1 (inv_run hrun) (by omega) hstep⟩
  have hfirst := hbarred.2.parent
  rw [hpos] at hfirst
  exact hfirst

def joined (s : ProcessPool τ μ α) : Nat :=
  match s.pos with
  | .destroying i | .waiting i => i
  | .destroyed => s.numWorkers
  | _ => 0

def Joined (s : ProcessPool τ μ α) : Prop :=
  ∀ j < s.joined, ∃ w, s.workers[j]? = some w ∧ w.pos = .exited

theorem Joined.step (hj : s.Joined) (hi : s.Inv n r) {e : PoolEvent τ}
    (h : s.step e = some s') : s'.Joined := by
  cases e with
  | create c =>
      have hnone : s'.joined = 0 := by
        rcases create_eq_some h with ⟨-, -, fd0, fd1, fds, -, rfl⟩ | ⟨fd0, fd1, -, rfl⟩ |
          ⟨fd0, fd1, -, rfl⟩ | ⟨-, -, rfl⟩ | rfl <;> rfl
      intro j hlt
      omega
  | submit task =>
      simp only [ProcessPool.step] at h
      split at h
      · rename_i hpos
        have hnone : s'.joined = 0 := by
          obtain ⟨next, ⟨p, rfl⟩ | rfl | rfl⟩ := submit_eq_some h <;> simp [joined, hpos, exit]
        intro j hlt
        omega
      · cases h
  | destroy c =>
      rcases destroy_eq_some h with ⟨-, rfl⟩ | ⟨i, fd, hpos, -, rfl⟩ | ⟨i, w, hpos, hw, hw', rfl⟩ |
        ⟨i, hpos, hall, rfl⟩ <;> intro j hlt
      · exact absurd hlt (Nat.not_lt_zero j)
      · exact hj j (by simpa only [joined, hpos] using hlt)
      · rcases Nat.lt_succ_iff_lt_or_eq.mp hlt with hbefore | rfl
        · exact hj j (by simpa only [joined, hpos] using hbefore)
        · exact ⟨w, hw, hw'⟩
      · exact hj j (by simpa only [joined, hpos] using Nat.lt_of_lt_of_le hlt hall)
  | worker i =>
      obtain ⟨hpos, hframe⟩ := hi.worker_frame h
      intro j hlt
      have hlt' : j < s.joined := by
        have hnum : s'.numWorkers = s.numWorkers :=
          (hi.step h).parent.size.trans hi.parent.size.symm
        simpa only [joined, hpos, hnum] using hlt
      obtain ⟨w, hw, hexited⟩ := hj j hlt'
      have hne : j ≠ i := by
        rintro rfl
        simp only [ProcessPool.step, ProcessPool.worker, hw, Option.bind_some, hexited] at h
        cases h
      exact ⟨w, (hframe j hne).1.trans hw, hexited⟩

theorem joined_run (h : run step (init n fds mem) es = some s) : s.Joined :=
  run_history (P := fun _ s => s.Joined) h (fun _ hlt => absurd hlt (Nat.not_lt_zero _))
    fun _ _ _ _ hrun hj hstep => hj.step (inv_run hrun) hstep

/-! ## The workers alone -/

/-- The steps that worker `i` can still take, if nobody submits. -/
def steps (s : ProcessPool τ μ α) (i : Nat) : Nat :=
  ((s.workers[i]?).map fun w => w.pos.steps).getD 0 + 2 * (s.inPipe i).length

omit [DecidableEq α] in
theorem steps_setWorker {queues : List (List τ)} {w w' : Worker τ μ α}
    (hw : s.workers[i]? = some w)
    (hless : w'.pos.steps + 2 * (queues.getD i []).length + 1
      ≤ w.pos.steps + 2 * (s.inPipe i).length) :
    steps ({ s with queues := queues }.setWorker i w') i + 1 ≤ s.steps i := by
  have hset : (({ s with queues := queues }.setWorker i w').workers)[i]? = some w' :=
    List.getElem?_set_self (List.getElem?_eq_some_iff.mp hw).1
  rw [steps, steps, hset, hw]
  exact hless

theorem Inv.steps_worker (hi : s.Inv n r) (h : s.worker returns i = some s') :
    s'.steps i + 1 ≤ s.steps i ∧ ∀ j, j ≠ i → s'.steps j = s.steps j := by
  constructor
  · obtain ⟨w, hw, hcases⟩ := worker_eq_some h
    rcases hcases with ⟨fd0, fd1, hpos, rfl⟩ | ⟨readFd, hpos, hread⟩ |
      ⟨readFd, task, hpos, hexec⟩ | ⟨readFd, hpos, rfl⟩ | ⟨hpos, rfl⟩
    · exact steps_setWorker hw (by rw [hpos, inPipe]; simp only [WorkerPos.steps]; omega)
    · rcases read_eq_some hread with ⟨p, task, rest, hget, hqueue, rfl⟩ | ⟨rfl, -⟩
      · cases hget.symm.trans ((hi.workers i w hw).looping readFd (by rw [hpos]; rfl))
        refine steps_setWorker hw ?_
        rw [hpos, inPipe, List.getD_eq_getElem?_getD, List.getD_eq_getElem?_getD, hqueue,
          List.getElem?_set_self (List.getElem?_eq_some_iff.mp hqueue).1]
        simp only [WorkerPos.steps, Option.getD_some, List.length_cons]
        omega
      · exact steps_setWorker hw (by rw [hpos, inPipe]; simp only [WorkerPos.steps]; omega)
    · cases hexec
      exact steps_setWorker hw (by rw [hpos, inPipe]; simp only [WorkerPos.steps]; omega)
    · exact steps_setWorker hw (by rw [hpos, inPipe]; simp only [WorkerPos.steps]; omega)
    · exact steps_setWorker hw (by rw [hpos, inPipe]; simp only [WorkerPos.steps]; omega)
  · intro j hj
    obtain ⟨-, hframe⟩ := hi.worker_frame h
    rw [steps, steps, inPipe, inPipe, List.getD_eq_getElem?_getD, List.getD_eq_getElem?_getD,
      (hframe j hj).1, (hframe j hj).2]

/-- A worker that cannot go on is at an empty pipe or gone. -/
theorem Serving.idle (hs : s.Serving) (hi : s.Inv n r) {w : Worker τ μ α}
    (hw : s.workers[i]? = some w) (hstuck : s.worker returns i = none) :
    s.inTask i = [] ∧ s.inPipe i = [] := by
  have htask : s.inTask i = w.pos.task := by rw [inTask, hw]; rfl
  rw [htask]
  cases hpos : w.pos with
  | forked fd0 fd1 =>
      rw [worker_forked hw hpos] at hstuck
      cases hstuck
  | reading readFd =>
      refine ⟨rfl, ?_⟩
      rw [inPipe, List.getD_eq_getElem?_getD]
      rcases hqueue : s.queues[i]? with _ | _ | ⟨task, rest⟩
      · rfl
      · rfl
      · have hget := (hi.workers i w hw).looping readFd (by rw [hpos]; rfl)
        rw [worker_reading hw hpos hget hqueue] at hstuck
        cases hstuck
  | running readFd task =>
      simp only [ProcessPool.worker, hw, Option.bind_some, hpos, returns] at hstuck
      cases hstuck
  | closing readFd =>
      simp only [ProcessPool.worker, hw, Option.bind_some, hpos] at hstuck
      cases hstuck
  | exiting =>
      simp only [ProcessPool.worker, hw, Option.bind_some, hpos] at hstuck
      cases hstuck
  | exited => exact ⟨rfl, hs.drained i w hw (by rw [hpos]; trivial)⟩

theorem Dealt.called_of_idle (hd : Dealt n first es s) (hlt : i < n)
    (hidle : s.inTask i = [] ∧ s.inPipe i = []) :
    first.called es i = Deal.hand n i (submitted es) := by
  have hshare := hd.share i hlt
  rwa [hidle.1, hidle.2, List.append_nil, List.append_nil] at hshare

theorem Dealt.all_called (hd : Dealt n first es s) (hs : s.Serving) (hi : s.Inv n r)
    (hstuck : ∀ i, s.worker returns i = none) (hlt : i < n) :
    first.called es i = Deal.hand n i (submitted es) := by
  rcases hd.early with hall | hnone
  · exact hd.called_of_idle hlt
      (hs.idle hi (List.getElem?_eq_getElem (hall ▸ hlt)) (hstuck i))
  · have hshare := hd.share i hlt
    rw [hnone, Deal.hand_nil, List.append_eq_nil_iff, List.append_eq_nil_iff] at hshare
    rw [hnone, Deal.hand_nil]
    exact hshare.1.1

open Finset in
theorem costs (hn : 0 < n) (fds : FdTable α) (mem : μ) :
    Costs (fun (s : ProcessPool τ μ α) i => s.worker returns i) (fun _ _ => True) (fun _ => false)
      (fun s => ∃ es, run step (init n fds mem) es = some s)
      (fun s => ∑ i ∈ range n, s.steps i) 0 := by
  rintro s i s' ⟨es, hrun⟩ - h
  obtain ⟨w, hw, -⟩ := worker_eq_some h
  have hlt := Nat.lt_of_lt_of_le (List.getElem?_eq_some_iff.mp hw).1 (dealt_run hn hrun).2.few
  obtain ⟨hless, hsame⟩ := (inv_run hrun).steps_worker h
  have hrun' : run step (init n fds mem) (es ++ [.worker i]) = some s' :=
    run_concat.mpr ⟨s, hrun, h⟩
  refine ⟨⟨es ++ [.worker i], hrun'⟩, ?_⟩
  rw [if_neg Bool.false_ne_true, Nat.add_zero]
  refine Nat.succ_le_of_lt (sum_lt_sum (fun j _ => ?_) ⟨i, mem_range.mpr hlt, hless⟩)
  by_cases hj : j = i
  · subst hj
    omega
  · exact Nat.le_of_eq (hsame j hj)

open Finset in
theorem Dealt.sum_steps_le (hd : Dealt n first es s) (hn : 0 < n) :
    ∑ i ∈ range n, s.steps i ≤ 4 * n + 2 * (submitted es).length := by
  have hone : ∀ i ∈ range n, s.steps i ≤ 4 + 2 * (Deal.hand n i (submitted es)).length := by
    intro i hi
    have hpos : ((s.workers[i]?).map fun w => w.pos.steps).getD 0 ≤ 4 := by
      cases s.workers[i]? with
      | none => exact Nat.zero_le 4
      | some w =>
          show w.pos.steps ≤ 4
          cases w.pos <;> simp [WorkerPos.steps]
    have hlen := congrArg List.length (hd.share i (mem_range.mp hi))
    rw [List.length_append, List.length_append] at hlen
    rw [steps]
    omega
  refine (sum_le_sum hone).trans (Nat.le_of_eq ?_)
  rw [sum_add_distrib, ← mul_sum, Deal.sum_length_hand hn, sum_const_nat (fun _ _ => rfl),
    card_range, Nat.mul_comm]

/-! ## Every task once -/

omit [DecidableEq α] in
theorem submitted_workers (es : List (PoolEvent τ)) (is : List Nat) :
    submitted (es ++ is.map .worker) = submitted es := by
  rw [submitted, List.filterMap_append, List.filterMap_map]
  refine (congrArg _ ?_).trans (List.append_nil _)
  exact List.filterMap_eq_nil_iff.mpr fun _ _ => rfl

/-- In every run worker `i` has called, is in or has in its pipe, in this order, the tasks
that have been submitted to it, which are every `n`-th from the `i`-th on; `submit` always
succeeds. The destructor returns only if there is one worker, and then every task has been
called. However the workers go on, they come to rest after a bounded number of steps, and by
then every task has been called by its worker, in order, whether the parent can get through
its destructor or not. -/
theorem every_task_called (fds : FdTable α) (mem : μ) (hn : 0 < n)
    (h : run step (init n fds mem) es = some s) :
    (∀ i < n, (init n fds mem).called es i ++ s.inTask i ++ s.inPipe i =
      Deal.hand n i (submitted es)) ∧
    (s.pos = .ready → ∀ task, ∃ s', s.step (.submit task) = some s' ∧ s'.pos = .ready) ∧
    (s.pos = .destroyed → n = 1 ∧ (init n fds mem).called es 0 = submitted es) ∧
    ∀ is t, run (fun s i => s.worker returns i) s is = some t →
      is.length ≤ 4 * n + 2 * (submitted es).length ∧
      ((∀ i, t.worker returns i = none) →
        (∀ i < n, ∀ k, ((init n fds mem).called (es ++ is.map .worker) i)[k]? =
          (submitted es)[i + k * n]?) ∧
        ((List.range n).flatMap ((init n fds mem).called (es ++ is.map .worker))).Perm
          (submitted es)) := by
  obtain ⟨hs, hd⟩ := dealt_run hn h
  have hi := inv_run h
  refine ⟨hd.share, fun hpos task => ?_, fun hpos => ?_, fun is t hrun => ⟨?_, fun hstuck => ?_⟩⟩
  · rw [ProcessPool.step, if_pos hpos, hs.submit_eq hi hpos (hd.turn_lt hn) task]
    exact ⟨_, rfl, hpos⟩
  · obtain rfl := destroyed_one hn h hpos
    obtain ⟨w, hw, hexited⟩ := joined_run h 0 (by
      rw [joined, hpos, hi.parent.size]
      exact Nat.one_pos)
    refine ⟨rfl, ?_⟩
    rw [hd.called_of_idle Nat.one_pos (hs.idle hi hw ?_), Deal.hand_one]
    simp only [ProcessPool.worker, hw, Option.bind_some, hexited]
  · have hlen := run_length_le (costs hn fds mem) hrun (along_true _ _) ⟨es, h⟩
    have hsum := hd.sum_steps_le hn
    omega
  · have hrun' : run ProcessPool.step (init n fds mem) (es ++ is.map .worker) = some t :=
      run_append.mpr ⟨s, h, (run_map (fun _ _ => rfl) _ is).trans hrun⟩
    obtain ⟨hs', hd'⟩ := dealt_run hn hrun'
    have hall := fun i hlt => hd'.all_called (i := i) hs' (inv_run hrun') hstuck hlt
    rw [submitted_workers] at hall
    refine ⟨fun i hlt k => by rw [hall i hlt, Deal.getElem?_hand hn], ?_⟩
    rw [List.flatMap_congr fun i hi => hall i (List.mem_range.mp hi)]
    exact Deal.hands_perm hn _

/-- Two workers are made, three tasks are submitted, worker 0 calls the first one, and the
destructor begins. -/
def threeTasks : List (PoolEvent Nat) :=
  [.create (.pipe true), .create (.fork true), .create .adopt, .create (.pipe true),
    .create (.fork true), .create .adopt, .create .done, .submit 7, .worker 0, .submit 8,
    .worker 0, .submit 9, .worker 0, .destroy .start, .destroy .close]

theorem every_task_called_three :
    ∃ s : ProcessPool Nat Unit Nat, run step (init 2 standardFds ()) threeTasks = some s ∧
      (init 2 standardFds () : ProcessPool Nat Unit Nat).called threeTasks 0 ++ s.inTask 0 ++
        s.inPipe 0 = [7, 9] := by
  have hruns : (run step (init 2 standardFds () : ProcessPool Nat Unit Nat) threeTasks).isSome := by
    decide
  obtain ⟨s, hrun⟩ := Option.isSome_iff_exists.mp hruns
  exact ⟨s, hrun, (every_task_called standardFds () (by omega) hrun).1 0 (by omega)⟩

end ProcessPool

end CppDemos
