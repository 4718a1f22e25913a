import CppDemos.Process.Pool

/-!
# What the parent of a pool has open

From the constructor to the destructor the parent has the write ends of the
pipes of its workers open, under the numbers in `pipes`, and the destructor
closes them one by one; in the constructor there are also the two ends of the
pipe that is being made. With it goes what is to be counted: workers, pipes and
the room for descriptors.
-/

namespace CppDemos

open Machine

/-- The numbers of the pipe that is being made. -/
def ParentPos.making : ParentPos → Option (Nat × Nat)
  | .piped fd0 fd1 | .forked fd0 fd1 => some (fd0, fd1)
  | _ => none

namespace ProcessPool

variable {τ μ α : Type}

def closed (s : ProcessPool τ μ α) : Nat :=
  match s.pos with
  | .destroying i => i
  | .waiting i => i + 1
  | .destroyed => s.numWorkers
  | _ => 0

/-- How many workers and pipes there are. -/
def Counts (s : ProcessPool τ μ α) : Prop :=
  match s.pos with
  | .creating => s.workers.length = s.pipes.length ∧ s.queues.length = s.pipes.length ∧
      s.pipes.length ≤ s.numWorkers
  | .piped _ _ => s.workers.length = s.pipes.length ∧ s.queues.length = s.pipes.length + 1 ∧
      s.pipes.length < s.numWorkers
  | .forked _ _ => s.workers.length = s.pipes.length + 1 ∧
      s.queues.length = s.pipes.length + 1 ∧ s.pipes.length < s.numWorkers
  | .exited => True
  | _ => s.workers.length = s.numWorkers ∧ s.queues.length = s.numWorkers ∧
      s.pipes.length = s.numWorkers

/-- The room for descriptors that is left of `r`. -/
def Room (r : Nat) (s : ProcessPool τ μ α) : Prop :=
  match s.pos with
  | .creating => s.fds.room + s.pipes.length = r ∧ (0 < s.pipes.length → 0 < s.fds.room)
  | .piped _ _ | .forked _ _ => s.fds.room + s.pipes.length + 2 = r
  | .exited => True
  | _ => 0 < s.numWorkers → s.numWorkers < r

/-- The parent has the write ends of its pipes open, from the constructor to the
destructor, and no others. -/
structure ParentInv (n r : Nat) (s : ProcessPool τ μ α) : Prop where
  size : s.numWorkers = n
  counts : s.Counts
  room : s.Room r
  opened : ∀ i fd, s.pos ≠ .exited → s.pipes[i]? = some fd → s.closed ≤ i →
    s.fds.get fd = some (.writeEnd i)
  held : ∀ i fd, s.fds.get fd = some (.writeEnd i) →
    (s.pipes[i]? = some fd ∧ s.closed ≤ i) ∨
      (i = s.pipes.length ∧ ∃ fd0, s.pos.making = some (fd0, fd))
  making : ∀ fd0 fd1, s.pos.making = some (fd0, fd1) →
    s.fds.get fd0 = some (.readEnd s.pipes.length) ∧ s.fds.get fd1 = some (.writeEnd s.pipes.length)

variable {s s' : ProcessPool τ μ α} {n r : Nat} {fds : FdTable α} {mem : μ}

theorem parentInv_init : (init n fds mem : ProcessPool τ μ α).ParentInv n fds.room where
  size := rfl
  counts := ⟨rfl, rfl, Nat.zero_le _⟩
  room := ⟨FdTable.room_map .., fun hpos => absurd hpos (Nat.lt_irrefl 0)⟩
  opened i fd _ hi := by cases hi
  held i fd hget := by
    simp only [init, FdTable.get_map, Option.map_eq_some_iff] at hget
    obtain ⟨file, -, hfile⟩ := hget
    cases hfile
  making _ _ hm := by cases hm

theorem ParentInv.all_opened (hi : s.ParentInv n r)
    (hpos : s.pos = .creating ∨ ∃ fds, s.pos.making = some fds) {i fd : Nat}
    (hfd : s.pipes[i]? = some fd) : s.fds.get fd = some (.writeEnd i) := by
  have hplace : s.pos ≠ .exited ∧ s.closed = 0 := by
    unfold closed
    rcases hpos with hpos | ⟨fds, hmaking⟩
    · simp [hpos]
    · cases hs : s.pos <;> simp [hs, ParentPos.making] at hmaking ⊢
  exact hi.opened i fd hplace.1 hfd (by rw [hplace.2]; exact Nat.zero_le i)

theorem ParentInv.exit (hi : s.ParentInv n r) : s.exit.ParentInv n r where
  size := hi.size
  counts := trivial
  room := trivial
  opened _ _ hne := absurd rfl hne
  held _ _ hget := by cases hget
  making _ _ hm := by cases hm

theorem ParentInv.pipe (hi : s.ParentInv n r) (hpos : s.pos = .creating)
    (hlt : s.pipes.length < s.numWorkers) {fd0 fd1 : Nat} {fds : FdTable (PoolFile α)}
    (hpipe : s.fds.pipe (.readEnd s.queues.length) (.writeEnd s.queues.length)
      = some (fd0, fd1, fds)) :
    ParentInv n r { s with fds := fds, pos := .piped fd0 fd1, queues := s.queues ++ [[]] } := by
  obtain ⟨hne, hfree0, hfree1, hget0, hget1, hother⟩ := FdTable.get_pipe hpipe
  have hcounts := hi.counts
  have hroom := hi.room
  have hless := FdTable.room_pipe hpipe
  simp only [Counts, Room, hpos] at hcounts hroom
  have hqueues : s.queues.length = s.pipes.length := hcounts.2.1
  refine ⟨hi.size, ?_, ?_, ?_, ?_, ?_⟩
  · show _ ∧ _ ∧ _
    refine ⟨hcounts.1, ?_, hlt⟩
    rw [List.length_append, hqueues]
    rfl
  · show fds.room + s.pipes.length + 2 = r
    omega
  · intro i fd _ hfd _
    have hold := hi.all_opened (.inl hpos) hfd
    have h0 : fd ≠ fd0 := by
      rintro rfl
      rw [hfree0] at hold
      cases hold
    have h1 : fd ≠ fd1 := by
      rintro rfl
      rw [hfree1] at hold
      cases hold
    exact (hother fd h0 h1).trans hold
  · intro i fd hget
    by_cases h1 : fd = fd1
    · subst h1
      rw [hget1] at hget
      cases hget
      exact .inr ⟨hqueues, fd0, rfl⟩
    · by_cases h0 : fd = fd0
      · subst h0
        rw [hget0] at hget
        cases hget
      · rw [hother fd h0 h1] at hget
        rcases hi.held i fd hget with ⟨hfd, -⟩ | ⟨-, fd', hm⟩
        · exact .inl ⟨hfd, Nat.zero_le _⟩
        · rw [hpos] at hm
          cases hm
  · intro fd0' fd1' hm
    cases hm
    rw [hqueues] at hget0 hget1
    exact ⟨hget0, hget1⟩

theorem ParentInv.fork (hi : s.ParentInv n r) {fd0 fd1 : Nat} (hpos : s.pos = .piped fd0 fd1)
    (w : Worker τ μ α) :
    ParentInv n r { s with pos := .forked fd0 fd1, workers := s.workers ++ [w] } := by
  have hcounts := hi.counts
  have hroom := hi.room
  simp only [Counts, Room, hpos] at hcounts hroom
  refine ⟨hi.size, ?_, hroom, ?_, ?_, ?_⟩
  · show _ ∧ _ ∧ _
    refine ⟨?_, hcounts.2⟩
    rw [List.length_append, hcounts.1]
    rfl
  · intro i fd _ hfd _
    exact hi.all_opened (.inr ⟨_, by rw [hpos]; rfl⟩) hfd
  · intro i fd hget
    rcases hi.held i fd hget with ⟨hfd, -⟩ | ⟨hlast, fd0', hm⟩
    · exact .inl ⟨hfd, Nat.zero_le _⟩
    · rw [hpos] at hm
      cases hm
      exact .inr ⟨hlast, fd0, rfl⟩
  · intro fd0' fd1' hm
    cases hm
    exact hi.making fd0 fd1 (by rw [hpos]; rfl)

theorem ParentInv.adopt (hi : s.ParentInv n r) {fd0 fd1 : Nat} (hpos : s.pos = .forked fd0 fd1) :
    ParentInv n r
      { s with fds := s.fds.close fd0, pos := .creating, pipes := s.pipes ++ [fd1] } := by
  have hcounts := hi.counts
  have hroom := hi.room
  obtain ⟨hget0, hget1⟩ := hi.making fd0 fd1 (by rw [hpos]; rfl)
  have hmore := FdTable.room_close hget0
  simp only [Counts, Room, hpos] at hcounts hroom
  have hlength : (s.pipes ++ [fd1]).length = s.pipes.length + 1 := List.length_append
  have hkeep : ∀ i fd, s.fds.get fd = some (.writeEnd i) →
      (s.fds.close fd0).get fd = some (.writeEnd i) := fun i fd hget =>
    FdTable.close_keeps hget hget0 (by intro heq; cases heq)
  refine ⟨hi.size, ?_, ?_, ?_, ?_, ?_⟩
  · show _ ∧ _ ∧ _
    rw [hlength]
    exact ⟨hcounts.1, hcounts.2.1, hcounts.2.2⟩
  · show _ + (s.pipes ++ [fd1]).length = r ∧ (_ → _)
    rw [hlength, hmore]
    exact ⟨by omega, fun _ => Nat.succ_pos _⟩
  · intro i fd _ hfd _
    refine hkeep i fd ?_
    rcases getElem?_concat_cases hfd with hold | ⟨rfl, rfl⟩
    · exact hi.all_opened (.inr ⟨_, by rw [hpos]; rfl⟩) hold
    · exact hget1
  · intro i fd hget
    rcases hi.held i fd (FdTable.of_get_close hget).2 with ⟨hfd, -⟩ | ⟨rfl, fd0', hm⟩
    · have hlt := (List.getElem?_eq_some_iff.mp hfd).1
      exact .inl ⟨(List.getElem?_append_left hlt).trans hfd, Nat.zero_le _⟩
    · rw [hpos] at hm
      cases hm
      exact .inl ⟨List.getElem?_concat_length, Nat.zero_le _⟩
  · intro fd0' fd1' hm
    cases hm

theorem ParentInv.goes (hi : s.ParentInv n r) {pos : ParentPos} (hcounts : Counts { s with pos })
    (hroom : Room r { s with pos }) (hexit : s.pos ≠ .exited) (hnew : s.pos.making = none)
    (hnew' : pos.making = none)
    (hclosed : ∀ i fd, s.pipes[i]? = some fd → (s.closed ≤ i ↔ closed { s with pos } ≤ i)) :
    ParentInv n r { s with pos } where
  size := hi.size
  counts := hcounts
  room := hroom
  opened i fd _ hfd hle := hi.opened i fd hexit hfd ((hclosed i fd hfd).mpr hle)
  held i fd hget := by
    rcases hi.held i fd hget with ⟨hfd, hle⟩ | ⟨-, fd0, hm⟩
    · exact .inl ⟨hfd, (hclosed i fd hfd).mp hle⟩
    · rw [hnew] at hm
      cases hm
  making fd0 fd1 hm := by
    rw [hnew'] at hm
    cases hm

theorem ParentInv.built (hi : s.ParentInv n r) (hpos : s.pos = .creating)
    (hall : ¬ s.pipes.length < s.numWorkers) : ParentInv n r { s with pos := .ready } := by
  have hcounts := hi.counts
  have hroom := hi.room
  simp only [Counts, Room, hpos] at hcounts hroom
  refine hi.goes ?_ ?_ (by rw [hpos]; decide) (by rw [hpos]; rfl) rfl fun i fd _ => ?_
  · show s.workers.length = s.numWorkers ∧ s.queues.length = s.numWorkers ∧
      s.pipes.length = s.numWorkers
    omega
  · show 0 < s.numWorkers → s.numWorkers < r
    omega
  · simp only [closed, hpos]

theorem ParentInv.create (hi : s.ParentInv n r) {c : CreateCall} (h : s.create c = some s') :
    s'.ParentInv n r := by
  rcases create_eq_some h with ⟨hpos, hlt, fd0, fd1, fds, hpipe, rfl⟩ | ⟨fd0, fd1, hpos, rfl⟩ |
    ⟨fd0, fd1, hpos, rfl⟩ | ⟨hpos, hall, rfl⟩ | rfl
  · exact hi.pipe hpos hlt hpipe
  · exact hi.fork hpos _
  · exact hi.adopt hpos
  · exact hi.built hpos hall
  · exact hi.exit

theorem ParentInv.close (hi : s.ParentInv n r) {i fd : Nat} (hpos : s.pos = .destroying i)
    (hfd : s.pipes[i]? = some fd) :
    ParentInv n r { s with fds := s.fds.close fd, pos := .waiting i } := by
  have hcounts := hi.counts
  have hroom := hi.room
  have hclosed : s.closed = i := by simp [closed, hpos]
  have hget : s.fds.get fd = some (.writeEnd i) :=
    hi.opened i fd (by rw [hpos]; intro heq; cases heq) hfd (Nat.le_of_eq hclosed)
  simp only [Counts, Room, hpos] at hcounts hroom
  refine ⟨hi.size, hcounts, hroom, ?_, ?_, ?_⟩
  · intro j fd' _ hfd' hj
    have hj' : i + 1 ≤ j := hj
    have hget' := hi.opened j fd' (by rw [hpos]; intro heq; cases heq) hfd' (by omega)
    refine FdTable.close_keeps hget' hget ?_
    intro heq
    cases heq
    omega
  · intro j fd' hget'
    obtain ⟨hne, hold⟩ := FdTable.of_get_close hget'
    rcases hi.held j fd' hold with ⟨hfd', hj⟩ | ⟨-, fd0', hm⟩
    · refine .inl ⟨hfd', ?_⟩
      have hij : j ≠ i := by
        rintro rfl
        exact hne (Option.some.inj (hfd'.symm.trans hfd))
      show i + 1 ≤ j
      omega
    · rw [hpos] at hm
      cases hm
  · intro fd0' fd1' hm
    cases hm

theorem ParentInv.destroy (hi : s.ParentInv n r) {c : DestroyCall} (h : s.destroy c = some s') :
    s'.ParentInv n r := by
  have hcounts := hi.counts
  have hroom := hi.room
  rcases destroy_eq_some h with ⟨hpos, rfl⟩ | ⟨i, fd, hpos, hfd, rfl⟩ | ⟨i, w, hpos, -, -, rfl⟩ |
    ⟨i, hpos, hall, rfl⟩
  · simp only [Counts, Room, hpos] at hcounts hroom
    refine hi.goes hcounts hroom (by rw [hpos]; intro heq; cases heq) (by rw [hpos]; rfl) rfl
      fun i fd _ => ?_
    simp only [closed, hpos]
  · exact hi.close hpos hfd
  · simp only [Counts, Room, hpos] at hcounts hroom
    refine hi.goes hcounts hroom (by rw [hpos]; intro heq; cases heq) (by rw [hpos]; rfl) rfl
      fun i fd _ => ?_
    simp only [closed, hpos]
  · simp only [Counts, Room, hpos] at hcounts hroom
    refine hi.goes hcounts hroom (by rw [hpos]; intro heq; cases heq) (by rw [hpos]; rfl) rfl
      fun j fd hfd => ?_
    have hbound := (List.getElem?_eq_some_iff.mp hfd).1
    simp only [closed, hpos]
    omega

theorem ParentInv.congr (hi : s.ParentInv n r) (hnum : s'.numWorkers = s.numWorkers)
    (hfds : s'.fds = s.fds) (hpos : s'.pos = s.pos) (hpipes : s'.pipes = s.pipes)
    (hworkers : s'.workers.length = s.workers.length)
    (hqueues : s'.queues.length = s.queues.length) : s'.ParentInv n r := by
  have hclosed : s'.closed = s.closed := by simp only [closed, hpos, hnum]
  refine ⟨hnum.trans hi.size, ?_, ?_, ?_, ?_, ?_⟩
  · have hcounts := hi.counts
    simpa only [Counts, hpos, hnum, hpipes, hworkers, hqueues] using hcounts
  · have hroom := hi.room
    simpa only [Room, hpos, hnum, hpipes, hfds] using hroom
  · rw [hpos, hpipes, hfds, hclosed]
    exact hi.opened
  · rw [hpipes, hfds, hclosed, hpos]
    exact hi.held
  · rw [hpipes, hfds, hpos]
    exact hi.making

theorem ParentInv.submit [DecidableEq α] (hi : s.ParentInv n r) {task : τ}
    (h : s.submit task = some s') : s'.ParentInv n r := by
  obtain ⟨next, ⟨p, rfl⟩ | rfl | rfl⟩ := submit_eq_some h
  · exact hi.congr rfl rfl rfl rfl rfl (List.length_modify ..)
  · exact hi.congr rfl rfl rfl rfl rfl rfl
  · have hkept : ParentInv n r { s with nextWorker := next } := hi.congr rfl rfl rfl rfl rfl rfl
    exact hkept.exit

theorem ParentInv.alloc (hi : s.ParentInv n r) (hpos : s.pos = .ready) {file : α} {fd : Nat}
    {fds : FdTable (PoolFile α)} (halloc : s.fds.alloc (.other file) = some (fd, fds)) :
    ParentInv n r { s with fds := fds } := by
  have hcounts := hi.counts
  have hroom := hi.room
  have hfree := (FdTable.alloc_eq_some halloc).1
  simp only [Counts, Room, hpos] at hcounts hroom
  refine ⟨hi.size, ?_, ?_, ?_, ?_, ?_⟩
  · simpa only [Counts, hpos] using hcounts
  · simpa only [Room, hpos] using hroom
  · intro i fd' hne hfd' hle
    have hget := hi.opened i fd' hne hfd' hle
    have hother : fd' ≠ fd := by
      rintro rfl
      rw [hfree] at hget
      cases hget
    show fds.get fd' = _
    rw [FdTable.get_alloc halloc, if_neg hother, hget]
  · intro i fd' hget
    simp only [FdTable.get_alloc halloc] at hget
    split at hget
    · cases hget
    · exact hi.held i fd' hget
  · intro fd0 fd1 hm
    simp only [hpos] at hm
    cases hm

/-- The destructor is only entered with all pipes and workers there. -/
theorem ParentInv.counts_waiting (hi : s.ParentInv n r) {i : Nat} (hpos : s.pos = .waiting i) :
    s.workers.length = n ∧ s.queues.length = n ∧ s.pipes.length = n := by
  have hcounts := hi.counts
  simp only [Counts, hpos, hi.size] at hcounts
  exact hcounts

theorem ParentInv.worker_files (hi : s.ParentInv n r) {fd0 fd1 : Nat}
    (hpos : s.pos = .piped fd0 fd1) :
    (∀ i fd, s.fds.get fd = some (.writeEnd i) →
        i < s.pipes.length ∨ (i = s.pipes.length ∧ fd = fd1)) ∧
      ∀ i < s.pipes.length, s.fds.Has (.writeEnd i) := by
  constructor
  · intro i fd hget
    rcases hi.held i fd hget with ⟨hfd, -⟩ | ⟨hlast, fd0', hm⟩
    · exact .inl (List.getElem?_eq_some_iff.mp hfd).1
    · rw [hpos] at hm
      cases hm
      exact .inr ⟨hlast, rfl⟩
  · intro i hlt
    exact FdTable.has_iff.mpr ⟨s.pipes[i], hi.all_opened (.inr ⟨_, by rw [hpos]; rfl⟩)
      (List.getElem?_eq_getElem hlt)⟩

/-! ## A pool that is made -/

theorem parentInv_run {cs : List CreateCall} (h : run create (init n fds mem) cs = some s) :
    (s : ProcessPool τ μ α).ParentInv n fds.room :=
  run_invariant (P := fun s => s.ParentInv n fds.room) (fun _ _ _ hs hstep => hs.create hstep) h
    parentInv_init

/-- Worker `j` has been forked and has not run yet. -/
def Fresh (mem : μ) (j : Nat) (w : Worker τ μ α) : Prop :=
  w.mem = mem ∧ ∃ fd0 fd1, w.pos = .forked fd0 fd1 ∧ w.fds.get fd0 = some (.readEnd j) ∧
    w.fds.get fd1 = some (.writeEnd j)

/-- Nothing but the constructor has run. -/
structure Made (mem : μ) (s : ProcessPool τ μ α) : Prop where
  memory : s.mem = mem
  nextWorker : s.nextWorker = 0
  workers : ∀ j w, s.workers[j]? = some w → Fresh mem j w
  queues : ∀ q ∈ s.queues, q = []

/-- With room for all descriptors the constructor can make any number of its
workers. -/
theorem exists_making (τ : Type) (mem : μ) (hroom : n + 1 ≤ fds.room) {k : Nat} (hk : k ≤ n) :
    ∃ cs s, run create (init n fds mem : ProcessPool τ μ α) cs = some s ∧ s.pos = .creating ∧
      s.pipes.length = k ∧ s.Made mem := by
  induction k with
  | zero =>
      refine ⟨[], _, rfl, rfl, rfl, rfl, rfl, ?_, ?_⟩
      · intro j w hw
        cases hw
      · intro q hq
        cases hq
  | succ k ih =>
      obtain ⟨cs, s, hrun, hpos, hpipes, hmade⟩ := ih (by omega)
      have hi := parentInv_run hrun
      have hcounts := hi.counts
      have hleft := hi.room
      have hsize := hi.size
      simp only [Counts, Room, hpos] at hcounts hleft
      obtain ⟨fd0, fd1, fds', hpipe⟩ := FdTable.pipe_isSome (t := s.fds)
        (.readEnd s.queues.length) (.writeEnd s.queues.length) (by omega)
      obtain ⟨-, -, -, hget0, hget1, -⟩ := FdTable.get_pipe hpipe
      have hlt : s.pipes.length < s.numWorkers := by omega
      refine ⟨cs ++ [.pipe true, .fork true, .adopt],
        { s with
          fds := fds'.close fd0
          pos := .creating
          pipes := s.pipes ++ [fd1]
          workers := s.workers ++ [⟨fds', s.mem, .forked fd0 fd1⟩]
          queues := s.queues ++ [[]] },
        run_append.mpr ⟨s, hrun, ?_⟩, rfl, ?_, hmade.memory, hmade.nextWorker, ?_, ?_⟩
      · simp only [run, create, hpos, hlt, if_true, hpipe, Option.map_some, Option.bind_some]
      · show (s.pipes ++ [fd1]).length = k + 1
        rw [List.length_append, hpipes]
        rfl
      · intro j w hw
        rcases getElem?_concat_cases hw with hold | ⟨hlast, rfl⟩
        · exact hmade.workers j w hold
        · have hqueue : j = s.queues.length := by omega
          exact ⟨hmade.memory, fd0, fd1, rfl, hqueue ▸ hget0, hqueue ▸ hget1⟩
      · intro q hq
        rcases List.mem_append.mp hq with hold | hnew
        · exact hmade.queues q hold
        · exact List.mem_singleton.mp hnew

theorem exists_made (τ : Type) (mem : μ) (hroom : n + 1 ≤ fds.room) :
    ∃ cs s, run create (init n fds mem : ProcessPool τ μ α) cs = some s ∧ s.pos = .ready ∧
      s.Made mem := by
  obtain ⟨cs, s, hrun, hpos, hpipes, hmade⟩ := exists_making τ mem hroom (Nat.le_refl n)
  have hsize := (parentInv_run hrun).size
  have hall : ¬ s.pipes.length < s.numWorkers := by omega
  refine ⟨cs ++ [.done], { s with pos := .ready }, run_append.mpr ⟨s, hrun, ?_⟩, rfl,
    hmade.memory, hmade.nextWorker, hmade.workers, hmade.queues⟩
  simp only [run, create, hpos, if_neg hall, Option.bind_some]

/-- What there is for the first task: worker 0 with its pipe, which is empty,
and the parent's end of it. -/
theorem Made.first {mem : μ} (hmade : s.Made mem) (hi : s.ParentInv n r) (hpos : s.pos = .ready)
    (hn : 1 ≤ n) :
    ∃ w fd0 fd1 fd, s.workers[0]? = some w ∧ w.pos = .forked fd0 fd1 ∧ w.mem = mem ∧
      (w.fds.close fd1).get fd0 = some (.readEnd 0) ∧ s.queues[0]? = some [] ∧
      s.pipes[0]? = some fd ∧ s.fds.get fd = some (.writeEnd 0) ∧ s.Open (.readEnd 0) := by
  have hcounts := hi.counts
  have hsize := hi.size
  simp only [Counts, hpos] at hcounts
  have hw : s.workers[0]? = some s.workers[0] := List.getElem?_eq_getElem (by omega)
  have hfd : s.pipes[0]? = some s.pipes[0] := List.getElem?_eq_getElem (by omega)
  obtain ⟨hmem, fd0, fd1, hfork, hget0, hget1⟩ := hmade.workers 0 _ hw
  refine ⟨_, fd0, fd1, _, hw, hfork, hmem, ?_, ?_, hfd, ?_, ?_⟩
  · exact FdTable.close_keeps hget0 hget1 (by intro heq; cases heq)
  · rw [List.getElem?_eq_getElem (show 0 < s.queues.length by omega)]
    exact congrArg some (hmade.queues _ (List.getElem_mem _))
  · exact hi.opened 0 _ (by rw [hpos]; decide) hfd (by simp [closed, hpos])
  · exact .inr ⟨_, List.mem_of_getElem? hw, FdTable.has_iff.mpr ⟨fd0, hget0⟩⟩

end ProcessPool

end CppDemos
