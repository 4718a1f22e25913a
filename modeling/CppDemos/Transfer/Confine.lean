import CppDemos.Transfer.Receive

/-!
# Which messages stay under the save path

`onDataReceived` joins the save path and the name in the header as they come.
Whether all it makes and opens lies under the save path is up to the name
(`received_below_iff`): it has to lead there, and on its way there it may only
leave the save path for directories that exist anyway because the save path
lies in them (`Known`). Names that are chunks of a transfer do so
(`stays_of_normal`).

What holds for a message then holds in every state of the file system, so
nothing has to be known about the messages before it. The other way round it
takes the file system that has the directories of the save path and nothing
else: there every missing directory is made and the file is opened.
-/

namespace CppDemos

open LexPath FileTree FileReceiver

/-- Everything a call makes or opens is below the save path. -/
structure Effect.Below (savePath : Bytes) (e : Effect) : Prop where
  created : ∀ p ∈ e.created, (locate savePath).Below p
  opened : ∀ p ∈ e.opened, (locate savePath).Below p

/-- Directories in every file system that has the save path: the places it
passes, what these lie in, and the bases. -/
def Known (savePath : Bytes) (p : Loc) : Prop :=
  p.names = [] ∨
    ∃ q ∈ (start savePath).places (split savePath), p.base = q.base ∧ p.names <+: q.names

/-- Read from the save path, or from the root if it is absolute, the name leads
below the save path and passes only directories that are known or below it as
well. -/
structure Stays (savePath name : Bytes) : Prop where
  passes : ∀ p ∈ (readFrom savePath name).places (dirs name),
    (locate savePath).Below p ∨ Known savePath p
  ends : (locate savePath).Below ((readFrom savePath name).walk (split name))

instance (savePath : Bytes) (p : Loc) : Decidable (Known savePath p) :=
  inferInstanceAs (Decidable (_ ∨ ∃ q ∈ _, _))

instance (savePath name : Bytes) : Decidable (Stays savePath name) :=
  decidable_of_iff
    ((∀ p ∈ (readFrom savePath name).places (dirs name),
      (locate savePath).Below p ∨ Known savePath p) ∧
      (locate savePath).Below ((readFrom savePath name).walk (split name)))
    ⟨fun ⟨hpasses, hends⟩ => ⟨hpasses, hends⟩, fun ⟨hpasses, hends⟩ => ⟨hpasses, hends⟩⟩

theorem stays_of_normal {name : Bytes} (savePath : Bytes) (h : Normal name) :
    Stays savePath name := by
  have hbelow {ps : List Name} (hne : ps ≠ []) : (locate savePath).Below
      ⟨(locate savePath).base, (locate savePath).names ++ ps⟩ := by
    refine ⟨rfl, List.prefix_append .., fun heq => hne ?_⟩
    exact List.append_right_eq_self.mp (congrArg Loc.names heq)
  have hfrom : readFrom savePath name = locate savePath := by
    rw [readFrom, h.isAbsolute, if_neg Bool.false_ne_true]
  constructor
  · intro p hp
    rw [hfrom, Loc.mem_places_proper _ h.proper_dirs] at hp
    obtain ⟨ps, -, hne, rfl⟩ := hp
    exact Or.inl (hbelow hne)
  · rw [hfrom, Loc.walk_proper _ h]
    exact hbelow (split_ne_nil name)

/-! ## Every file system -/

variable {savePath : Bytes} {fs : Fs}

theorem isTree_onDataReceived (hne : savePath ≠ []) (h : IsTree fs) (m : Arrival) :
    IsTree (onDataReceived savePath fs m).fs := by
  obtain ⟨-, -, hok, -⟩ := createParents_spec fs (m.fullPath savePath)
  have hstart : isDir fs (start (m.fullPath savePath)) = true := by
    refine isDir_of_names_eq_nil fs ?_
    rw [start]
    split <;> rfl
  have htree : IsTree (createParents fs (m.fullPath savePath)).1 :=
    h.createDirectories hstart _
  by_cases hdrop : m.Dropped
  · rw [onDataReceived_dropped hdrop]
    exact h
  · by_cases hreach : Reachable fs (m.fullPath savePath)
    · rw [onDataReceived_opened hdrop hne hreach]
      cases happend : appendFile (createParents fs (m.fullPath savePath)).1
          (locate (m.fullPath savePath)) m.payload with
      | none => exact htree
      | some fs' =>
          rw [← locate_eq] at happend
          refine htree.appendFile ((hok hreach).2.isDir_walk ?_) happend
          exact (createParents_spec fs _).1.isDir hstart
    · rw [onDataReceived_blocked hdrop hne hreach]
      exact htree

theorem isTree_receive (hne : savePath ≠ []) (h : IsTree fs) (ms : List Arrival) :
    IsTree (receive savePath fs ms) := by
  induction ms generalizing fs with
  | nil => exact h
  | cons m ms ih => exact ih (isTree_onDataReceived hne h m)

theorem isDir_of_known (h : Ready savePath fs) (htree : IsTree fs) {p : Loc}
    (hp : Known savePath p) : isDir fs p = true := by
  rcases hp with hnil | ⟨q, hq, hbase, hpre⟩
  · exact isDir_of_names_eq_nil fs hnil
  · obtain ⟨rest, hrest⟩ := hpre
    have hdir := h.walkable q hq
    obtain ⟨base, names⟩ := p
    obtain ⟨base', names'⟩ := q
    obtain rfl : base = base' := hbase
    obtain rfl : names ++ rest = names' := hrest
    exact htree.isDir_of_prefix hdir

theorem below_of_stays (hready : Ready savePath fs) (htree : IsTree fs) {m : Arrival}
    (h : Stays savePath m.filename) : (onDataReceived savePath fs m).Below savePath := by
  obtain ⟨-, hmade, -, -⟩ := createParents_spec fs (m.fullPath savePath)
  have hcreated : ∀ p ∈ (createParents fs (m.fullPath savePath)).2.1,
      (locate savePath).Below p := by
    intro p hp
    obtain ⟨hparent, hnot⟩ := hmade p hp
    -- what is known is there and not made
    have hunknown : ¬ Known savePath p := by
      intro hknown
      rw [isDir_of_known hready htree hknown] at hnot
      cases hnot
    rcases mem_parents_join hready.nonempty hparent with hp | hp
    · exact absurd (Or.inr ⟨p, hp, rfl, List.prefix_rfl⟩) hunknown
    · exact (h.passes p hp).resolve_right hunknown
  by_cases hdrop : m.Dropped
  · rw [onDataReceived_dropped hdrop]
    exact ⟨fun p hp => (nomatch hp), fun p hp => (nomatch hp)⟩
  · by_cases hreach : Reachable fs (m.fullPath savePath)
    · rw [onDataReceived_opened hdrop hready.nonempty hreach]
      refine ⟨hcreated, ?_⟩
      intro p hp
      obtain rfl := Option.mem_some_iff.mp hp
      rw [Arrival.fullPath, locate_join_eq hready.nonempty]
      exact h.ends
    · rw [onDataReceived_blocked hdrop hready.nonempty hreach]
      exact ⟨hcreated, fun p hp => (nomatch hp)⟩

/-! ## The least file system -/

/-- Nothing but the directories of the save path. -/
def leastFs (savePath : Bytes) : Fs := fun p => if Known savePath p then some .dir else none

theorem isDir_leastFs (savePath : Bytes) (p : Loc) :
    isDir (leastFs savePath) p = decide (Known savePath p) := by
  by_cases hp : Known savePath p
  · rw [isDir, leastFs, if_pos hp, decide_eq_true hp]
    simp
  · have hnil : p.names ≠ [] := fun hnil => hp (Or.inl hnil)
    rw [isDir, leastFs, if_neg hp, decide_eq_false hp]
    simp [hnil]

theorem isFile_leastFs (savePath : Bytes) (p : Loc) : isFile (leastFs savePath) p = false := by
  rw [isFile, isDir_leastFs, leastFs]
  by_cases hp : Known savePath p
  · rw [decide_eq_true hp]
    rfl
  · rw [if_neg hp]
    simp

theorem isTree_leastFs (savePath : Bytes) : IsTree (leastFs savePath) := by
  intro p hp
  rw [isDir_leastFs, decide_eq_true_eq]
  have hknown : Known savePath p := by
    by_contra hnot
    rw [leastFs, if_neg hnot] at hp
    cases hp
  obtain ⟨base, names⟩ := p
  rcases List.eq_nil_or_concat names with rfl | ⟨ns, n, rfl⟩
  · cases base <;> exact Or.inl rfl
  · rw [List.concat_eq_append] at hknown ⊢
    rw [Loc.parent_concat]
    rcases hknown with hnil | ⟨q, hq, hbase, hpre⟩
    · exact absurd hnil (by simp)
    · exact Or.inr ⟨q, hq, hbase, (List.prefix_append ns [n]).trans hpre⟩

theorem ready_leastFs (hne : savePath ≠ []) : Ready savePath (leastFs savePath) := by
  refine ⟨hne, ?_⟩
  intro p hp
  rw [isDir_leastFs, decide_eq_true_eq]
  exact Or.inr ⟨p, hp, rfl, List.prefix_rfl⟩

theorem stays_of_below (hne : savePath ≠ []) {m : Arrival} (hdrop : ¬ m.Dropped)
    (h : (onDataReceived savePath (leastFs savePath) m).Below savePath) :
    Stays savePath m.filename := by
  have hreach : Reachable (leastFs savePath) (m.fullPath savePath) :=
    fun p _ => isFile_leastFs savePath p
  rw [onDataReceived_opened hdrop hne hreach] at h
  constructor
  · intro p hp
    by_cases hknown : Known savePath p
    · exact Or.inr hknown
    · refine Or.inl (h.created p (mem_created hreach (mem_parents_join_of_mem hne hp) ?_))
      rw [isDir_leastFs, decide_eq_false hknown]
  · rw [← locate_join_eq hne]
    exact h.opened _ rfl

/-! ## Exactly which messages -/

/-- All that a message makes and opens is below the save path, whatever is
there and whatever came before it, just if it is dropped or its name stays. -/
theorem received_below_iff (hne : savePath ≠ []) (m : Arrival) :
    (∀ fs, IsTree fs → Ready savePath fs → ∀ before : List Arrival,
      (onDataReceived savePath (receive savePath fs before) m).Below savePath) ↔
    m.Dropped ∨ Stays savePath m.filename := by
  constructor
  · intro h
    refine or_iff_not_imp_left.mpr ?_
    intro hdrop
    exact stays_of_below hne hdrop
      (h (leastFs savePath) (isTree_leastFs savePath) (ready_leastFs hne) [])
  · rintro (hdrop | hstays) fs htree hready before
    · rw [onDataReceived_dropped hdrop]
      exact ⟨fun p hp => (nomatch hp), fun p hp => (nomatch hp)⟩
    · exact below_of_stays (hready.receive before) (isTree_receive hne htree before) hstays

def climbing : Arrival := wholeFile [46, 46, 47, 120] [1]

theorem received_below_iff_climbing :
    (∀ fs, IsTree fs → Ready [115] fs → ∀ before : List Arrival,
      (onDataReceived [115] (receive [115] fs before) climbing).Below [115]) ↔
    climbing.Dropped ∨ Stays [115] climbing.filename :=
  received_below_iff (by decide) climbing

/-- With the save path `s` it opens `x` beside it. -/
theorem climbs_out :
    ¬ ∀ (savePath : Bytes) (fs : Fs) (m : Arrival), IsTree fs → Ready savePath fs →
      (onDataReceived savePath fs m).Below savePath := by
  intro h
  have hbelow := (h [115] (leastFs [115]) climbing (isTree_leastFs [115])
    (ready_leastFs (by decide))).opened ⟨.above 0, [[120]]⟩ (by decide +kernel)
  revert hbelow
  decide

end CppDemos
