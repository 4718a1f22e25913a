import CppDemos.Lib.AppendStore
import CppDemos.Lib.LexPath

/-!
# Directories and files

A file system without links: at each place a directory, a file with its bytes,
or nothing. The bases of all paths are directories. `createDirectories` makes
the directories along a path and stops at a file; `appendFile` writes at the
end of a file, which it creates if need be.

What `createDirectories` does is said once, by `createDirectories_spec`: it
adds directories along the path and changes nothing else, and it gets to the
end exactly if there is no file on the way (`Clear`). `Writes` is what such a
call does together with `appendFile`; it makes the contents of the files an
append-only store.
-/

namespace FileTree

open LexPath

inductive Node where
  | dir
  | file (data : List UInt8)
deriving DecidableEq, Repr

abbrev Fs := Loc → Option Node

def isDir (fs : Fs) (l : Loc) : Bool := l.names.isEmpty || fs l == some .dir

/-- There is a file at the place. -/
def isFile (fs : Fs) (l : Loc) : Bool := !isDir fs l && (fs l).isSome

/-- What is in the file, nothing if there is none. -/
def contents (fs : Fs) (l : Loc) : List UInt8 :=
  match fs l with
  | some (.file data) => data
  | _ => []

/-- `create_directories`: go down from `l`, making what is missing. Returns the
directories made, in order, and the place reached, unless a file is in the
way. -/
def createDirectories (fs : Fs) (l : Loc) : List Name → Fs × List Loc × Option Loc
  | [] => (fs, [], some l)
  | c :: cs =>
      let next := l.enter c
      if isDir fs next then createDirectories fs next cs
      else if isFile fs next then (fs, [], none)
      else
        let (fs, created, reached) :=
          createDirectories (Function.update fs next (some .dir)) next cs
        (fs, next :: created, reached)

/-- `create_directories` of the parent path. -/
def createParents (fs : Fs) (path : List UInt8) : Fs × List Loc × Option Loc :=
  createDirectories fs (start path) (dirs path)

/-- Write at the end of a file; a directory cannot be opened. -/
def appendFile (fs : Fs) (l : Loc) (data : List UInt8) : Option Fs :=
  if isDir fs l then none
  else some (Function.update fs l (some (.file (contents fs l ++ data))))

theorem isFile_eq_false_of_isDir {fs : Fs} {l : Loc} (h : isDir fs l = true) :
    isFile fs l = false := by
  rw [isFile, h]
  rfl

theorem eq_none_of_not {fs : Fs} {l : Loc} (hdir : isDir fs l = false)
    (hfile : isFile fs l = false) : fs l = none := by
  rw [isFile, hdir] at hfile
  simpa using hfile

theorem eq_file_of_isFile {fs : Fs} {l : Loc} (h : isFile fs l = true) :
    fs l = some (.file (contents fs l)) := by
  rw [isFile, Bool.and_eq_true, Bool.not_eq_true', isDir, Bool.or_eq_false_iff] at h
  obtain ⟨⟨-, hdir⟩, hsome⟩ := h
  rw [contents]
  cases hl : fs l with
  | none =>
      rw [hl] at hsome
      cases hsome
  | some node =>
      cases node with
      | dir =>
          rw [hl] at hdir
          cases hdir
      | file data => rfl

/-! ## Along a path -/

/-- No file is in the way of reading `cs` from `l`. -/
def Clear (fs : Fs) (l : Loc) (cs : List Name) : Prop := ∀ p ∈ l.places cs, isFile fs p = false

/-- Everything along the path is a directory. -/
def Walkable (fs : Fs) (l : Loc) (cs : List Name) : Prop := ∀ p ∈ l.places cs, isDir fs p = true

instance (fs : Fs) (l : Loc) (cs : List Name) : Decidable (Clear fs l cs) :=
  inferInstanceAs (Decidable (∀ p ∈ _, _))

instance (fs : Fs) (l : Loc) (cs : List Name) : Decidable (Walkable fs l cs) :=
  inferInstanceAs (Decidable (∀ p ∈ _, _))

theorem clear_cons {fs : Fs} {l : Loc} {c : Name} {cs : List Name} :
    Clear fs l (c :: cs) ↔ isFile fs (l.enter c) = false ∧ Clear fs (l.enter c) cs :=
  List.forall_mem_cons

theorem walkable_cons {fs : Fs} {l : Loc} {c : Name} {cs : List Name} :
    Walkable fs l (c :: cs) ↔ isDir fs (l.enter c) = true ∧ Walkable fs (l.enter c) cs :=
  List.forall_mem_cons

theorem Walkable.isDir_walk {fs : Fs} {l : Loc} {cs : List Name} (hl : isDir fs l = true)
    (h : Walkable fs l cs) : isDir fs (l.walk cs) = true := by
  induction cs generalizing l with
  | nil => exact hl
  | cons c cs ih =>
      obtain ⟨hdir, hrest⟩ := walkable_cons.mp h
      exact ih hdir hrest

theorem walkable_append {fs : Fs} {l : Loc} {cs ds : List Name} :
    Walkable fs l (cs ++ ds) ↔ Walkable fs l cs ∧ Walkable fs (l.walk cs) ds := by
  rw [Walkable, Loc.places_append, List.forall_mem_append]
  rfl

/-! ## What is changed -/

/-- `fs'` has some directories more, all of them in `made`, and is otherwise
`fs`. -/
structure Extends (fs fs' : Fs) (made : Loc → Prop) : Prop where
  same : ∀ l, fs' l = fs l ∨ (isDir fs l = false ∧ fs l = none ∧ fs' l = some .dir ∧ made l)

namespace Extends

variable {fs fs' fs'' : Fs} {made made' : Loc → Prop}

theorem refl (fs : Fs) (made : Loc → Prop) : Extends fs fs made := ⟨fun _ => Or.inl rfl⟩

theorem trans (h : Extends fs fs' made) (h' : Extends fs' fs'' made') :
    Extends fs fs'' fun l => made l ∨ made' l := by
  refine ⟨?_⟩
  intro l
  rcases h'.same l with heq | ⟨hnot, hnone, hdir, hmade⟩
  · rcases h.same l with heq' | ⟨hnot, hnone, hdir, hmade⟩
    · exact Or.inl (heq.trans heq')
    · exact Or.inr ⟨hnot, hnone, heq.trans hdir, Or.inl hmade⟩
  · rcases h.same l with heq' | ⟨-, -, hdir', -⟩
    · rw [FileTree.isDir, heq'] at hnot
      exact Or.inr ⟨hnot, heq' ▸ hnone, hdir, Or.inr hmade⟩
    · rw [hnone] at hdir'
      cases hdir'

theorem imp (h : Extends fs fs' made) (himp : ∀ l, isDir fs l = false → made l → made' l) :
    Extends fs fs' made' := by
  refine ⟨?_⟩
  intro l
  rcases h.same l with heq | ⟨hnot, hnone, hdir, hmade⟩
  · exact Or.inl heq
  · exact Or.inr ⟨hnot, hnone, hdir, himp l hnot hmade⟩

theorem isDir (h : Extends fs fs' made) {l : Loc} (hdir : isDir fs l = true) :
    FileTree.isDir fs' l = true := by
  rcases h.same l with heq | ⟨-, -, hnew, -⟩
  · rwa [FileTree.isDir, heq]
  · rw [FileTree.isDir, hnew]
    simp

theorem isDir_of_not_made (h : Extends fs fs' made) {l : Loc} (hl : ¬ made l) :
    FileTree.isDir fs' l = FileTree.isDir fs l := by
  rcases h.same l with heq | ⟨-, -, -, hmade⟩
  · rw [FileTree.isDir, heq]
    rfl
  · exact absurd hmade hl

theorem isFile (h : Extends fs fs' made) (l : Loc) : isFile fs' l = isFile fs l := by
  rcases h.same l with heq | ⟨-, hnone, hnew, -⟩
  · rw [FileTree.isFile, FileTree.isDir, heq]
    rfl
  · simp [FileTree.isFile, FileTree.isDir, hnone, hnew]

theorem contents (h : Extends fs fs' made) (l : Loc) : contents fs' l = contents fs l := by
  rcases h.same l with heq | ⟨-, hnone, hnew, -⟩
  · rw [FileTree.contents, heq]
    rfl
  · rw [FileTree.contents, FileTree.contents, hnone, hnew]

theorem clear (h : Extends fs fs' made) {l : Loc} {cs : List Name} :
    Clear fs' l cs ↔ Clear fs l cs := by
  simp only [Clear, h.isFile]

theorem walkable (h : Extends fs fs' made) {l : Loc} {cs : List Name} (hw : Walkable fs l cs) :
    Walkable fs' l cs :=
  fun p hp => h.isDir (hw p hp)

end Extends

/-! ## Making directories -/

theorem extends_update {fs : Fs} {l : Loc} (hdir : isDir fs l = false)
    (hfile : isFile fs l = false) : Extends fs (Function.update fs l (some .dir)) (· = l) := by
  refine ⟨?_⟩
  intro p
  by_cases hp : p = l
  · subst hp
    exact Or.inr ⟨hdir, eq_none_of_not hdir hfile, Function.update_self .., rfl⟩
  · exact Or.inl (Function.update_of_ne hp ..)

/-- Directories are made where they were missing along the path. The end is
reached, with everything along the path a directory, if no file is in the
way, and not otherwise. -/
theorem createDirectories_spec (fs : Fs) (l : Loc) (cs : List Name) :
    Extends fs (createDirectories fs l cs).1 (· ∈ l.places cs) ∧
      (∀ p ∈ (createDirectories fs l cs).2.1, p ∈ l.places cs ∧ isDir fs p = false) ∧
      (Clear fs l cs → (createDirectories fs l cs).2.2 = some (l.walk cs) ∧
        Walkable (createDirectories fs l cs).1 l cs) ∧
      (¬ Clear fs l cs → (createDirectories fs l cs).2.2 = none) := by
  induction cs generalizing fs l with
  | nil =>
      exact ⟨.refl fs _, by simp [createDirectories], fun _ => ⟨rfl, by simp [Walkable]⟩,
        fun h => absurd (by simp [Clear]) h⟩
  | cons c cs ih =>
      rw [createDirectories, clear_cons, walkable_cons]
      simp only [Loc.places_cons, List.mem_cons]
      by_cases hdir : isDir fs (l.enter c) = true
      · rw [if_pos hdir]
        obtain ⟨hext, hmade, hok, hbad⟩ := ih fs (l.enter c)
        refine ⟨hext.imp fun p _ hp => Or.inr hp, ?_, ?_,
          fun h => hbad fun h' => h ⟨isFile_eq_false_of_isDir hdir, h'⟩⟩
        · intro p hp
          exact ⟨Or.inr (hmade p hp).1, (hmade p hp).2⟩
        · intro h
          obtain ⟨hreach, hwalk⟩ := hok h.2
          exact ⟨hreach, hext.isDir hdir, hwalk⟩
      · rw [if_neg hdir]
        have hnot : isDir fs (l.enter c) = false := Bool.eq_false_iff.mpr hdir
        by_cases hfile : isFile fs (l.enter c) = true
        · rw [if_pos hfile]
          refine ⟨.refl fs _, by simp, ?_, fun _ => rfl⟩
          intro h
          rw [h.1] at hfile
          cases hfile
        · rw [if_neg hfile]
          have hclear : isFile fs (l.enter c) = false := Bool.eq_false_iff.mpr hfile
          have hone := extends_update hnot hclear
          obtain ⟨hext, hmade, hok, hbad⟩ :=
            ih (Function.update fs (l.enter c) (some .dir)) (l.enter c)
          have hself : isDir (Function.update fs (l.enter c) (some .dir)) (l.enter c) = true := by
            simp [isDir]
          refine ⟨(hone.trans hext).imp fun p _ hp => hp, ?_, ?_,
            fun h => hbad fun h' => h ⟨hclear, hone.clear.mp h'⟩⟩
          · intro p hp
            rcases List.mem_cons.mp hp with rfl | hp
            · exact ⟨Or.inl rfl, hnot⟩
            · obtain ⟨hplace, hmiss⟩ := hmade p hp
              refine ⟨Or.inr hplace, ?_⟩
              cases hp' : isDir fs p with
              | false => rfl
              | true =>
                  rw [hone.isDir hp'] at hmiss
                  cases hmiss
          · intro h
            obtain ⟨hreach, hwalk⟩ := hok (hone.clear.mpr h.2)
            exact ⟨hreach, hext.isDir hself, hwalk⟩

/-- No file is in the way of the parent path. -/
abbrev Reachable (fs : Fs) (path : List UInt8) : Prop := Clear fs (start path) (dirs path)

theorem createParents_spec (fs : Fs) (path : List UInt8) :
    Extends fs (createParents fs path).1 (· ∈ parents path) ∧
      (∀ p ∈ (createParents fs path).2.1, p ∈ parents path ∧ isDir fs p = false) ∧
      (Reachable fs path → (createParents fs path).2.2 = some ((start path).walk (dirs path)) ∧
        Walkable (createParents fs path).1 (start path) (dirs path)) ∧
      (¬ Reachable fs path → (createParents fs path).2.2 = none) :=
  createDirectories_spec fs (start path) (dirs path)

theorem mem_created {fs : Fs} {l : Loc} {cs : List Name} (h : Clear fs l cs) {p : Loc}
    (hp : p ∈ l.places cs) (hmiss : isDir fs p = false) :
    p ∈ (createDirectories fs l cs).2.1 := by
  induction cs generalizing fs l with
  | nil => cases hp
  | cons c cs ih =>
      obtain ⟨hfile, hrest⟩ := clear_cons.mp h
      rw [createDirectories]
      simp only [hfile, Bool.false_eq_true, if_false]
      by_cases hdir : isDir fs (l.enter c) = true
      · rw [if_pos hdir]
        rcases List.mem_cons.mp hp with rfl | hp
        · rw [hmiss] at hdir
          cases hdir
        · exact ih hrest hp hmiss
      · rw [if_neg hdir]
        have hone := extends_update (Bool.eq_false_iff.mpr hdir) hfile
        by_cases heq : p = l.enter c
        · exact heq ▸ List.mem_cons_self ..
        · rcases List.mem_cons.mp hp with rfl | hp
          · exact absurd rfl heq
          · refine List.mem_cons_of_mem _ (ih (hone.clear.mpr hrest) hp ?_)
            rw [hone.isDir_of_not_made heq, hmiss]

/-! ## Writing -/

/-- `fs'` has `data` more in the file at `l`, some directories more, all of
them in `made`, and is otherwise `fs`. -/
structure Writes (fs fs' : Fs) (made : Loc → Prop) (l : Loc) (data : List UInt8) : Prop where
  target : fs' l = some (.file (contents fs l ++ data))
  isDir_target : isDir fs l = false
  same : ∀ p, p ≠ l →
    fs' p = fs p ∨ (isDir fs p = false ∧ fs p = none ∧ fs' p = some .dir ∧ made p)

theorem Extends.writes {fs fs' fs'' : Fs} {made : Loc → Prop} (h : Extends fs fs' made) {l : Loc}
    {data : List UInt8} (happend : appendFile fs' l data = some fs'') :
    Writes fs fs'' made l data := by
  rw [appendFile] at happend
  split at happend
  · cases happend
  · rename_i hnot
    obtain rfl := Option.some.inj happend
    refine ⟨?_, ?_, ?_⟩
    · rw [Function.update_self, h.contents]
    · cases hdir : FileTree.isDir fs l with
      | false => rfl
      | true => exact absurd (h.isDir hdir) hnot
    · intro p hp
      rw [Function.update_of_ne hp]
      exact h.same p

namespace Writes

variable {fs fs' : Fs} {made : Loc → Prop} {l : Loc} {data : List UInt8}

theorem ne_of_isDir (h : Writes fs fs' made l data) {p : Loc} (hp : isDir fs p = true) :
    p ≠ l := by
  rintro rfl
  rw [h.isDir_target] at hp
  cases hp

theorem isDir (h : Writes fs fs' made l data) {p : Loc} (hp : isDir fs p = true) :
    FileTree.isDir fs' p = true := by
  rcases h.same p (h.ne_of_isDir hp) with heq | ⟨-, -, hnew, -⟩
  · rwa [FileTree.isDir, heq]
  · rw [FileTree.isDir, hnew]
    simp

theorem isDir_of_not_made (h : Writes fs fs' made l data) {p : Loc} (hp : ¬ made p) :
    FileTree.isDir fs' p = FileTree.isDir fs p := by
  by_cases hpl : p = l
  · have hnot := h.isDir_target
    rw [FileTree.isDir, Bool.or_eq_false_iff] at hnot
    rw [hpl, FileTree.isDir, h.target, h.isDir_target, hnot.1]
    rfl
  · rcases h.same p hpl with heq | ⟨-, -, -, hmade⟩
    · rw [FileTree.isDir, heq]
      rfl
    · exact absurd hmade hp

theorem isFile (h : Writes fs fs' made l data) (p : Loc) :
    isFile fs' p = (decide (p = l) || FileTree.isFile fs p) := by
  by_cases hpl : p = l
  · have hnot := h.isDir_target
    rw [FileTree.isDir, Bool.or_eq_false_iff] at hnot
    rw [decide_eq_true hpl, hpl, FileTree.isFile, FileTree.isDir, h.target, hnot.1]
    rfl
  · rw [decide_eq_false hpl, Bool.false_or]
    rcases h.same p hpl with heq | ⟨-, hnone, hnew, -⟩
    · rw [FileTree.isFile, FileTree.isDir, heq]
      rfl
    · simp [FileTree.isFile, FileTree.isDir, hnone, hnew]

theorem contents (h : Writes fs fs' made l data) :
    contents fs' = AppendStore.append (contents fs) l data := by
  funext p
  rw [AppendStore.append]
  by_cases hpl : p = l
  · rw [hpl, Function.update_self, FileTree.contents, h.target]
  · rw [Function.update_of_ne hpl]
    rcases h.same p hpl with heq | ⟨-, hnone, hnew, -⟩
    · rw [FileTree.contents, heq]
      rfl
    · rw [FileTree.contents, FileTree.contents, hnone, hnew]

theorem clear (h : Writes fs fs' made l data) {m : Loc} {cs : List Name} (hl : l ∉ m.places cs)
    (hc : Clear fs m cs) : Clear fs' m cs := by
  intro p hp
  have hne : p ≠ l := by
    rintro rfl
    exact hl hp
  rw [h.isFile, decide_eq_false hne, Bool.false_or]
  exact hc p hp

theorem walkable (h : Writes fs fs' made l data) {m : Loc} {cs : List Name}
    (hw : Walkable fs m cs) : Walkable fs' m cs :=
  fun p hp => h.isDir (hw p hp)

end Writes

/-! ## Trees -/

/-- Whatever exists lies in a directory. -/
def IsTree (fs : Fs) : Prop := ∀ l, (fs l).isSome → isDir fs l.parent = true

theorem isDir_of_names_eq_nil (fs : Fs) {l : Loc} (h : l.names = []) : isDir fs l = true := by
  rw [isDir, h]
  rfl

theorem IsTree.isDir_parent {fs : Fs} (h : IsTree fs) {l : Loc} (hdir : isDir fs l = true) :
    isDir fs l.parent = true := by
  obtain ⟨base, names⟩ := l
  cases names with
  | nil =>
      refine isDir_of_names_eq_nil fs ?_
      cases base <;> rfl
  | cons c cs =>
      refine h _ ?_
      rw [isDir, List.isEmpty_cons, Bool.false_or, beq_iff_eq] at hdir
      rw [hdir]
      rfl

theorem IsTree.isDir_of_prefix {fs : Fs} (h : IsTree fs) {base : Base} {ns ms : List Name}
    (hdir : isDir fs ⟨base, ns ++ ms⟩ = true) : isDir fs ⟨base, ns⟩ = true := by
  induction ms using List.reverseRecOn with
  | nil => rwa [List.append_nil] at hdir
  | append_singleton ms m ih =>
      refine ih ?_
      have hparent := h.isDir_parent hdir
      rwa [← List.append_assoc, Loc.parent_concat] at hparent

/-- Reading a name from a directory leads to a directory or to something in
it. -/
theorem IsTree.parent_enter {fs : Fs} (h : IsTree fs) {l : Loc} (hdir : isDir fs l = true)
    {c : Name} (hnot : isDir fs (l.enter c) = false) : (l.enter c).parent = l := by
  rw [Loc.enter] at hnot ⊢
  split
  · rename_i hstay
    rw [if_pos hstay, hdir] at hnot
    cases hnot
  · rename_i hgo
    rw [if_neg hgo] at hnot
    split
    · rename_i hup
      rw [if_pos hup, h.isDir_parent hdir] at hnot
      cases hnot
    · exact Loc.parent_concat ..

theorem IsTree.update {fs : Fs} (h : IsTree fs) {l : Loc} (hparent : isDir fs l.parent = true)
    (hnot : isDir fs l = false) (node : Node) : IsTree (Function.update fs l (some node)) := by
  intro p hp
  have hkeep (q : Loc) (hq : isDir fs q = true) :
      isDir (Function.update fs l (some node)) q = true := by
    have hne : q ≠ l := by
      rintro rfl
      rw [hnot] at hq
      cases hq
    rwa [isDir, Function.update_of_ne hne]
  by_cases hpl : p = l
  · exact hpl ▸ hkeep _ hparent
  · rw [Function.update_of_ne hpl] at hp
    exact hkeep _ (h p hp)

theorem IsTree.createDirectories {fs : Fs} (h : IsTree fs) {l : Loc} (hdir : isDir fs l = true)
    (cs : List Name) : IsTree (createDirectories fs l cs).1 := by
  induction cs generalizing fs l with
  | nil => exact h
  | cons c cs ih =>
      rw [FileTree.createDirectories]
      simp only
      split
      · rename_i hnext
        exact ih h hnext
      · rename_i hnext
        have hnot : isDir fs (l.enter c) = false := Bool.eq_false_iff.mpr hnext
        split
        · exact h
        · refine ih (h.update ?_ hnot .dir) (by simp [isDir])
          rwa [h.parent_enter hdir hnot]

theorem IsTree.appendFile {fs fs' : Fs} (h : IsTree fs) {l : Loc} (hdir : isDir fs l = true)
    {c : Name} {data : List UInt8} (happend : appendFile fs (l.enter c) data = some fs') :
    IsTree fs' := by
  rw [FileTree.appendFile] at happend
  split at happend
  · cases happend
  · rename_i hne
    have hnot : isDir fs (l.enter c) = false := Bool.eq_false_iff.mpr hne
    obtain rfl := Option.some.inj happend
    refine h.update ?_ hnot _
    rwa [h.parent_enter hdir hnot]

end FileTree
