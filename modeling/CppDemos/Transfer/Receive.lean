import CppDemos.Lib.FileTree
import CppDemos.Transfer.Header

/-!
# FileReceiver

Every message the wrapper delivers is taken for a chunk: its header names a
file under the save path, and what is behind the header goes to the end of that
file. The receiver keeps nothing from one message to the next but the files, so
its state is the file system.

A message does one of two things (`receive_chunk`): it is written, which makes
the directories above the file, or it changes no file, if a file is where a
directory is needed or a directory where the file should be. Over messages
whose files are apart from each other, the files under the save path are an
append-only store (`receive_openable`).

The file system takes names of any length. A real one refuses those of more than 255
bytes as it refuses to make a directory where a file is: the call makes what is
missing before the name, and opens nothing.
-/

namespace CppDemos

open LexPath FileTree AppendStore

/-- What the callback is given: the message and the memory behind it, which the
name in the header may run into. -/
structure Arrival where
  data : Bytes
  behind : Bytes

namespace Arrival

def filename (m : Arrival) : Bytes := filenameOf m.data m.behind

/-- `file_data`. -/
def payload (m : Arrival) : Bytes := m.data.drop sizeofFileHeader

def fullPath (savePath : Bytes) (m : Arrival) : Bytes := join savePath m.filename

/-- One of the checks fails. -/
def Dropped (m : Arrival) : Prop :=
  m.data.length < sizeofFileHeader ∨ magicOf m.data ≠ headerMagic

instance (m : Arrival) : Decidable m.Dropped := inferInstanceAs (Decidable (_ ∨ _))

theorem dirs_fullPath_ne_nil {savePath : Bytes} (h : savePath ≠ []) (m : Arrival) :
    dirs (m.fullPath savePath) ≠ [] :=
  dirs_join_ne_nil h m.filename

end Arrival

def wholeFile (path data : Bytes) : Arrival :=
  ⟨(fileHeader (.zero 3) path data.length).bytes ++ data, []⟩

/-- What a call leaves: the files, the directories it made and the place where it
tried to open one, which fails where a directory is. -/
structure Effect where
  fs : Fs
  created : List Loc := []
  opened : Option Loc := none

/-- The file at `l` was opened, and the payload is at its end. -/
def Effect.Wrote (e : Effect) (l : Loc) : Prop := e.opened = some l ∧ isFile e.fs l = true

namespace FileReceiver

/-- The constructor; `none` if it throws. -/
def create (savePath : Bytes) (fs : Fs) : Option Fs :=
  if savePath = [] then none
  else
    match createDirectories fs (start savePath) (split savePath) with
    | (_, _, none) => none
    | (fs, _, some _) => some fs

def onDataReceived (savePath : Bytes) (fs : Fs) (m : Arrival) : Effect :=
  if m.data.length < sizeofFileHeader then { fs := fs }
  else if magicOf m.data ≠ headerMagic then { fs := fs }
  else
    let fullPath := m.fullPath savePath
    -- `create_directories` throws for the empty path
    if dirs fullPath = [] then { fs := fs }
    else
      match createParents fs fullPath with
      | (fs, created, none) => { fs := fs, created := created }
      | (fs, created, some dir) =>
          let file := dir.enter (filename fullPath)
          { fs := (appendFile fs file m.payload).getD fs
            created := created
            opened := some file }

def receive (savePath : Bytes) (fs : Fs) (ms : List Arrival) : Fs :=
  ms.foldl (fun fs m => (onDataReceived savePath fs m).fs) fs

@[simp] theorem receive_nil (savePath : Bytes) (fs : Fs) : receive savePath fs [] = fs := rfl

@[simp] theorem receive_cons (savePath : Bytes) (fs : Fs) (m : Arrival) (ms : List Arrival) :
    receive savePath fs (m :: ms)
      = receive savePath (onDataReceived savePath fs m).fs ms := rfl

/-! ## One message -/

variable {savePath : Bytes} {fs : Fs}

/-- The save path is there. -/
structure Ready (savePath : Bytes) (fs : Fs) : Prop where
  nonempty : savePath ≠ []
  walkable : Walkable fs (start savePath) (split savePath)

theorem create_ready {fs' : Fs} (h : create savePath fs = some fs') : Ready savePath fs' := by
  rw [create] at h
  split at h
  · cases h
  · rename_i hne
    obtain ⟨-, -, hok, hbad⟩ := createDirectories_spec fs (start savePath) (split savePath)
    rcases hres : createDirectories fs (start savePath) (split savePath) with
      ⟨fs1, created, reached⟩
    rw [hres] at h hok hbad
    cases reached with
    | none => cases h
    | some dir =>
        obtain rfl := Option.some.inj h
        refine ⟨hne, (hok ?_).2⟩
        by_contra hclear
        exact nomatch hbad hclear

theorem onDataReceived_dropped {m : Arrival} (h : m.Dropped) :
    onDataReceived savePath fs m = { fs := fs } := by
  rw [onDataReceived]
  rcases h with hshort | hmagic
  · rw [if_pos hshort]
  · rw [if_pos hmagic, ite_self]

theorem onDataReceived_eq {m : Arrival} (h : ¬ m.Dropped) (hne : savePath ≠ []) :
    onDataReceived savePath fs m =
      match createParents fs (m.fullPath savePath) with
      | (fs, created, none) => { fs := fs, created := created }
      | (fs, created, some dir) =>
          { fs := (appendFile fs (dir.enter (LexPath.filename (m.fullPath savePath)))
              m.payload).getD fs
            created := created
            opened := some (dir.enter (LexPath.filename (m.fullPath savePath))) } := by
  obtain ⟨hlen, hmagic⟩ := not_or.mp h
  rw [onDataReceived, if_neg hlen, if_neg hmagic]
  simp only
  rw [if_neg (m.dirs_fullPath_ne_nil hne)]

theorem onDataReceived_blocked {m : Arrival} (h : ¬ m.Dropped) (hne : savePath ≠ [])
    (hblock : ¬ Reachable fs (m.fullPath savePath)) :
    onDataReceived savePath fs m =
      { fs := (createParents fs (m.fullPath savePath)).1
        created := (createParents fs (m.fullPath savePath)).2.1 } := by
  obtain ⟨-, -, -, hbad⟩ := createParents_spec fs (m.fullPath savePath)
  rw [onDataReceived_eq h hne]
  rcases hres : createParents fs (m.fullPath savePath) with ⟨fs1, created, reached⟩
  rw [hres] at hbad
  obtain rfl : reached = none := hbad hblock
  rfl

theorem onDataReceived_opened {m : Arrival} (h : ¬ m.Dropped) (hne : savePath ≠ [])
    (hclear : Reachable fs (m.fullPath savePath)) :
    onDataReceived savePath fs m =
      { fs := (appendFile (createParents fs (m.fullPath savePath)).1
          (locate (m.fullPath savePath)) m.payload).getD (createParents fs (m.fullPath savePath)).1
        created := (createParents fs (m.fullPath savePath)).2.1
        opened := some (locate (m.fullPath savePath)) } := by
  obtain ⟨-, -, hok, -⟩ := createParents_spec fs (m.fullPath savePath)
  rw [onDataReceived_eq h hne, ← locate_eq]
  rcases hres : createParents fs (m.fullPath savePath) with ⟨fs1, created, reached⟩
  rw [hres] at hok
  obtain rfl : reached = some _ := (hok hclear).1
  rfl

theorem onDataReceived_fs (hne : savePath ≠ []) (m : Arrival) :
    Extends fs (onDataReceived savePath fs m).fs (· ∈ parents (m.fullPath savePath)) ∨
      Writes fs (onDataReceived savePath fs m).fs (· ∈ parents (m.fullPath savePath))
        (locate (m.fullPath savePath)) m.payload := by
  obtain ⟨hext, -, -, -⟩ := createParents_spec fs (m.fullPath savePath)
  by_cases h : m.Dropped
  · rw [onDataReceived_dropped h]
    exact Or.inl (.refl fs _)
  · by_cases hclear : Reachable fs (m.fullPath savePath)
    · rw [onDataReceived_opened h hne hclear]
      cases happend : appendFile (createParents fs (m.fullPath savePath)).1
          (locate (m.fullPath savePath)) m.payload with
      | none => exact Or.inl hext
      | some fs' => exact Or.inr (hext.writes happend)
    · rw [onDataReceived_blocked h hne hclear]
      exact Or.inl hext

theorem Ready.onDataReceived (h : Ready savePath fs) (m : Arrival) :
    Ready savePath (onDataReceived savePath fs m).fs := by
  refine ⟨h.nonempty, ?_⟩
  rcases onDataReceived_fs h.nonempty m with hext | hwrites
  · exact hext.walkable h.walkable
  · exact hwrites.walkable h.walkable

theorem Ready.receive (h : Ready savePath fs) (ms : List Arrival) :
    Ready savePath (receive savePath fs ms) := by
  induction ms generalizing fs with
  | nil => exact h
  | cons m ms ih => exact ih (h.onDataReceived m)

/-! ## Chunks -/

/-- A message that passes the checks and names a file below the save path. -/
structure IsChunk (m : Arrival) : Prop where
  checked : ¬ m.Dropped
  normal : Normal m.filename

/-- Where the file lies that a header names. -/
def target (savePath name : Bytes) : Loc := locate (join savePath name)

/-- The places between the save path and the file. -/
def between (savePath name : Bytes) : List Loc := (locate savePath).places (dirs name)

/-- The file can be opened: no file is where one of its directories should be,
and no directory where it should be. -/
def Openable (savePath : Bytes) (fs : Fs) (name : Bytes) : Prop :=
  (∀ p ∈ between savePath name, isFile fs p = false) ∧ isDir fs (target savePath name) = false

instance (savePath : Bytes) (fs : Fs) (name : Bytes) : Decidable (Openable savePath fs name) :=
  inferInstanceAs (Decidable (_ ∧ _))

theorem Ready.mem_parents (h : Ready savePath fs) {name : Bytes} (hname : Normal name) {p : Loc}
    (hp : p ∈ parents (join savePath name)) : isDir fs p = true ∨ p ∈ between savePath name := by
  rw [parents_join hname.isAbsolute h.nonempty, List.mem_append] at hp
  rcases hp with hp | hp
  · obtain ⟨rest, hrest⟩ := dirNames_prefix savePath
    have hwalk := h.walkable
    rw [← hrest] at hwalk
    exact Or.inl ((walkable_append.mp hwalk).1 p hp)
  · exact Or.inr hp

theorem Ready.reachable_iff (h : Ready savePath fs) {name : Bytes} (hname : Normal name) :
    Reachable fs (join savePath name) ↔ ∀ p ∈ between savePath name, isFile fs p = false := by
  constructor
  · intro hreach p hp
    refine hreach p ?_
    change p ∈ parents _
    rw [parents_join hname.isAbsolute h.nonempty]
    exact List.mem_append_right _ hp
  · intro hclear p hp
    rcases h.mem_parents hname hp with hdir | hp
    · exact isFile_eq_false_of_isDir hdir
    · exact hclear p hp

theorem target_mem_between (hne : savePath ≠ []) {name other : Bytes} (hname : Normal name)
    (hother : Normal other) :
    target savePath name ∈ between savePath other ↔ split name <+: dirs other := by
  rw [target, hname.locate_join hne, between, hother.mem_places]

theorem receive_chunk (h : Ready savePath fs) {m : Arrival} (hm : IsChunk m) :
    (Openable savePath fs m.filename →
      Writes fs (onDataReceived savePath fs m).fs (· ∈ between savePath m.filename)
        (target savePath m.filename) m.payload) ∧
    (¬ Openable savePath fs m.filename →
      Extends fs (onDataReceived savePath fs m).fs (· ∈ between savePath m.filename)) := by
  obtain ⟨hchecked, hnormal⟩ := hm
  obtain ⟨hparents, -, -, -⟩ := createParents_spec fs (m.fullPath savePath)
  -- the directories of the save path are there already
  have hext : Extends fs (createParents fs (m.fullPath savePath)).1
      (· ∈ between savePath m.filename) := by
    refine hparents.imp ?_
    intro p hnot hp
    rcases h.mem_parents hnormal hp with hdir | hp
    · rw [hnot] at hdir
      cases hdir
    · exact hp
  by_cases hreach : Reachable fs (m.fullPath savePath)
  · rw [onDataReceived_opened hchecked h.nonempty hreach]
    have htarget : target savePath m.filename ∉ between savePath m.filename := by
      rw [target_mem_between h.nonempty hnormal hnormal]
      exact not_split_prefix_dirs _
    have hsame : isDir (createParents fs (m.fullPath savePath)).1 (locate (m.fullPath savePath))
        = isDir fs (target savePath m.filename) := hext.isDir_of_not_made htarget
    constructor
    · rintro ⟨-, hdir⟩
      cases happend : appendFile (createParents fs (m.fullPath savePath)).1
          (locate (m.fullPath savePath)) m.payload with
      | none =>
          rw [appendFile, if_neg (by rw [hsame.trans hdir]; exact Bool.false_ne_true)] at happend
          cases happend
      | some fs' => exact hext.writes happend
    · intro hnot
      have hdir : isDir fs (target savePath m.filename) = true := by
        by_contra hdir
        exact hnot ⟨(h.reachable_iff hnormal).mp hreach, Bool.eq_false_iff.mpr hdir⟩
      rw [appendFile, if_pos (hsame.trans hdir)]
      exact hext
  · rw [onDataReceived_blocked hchecked h.nonempty hreach]
    exact ⟨fun hopen => absurd ((h.reachable_iff hnormal).mpr hopen.1) hreach, fun _ => hext⟩

/-! ## Runs -/

/-- What can be opened can be opened after a chunk for a file that is apart
from it. -/
theorem Openable.writes {fs' : Fs} {name other : Bytes} {data : Bytes} (hne : savePath ≠ [])
    (hname : Normal name) (hother : Normal other)
    (hw : Writes fs fs' (· ∈ between savePath other) (target savePath other) data)
    (hapart : ¬ split other <+: dirs name) (hapart' : ¬ split name <+: dirs other)
    (h : Openable savePath fs name) : Openable savePath fs' name := by
  obtain ⟨hclear, hdir⟩ := h
  have hother' := (target_mem_between hne hother hname).not.mpr hapart
  have hname' := (target_mem_between hne hname hother).not.mpr hapart'
  exact ⟨hw.clear hother' hclear, (hw.isDir_of_not_made hname').trans hdir⟩

/-- Over files that are apart from each other the contents are an append-only
store, and no other files come up. -/
theorem receive_openable (h : Ready savePath fs) (ms : List Arrival) (hms : ∀ m ∈ ms, IsChunk m)
    (hapart : ∀ m ∈ ms, ∀ m' ∈ ms, ¬ split m.filename <+: dirs m'.filename)
    (hopen : ∀ m ∈ ms, Openable savePath fs m.filename) :
    contents (receive savePath fs ms)
      = appendAll (contents fs) (ms.map fun m => (target savePath m.filename, m.payload)) ∧
    ∀ p, isFile (receive savePath fs ms) p = true ↔
      isFile fs p = true ∨ ∃ m ∈ ms, p = target savePath m.filename := by
  induction ms generalizing fs with
  | nil => simp
  | cons m ms ih =>
      have hm := hms m (List.mem_cons_self ..)
      have hw := (receive_chunk h hm).1 (hopen m (List.mem_cons_self ..))
      obtain ⟨hcontents, hfiles⟩ := ih (h.onDataReceived m)
        (fun m' hm' => hms m' (List.mem_cons_of_mem _ hm'))
        (fun m₁ h₁ m₂ h₂ => hapart m₁ (List.mem_cons_of_mem _ h₁) m₂ (List.mem_cons_of_mem _ h₂))
        (fun m' hm' => (hopen m' (List.mem_cons_of_mem _ hm')).writes h.nonempty
          (hms m' (List.mem_cons_of_mem _ hm')).normal hm.normal hw
          (hapart m (List.mem_cons_self ..) m' (List.mem_cons_of_mem _ hm'))
          (hapart m' (List.mem_cons_of_mem _ hm') m (List.mem_cons_self ..)))
      constructor
      · rw [receive_cons, hcontents, hw.contents]
        rfl
      · intro p
        rw [receive_cons, hfiles p, hw.isFile, Bool.or_eq_true, decide_eq_true_eq]
        simp only [List.exists_mem_cons_iff]
        tauto

theorem receive_blocked (h : Ready savePath fs) {name : Bytes} (ms : List Arrival)
    (hms : ∀ m ∈ ms, IsChunk m ∧ m.filename = name) (hblock : ¬ Openable savePath fs name) :
    Extends fs (receive savePath fs ms) (· ∈ between savePath name) := by
  induction ms generalizing fs with
  | nil => exact .refl fs _
  | cons m ms ih =>
      obtain ⟨hm, rfl⟩ := hms m (List.mem_cons_self ..)
      have hext := (receive_chunk h hm).2 hblock
      have hblock' : ¬ Openable savePath (onDataReceived savePath fs m).fs m.filename := by
        rintro ⟨hclear, hdir⟩
        refine hblock ⟨hext.clear.mp hclear, ?_⟩
        cases hdir' : isDir fs (target savePath m.filename) with
        | false => rfl
        | true =>
            rw [hext.isDir hdir'] at hdir
            cases hdir
      have hrest := ih (h.onDataReceived m)
        (fun m' hm' => hms m' (List.mem_cons_of_mem _ hm')) hblock'
      exact (hext.trans hrest).imp fun p _ hp => hp.elim id id

end FileReceiver

end CppDemos
