import Mathlib.Data.List.Infix
import Mathlib.Tactic.Common

/-!
# Paths, read lexically

A path is a string of names between slashes. Reading it from some directory
leads to a place (`Loc`): the root, or a number of levels above the current
directory, and from there down some names. Reading a name goes one level down,
`..` one level up, and `.` and the empty name nowhere; nothing is looked up,
so a place is the lexically normal form of the paths that lead to it.

`split_join` says how a relative path is read that is appended to another one
with `operator/`: from where that one leads.
-/

namespace LexPath

abbrev Name := List UInt8

def slash : UInt8 := 47

def dot : UInt8 := 46

/-! ## Places -/

inductive Base where
  | root
  | above (n : Nat)
deriving DecidableEq, Repr

/-- A place in a file system without links. -/
structure Loc where
  base : Base
  names : List Name
deriving DecidableEq, Repr

/-- One level up; the root is above itself. -/
def Loc.parent : Loc → Loc
  | ⟨.root, []⟩ => ⟨.root, []⟩
  | ⟨.above n, []⟩ => ⟨.above (n + 1), []⟩
  | ⟨base, name :: names⟩ => ⟨base, (name :: names).dropLast⟩

def Loc.enter (l : Loc) (c : Name) : Loc :=
  if c = [] ∨ c = [dot] then l
  else if c = [dot, dot] then l.parent
  else ⟨l.base, l.names ++ [c]⟩

def Loc.walk (l : Loc) (cs : List Name) : Loc := cs.foldl Loc.enter l

/-- The places passed on the way, without the first. -/
def Loc.places (l : Loc) : List Name → List Loc
  | [] => []
  | c :: cs => l.enter c :: (l.enter c).places cs

/-- A name that is neither empty nor `.` nor `..`. -/
def Proper (c : Name) : Prop := c ≠ [] ∧ c ≠ [dot] ∧ c ≠ [dot, dot]

instance (c : Name) : Decidable (Proper c) := inferInstanceAs (Decidable (_ ∧ _))

/-- `p` lies below `l`: one or more names further down. -/
def Loc.Below (l p : Loc) : Prop := p.base = l.base ∧ l.names <+: p.names ∧ p ≠ l

instance (l p : Loc) : Decidable (l.Below p) := inferInstanceAs (Decidable (_ ∧ _ ∧ _))

@[simp] theorem Loc.walk_nil (l : Loc) : l.walk [] = l := rfl

@[simp] theorem Loc.walk_cons (l : Loc) (c : Name) (cs : List Name) :
    l.walk (c :: cs) = (l.enter c).walk cs := rfl

theorem Loc.walk_append (l : Loc) (cs ds : List Name) :
    l.walk (cs ++ ds) = (l.walk cs).walk ds := List.foldl_append

@[simp] theorem Loc.places_nil (l : Loc) : l.places [] = [] := rfl

@[simp] theorem Loc.places_cons (l : Loc) (c : Name) (cs : List Name) :
    l.places (c :: cs) = l.enter c :: (l.enter c).places cs := rfl

theorem Loc.places_append (l : Loc) (cs ds : List Name) :
    l.places (cs ++ ds) = l.places cs ++ (l.walk cs).places ds := by
  induction cs generalizing l with
  | nil => rfl
  | cons c cs ih => simp [ih]

@[simp] theorem Loc.enter_nil (l : Loc) : l.enter [] = l := if_pos (Or.inl rfl)

theorem Loc.enter_proper (l : Loc) {c : Name} (h : Proper c) :
    l.enter c = ⟨l.base, l.names ++ [c]⟩ := by
  obtain ⟨hnil, hdot, hdots⟩ := h
  rw [Loc.enter, if_neg (by simp [hnil, hdot]), if_neg hdots]

theorem Loc.parent_concat (base : Base) (names : List Name) (c : Name) :
    (⟨base, names ++ [c]⟩ : Loc).parent = ⟨base, names⟩ := by
  cases names with
  | nil => cases base <;> rfl
  | cons d names =>
      rw [List.cons_append, Loc.parent, ← List.cons_append, List.dropLast_concat]

theorem Loc.walk_proper (l : Loc) {cs : List Name} (h : ∀ c ∈ cs, Proper c) :
    l.walk cs = ⟨l.base, l.names ++ cs⟩ := by
  induction cs generalizing l with
  | nil => rw [Loc.walk_nil, List.append_nil]
  | cons c cs ih =>
      rw [Loc.walk_cons, Loc.enter_proper l (h c (List.mem_cons_self ..)),
        ih _ fun d hd => h d (List.mem_cons_of_mem _ hd), List.append_assoc,
        List.singleton_append]

theorem Loc.mem_places_proper (l : Loc) {cs : List Name} (h : ∀ c ∈ cs, Proper c) {p : Loc} :
    p ∈ l.places cs ↔ ∃ ps, ps <+: cs ∧ ps ≠ [] ∧ p = ⟨l.base, l.names ++ ps⟩ := by
  induction cs generalizing l with
  | nil =>
      constructor
      · intro hp
        cases hp
      · rintro ⟨ps, hps, hne, -⟩
        exact absurd (List.prefix_nil.mp hps) hne
  | cons c cs ih =>
      have hc : l.enter c = ⟨l.base, l.names ++ [c]⟩ := l.enter_proper (h c (List.mem_cons_self ..))
      rw [Loc.places_cons, List.mem_cons, ih _ fun d hd => h d (List.mem_cons_of_mem _ hd), hc]
      constructor
      · rintro (rfl | ⟨ps, hps, -, rfl⟩)
        · exact ⟨[c], List.cons_prefix_cons.mpr ⟨rfl, List.nil_prefix⟩, by simp, rfl⟩
        · exact ⟨c :: ps, List.cons_prefix_cons.mpr ⟨rfl, hps⟩, by simp, by simp⟩
      · rintro ⟨ps, hps, hne, rfl⟩
        obtain ⟨d, ps, rfl⟩ := List.exists_cons_of_ne_nil hne
        obtain ⟨rfl, hps'⟩ := List.cons_prefix_cons.mp hps
        by_cases hnil : ps = []
        · exact Or.inl (by rw [hnil])
        · exact Or.inr ⟨ps, hps', hnil, by simp⟩

/-! ## Path strings -/

/-- The pieces of a path between its slashes; never none. -/
def split (p : List UInt8) : List Name := p.splitOn slash

theorem split_ne_nil (p : List UInt8) : split p ≠ [] := List.splitOn_ne_nil slash p

theorem split_append_slash (p q : List UInt8) : split (p ++ slash :: q) = split p ++ split q :=
  List.splitOn_append_cons_self p q

def toPath (cs : List Name) : List UInt8 := [slash].intercalate cs

theorem split_toPath {cs : List Name} (hne : cs ≠ []) (h : ∀ c ∈ cs, slash ∉ c) :
    split (toPath cs) = cs :=
  List.splitOn_intercalate slash h hne

def isAbsolute (p : List UInt8) : Bool := p.head? == some slash

/-- The directory a path is read from. -/
def start (p : List UInt8) : Loc := if isAbsolute p then ⟨.root, []⟩ else ⟨.above 0, []⟩

/-- The names of `parent_path`. -/
def dirs (p : List UInt8) : List Name := (split p).dropLast

/-- `filename`, empty after a trailing slash. -/
def filename (p : List UInt8) : Name := (split p).getLast (split_ne_nil p)

theorem dirs_append_filename (p : List UInt8) : dirs p ++ [filename p] = split p :=
  List.dropLast_append_getLast (split_ne_nil p)

/-- The names of a path that something is appended to. -/
def dirNames (p : List UInt8) : List Name :=
  if p.getLast? = some slash then dirs p else split p

/-- Where the path leads, its lexically normal form. -/
def locate (p : List UInt8) : Loc := (start p).walk (split p)

/-- The places above the end of the path, in the order of the path. -/
def parents (p : List UInt8) : List Loc := (start p).places (dirs p)

theorem locate_eq (p : List UInt8) : ((start p).walk (dirs p)).enter (filename p) = locate p := by
  rw [locate, ← dirs_append_filename p, Loc.walk_append]
  rfl

/-- `operator/`: an absolute right operand is taken as it is, otherwise a slash
is put between the two unless there is one already. -/
def join (p q : List UInt8) : List UInt8 :=
  if isAbsolute q then q
  else if p = [] ∨ p.getLast? = some slash then p ++ q
  else p ++ slash :: q

theorem filename_of_getLast {p : List UInt8} (h : p.getLast? = some slash) :
    split p = dirs p ++ [[]] := by
  obtain ⟨p', rfl⟩ := List.getLast?_eq_some_iff.mp h
  have hsplit : split (p' ++ [slash]) = split p' ++ [[]] := split_append_slash p' []
  rw [dirs, hsplit, List.dropLast_concat]

theorem walk_dirNames (p : List UInt8) : (start p).walk (dirNames p) = locate p := by
  rw [dirNames, locate]
  split
  · rename_i h
    rw [filename_of_getLast h, Loc.walk_append, Loc.walk_cons, Loc.enter_nil, Loc.walk_nil]
  · rfl

theorem dirNames_prefix (p : List UInt8) : dirNames p <+: split p := by
  rw [dirNames]
  split
  · exact List.dropLast_prefix _
  · exact List.prefix_rfl

theorem split_join {p q : List UInt8} (hq : isAbsolute q = false) (hp : p ≠ []) :
    split (join p q) = dirNames p ++ split q := by
  rw [join, hq, dirNames]
  by_cases hlast : p.getLast? = some slash
  · obtain ⟨p', rfl⟩ := List.getLast?_eq_some_iff.mp hlast
    have hdirs : dirs (p' ++ [slash]) = split p' := by
      rw [dirs, split_append_slash, show split [] = [[]] from rfl, List.dropLast_concat]
    simp [hdirs, split_append_slash]
  · simp [hlast, hp, split_append_slash]

theorem start_join {p q : List UInt8} (hq : isAbsolute q = false) (hp : p ≠ []) :
    start (join p q) = start p := by
  obtain ⟨c, p, rfl⟩ := List.exists_cons_of_ne_nil hp
  rw [join, hq]
  simp only [Bool.false_eq_true, if_false]
  split
  · rfl
  · rfl

theorem dirs_join {p q : List UInt8} (hq : isAbsolute q = false) (hp : p ≠ []) :
    dirs (join p q) = dirNames p ++ dirs q ∧ filename (join p q) = filename q := by
  have hsplit := split_join hq hp
  rw [← dirs_append_filename (join p q), ← dirs_append_filename q, ← List.append_assoc] at hsplit
  exact List.append_inj' hsplit rfl |>.imp id fun h => List.singleton_inj.mp h

theorem dirs_join_ne_nil {p : List UInt8} (hp : p ≠ []) (q : List UInt8) :
    dirs (join p q) ≠ [] := by
  cases hq : isAbsolute q with
  | true =>
      obtain ⟨q, rfl⟩ : ∃ q', q = slash :: q' := by
        rw [isAbsolute, beq_iff_eq] at hq
        exact List.head?_eq_some_iff.mp hq
      rw [join, hq, if_pos rfl, dirs, ← List.nil_append (slash :: q), split_append_slash]
      rw [List.dropLast_append_of_ne_nil (split_ne_nil q)]
      simp [split]
  | false =>
      rw [(dirs_join hq hp).1, dirNames]
      split
      · rename_i hlast
        obtain ⟨p', rfl⟩ := List.getLast?_eq_some_iff.mp hlast
        rw [dirs, split_append_slash, show split [] = [[]] from rfl, List.dropLast_concat]
        simp [split_ne_nil]
      · simp [split_ne_nil]

theorem join_ne_nil {p : List UInt8} (hp : p ≠ []) (q : List UInt8) : join p q ≠ [] := by
  intro hnil
  exact dirs_join_ne_nil hp q (by rw [hnil]; rfl)

theorem join_append {q : List UInt8} (hq : q ≠ []) (p r : List UInt8) :
    join p (q ++ r) = join p q ++ r := by
  obtain ⟨b, q, rfl⟩ := List.exists_cons_of_ne_nil hq
  rw [join, join, show isAbsolute (b :: q ++ r) = isAbsolute (b :: q) from rfl]
  by_cases habs : isAbsolute (b :: q) = true
  · rw [if_pos habs, if_pos habs]
  · rw [if_neg habs, if_neg habs]
    by_cases hp : p = [] ∨ p.getLast? = some slash
    · rw [if_pos hp, if_pos hp, List.append_assoc]
    · rw [if_neg hp, if_neg hp, List.append_assoc]
      rfl

theorem locate_append_slash {p : List UInt8} (hp : p ≠ []) (q : List UInt8) :
    locate (p ++ slash :: q) = (locate p).walk (split q) := by
  obtain ⟨b, p, rfl⟩ := List.exists_cons_of_ne_nil hp
  rw [locate, locate, split_append_slash, Loc.walk_append]
  rfl

theorem locate_join {p q : List UInt8} (hq : isAbsolute q = false) (hp : p ≠ []) :
    locate (join p q) = (locate p).walk (split q) := by
  rw [locate, start_join hq hp, split_join hq hp, Loc.walk_append, walk_dirNames]

theorem parents_join {p q : List UInt8} (hq : isAbsolute q = false) (hp : p ≠ []) :
    parents (join p q) = (start p).places (dirNames p) ++ (locate p).places (dirs q) := by
  rw [parents, start_join hq hp, (dirs_join hq hp).1, Loc.places_append, walk_dirNames]

/-- The place from which `q` is read in `join p q`. -/
def readFrom (p q : List UInt8) : Loc := if isAbsolute q then ⟨.root, []⟩ else locate p

theorem locate_join_eq {p : List UInt8} (hp : p ≠ []) (q : List UInt8) :
    locate (join p q) = (readFrom p q).walk (split q) := by
  cases hq : isAbsolute q with
  | true => rw [join, readFrom, if_pos hq, if_pos hq, locate, start, if_pos hq]
  | false => rw [locate_join hq hp, readFrom, hq, if_neg Bool.false_ne_true]

theorem mem_parents_join {p : List UInt8} (hp : p ≠ []) {q : List UInt8} {l : Loc}
    (h : l ∈ parents (join p q)) :
    l ∈ (start p).places (split p) ∨ l ∈ (readFrom p q).places (dirs q) := by
  cases hq : isAbsolute q with
  | true =>
      rw [parents, join, if_pos hq, start, if_pos hq] at h
      rw [readFrom, if_pos hq]
      exact Or.inr h
  | false =>
      rw [parents_join hq hp, List.mem_append] at h
      rw [readFrom, hq, if_neg Bool.false_ne_true]
      obtain ⟨rest, hrest⟩ := dirNames_prefix p
      refine h.imp_left ?_
      intro hl
      rw [← hrest, Loc.places_append]
      exact List.mem_append_left _ hl

theorem mem_parents_join_of_mem {p : List UInt8} (hp : p ≠ []) {q : List UInt8} {l : Loc}
    (h : l ∈ (readFrom p q).places (dirs q)) : l ∈ parents (join p q) := by
  cases hq : isAbsolute q with
  | true =>
      rw [readFrom, if_pos hq] at h
      rw [parents, join, if_pos hq, start, if_pos hq]
      exact h
  | false =>
      rw [readFrom, hq, if_neg Bool.false_ne_true] at h
      rw [parents_join hq hp]
      exact List.mem_append_right _ h

/-! ## Normal paths -/

/-- A relative path in lexically normal form that ends in a name. -/
def Normal (p : List UInt8) : Prop := ∀ c ∈ split p, Proper c

instance (p : List UInt8) : Decidable (Normal p) := inferInstanceAs (Decidable (∀ c ∈ _, _))

theorem Normal.isAbsolute {p : List UInt8} (h : Normal p) : isAbsolute p = false := by
  cases hp : LexPath.isAbsolute p with
  | false => rfl
  | true =>
      rw [LexPath.isAbsolute, beq_iff_eq] at hp
      obtain ⟨p, rfl⟩ := List.head?_eq_some_iff.mp hp
      have hsplit : split (slash :: p) = [] :: split p := split_append_slash [] p
      exact absurd rfl (h [] (hsplit ▸ List.mem_cons_self ..)).1

theorem Normal.proper_dirs {p : List UInt8} (h : Normal p) : ∀ c ∈ dirs p, Proper c :=
  fun c hc => h c (List.mem_of_mem_dropLast hc)

theorem Normal.locate_join {p q : List UInt8} (hq : Normal q) (hp : p ≠ []) :
    locate (join p q) = ⟨(locate p).base, (locate p).names ++ split q⟩ := by
  rw [LexPath.locate_join hq.isAbsolute hp, Loc.walk_proper _ hq]

/-- A normal path lies below one of the places above another one if it is a
proper prefix of that. -/
theorem Normal.mem_places {q r : List UInt8} (hq : Normal q) {l : Loc} :
    ⟨l.base, l.names ++ split r⟩ ∈ l.places (dirs q) ↔ split r <+: dirs q := by
  rw [Loc.mem_places_proper l hq.proper_dirs]
  constructor
  · rintro ⟨ps, hps, -, heq⟩
    have hnames : l.names ++ split r = l.names ++ ps := congrArg Loc.names heq
    rwa [List.append_cancel_left hnames]
  · intro hr
    exact ⟨split r, hr, split_ne_nil r, rfl⟩

theorem not_split_prefix_dirs (p : List UInt8) : ¬ split p <+: dirs p := by
  intro h
  have hle := h.length_le
  rw [← dirs_append_filename p, List.length_append, List.length_singleton] at hle
  omega

end LexPath
