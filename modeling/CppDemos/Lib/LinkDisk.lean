import Mathlib.Data.List.AList
import CppDemos.Lib.LexPath

/-!
# Directories with symbolic links

A disk says what lies at each place below the root: a directory, a file, or a
symbolic link with the path it stands for. Looking a path up (`resolve`) goes
from place to place and follows links, as many as the system allows;
`entries` lists what lies below a directory without following any.

`resolve_entry` compares the two: the path of an entry leads to the entry
itself just if that is not a link. `lexicallyRelative_eq_iff` does the same for
names: a place is called by its own path relative to a directory just if it
lies there.
-/

namespace LinkDisk

open LexPath

inductive Node (φ : Type*) where
  | dir
  | file (content : φ)
  | link (target : List UInt8)
deriving DecidableEq, Repr

/-- What lies below the root. Everything lies in a directory, under a name
that a path can have. -/
structure Disk (φ : Type*) where
  nodes : AList fun _ : List Name => Node φ
  parent : ∀ p ∈ nodes.keys, p.dropLast = [] ∨ nodes.lookup p.dropLast = some .dir
  names : ∀ p ∈ nodes.keys, p ≠ [] ∧ ∀ c ∈ p, Proper c ∧ slash ∉ c

variable {φ : Type*}

namespace Disk

def node (disk : Disk φ) (p : List Name) : Option (Node φ) :=
  if p = [] then some .dir else disk.nodes.lookup p

/-- Everything below `d`, by its path from there, each once and in the order in
which the disk has it. -/
def entries (disk : Disk φ) (d : List Name) : List (List Name) :=
  disk.nodes.keys.filterMap fun p => if d <+: p ∧ p ≠ d then some (p.drop d.length) else none

end Disk

/-! ## Looking up a path -/

/-- Where a path leads, if anywhere; `loops` after too many links. -/
inductive Resolved where
  | at (p : List Name)
  | missing
  | loops
deriving DecidableEq, Repr

namespace Disk

/-- Read names from the place `cur`; `follow` does the same for what a link
stands for. -/
def resolveWith (disk : Disk φ) (follow : List Name → List Name → Resolved) :
    List Name → List Name → Resolved
  | cur, [] => .at cur
  | cur, c :: cs =>
      if c = [] ∨ c = [dot] then disk.resolveWith follow cur cs
      else if c = [dot, dot] then disk.resolveWith follow cur.dropLast cs
      else
        match disk.node (cur ++ [c]) with
        | none => .missing
        | some .dir => disk.resolveWith follow (cur ++ [c]) cs
        | some (.file _) => if cs = [] then .at (cur ++ [c]) else .missing
        | some (.link target) =>
            follow (if isAbsolute target then [] else cur) (split target ++ cs)

/-- Follow no more than so many links. -/
def resolve (disk : Disk φ) : Nat → List Name → List Name → Resolved
  | 0 => disk.resolveWith fun _ _ => .loops
  | n + 1 => disk.resolveWith (disk.resolve n)

/-! ## The shape of a disk -/

variable {disk : Disk φ}

@[simp] theorem node_nil : disk.node [] = some .dir := rfl

theorem mem_keys {p : List Name} {n : Node φ} (hp : p ≠ []) (h : disk.node p = some n) :
    p ∈ disk.nodes.keys := by
  rw [node, if_neg hp] at h
  exact AList.mem_keys.mp (AList.lookup_isSome.mp (by rw [h]; rfl))

theorem node_of_append {p q : List Name} {n : Node φ} (hq : q ≠ [])
    (h : disk.node (p ++ q) = some n) : disk.node p = some .dir := by
  induction q using List.reverseRecOn generalizing n with
  | nil => exact absurd rfl hq
  | append_singleton q c ih =>
      have hne : p ++ (q ++ [c]) ≠ [] := by simp
      have hup : disk.node (p ++ q) = some .dir := by
        have hparent := disk.parent _ (mem_keys hne h)
        rw [← List.append_assoc, List.dropLast_concat] at hparent
        rw [node]
        split
        · rfl
        · rename_i hnil
          exact hparent.resolve_left hnil
      cases q with
      | nil => rwa [List.append_nil] at hup
      | cons d q => exact ih (by simp) hup

theorem proper_of_node {p q : List Name} {n : Node φ} (h : disk.node (p ++ q) = some n) :
    ∀ c ∈ q, Proper c ∧ slash ∉ c := by
  intro c hc
  have hne : p ++ q ≠ [] := by
    intro hnil
    rw [(List.append_eq_nil_iff.mp hnil).2] at hc
    cases hc
  exact (disk.names _ (mem_keys hne h)).2 c (List.mem_append_right _ hc)

theorem mem_entries {d e : List Name} :
    e ∈ disk.entries d ↔ e ≠ [] ∧ ∃ n, disk.node (d ++ e) = some n := by
  rw [entries, List.mem_filterMap]
  constructor
  · rintro ⟨p, hp, he⟩
    split at he
    · rename_i hbelow
      obtain ⟨⟨q, rfl⟩, hne⟩ := hbelow
      obtain rfl : q = e := by simpa using he
      have hq : q ≠ [] := by
        rintro rfl
        simp at hne
      refine ⟨hq, Option.isSome_iff_exists.mp ?_⟩
      rw [node, if_neg (by simp [hq])]
      exact AList.lookup_isSome.mpr (AList.mem_keys.mpr hp)
    · cases he
  · rintro ⟨hne, n, hn⟩
    refine ⟨d ++ e, mem_keys (by simp [hne]) hn, ?_⟩
    rw [if_pos ⟨List.prefix_append d e, by simp [hne]⟩, List.drop_left]

theorem entries_nodup (disk : Disk φ) (d : List Name) : (disk.entries d).Nodup := by
  refine disk.nodes.keys_nodup.filterMap ?_
  intro p q e hp hq
  rw [Option.mem_def] at hp hq
  split at hp
  · rename_i hdp
    obtain ⟨⟨p, rfl⟩, -⟩ := hdp
    split at hq
    · rename_i hdq
      obtain ⟨⟨q, rfl⟩, -⟩ := hdq
      rw [List.drop_left, Option.some.injEq] at hp hq
      rw [hp, hq]
    · cases hq
  · cases hp

/-! ## Where paths lead -/

theorem node_dropLast {p : List Name} (h : disk.node p = some .dir) :
    disk.node p.dropLast = some .dir := by
  rcases List.eq_nil_or_concat p with rfl | ⟨q, c, rfl⟩
  · rfl
  · rw [List.concat_eq_append] at h ⊢
    rw [List.dropLast_concat]
    exact node_of_append (by simp) h

/-- Never to a link. -/
def Target (disk : Disk φ) (r : Resolved) : Prop :=
  ∀ p, r = .at p → disk.node p = some .dir ∨ ∃ f, disk.node p = some (.file f)

theorem target_resolveWith {follow : List Name → List Name → Resolved}
    (hfollow : ∀ cur cs, disk.node cur = some .dir → disk.Target (follow cur cs))
    {cur : List Name} (hcur : disk.node cur = some .dir) (cs : List Name) :
    disk.Target (disk.resolveWith follow cur cs) := by
  induction cs generalizing cur with
  | nil =>
      intro p hp
      injection hp with hp
      exact Or.inl (hp ▸ hcur)
  | cons c cs ih =>
      rw [resolveWith]
      split
      · exact ih hcur
      · split
        · exact ih (node_dropLast hcur)
        · cases hnode : disk.node (cur ++ [c]) with
          | none => exact fun p hp => (nomatch hp)
          | some n =>
              cases n with
              | dir => exact ih hnode
              | file f =>
                  intro p hp
                  simp only at hp
                  split at hp
                  · injection hp with hp
                    exact Or.inr ⟨f, hp ▸ hnode⟩
                  · cases hp
              | link target =>
                  refine hfollow _ _ ?_
                  split
                  · rfl
                  · exact hcur

theorem target_resolve (n : Nat) {cur : List Name} (hcur : disk.node cur = some .dir)
    (cs : List Name) : disk.Target (disk.resolve n cur cs) := by
  induction n generalizing cur cs with
  | zero =>
      refine target_resolveWith (?_) hcur cs
      intro cur cs hcur p hp
      cases hp
  | succ n ih => exact target_resolveWith (fun cur cs hcur => ih hcur cs) hcur cs

/-- A path that leads to a directory can be read on from there. -/
theorem resolveWith_append {follow : List Name → List Name → Resolved} {n : Nat}
    (hself : disk.resolveWith follow = disk.resolve n)
    (hfollow : ∀ cur cs p, follow cur cs = .at p → disk.node p = some .dir →
      ∃ m, ∀ ds, follow cur (cs ++ ds) = disk.resolve m p ds)
    {cur cs p : List Name} (h : disk.resolveWith follow cur cs = .at p)
    (hp : disk.node p = some .dir) :
    ∃ m, ∀ ds, disk.resolveWith follow cur (cs ++ ds) = disk.resolve m p ds := by
  induction cs generalizing cur with
  | nil =>
      injection h with h
      exact ⟨n, fun ds => by rw [List.nil_append, hself, h]⟩
  | cons c cs ih =>
      simp only [List.cons_append]
      rw [resolveWith] at h
      simp only [resolveWith]
      split at h
      · rename_i hstay
        simpa only [if_pos hstay] using ih h
      · rename_i hgo
        simp only [if_neg hgo]
        split at h
        · rename_i hup
          simpa only [if_pos hup] using ih h
        · rename_i hdown
          simp only [if_neg hdown]
          cases hnode : disk.node (cur ++ [c]) with
          | none =>
              rw [hnode] at h
              cases h
          | some node =>
              rw [hnode] at h
              cases node with
              | dir => exact ih h
              | file f =>
                  simp only at h
                  split at h
                  · injection h with h
                    rw [h, hp] at hnode
                    cases hnode
                  · cases h
              | link target =>
                  simp only [← List.append_assoc]
                  exact hfollow _ _ p h hp

theorem resolve_append {n : Nat} {cur cs p : List Name} (h : disk.resolve n cur cs = .at p)
    (hp : disk.node p = some .dir) :
    ∃ m, ∀ ds, disk.resolve n cur (cs ++ ds) = disk.resolve m p ds := by
  induction n generalizing cur cs p with
  | zero => exact resolveWith_append (n := 0) rfl (fun _ _ _ h => (nomatch h)) h hp
  | succ n ih => exact resolveWith_append (n := n + 1) rfl (fun _ _ _ h hp => ih h hp) h hp

theorem resolve_cons {n : Nat} {cur cs : List Name} {c : Name} (hc : Proper c) :
    disk.resolve n cur (c :: cs) =
      match disk.node (cur ++ [c]) with
      | none => .missing
      | some .dir => disk.resolve n (cur ++ [c]) cs
      | some (.file _) => if cs = [] then .at (cur ++ [c]) else .missing
      | some (.link target) =>
          match n with
          | 0 => .loops
          | n + 1 =>
              disk.resolve n (if isAbsolute target then [] else cur) (split target ++ cs) := by
  obtain ⟨hnil, hdot, hdots⟩ := hc
  cases n with
  | zero => rw [resolve, resolveWith, if_neg (by simp [hnil, hdot]), if_neg hdots]
  | succ n => rw [resolve, resolveWith, if_neg (by simp [hnil, hdot]), if_neg hdots]

theorem resolve_dirs {n : Nat} {d ps : List Name} (h : disk.node (d ++ ps) = some .dir)
    (cs : List Name) : disk.resolve n d (ps ++ cs) = disk.resolve n (d ++ ps) cs := by
  induction ps generalizing d with
  | nil => rw [List.append_nil, List.nil_append]
  | cons c ps ih =>
      have hsame : d ++ c :: ps = (d ++ [c]) ++ ps := by simp
      have hc := proper_of_node h c (List.mem_cons_self ..)
      rw [hsame] at h ⊢
      have hnext : disk.node (d ++ [c]) = some .dir := by
        cases ps with
        | nil => rwa [List.append_nil] at h
        | cons b ps => exact node_of_append (by simp) h
      rw [List.cons_append, resolve_cons hc.1, hnext]
      exact ih h

/-- An entry of a directory, looked up from there: it is found where it lies
unless it is a link, and then it is not. -/
theorem resolve_entry {d e : List Name} (n : Nat) (he : e ∈ disk.entries d) :
    (∀ t, disk.node (d ++ e) ≠ some (.link t)) ∧ disk.resolve n d e = .at (d ++ e) ∨
      (∃ t, disk.node (d ++ e) = some (.link t)) ∧ disk.resolve n d e ≠ .at (d ++ e) := by
  obtain ⟨hne, node, hnode⟩ := mem_entries.mp he
  obtain ⟨ps, c, rfl⟩ := (List.eq_nil_or_concat e).resolve_left hne
  rw [List.concat_eq_append] at hnode ⊢
  have hsame : d ++ (ps ++ [c]) = (d ++ ps) ++ [c] := by simp
  have hc := (proper_of_node hnode c (by simp)).1
  have hdir : disk.node (d ++ ps) = some .dir := by
    rw [hsame] at hnode
    exact node_of_append (by simp) hnode
  cases node with
  | link t =>
      refine Or.inr ⟨⟨t, hnode⟩, ?_⟩
      intro hat
      -- what a path leads to is not a link
      have hd : disk.node d = some .dir := by
        cases ps with
        | nil => rwa [List.append_nil] at hdir
        | cons b ps => exact node_of_append (by simp) hdir
      rcases target_resolve n hd (ps ++ [c]) _ hat with hdir | ⟨f, hfile⟩
      · rw [hnode] at hdir
        cases hdir
      · rw [hnode] at hfile
        cases hfile
  | dir =>
      refine Or.inl ⟨fun t ht => (by rw [hnode] at ht; cases ht), ?_⟩
      rw [resolve_dirs hdir, resolve_cons hc, ← hsame, hnode]
      cases n <;> rfl
  | file f =>
      refine Or.inl ⟨fun t ht => (by rw [hnode] at ht; cases ht), ?_⟩
      rw [resolve_dirs hdir, resolve_cons hc, ← hsame, hnode]
      rfl

end Disk

/-! ## Names relative to a directory -/

/-- `lexically_relative` for two absolute paths in normal form. -/
def lexicallyRelative : List Name → List Name → List Name
  | [], [] => [[dot]]
  | c :: p, [] => c :: p
  | [], _ :: base => List.replicate (base.length + 1) [dot, dot]
  | c :: p, b :: base =>
      if c = b then lexicallyRelative p base
      else List.replicate (base.length + 1) [dot, dot] ++ c :: p

theorem mem_lexicallyRelative {p base : List Name} {c : Name} (h : c ∈ lexicallyRelative p base) :
    c ∈ p ∨ c = [dot] ∨ c = [dot, dot] := by
  induction base generalizing p with
  | nil =>
      cases p with
      | nil => exact Or.inr (Or.inl (List.mem_singleton.mp h))
      | cons d p => exact Or.inl h
  | cons b base ih =>
      cases p with
      | nil => exact Or.inr (Or.inr (List.eq_of_mem_replicate h))
      | cons d p =>
          rw [lexicallyRelative] at h
          split at h
          · exact (ih h).imp_left (List.mem_cons_of_mem d)
          · rcases List.mem_append.mp h with hups | hmem
            · exact Or.inr (Or.inr (List.eq_of_mem_replicate hups))
            · exact Or.inl hmem

theorem lexicallyRelative_ne_nil (p base : List Name) : lexicallyRelative p base ≠ [] := by
  induction base generalizing p with
  | nil => cases p <;> simp [lexicallyRelative]
  | cons b base ih =>
      cases p with
      | nil => simp [lexicallyRelative]
      | cons d p =>
          rw [lexicallyRelative]
          split
          · exact ih p
          · simp

theorem lexicallyRelative_eq_iff {p base rel : List Name} (hne : rel ≠ [])
    (hrel : ∀ c ∈ rel, Proper c) : lexicallyRelative p base = rel ↔ p = base ++ rel := by
  have hhead (n : Nat) (cs : List Name) : List.replicate (n + 1) [dot, dot] ++ cs ≠ rel := by
    rintro rfl
    exact (hrel [dot, dot] (by simp [List.replicate_succ])).2.2 rfl
  induction base generalizing p with
  | nil =>
      cases p with
      | nil =>
          rw [lexicallyRelative, List.nil_append]
          constructor
          · rintro rfl
            exact absurd rfl (hrel [dot] (by simp)).2.1
          · exact fun h => absurd h.symm hne
      | cons c p => rw [lexicallyRelative, List.nil_append]
  | cons b base ih =>
      cases p with
      | nil =>
          rw [lexicallyRelative]
          have hups := hhead base.length []
          rw [List.append_nil] at hups
          exact ⟨fun h => absurd h hups, fun h => (nomatch h)⟩
      | cons c p =>
          rw [lexicallyRelative, List.cons_append, List.cons.injEq]
          split
          · rename_i hcb
            exact ih.trans ⟨fun h => ⟨hcb, h⟩, fun h => h.2⟩
          · rename_i hcb
            exact ⟨fun h => absurd h (hhead base.length _), fun h => absurd h.1 hcb⟩

end LinkDisk
