import CppDemos.Lib.LinkDisk
import CppDemos.Transfer.Send
import CppDemos.Wrapper.Deliver

/-!
# KCPWrapper::sendFile and KCPWrapper::sendDirectory

Of `std::filesystem` three things matter here. The recursive iterator visits
what lies below the directory, each entry once, and enters no links;
`is_regular_file` follows links; and `relative` follows them too, in both its
arguments, before it compares them. So an entry that is a link to a file is
sent, under the name of what it stands for. `names_own_iff`: every file is sent
under the entry's own path just if no such link is reached.

The loop ends at the first file that cannot be sent and, by an exception, at
the first link that leads nowhere for going in circles.
-/

namespace CppDemos

open LexPath LinkDisk

/-! ## Definitions -/

/-- Where the sender runs. `maxLinks` is how many links the system follows in
one path. -/
structure Host where
  disk : Disk RegularFile
  cwd : List Name
  cwd_dir : disk.node cwd = some .dir
  maxLinks : Nat

namespace Host

/-- The directory a path is read from. -/
def origin (host : Host) (path : Bytes) : List Name := if isAbsolute path then [] else host.cwd

/-- Where a path leads; the empty one, nowhere. -/
def lookup (host : Host) (path : Bytes) : Resolved :=
  if path = [] then .missing
  else host.disk.resolve host.maxLinks (host.origin path) (split path)

/-- `entry.path()`: the path the iterator was given with the entry's own behind
it. -/
def lookupEntry (host : Host) (dirpath : Bytes) (e : List Name) : Resolved :=
  host.disk.resolve host.maxLinks (host.origin dirpath) (split dirpath ++ e)

/-- The regular file there, if there is one. -/
def fileAt (host : Host) : Resolved → Option RegularFile
  | .at p =>
      match host.disk.node p with
      | some (.file file) => some file
      | _ => none
  | _ => none

/-- The place, if there is a directory. -/
def directoryAt (host : Host) : Resolved → Option (List Name)
  | .at p => if host.disk.node p = some .dir then some p else none
  | _ => none

end Host

/-- `sendFile`; `none` if a read goes on for ever. -/
def sendFile (host : Host) (pad : CharArray 3) (s : Sender) (filepath : Bytes) :
    Option (Sender × ErrorCode) :=
  match host.fileAt (host.lookup filepath) with
  | none => sendFileInternal 0 pad s none (filename filepath)
  | some file => sendFileInternal (turns file) pad s (some file) (filename filepath)

/-- A call of `sendDirectory`: the entries for which it called
`sendFileInternal`, with the names it passed, and the result, `none` if a read
goes on for ever. -/
structure DirectoryRun where
  sender : Sender
  passed : List (List Name × Bytes) := []
  result : Option ErrorCode

/-- The loop of `sendDirectory`, `dir` being where `dirpath` leads. What a
header has between its fields may differ from one file to the next. -/
def sendEntries (host : Host) (pad : List Name → CharArray 3) (dirpath : Bytes)
    (dir : List Name) : List (List Name) → Sender → DirectoryRun
  | [], s => { sender := s, result := some .success }
  | e :: es, s =>
      match host.lookupEntry dirpath e with
      -- `is_regular_file` throws
      | .loops => { sender := s, result := some .fileNotFound }
      | .missing => sendEntries host pad dirpath dir es s
      | .at p =>
          match host.disk.node p with
          | some (.file file) =>
              let relativePath := toPath (lexicallyRelative p dir)
              match sendFileInternal (turns file) (pad e) s (some file) relativePath with
              | none => { sender := s, passed := [(e, relativePath)], result := none }
              | some (s, .success) =>
                  let run := sendEntries host pad dirpath dir es s
                  { run with passed := (e, relativePath) :: run.passed }
              | some (s, result) =>
                  { sender := s, passed := [(e, relativePath)], result := some result }
          | _ => sendEntries host pad dirpath dir es s

def sendDirectory (host : Host) (pad : List Name → CharArray 3) (s : Sender) (dirpath : Bytes) :
    DirectoryRun :=
  match host.directoryAt (host.lookup dirpath) with
  | none => { sender := s, result := some .fileNotFound }
  | some dir => sendEntries host pad dirpath dir (host.disk.entries dir) s

/-! ## One entry -/

namespace Host

/-- The entry is not the last one looked at: it does not loop, and if it is a
file that can be sent. -/
def Passable (host : Host) (dirpath : Bytes) (e : List Name) : Prop :=
  host.lookupEntry dirpath e ≠ .loops ∧
    ∀ file ∈ host.fileAt (host.lookupEntry dirpath e), ¬ file.Broken

instance (host : Host) (dirpath : Bytes) (e : List Name) : Decidable (host.Passable dirpath e) :=
  inferInstanceAs (Decidable (_ ∧ _))

def reached (host : Host) (dirpath : Bytes) : List (List Name) → List (List Name)
  | [] => []
  | e :: es => e :: if host.Passable dirpath e then host.reached dirpath es else []

/-- The name a file is sent under that is found there. -/
def nameOf (dir : List Name) : Resolved → Bytes
  | .at p => toPath (lexicallyRelative p dir)
  | _ => []

end Host

variable {host : Host} {conv : UInt32} {s : Sender}

theorem sendEntries_loops (pad : List Name → CharArray 3) {dirpath : Bytes} (dir : List Name)
    {e : List Name} (es : List (List Name)) (h : host.lookupEntry dirpath e = .loops) :
    sendEntries host pad dirpath dir (e :: es) s
      = { sender := s, result := some .fileNotFound } := by
  rw [sendEntries, h]

theorem sendEntries_skip (pad : List Name → CharArray 3) {dirpath : Bytes} (dir : List Name)
    {e : List Name} (es : List (List Name)) (h : host.lookupEntry dirpath e ≠ .loops)
    (hfile : host.fileAt (host.lookupEntry dirpath e) = none) :
    sendEntries host pad dirpath dir (e :: es) s = sendEntries host pad dirpath dir es s := by
  rw [sendEntries]
  cases hres : host.lookupEntry dirpath e with
  | loops => exact absurd hres h
  | missing => rfl
  | «at» p =>
      rw [hres, Host.fileAt] at hfile
      cases hnode : host.disk.node p with
      | none => simp only [hnode]
      | some node =>
          rw [hnode] at hfile
          cases node with
          | dir => simp only [hnode]
          | link t => simp only [hnode]
          | file file => cases hfile

theorem sendEntries_file (pad : List Name → CharArray 3) {dirpath : Bytes} (dir : List Name)
    {e : List Name} (es : List (List Name)) {file : RegularFile}
    (hfile : host.fileAt (host.lookupEntry dirpath e) = some file) :
    sendEntries host pad dirpath dir (e :: es) s =
      match sendFileInternal (turns file) (pad e) s (some file)
        (Host.nameOf dir (host.lookupEntry dirpath e)) with
      | none =>
          { sender := s
            passed := [(e, Host.nameOf dir (host.lookupEntry dirpath e))]
            result := none }
      | some (s, .success) =>
          { sendEntries host pad dirpath dir es s with
            passed := (e, Host.nameOf dir (host.lookupEntry dirpath e)) ::
              (sendEntries host pad dirpath dir es s).passed }
      | some (s, result) =>
          { sender := s
            passed := [(e, Host.nameOf dir (host.lookupEntry dirpath e))]
            result := some result } := by
  rw [sendEntries]
  cases hres : host.lookupEntry dirpath e with
  | loops =>
      rw [hres] at hfile
      cases hfile
  | missing =>
      rw [hres] at hfile
      cases hfile
  | «at» p =>
      rw [hres, Host.fileAt] at hfile
      cases hnode : host.disk.node p with
      | none =>
          rw [hnode] at hfile
          cases hfile
      | some node =>
          rw [hnode] at hfile
          cases node with
          | dir => cases hfile
          | link t => cases hfile
          | file file' =>
              obtain rfl := Option.some.inj hfile
              simp only [hnode, Host.nameOf]

theorem sendEntries_cons (hlive : ∃ kcp, s.wrapper.Live conv kcp) (pad : List Name → CharArray 3)
    (dirpath : Bytes) (dir e : List Name) (es : List (List Name)) :
    (¬ host.Passable dirpath e ∧
      (sendEntries host pad dirpath dir (e :: es) s).result ≠ some .success ∧
      (sendEntries host pad dirpath dir (e :: es) s).passed =
        if (host.fileAt (host.lookupEntry dirpath e)).isSome
        then [(e, Host.nameOf dir (host.lookupEntry dirpath e))] else []) ∨
    (host.Passable dirpath e ∧ host.fileAt (host.lookupEntry dirpath e) = none ∧
      sendEntries host pad dirpath dir (e :: es) s = sendEntries host pad dirpath dir es s) ∨
    (host.Passable dirpath e ∧ (host.fileAt (host.lookupEntry dirpath e)).isSome ∧
      ∃ s' messages, messages ≠ [] ∧ Accepts conv s s' messages ∧
        sendEntries host pad dirpath dir (e :: es) s =
          { sendEntries host pad dirpath dir es s' with
            passed := (e, Host.nameOf dir (host.lookupEntry dirpath e)) ::
              (sendEntries host pad dirpath dir es s').passed }) := by
  cases hfile : host.fileAt (host.lookupEntry dirpath e) with
  | none =>
      by_cases hloops : host.lookupEntry dirpath e = .loops
      · rw [sendEntries_loops pad dir es hloops]
        exact Or.inl ⟨fun h => h.1 hloops, by simp, rfl⟩
      · refine Or.inr (Or.inl ⟨⟨hloops, ?_⟩, rfl, sendEntries_skip pad dir es hloops hfile⟩)
        rw [hfile]
        exact fun file hmem => (nomatch hmem)
  | some file =>
      have hnot : host.lookupEntry dirpath e ≠ .loops := by
        intro hloops
        rw [hloops] at hfile
        cases hfile
      rw [sendEntries_file pad dir es hfile]
      rcases sendFileInternal_turns hlive (pad e) file
        (Host.nameOf dir (host.lookupEntry dirpath e)) with
        ⟨hbroken, hfails⟩ | ⟨hwhole, s', messages, heq, hchunked, hacc⟩
      · refine Or.inl ⟨fun h => h.2 file hfile hbroken, ?_⟩
        split
        · exact ⟨by simp, rfl⟩
        · rename_i s' heq
          exact absurd heq (hfails s')
        · rename_i s' code hcode heq
          exact ⟨fun hsucc => hcode (Option.some.inj hsucc), rfl⟩
      · refine Or.inr (Or.inr ⟨⟨hnot, ?_⟩, rfl, s', messages, ?_, hacc, by rw [heq]⟩)
        · rw [hfile]
          intro file' hmem
          obtain rfl := Option.mem_some_iff.mp hmem
          exact hwhole
        · rintro rfl
          have hlen := hchunked.length
          rw [List.length_nil] at hlen
          exact Nat.succ_ne_zero _ hlen.symm

/-! ## The whole directory -/

theorem sendEntries_passed (hlive : ∃ kcp, s.wrapper.Live conv kcp)
    (pad : List Name → CharArray 3) (dirpath : Bytes) (dir : List Name)
    (es : List (List Name)) :
    (sendEntries host pad dirpath dir es s).passed =
      ((host.reached dirpath es).filter fun e =>
        (host.fileAt (host.lookupEntry dirpath e)).isSome).map fun e =>
          (e, Host.nameOf dir (host.lookupEntry dirpath e)) := by
  induction es generalizing s with
  | nil => rfl
  | cons e es ih =>
      rw [Host.reached]
      rcases @sendEntries_cons host conv s hlive pad dirpath dir e es with
        ⟨hstop, -, hpassed⟩ | ⟨hpass, hnone, heq⟩ | ⟨hpass, hsome, s', messages, -, hacc, heq⟩
      · rw [hpassed, if_neg hstop, List.filter_cons]
        split <;> rfl
      · rw [heq, if_pos hpass, ih hlive, List.filter_cons, hnone]
        rfl
      · rw [heq, if_pos hpass, List.filter_cons, if_pos hsome, List.map_cons, ih hacc.live]

/-- A run that ends well has come to the end of the directory, and has sent
something if there was a file. -/
theorem sendEntries_success (hlive : ∃ kcp, s.wrapper.Live conv kcp)
    (pad : List Name → CharArray 3) (dirpath : Bytes) (dir : List Name)
    (es : List (List Name))
    (h : (sendEntries host pad dirpath dir es s).result = some .success) :
    ∃ messages, Accepts conv s (sendEntries host pad dirpath dir es s).sender messages ∧
      (messages = [] ↔ ∀ e ∈ es, host.fileAt (host.lookupEntry dirpath e) = none) := by
  induction es generalizing s with
  | nil =>
      refine ⟨[], ⟨hlive, ?_, ?_⟩, by simp⟩
      · simp [sendEntries]
      · simp [sendEntries]
  | cons e es ih =>
      rcases @sendEntries_cons host conv s hlive pad dirpath dir e es with
        ⟨-, hfails, -⟩ | ⟨-, hnone, heq⟩ | ⟨-, hsome, s', messages, hne, hacc, heq⟩
      · exact absurd h hfails
      · rw [heq] at h ⊢
        obtain ⟨messages, hacc, hiff⟩ := ih hlive h
        refine ⟨messages, hacc, hiff.trans ?_⟩
        simp [hnone]
      · rw [heq] at h ⊢
        obtain ⟨more, hacc', -⟩ := ih hacc.live h
        refine ⟨messages ++ more, hacc.trans hacc', ?_⟩
        constructor
        · intro hnil
          exact absurd (List.append_eq_nil_iff.mp hnil).1 hne
        · intro hnone
          rw [hnone e (List.mem_cons_self ..)] at hsome
          cases hsome

/-! ## Names -/

/-- The names passed: the entries' own paths, no two of them the same, and
none that leads out of the directory. -/
structure OwnNames (passed : List (List Name × Bytes)) : Prop where
  own : ∀ x ∈ passed, x.2 = toPath x.1
  distinct : passed.Pairwise fun x y => x.2 ≠ y.2
  inside : ∀ x ∈ passed, (split x.2).head? ≠ some [dot, dot]

theorem split_toPath_entry {d e : List Name} (he : e ∈ host.disk.entries d) :
    split (toPath e) = e := by
  obtain ⟨hne, n, hn⟩ := Disk.mem_entries.mp he
  exact split_toPath hne fun c hc => (Disk.proper_of_node hn c hc).2

/-- Paths of one's own are distinct and stay inside. -/
theorem ownNames_of_own {dir : List Name} {passed : List (List Name × Bytes)}
    (hsub : (passed.map (·.1)).Sublist (host.disk.entries dir))
    (h : ∀ x ∈ passed, x.2 = toPath x.1) : OwnNames passed := by
  have hentry : ∀ x ∈ passed, x.1 ∈ host.disk.entries dir :=
    fun x hx => hsub.subset (List.mem_map.mpr ⟨x, hx, rfl⟩)
  refine ⟨h, ?_, ?_⟩
  · have hnodup : (passed.map (·.1)).Nodup := (Disk.entries_nodup host.disk dir).sublist hsub
    refine (List.pairwise_map.mp hnodup).imp_of_mem fun {x y} hx hy hne heq => hne ?_
    rw [h x hx, h y hy] at heq
    rw [← split_toPath_entry (hentry x hx), heq, split_toPath_entry (hentry y hy)]
  · intro x hx
    rw [h x hx, split_toPath_entry (hentry x hx)]
    obtain ⟨-, n, hn⟩ := Disk.mem_entries.mp (hentry x hx)
    intro hhead
    obtain ⟨rest, hrest⟩ := List.head?_eq_some_iff.mp hhead
    exact (Disk.proper_of_node hn [dot, dot] (by rw [hrest]; simp)).1.2.2 rfl

theorem split_relative {p dir : List Name} {n : Node RegularFile} (h : host.disk.node p = some n) :
    split (toPath (lexicallyRelative p dir)) = lexicallyRelative p dir := by
  refine split_toPath (lexicallyRelative_ne_nil p dir) ?_
  intro c hc
  rcases mem_lexicallyRelative hc with hc | rfl | rfl
  · exact (Disk.proper_of_node (p := []) h c hc).2
  · decide
  · decide

theorem lookupEntry_eq {dirpath : Bytes} {dir : List Name}
    (hdir : host.directoryAt (host.lookup dirpath) = some dir) :
    ∃ m, ∀ e, host.lookupEntry dirpath e = host.disk.resolve m dir e := by
  cases hlookup : host.lookup dirpath with
  | missing =>
      rw [hlookup] at hdir
      cases hdir
  | loops =>
      rw [hlookup] at hdir
      cases hdir
  | «at» p =>
      rw [hlookup, Host.directoryAt] at hdir
      split at hdir
      · rename_i hp
        obtain rfl := Option.some.inj hdir
        rw [Host.lookup] at hlookup
        split at hlookup
        · cases hlookup
        · exact Disk.resolve_append hlookup hp
      · cases hdir

/-- A file is sent under its entry's own path just if the entry is no link. -/
theorem nameOf_eq_iff {dirpath : Bytes} {dir e : List Name}
    (hdir : host.directoryAt (host.lookup dirpath) = some dir)
    (he : e ∈ host.disk.entries dir)
    (hfile : (host.fileAt (host.lookupEntry dirpath e)).isSome) :
    Host.nameOf dir (host.lookupEntry dirpath e) = toPath e ↔
      ∀ t, host.disk.node (dir ++ e) ≠ some (.link t) := by
  obtain ⟨hne, n, hn⟩ := Disk.mem_entries.mp he
  have hproper : ∀ c ∈ e, Proper c := fun c hc => (Disk.proper_of_node hn c hc).1
  obtain ⟨m, hm⟩ := lookupEntry_eq hdir
  rcases Disk.resolve_entry m he with ⟨hnot, hat⟩ | ⟨⟨t, ht⟩, hat⟩
  · rw [hm, hat, Host.nameOf, (lexicallyRelative_eq_iff hne hproper).mpr rfl]
    exact ⟨fun _ => hnot, fun _ => rfl⟩
  · refine ⟨?_, fun hnot => absurd ht (hnot t)⟩
    intro hname
    rw [← hm] at hat
    cases hlookup : host.lookupEntry dirpath e with
    | missing =>
        rw [hlookup] at hfile
        cases hfile
    | loops =>
        rw [hlookup] at hfile
        cases hfile
    | «at» p =>
        rw [hlookup] at hfile hname hat
        obtain ⟨n, hp⟩ : ∃ n, host.disk.node p = some n := by
          cases hp : host.disk.node p with
          | none =>
              rw [Host.fileAt, hp] at hfile
              cases hfile
          | some n => exact ⟨n, rfl⟩
        have hsplit := congrArg split hname
        rw [Host.nameOf, split_relative hp, split_toPath_entry he,
          lexicallyRelative_eq_iff hne hproper] at hsplit
        exact absurd (congrArg Resolved.at hsplit) hat

theorem reached_sublist (host : Host) (dirpath : Bytes) (es : List (List Name)) :
    (host.reached dirpath es).Sublist es := by
  induction es with
  | nil => exact List.Sublist.slnil
  | cons e es ih =>
      rw [Host.reached]
      split
      · exact ih.cons_cons e
      · exact (List.nil_sublist es).cons_cons e

/-- `sendDirectory` passes every file's own path, and so distinct names inside
the directory, just if none of the entries it reaches is a link to a file. -/
theorem names_own_iff (hlive : ∃ kcp, s.wrapper.Live conv kcp) (pad : List Name → CharArray 3)
    (dirpath : Bytes) :
    OwnNames (sendDirectory host pad s dirpath).passed ↔
      ∀ dir, host.directoryAt (host.lookup dirpath) = some dir →
        ∀ e ∈ host.reached dirpath (host.disk.entries dir),
          (host.fileAt (host.lookupEntry dirpath e)).isSome →
          ∀ t, host.disk.node (dir ++ e) ≠ some (.link t) := by
  rw [sendDirectory]
  cases hdir : host.directoryAt (host.lookup dirpath) with
  | none =>
      constructor
      · intro _ dir hsome
        cases hsome
      · intro _
        exact ⟨fun x hx => (nomatch hx), List.Pairwise.nil, fun x hx => (nomatch hx)⟩
  | some dir =>
      have hsub := reached_sublist host dirpath (host.disk.entries dir)
      simp only
      rw [sendEntries_passed hlive]
      constructor
      · rintro ⟨hown, -, -⟩ dir' hdir' e he hfile
        obtain rfl := Option.some.inj hdir'
        refine (nameOf_eq_iff hdir (hsub.subset he) hfile).mp (hown (e, _) ?_)
        exact List.mem_map.mpr ⟨e, List.mem_filter.mpr ⟨he, hfile⟩, rfl⟩
      · intro hnot
        refine @ownNames_of_own host dir _ ?_ ?_
        · rw [List.map_map]
          refine List.Sublist.trans ?_ hsub
          exact (List.map_id _).symm ▸ List.filter_sublist
        · intro x hx
          obtain ⟨e, he, rfl⟩ := List.mem_map.mp hx
          obtain ⟨he, hfile⟩ := List.mem_filter.mp he
          exact (nameOf_eq_iff hdir (hsub.subset he) hfile).mpr (hnot dir rfl e he hfile)

/-- A directory `d` with a file `f` and a link `l` to it. -/
def linkedDisk : Disk RegularFile where
  nodes := ⟨[⟨[[100]], .dir⟩, ⟨[[100], [102]], .file { data := [1] }⟩,
    ⟨[[100], [108]], .link [102]⟩], List.nodupKeys_iff_pairwise.mpr (by decide)⟩
  parent := by decide
  names := by decide

def linkedHost : Host := ⟨linkedDisk, [], rfl, 40⟩

theorem names_own_iff_linked :
    OwnNames (sendDirectory linkedHost (fun _ => .zero 3) { wrapper := senderWrapper }
        [100]).passed ↔
      ∀ dir, linkedHost.directoryAt (linkedHost.lookup [100]) = some dir →
        ∀ e ∈ linkedHost.reached [100] (linkedHost.disk.entries dir),
          (linkedHost.fileAt (linkedHost.lookupEntry [100] e)).isSome →
          ∀ t, linkedHost.disk.node (dir ++ e) ≠ some (.link t) :=
  names_own_iff ⟨_, senderWrapper_live⟩ (fun _ => .zero 3) [100]

/-- The link is sent under the name of the file, which is sent too. -/
theorem linked_names_collide :
    ¬ ∀ (host : Host) (conv : UInt32) (kcp : Ikcpcb) (s : Sender) (pad : List Name → CharArray 3)
        (dirpath : Bytes),
      s.wrapper.Live conv kcp → OwnNames (sendDirectory host pad s dirpath).passed := by
  intro h
  have hown := (h linkedHost mainConv _ { wrapper := senderWrapper } (fun _ => .zero 3)
    [100] senderWrapper_live).distinct
  have hpassed : (sendDirectory linkedHost (fun _ => .zero 3)
      { wrapper := senderWrapper } [100]).passed = [([[102]], [102]), ([[108]], [102])] := by
    decide +kernel
  rw [hpassed] at hown
  revert hown
  decide

end CppDemos
