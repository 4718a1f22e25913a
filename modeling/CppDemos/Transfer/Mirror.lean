import CppDemos.Transfer.Directory
import CppDemos.Transfer.OverGroup

/-!
# A directory mirrored

What `sendDirectory` makes of a directory without links, at the other end of a
group. Each regular file below it is sent under its own path (`Plain.sent`), no
such path leads through another, and so the files of the directory are new files
in the sense of `NewFiles`: `directory_mirrored` says that a receiver has a prefix
of each of them at any time, nothing besides, and can always come to have them all.
Directories are made on the way only; one without a file in it is not sent.
-/

namespace CppDemos

open LexPath FileTree LinkDisk FileReceiver

variable {host : Host} {dir : List Name} {dirpath : Bytes} {conv : UInt32} {s : Sender}

/-! ## The files of a directory -/

def Host.regularAt (host : Host) (p : List Name) : Option RegularFile :=
  match host.disk.node p with
  | some (.file file) => some file
  | _ => none

/-- A regular file below a directory, by its path from there. -/
def FileEntry (host : Host) (dir : List Name) : Type :=
  { e : List Name // e ∈ host.disk.entries dir ∧ (host.regularAt (dir ++ e)).isSome }

instance : DecidableEq (FileEntry host dir) := inferInstanceAs (DecidableEq (Subtype _))

namespace FileEntry

variable (k l : FileEntry host dir)

def file : RegularFile := (host.regularAt (dir ++ k.1)).get k.2.2

def path : Bytes := toPath k.1

def data : Bytes := k.file.data

theorem regularAt : host.regularAt (dir ++ k.1) = some k.file := (Option.some_get k.2.2).symm

theorem node : host.disk.node (dir ++ k.1) = some (.file k.file) := by
  have hat := k.regularAt
  unfold Host.regularAt at hat
  split at hat
  · rename_i file hnode
    rw [hnode, Option.some.inj hat]
  · cases hat

theorem split_path : split k.path = k.1 := split_toPath_entry k.2.1

theorem normal : Normal k.path := by
  intro c hc
  rw [k.split_path] at hc
  exact (Disk.proper_of_node k.node c hc).1

theorem apart {k l : FileEntry host dir} (hne : k ≠ l) : ¬ split k.path <+: split l.path := by
  rw [k.split_path, l.split_path]
  rintro ⟨rest, hrest⟩
  have hl := l.node
  rw [← hrest, ← List.append_assoc] at hl
  by_cases hnil : rest = []
  · rw [hnil, List.append_nil] at hrest
    exact hne (Subtype.ext hrest)
  · have hdir := Disk.node_of_append hnil hl
    rw [k.node] at hdir
    cases hdir

end FileEntry

/-- There are no links, and each file can be read and has a path that the header
can carry. -/
structure Host.Plain (host : Host) (dir : List Name) : Prop where
  links : ∀ e ∈ host.disk.entries dir, ∀ t, host.disk.node (dir ++ e) ≠ some (.link t)
  whole : ∀ k : FileEntry host dir, ¬ k.file.Broken
  named : ∀ k : FileEntry host dir, k.path.length ≤ 255 ∧ 0 ∉ k.path

/-! ## What is sent -/

theorem Host.Plain.lookupEntry (h : host.Plain dir)
    (hdir : host.directoryAt (host.lookup dirpath) = some dir) {e : List Name}
    (he : e ∈ host.disk.entries dir) : host.lookupEntry dirpath e = .at (dir ++ e) := by
  obtain ⟨m, hm⟩ := lookupEntry_eq hdir
  rw [hm]
  rcases Disk.resolve_entry m he with ⟨-, hat⟩ | ⟨⟨t, ht⟩, -⟩
  · exact hat
  · exact absurd ht (h.links e he t)

theorem fileAt_at (p : List Name) : host.fileAt (.at p) = host.regularAt p := rfl

theorem Host.Plain.transferred (h : host.Plain dir) (hlive : ∃ kcp, s.wrapper.Live conv kcp)
    (pad : CharArray 3) (k : FileEntry host dir) :
    ∃ s' messages, sendFileInternal (turns k.file) pad s (some k.file) k.path
        = some (s', .success) ∧
      Transferred k.path k.data messages ∧ Accepts conv s s' messages := by
  have hfile : k.file = { data := k.data } := by
    have hwhole := h.whole k
    have hdata : k.file.data = k.data := rfl
    generalize k.file = file at *
    obtain ⟨data, opens, readError⟩ := file
    simp only [RegularFile.Broken, not_or, Bool.not_eq_false, Bool.not_eq_true] at hwhole
    obtain ⟨rfl, rfl⟩ := hwhole
    rw [← hdata]
  rcases sendFileInternal_turns hlive pad k.file k.path with
    ⟨hbroken, -⟩ | ⟨-, s', messages, heq, -, hacc⟩
  · exact absurd hbroken (h.whole k)
  · obtain ⟨kcp, hkcp⟩ := hlive
    refine ⟨s', messages, heq, ?_, hacc⟩
    exact ⟨turns k.file, pad, conv, kcp, s, s', .success, hkcp, hfile ▸ heq, hacc.calls⟩

/-- The loop over some of the entries: each file among them is sent, under its own
path. -/
theorem Host.Plain.sendEntries (h : host.Plain dir)
    (hdir : host.directoryAt (host.lookup dirpath) = some dir)
    (pad : List Name → CharArray 3) {es : List (List Name)}
    (hes : ∀ e ∈ es, e ∈ host.disk.entries dir)
    (hnodup : es.Nodup) (hlive : ∃ kcp, s.wrapper.Live conv kcp) :
    (sendEntries host pad dirpath dir es s).result = some .success ∧
    ∃ sent : List (FileEntry host dir × Bytes),
      Accepts conv s (sendEntries host pad dirpath dir es s).sender (sent.map Prod.snd) ∧
      (∀ t ∈ sent, t.1.1 ∈ es) ∧
      ∀ k : FileEntry host dir, k.1 ∈ es →
        Transferred k.path k.data ((sent.filter (·.1 = k)).map Prod.snd) := by
  induction es generalizing s with
  | nil =>
      refine ⟨rfl, [], ⟨hlive, ?_, ?_⟩, fun t ht => (nomatch ht), fun k hk => (nomatch hk)⟩
      · exact (List.append_nil _).symm
      · exact (List.append_nil _).symm
  | cons e es ih =>
      obtain ⟨he, hes⟩ := List.forall_mem_cons.mp hes
      obtain ⟨hnot, hnodup⟩ := List.nodup_cons.mp hnodup
      have hlookup := h.lookupEntry hdir he
      cases hfile : host.regularAt (dir ++ e) with
      | none =>
          rw [CppDemos.sendEntries_skip pad dir es (by simp [hlookup])
            (by rw [hlookup]; exact hfile)]
          obtain ⟨hresult, sent, hacc, hmem, hall⟩ := ih hes hnodup hlive
          refine ⟨hresult, sent, hacc, fun t ht => List.mem_cons_of_mem _ (hmem t ht), ?_⟩
          intro k hk
          rcases List.mem_cons.mp hk with heq | hk
          · have hat := k.regularAt
            rw [heq, hfile] at hat
            cases hat
          · exact hall k hk
      | some file =>
          let k₀ : FileEntry host dir := ⟨e, he, by rw [hfile]; rfl⟩
          have hsame : file = k₀.file := Option.some.inj (hfile.symm.trans k₀.regularAt)
          have hname : Host.nameOf dir (host.lookupEntry dirpath e) = k₀.path := by
            refine (nameOf_eq_iff hdir he ?_).mpr (h.links e he)
            rw [hlookup, fileAt_at, hfile]
            rfl
          obtain ⟨s', messages, heq, htransferred, hacc⟩ := h.transferred hlive (pad e) k₀
          rw [CppDemos.sendEntries_file pad dir es (by rw [hlookup]; exact hfile), hname, hsame,
            heq]
          obtain ⟨hresult, sent, hacc', hmem, hall⟩ := ih hes hnodup hacc.live
          refine ⟨hresult, messages.map (fun m => (k₀, m)) ++ sent, ?_, ?_, ?_⟩
          · rw [List.map_append, map_tag]
            exact hacc.trans hacc'
          · intro t ht
            rcases List.mem_append.mp ht with ht | ht
            · obtain ⟨m, -, rfl⟩ := List.mem_map.mp ht
              exact List.mem_cons_self ..
            · exact List.mem_cons_of_mem _ (hmem t ht)
          · intro k hk
            rw [List.filter_append, List.map_append]
            by_cases hkey : k₀ = k
            · subst hkey
              -- the rest of the entries has nothing of this file
              have hnone : sent.filter (·.1 = k₀) = [] := by
                refine List.filter_eq_nil_iff.mpr fun t ht => ?_
                rw [decide_eq_true_eq]
                intro htag
                have hin := hmem t ht
                rw [htag] at hin
                exact hnot hin
              rw [filter_tag_self, hnone, List.map_nil, List.append_nil]
              exact htransferred
            · rw [filter_tag_ne hkey]
              refine hall k ((List.mem_cons.mp hk).resolve_left fun heq => hkey ?_)
              exact (Subtype.ext heq).symm

/-! ## Through a group -/

variable {savePath : Bytes} {fs : Fs} {ι : Type} [DecidableEq ι]
  {hears : Member ι → Member ι → Bool} {conv' : UInt32} {g g' : Group ι} {es : List (Event ι)}
  {i : ι} {w : KCPWrapper} {kcp : Ikcpcb}

/-- A whole directory: `sendDirectory` ends well; at the end of every run of the
group in which the sender sends what it sends, each file is a prefix of the original
and nothing else has changed; and if all has been sent and each file fits the
receiver's buffer, some further updates complete the copy, even if all that is
under way is lost. -/
theorem directory_mirrored (hlive : w.Live conv kcp)
    (hdir : host.directoryAt (host.lookup dirpath) = some dir) (hplain : host.Plain dir)
    (pad : List Name → CharArray 3) (hready : Ready savePath fs)
    (habsent : ∀ k : FileEntry host dir, fs (target savePath k.path) = none)
    (hway : ∀ k : FileEntry host dir, ∀ p ∈ between savePath k.path, isFile fs p = false)
    (hfresh : g.Fresh conv') (hrun : Machine.run (Group.step hears) g es = some g')
    (hbound : g'.created < 2 ^ 31)
    (haccepted : g'.accepted <+:
      (sendDirectory host pad { wrapper := w } dirpath).sender.accepted) :
    (sendDirectory host pad { wrapper := w } dirpath).result = some .success ∧
    (∀ arrivals, g'.delivered (.receiver i) = arrivals.map Arrival.data →
      (∀ k : FileEntry host dir,
        contents (receive savePath fs arrivals) (target savePath k.path) <+: k.data) ∧
      ∀ p, (∀ k : FileEntry host dir, p ≠ target savePath k.path) →
        isFile (receive savePath fs arrivals) p = isFile fs p ∧
          contents (receive savePath fs arrivals) p = contents fs p) ∧
    (g'.accepted = (sendDirectory host pad { wrapper := w } dirpath).sender.accepted →
      (∀ k : FileEntry host dir, sizeofFileHeader + k.data.length ≤ bufferSize) →
      hears (.receiver i) .sender = true → (∀ o, hears .sender o = true ↔ o = .receiver i) →
      ∃ g'', Group.Updates hears { g' with net := [] } g'' ∧
        ∀ arrivals, g''.delivered (.receiver i) = arrivals.map Arrival.data →
          (∀ k : FileEntry host dir,
            receive savePath fs arrivals (target savePath k.path) = some (.file k.data)) ∧
          ∀ p, (∀ k : FileEntry host dir, p ≠ target savePath k.path) →
            isFile (receive savePath fs arrivals) p = isFile fs p ∧
              contents (receive savePath fs arrivals) p = contents fs p) := by
  have hnew : NewFiles savePath fs (FileEntry.path : FileEntry host dir → Bytes) :=
    ⟨hready, fun k => ⟨k.normal, (hplain.named k).1, (hplain.named k).2⟩,
      fun k l hne => FileEntry.apart hne, habsent, hway⟩
  obtain ⟨hresult, sent, hacc, -, hall⟩ := hplain.sendEntries hdir pad (fun e he => he)
    (Disk.entries_nodup host.disk dir) (s := { wrapper := w }) ⟨kcp, hlive⟩
  have heq : sendDirectory host pad { wrapper := w } dirpath
      = sendEntries host pad dirpath dir (host.disk.entries dir) { wrapper := w } := by
    rw [sendDirectory, hdir]
  have hsends : (sendDirectory host pad { wrapper := w } dirpath).sender.accepted
      = sent.map Prod.snd := by
    rw [heq, hacc.accepted]
    rfl
  have htransferred (k : FileEntry host dir) :
      Transferred k.path k.data ((sent.filter (·.1 = k)).map Prod.snd) := hall k k.2.1
  refine ⟨heq ▸ hresult, fun arrivals hcalled => ?_, fun hall hsmall hto hfrom => ?_⟩
  · refine hnew.prefixes ⟨htransferred, fun k => List.prefix_rfl⟩ ?_
    rw [← hcalled, ← hsends]
    exact (Group.delivered_log_prefix hfresh hrun hbound i).trans haccepted
  · rw [hsends] at hall
    have hshort : ∀ m ∈ g'.accepted, m.length ≤ bufferSize := by
      rw [hall]
      exact short_of_transferred htransferred (fun k => List.prefix_rfl) hsmall
    obtain ⟨g'', hupd, -, hgot, -⟩ :=
      (Group.healthy_of_run hfresh hrun hbound hshort).lose.recover hbound hshort hto hfrom
    exact ⟨g'', hupd, fun arrivals hcalled => hnew.complete htransferred (fun k => rfl)
      (hcalled.symm.trans (hgot.trans hall))⟩

/-! ## One small directory -/

/-- A directory `d` with a file `f`. -/
def plainDisk : Disk RegularFile where
  nodes := ⟨[⟨[[100]], .dir⟩, ⟨[[100], [102]], .file { data := [1] }⟩],
    List.nodupKeys_iff_pairwise.mpr (by decide)⟩
  parent := by decide
  names := by decide

def plainHost : Host := ⟨plainDisk, [], rfl, 40⟩

theorem plainHost_entries : ∀ e ∈ plainHost.disk.entries [[100]], e = [[102]] := by decide

theorem plainHost_entry (k : FileEntry plainHost [[100]]) :
    k.1 = [[102]] ∧ k.file = { data := [1] } := by
  have hkey : k.1 = [[102]] := plainHost_entries k.1 k.2.1
  refine ⟨hkey, Option.some.inj (k.regularAt.symm.trans ?_)⟩
  rw [hkey]
  decide

theorem plainHost_plain : plainHost.Plain [[100]] := by
  refine ⟨fun e he => ?_, fun k => ?_, fun k => ?_⟩
  · rw [plainHost_entries e he]
    have hnode : plainHost.disk.node ([[100]] ++ [[102]]) = some (.file { data := [1] }) := by
      decide
    intro t ht
    rw [hnode] at ht
    cases ht
  · rw [(plainHost_entry k).2]
    decide
  · rw [FileEntry.path, (plainHost_entry k).1]
    decide

/-- Its one message. -/
def plainMessage : Bytes := (wholeFile [102] [1]).data

theorem directory_mirrored_plain :
    ∃ g', Machine.run (Group.step hearsOthers) (programs (Fin 1)) [.send plainMessage] = some g' ∧
      ∃ g'', Group.Updates hearsOthers { g' with net := [] } g'' ∧
        ∀ arrivals, g''.delivered (.receiver 0) = arrivals.map Arrival.data →
          ∀ k : FileEntry plainHost [[100]],
            receive [115] saveDir arrivals (target [115] k.path) = some (.file k.data) := by
  have hobs : (Machine.run (Group.step hearsOthers) (programs (Fin 1))
      [.send plainMessage]).map Group.accepted = some [plainMessage] := by decide +kernel
  obtain ⟨g', hrun, haccepted⟩ := Option.map_eq_some_iff.mp hobs
  have hbound : g'.created < 2 ^ 31 := by
    rw [Group.created, haccepted]
    decide +kernel
  have hsends : (sendDirectory plainHost (fun _ => .zero 3) { wrapper := senderWrapper }
      [100]).sender.accepted = [plainMessage] := by decide +kernel
  have hfrom : ∀ o : Member (Fin 1), hearsOthers .sender o = true ↔ o = .receiver 0 := by
    intro o
    cases o with
    | sender => decide
    | receiver j => simp [hearsOthers, Fin.fin_one_eq_zero j]
  have htarget (k : FileEntry plainHost [[100]]) : k.path = [102] := by
    rw [FileEntry.path, (plainHost_entry k).1]
    rfl
  obtain ⟨-, -, hcomplete⟩ := @directory_mirrored plainHost [[100]] [100] mainConv [115] saveDir
    (Fin 1) _ hearsOthers mainConv (programs (Fin 1)) g' [.send plainMessage] 0 senderWrapper _
    senderWrapper_live (by decide) plainHost_plain (fun _ => .zero 3) ⟨by decide, by decide⟩
    (fun k => by rw [htarget]; decide) (fun k => by rw [htarget]; decide) (programs_fresh _) hrun
    hbound (by rw [haccepted, hsends])
  obtain ⟨g'', hupd, hfiles⟩ := hcomplete (haccepted.trans hsends.symm)
    (fun k => by rw [FileEntry.data, (plainHost_entry k).2]; decide) (by decide) hfrom
  exact ⟨g', hrun, g'', hupd, fun arrivals hcalled => (hfiles arrivals hcalled).1⟩

end CppDemos
