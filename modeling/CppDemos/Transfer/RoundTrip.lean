import CppDemos.Transfer.Receive
import CppDemos.Transfer.Send
import CppDemos.Wrapper.Deliver

/-!
# From the sender's files to the receiver's

What `sendFileInternal` makes of files, given to `onDataReceived`. The chunks
of different files may come in any order; under each name the contents come
together again, because every message names its file and the receiver appends
(`files_arrive`). It appends whatever was there before, so a file that is sent
again is there twice (`transfers_append`).
-/

namespace CppDemos

open LexPath FileTree AppendStore FileReceiver

/-! ## Messages of a file -/

/-- A relative path that the header can carry. -/
structure FilePath (path : Bytes) : Prop where
  normal : Normal path
  length : path.length ≤ 255
  zero : 0 ∉ path

instance (path : Bytes) : Decidable (FilePath path) :=
  decidable_of_iff (Normal path ∧ path.length ≤ 255 ∧ 0 ∉ path)
    ⟨fun ⟨h₁, h₂, h₃⟩ => ⟨h₁, h₂, h₃⟩, fun ⟨h₁, h₂, h₃⟩ => ⟨h₁, h₂, h₃⟩⟩

/-- `sendFileInternal` on an initialised wrapper, for a file whose reads only
fall short at its end, passes these messages to `send`. -/
def Transferred (path data : Bytes) (messages : List Bytes) : Prop :=
  ∃ (fuel : Nat) (pad : CharArray 3) (conv : UInt32) (kcp : Ikcpcb) (s s' : Sender)
    (result : ErrorCode), s.wrapper.Live conv kcp ∧
      sendFileInternal fuel pad s (some { data := data }) path = some (s', result) ∧
      s'.calls = s.calls ++ messages.map fun m => .send (some m) (UInt64.ofNat m.length)

theorem Transferred.chunked {path data : Bytes} {messages : List Bytes}
    (h : Transferred path data messages) :
    ∃ pad, Chunked (fileHeader pad path data.length) data messages := by
  obtain ⟨fuel, pad, conv, kcp, s, s', result, hlive, hres, hcalls⟩ := h
  obtain ⟨-, messages', hchunked, hacc⟩ :=
    (sendFileInternal_spec ⟨kcp, hlive⟩ fuel pad rfl rfl path).1 _ hres
  have hsame : messages = messages' := by
    have hmap := List.append_cancel_left (hcalls.symm.trans hacc.calls)
    refine List.map_injective_iff.mpr ?_ hmap
    intro m n hmn
    injection hmn with hsome
    exact Option.some.inj hsome
  exact ⟨pad, hsame ▸ hchunked⟩

theorem Transferred.of_short {conv : UInt32} {kcp : Ikcpcb} {s : Sender}
    (hlive : s.wrapper.Live conv kcp) (pad : CharArray 3) (path : Bytes) {data : Bytes}
    (hshort : data.length < chunkSize) :
    Transferred path data [(fileHeader pad path data.length).bytes ++ data] := by
  have hspec := sendFileInternal_spec ⟨kcp, hlive⟩ (data.length / chunkSize + 2) pad
    (show ({ data := data } : RegularFile).opens = true from rfl) rfl path
  obtain ⟨⟨s', result⟩, hres⟩ := Option.isSome_iff_exists.mp (hspec.2 (Nat.le_refl _))
  obtain ⟨-, messages, ⟨⟨chunks, rfl, hflat⟩, hlen⟩, hacc⟩ := hspec.1 _ hres
  rw [List.length_map, Nat.div_eq_of_lt hshort, Nat.zero_add] at hlen
  obtain ⟨chunk, rfl⟩ := List.length_eq_one_iff.mp hlen
  obtain rfl : chunk = data := by simpa using hflat
  exact ⟨_, pad, conv, kcp, s, s', result, hlive, hres, hacc.calls⟩

theorem isChunk_of_header (pad : CharArray 3) {path : Bytes} (hpath : FilePath path)
    (filesize : Nat) (chunk behind : Bytes) :
    IsChunk ⟨(fileHeader pad path filesize).bytes ++ chunk, behind⟩ ∧
      Arrival.filename ⟨(fileHeader pad path filesize).bytes ++ chunk, behind⟩ = path ∧
      Arrival.payload ⟨(fileHeader pad path filesize).bytes ++ chunk, behind⟩ = chunk := by
  have hname : Arrival.filename ⟨(fileHeader pad path filesize).bytes ++ chunk, behind⟩ = path :=
    filenameOf_bytes pad filesize hpath.length hpath.zero chunk behind
  refine ⟨⟨?_, by rw [hname]; exact hpath.normal⟩, hname, ?_⟩
  · rintro (hshort | hmagic)
    · rw [List.length_append, FileHeader.length_bytes] at hshort
      omega
    · exact hmagic (magicOf_bytes _ chunk)
  · rw [Arrival.payload, ← (fileHeader pad path filesize).length_bytes, List.drop_left]

theorem isChunk_of_chunks (pad : CharArray 3) {path : Bytes} (hpath : FilePath path)
    (filesize : Nat) (chunks : List Bytes) {ms : List Arrival}
    (h : ms.map Arrival.data = chunks.map ((fileHeader pad path filesize).bytes ++ ·)) :
    (∀ m ∈ ms, IsChunk m ∧ m.filename = path) ∧ ms.map Arrival.payload = chunks := by
  induction chunks generalizing ms with
  | nil =>
      obtain rfl := List.map_eq_nil_iff.mp h
      exact ⟨fun m hm => (nomatch hm), rfl⟩
  | cons chunk chunks ih =>
      obtain ⟨⟨bytes, behind⟩, ms, rfl, rfl, hrest⟩ := List.map_eq_cons_iff.mp h
      obtain ⟨hchunk, hname, hpayload⟩ := isChunk_of_header pad hpath filesize chunk behind
      obtain ⟨hall, hpayloads⟩ := ih hrest
      refine ⟨List.forall_mem_cons.mpr ⟨⟨hchunk, hname⟩, hall⟩, ?_⟩
      rw [List.map_cons, hpayloads, hpayload]

theorem Transferred.arrivals {path data : Bytes} (hpath : FilePath path) {ms : List Arrival}
    (h : Transferred path data (ms.map Arrival.data)) :
    (∀ m ∈ ms, IsChunk m ∧ m.filename = path) ∧ (ms.map Arrival.payload).flatten = data ∧
      ms.length = data.length / chunkSize + 1 := by
  obtain ⟨pad, ⟨chunks, hmap, hflat⟩, hlen⟩ := h.chunked
  obtain ⟨hall, hpayloads⟩ := isChunk_of_chunks pad hpath data.length chunks hmap
  rw [List.length_map] at hlen
  exact ⟨hall, by rw [hpayloads, hflat], hlen⟩

/-! ## Several files -/

theorem target_injective {savePath : Bytes} (hne : savePath ≠ []) {p q : Bytes} (hp : Normal p)
    (hq : Normal q) (h : target savePath p = target savePath q) : split p = split q := by
  rw [target, target, hp.locate_join hne, hq.locate_join hne] at h
  exact List.append_cancel_left (congrArg Loc.names h)

/-- Chunks of files that are apart, each tagged with the file it is of: the
contents are an append-only store with a key for each tag. -/
theorem receive_tagged {ι : Type} {savePath : Bytes} {fs : Fs} (hready : Ready savePath fs)
    {path : ι → Bytes} (hapart : ∀ i j, i ≠ j → ¬ split (path i) <+: split (path j))
    {arrivals : List (ι × Arrival)}
    (htagged : ∀ t ∈ arrivals, IsChunk t.2 ∧ t.2.filename = path t.1)
    (hopen : ∀ i, Openable savePath fs (path i)) :
    contents (receive savePath fs (arrivals.map (·.2)))
      = appendAll (contents fs)
        (arrivals.map fun t => (target savePath (path t.1), t.2.payload)) ∧
    ∀ p, isFile (receive savePath fs (arrivals.map (·.2))) p = true ↔
      isFile fs p = true ∨ ∃ t ∈ arrivals, p = target savePath (path t.1) := by
  have hms : ∀ m ∈ arrivals.map (·.2), IsChunk m ∧ ∃ i, m.filename = path i := by
    intro m hm
    obtain ⟨t, ht, rfl⟩ := List.mem_map.mp hm
    exact ⟨(htagged t ht).1, t.1, (htagged t ht).2⟩
  have hsplit : ∀ m ∈ arrivals.map (·.2), ∀ m' ∈ arrivals.map (·.2),
      ¬ split m.filename <+: dirs m'.filename := by
    intro m hm m' hm' hpre
    obtain ⟨-, i, hi⟩ := hms m hm
    obtain ⟨-, j, hj⟩ := hms m' hm'
    rw [hi, hj] at hpre
    by_cases hij : i = j
    · exact not_split_prefix_dirs _ (hij ▸ hpre)
    · exact hapart i j hij (hpre.trans (List.dropLast_prefix _))
  obtain ⟨hcontents, hfiles⟩ := receive_openable hready (arrivals.map (·.2))
    (fun m hm => (hms m hm).1) hsplit fun m hm => by
      obtain ⟨-, i, hi⟩ := hms m hm
      exact hi ▸ hopen i
  have hops : (arrivals.map (·.2)).map (fun m => (target savePath m.filename, m.payload))
      = arrivals.map fun t => (target savePath (path t.1), t.2.payload) := by
    rw [List.map_map]
    refine List.map_congr_left ?_
    intro t ht
    simp only [Function.comp_apply, (htagged t ht).2]
  refine ⟨hops ▸ hcontents, fun p => (hfiles p).trans (or_congr_right ?_)⟩
  constructor
  · rintro ⟨m, hm, heq⟩
    obtain ⟨t, ht, rfl⟩ := List.mem_map.mp hm
    exact ⟨t, ht, (htagged t ht).2 ▸ heq⟩
  · rintro ⟨t, ht, heq⟩
    exact ⟨t.2, List.mem_map.mpr ⟨t, ht, rfl⟩, (htagged t ht).2.symm ▸ heq⟩

/-- Files whose paths are apart, none of which exists or has a file where one
of its directories should be: in whatever order their messages come, each
path ends up with exactly its file, and no other file is made or changed. A
file takes one message more than it has full chunks, and sending it comes to
an end. -/
theorem files_arrive {ι : Type} [DecidableEq ι] {savePath : Bytes} {fs : Fs}
    (hready : Ready savePath fs) {path data : ι → Bytes} (hpath : ∀ i, FilePath (path i))
    (hapart : ∀ i j, i ≠ j → ¬ split (path i) <+: split (path j))
    (habsent : ∀ i, fs (target savePath (path i)) = none)
    (hway : ∀ i, ∀ p ∈ between savePath (path i), isFile fs p = false)
    {messages : ι → List Bytes} (hsent : ∀ i, Transferred (path i) (data i) (messages i))
    {arrivals : List (ι × Arrival)}
    (horder : ∀ i, ((arrivals.filter (·.1 = i)).map (·.2)).map Arrival.data = messages i) :
    (∀ i, receive savePath fs (arrivals.map (·.2)) (target savePath (path i))
      = some (.file (data i))) ∧
    (∀ p, (∀ i, p ≠ target savePath (path i)) →
      isFile (receive savePath fs (arrivals.map (·.2))) p = isFile fs p ∧
        contents (receive savePath fs (arrivals.map (·.2))) p = contents fs p) ∧
    (∀ i, (messages i).length = (data i).length / chunkSize + 1) ∧
    ∀ i (pad : CharArray 3) (s : Sender) (conv : UInt32) (kcp : Ikcpcb),
      s.wrapper.Live conv kcp → ∃ s', sendFileInternal (turns { data := data i }) pad s
        (some { data := data i }) (path i) = some (s', .success) := by
  have hnormal (i : ι) : Normal (path i) := (hpath i).normal
  have harrived (i : ι) := Transferred.arrivals (hpath i) ((horder i).symm ▸ hsent i)
  have hinj : Function.Injective fun i => target savePath (path i) := by
    intro i j hij
    by_contra hne
    have hsplit := target_injective hready.nonempty (hnormal i) (hnormal j) hij
    exact hapart i j hne (hsplit ▸ List.prefix_rfl)
  have htagged : ∀ t ∈ arrivals, IsChunk t.2 ∧ t.2.filename = path t.1 := by
    intro t ht
    refine (harrived t.1).1 t.2 (List.mem_map.mpr ⟨t, ?_, rfl⟩)
    exact List.mem_filter.mpr ⟨ht, decide_eq_true rfl⟩
  have hopen (i : ι) : Openable savePath fs (path i) := by
    refine ⟨hway i, ?_⟩
    rw [isDir, habsent, target, (hnormal i).locate_join hready.nonempty]
    simp [split_ne_nil]
  obtain ⟨hcontents, hfiles⟩ := receive_tagged hready hapart htagged hopen
  refine ⟨fun i => ?_, fun p hp => ⟨?_, ?_⟩, fun i => ?_, fun i pad s conv kcp hlive => ?_⟩
  · -- its own messages, of which there is at least one, in their order
    have hmade : isFile (receive savePath fs (arrivals.map (·.2))) (target savePath (path i))
        = true := by
      have hpos : 0 < ((arrivals.filter (·.1 = i)).map (·.2)).length := by
        rw [(harrived i).2.2]
        exact Nat.succ_pos _
      obtain ⟨m, hm⟩ := List.exists_mem_of_length_pos hpos
      obtain ⟨t, ht, rfl⟩ := List.mem_map.mp hm
      obtain ⟨ht, hi⟩ := List.mem_filter.mp ht
      exact (hfiles _).mpr (Or.inr ⟨t, ht, by rw [of_decide_eq_true hi]⟩)
    rw [eq_file_of_isFile hmade, hcontents, appendAll_apply, under_map hinj, (harrived i).2.1]
    simp [contents, habsent]
  · have hnone : ¬ ∃ t ∈ arrivals, p = target savePath (path t.1) := by
      rintro ⟨t, -, heq⟩
      exact hp t.1 heq
    exact Bool.eq_iff_iff.mpr ((hfiles p).trans (or_iff_left hnone))
  · have hunder : under p (arrivals.map fun t => (target savePath (path t.1), t.2.payload))
        = [] := by
      refine under_eq_nil ?_
      intro op hop
      obtain ⟨t, -, rfl⟩ := List.mem_map.mp hop
      exact (hp t.1).symm
    rw [hcontents, appendAll_apply, hunder, List.append_nil]
  · rw [← horder i, List.length_map]
    exact (harrived i).2.2
  · rcases sendFileInternal_turns ⟨kcp, hlive⟩ pad { data := data i } (path i) with
      ⟨hbroken, -⟩ | ⟨-, s', messages, heq, -, -⟩
    · rcases hbroken with hclosed | hfails
      · cases hclosed
      · cases hfails
    · exact ⟨s', heq⟩

/-- A directory `s`. -/
def saveDir : Fs := fun l => if l = ⟨.above 0, [[115]]⟩ then some .dir else none

def saveDirWithFile : Fs :=
  Function.update saveDir ⟨.above 0, [[115], [97]]⟩ (some (.file [7]))

theorem wholeFile_transferred (path : Bytes) {data : Bytes} (h : data.length < chunkSize) :
    Transferred path data [(wholeFile path data).data] :=
  Transferred.of_short (s := { wrapper := senderWrapper }) senderWrapper_live _ path h

/-- `a` with one byte, and `b/c`, which is empty. -/
theorem files_arrive_two :
    (∀ i, receive [115] saveDir [wholeFile [97] [1], wholeFile [98, 47, 99] []]
        (target [115] (cond i [98, 47, 99] [97])) = some (.file (cond i [] [1]))) ∧
    (∀ p, (∀ i, p ≠ target [115] (cond i [98, 47, 99] [97])) →
      isFile (receive [115] saveDir [wholeFile [97] [1], wholeFile [98, 47, 99] []]) p
          = isFile saveDir p ∧
        contents (receive [115] saveDir [wholeFile [97] [1], wholeFile [98, 47, 99] []]) p
          = contents saveDir p) ∧
    (∀ i, (cond i [(wholeFile [98, 47, 99] []).data] [(wholeFile [97] [1]).data]).length
      = (cond i [] [1] : Bytes).length / chunkSize + 1) ∧
    ∀ (i : Bool) (pad : CharArray 3) (s : Sender) (conv : UInt32) (kcp : Ikcpcb),
      s.wrapper.Live conv kcp → ∃ s', sendFileInternal (turns { data := cond i [] [1] }) pad s
        (some { data := cond i [] [1] }) (cond i [98, 47, 99] [97]) = some (s', .success) :=
  @files_arrive Bool _ [115] saveDir ⟨by decide, by decide⟩
    (fun i => cond i [98, 47, 99] [97]) (fun i => cond i [] [1])
    (by decide) (by decide) (by decide) (by decide)
    (fun i => cond i [(wholeFile [98, 47, 99] []).data] [(wholeFile [97] [1]).data])
    (fun i => by
      cases i with
      | false => exact wholeFile_transferred _ (by decide)
      | true => exact wholeFile_transferred _ (by decide))
    [(false, wholeFile [97] [1]), (true, wholeFile [98, 47, 99] [])]
    (fun i => by cases i <;> rfl)

/-- With a file `s/a` there, `a/b` does not arrive. -/
theorem blocked_by_file :
    ¬ ∀ (savePath : Bytes) (fs : Fs) (path data : Bytes) (ms : List Arrival),
      Ready savePath fs → FilePath path → fs (target savePath path) = none →
      Transferred path data (ms.map Arrival.data) →
      receive savePath fs ms (target savePath path) = some (.file data) := by
  intro h
  have harrives := h [115] saveDirWithFile [97, 47, 98] [1] [wholeFile [97, 47, 98] [1]]
    ⟨by decide, by decide⟩ (by decide) (by decide)
    (wholeFile_transferred _ (by decide))
  revert harrives
  decide +kernel

/-! ## The same file again -/

theorem under_transfers {savePath path : Bytes} (hpath : FilePath path)
    (transfers : List (Bytes × List Arrival))
    (hsent : ∀ t ∈ transfers, Transferred path t.1 (t.2.map Arrival.data)) :
    under (target savePath path)
        ((transfers.flatMap (·.2)).map fun m => (target savePath m.filename, m.payload))
      = (transfers.map (·.1)).flatten := by
  induction transfers with
  | nil => rfl
  | cons t transfers ih =>
      obtain ⟨hname, hdata, -⟩ := (hsent t (List.mem_cons_self ..)).arrivals hpath
      have hops : (t.2.map fun m => (target savePath m.filename, m.payload))
          = t.2.map fun m => (target savePath path, m.payload) :=
        List.map_congr_left fun m hm => by rw [(hname m hm).2]
      rw [List.flatMap_cons, List.map_append, under_append,
        ih fun t' ht' => hsent t' (List.mem_cons_of_mem _ ht'), hops, under_same, hdata]
      rfl

/-- Complete transfers to one path, one after the other: the file has what it
had and then all of them, and no file changes if it cannot be opened. So it is
the last one sent just if nothing was there before. -/
theorem transfers_append {savePath : Bytes} {fs : Fs} (hready : Ready savePath fs) {path : Bytes}
    (hpath : FilePath path) (transfers : List (Bytes × List Arrival))
    (hsent : ∀ t ∈ transfers, Transferred path t.1 (t.2.map Arrival.data)) :
    (Openable savePath fs path →
      contents (receive savePath fs (transfers.flatMap (·.2))) (target savePath path)
        = contents fs (target savePath path) ++ (transfers.map (·.1)).flatten ∧
      ∀ ts v ms, transfers = ts ++ [(v, ms)] →
        (contents (receive savePath fs (transfers.flatMap (·.2))) (target savePath path) = v ↔
          contents fs (target savePath path) = [] ∧ ∀ t ∈ ts, t.1 = [])) ∧
    (¬ Openable savePath fs path → ∀ p,
      isFile (receive savePath fs (transfers.flatMap (·.2))) p = isFile fs p ∧
        contents (receive savePath fs (transfers.flatMap (·.2))) p = contents fs p) := by
  have hms : ∀ m ∈ transfers.flatMap (·.2), IsChunk m ∧ m.filename = path := by
    intro m hm
    obtain ⟨t, ht, hm⟩ := List.mem_flatMap.mp hm
    exact ((hsent t ht).arrivals hpath).1 m hm
  constructor
  · intro hopen
    obtain ⟨hcontents, -⟩ := receive_openable hready (transfers.flatMap (·.2))
      (fun m hm => (hms m hm).1)
      (fun m hm m' hm' => by
        rw [(hms m hm).2, (hms m' hm').2]
        exact not_split_prefix_dirs path)
      (fun m hm => (hms m hm).2 ▸ hopen)
    have hall : contents (receive savePath fs (transfers.flatMap (·.2))) (target savePath path)
        = contents fs (target savePath path) ++ (transfers.map (·.1)).flatten := by
      rw [hcontents, appendAll_apply, under_transfers hpath transfers hsent]
    refine ⟨hall, ?_⟩
    intro ts v ms htransfers
    have hlast : (([(v, ms)] : List (Bytes × List Arrival)).map (·.1)).flatten = v := by simp
    rw [hall, htransfers, List.map_append, List.flatten_append, hlast, ← List.append_assoc,
      List.append_left_eq_self, List.append_eq_nil_iff, List.flatten_eq_nil_iff,
      List.forall_mem_map]
  · intro hblock p
    have hext := receive_blocked hready (transfers.flatMap (·.2)) hms hblock
    exact ⟨hext.isFile p, hext.contents p⟩

/-- One byte, sent to `a` twice. -/
theorem transfers_append_twice :
    (Openable [115] saveDir [97] →
      contents (receive [115] saveDir [wholeFile [97] [1], wholeFile [97] [1]])
          (target [115] [97]) = contents saveDir (target [115] [97]) ++ [1, 1] ∧
      ∀ ts v ms, [([1], [wholeFile [97] [1]]), ([1], [wholeFile [97] [1]])] = ts ++ [(v, ms)] →
        (contents (receive [115] saveDir [wholeFile [97] [1], wholeFile [97] [1]])
            (target [115] [97]) = v ↔
          contents saveDir (target [115] [97]) = [] ∧ ∀ t ∈ ts, t.1 = [])) ∧
    (¬ Openable [115] saveDir [97] → ∀ p,
      isFile (receive [115] saveDir [wholeFile [97] [1], wholeFile [97] [1]]) p
          = isFile saveDir p ∧
        contents (receive [115] saveDir [wholeFile [97] [1], wholeFile [97] [1]]) p
          = contents saveDir p) :=
  transfers_append ⟨by decide, by decide⟩ (by decide)
    [([1], [wholeFile [97] [1]]), ([1], [wholeFile [97] [1]])]
    (List.forall_mem_cons.mpr ⟨wholeFile_transferred _ (by decide),
      List.forall_mem_cons.mpr ⟨wholeFile_transferred _ (by decide),
        fun t ht => (nomatch ht)⟩⟩)

/-- The second transfer does not replace the first. -/
theorem not_replaced :
    ¬ ∀ (savePath : Bytes) (fs : Fs) (path : Bytes) (transfers : List (Bytes × List Arrival))
        (v : Bytes) (ms : List Arrival),
      Ready savePath fs → FilePath path →
      (∀ t ∈ transfers ++ [(v, ms)], Transferred path t.1 (t.2.map Arrival.data)) →
      contents (receive savePath fs ((transfers ++ [(v, ms)]).flatMap (·.2)))
        (target savePath path) = v := by
  intro h
  have hone : Transferred [97] [1] [(wholeFile [97] [1]).data] :=
    wholeFile_transferred _ (by decide)
  have hreplaced := h [115] saveDir [97] [([1], [wholeFile [97] [1]])] [1] [wholeFile [97] [1]]
    ⟨by decide, by decide⟩ (by decide)
    (List.forall_mem_cons.mpr ⟨hone, List.forall_mem_cons.mpr ⟨hone, fun t ht => (nomatch ht)⟩⟩)
  revert hreplaced
  decide +kernel

end CppDemos
