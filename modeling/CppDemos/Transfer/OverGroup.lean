import CppDemos.Group.Progress
import CppDemos.Transfer.RoundTrip

/-!
# Files over a group

The two halves of the repository together: files that `sendFileInternal` cuts
into messages, the messages carried by a group over an unreliable network, and
`onDataReceived` given what a receiver's callback is given. The messages of
different files may be sent in any order.

At any time each path holds a prefix of its file and nothing else is changed
(`files_are_prefixes`): what the network loses, repeats or reorders never shows in
a file. And nothing the network has done keeps a file from being completed
(`files_recoverable`).
-/

namespace CppDemos

open LexPath FileTree AppendStore FileReceiver

/-! ## Messages with tags -/

section Tags

variable {κ α β : Type}

theorem exists_tagged {f : α → β} :
    ∀ {sent : List (κ × β)} {arrivals : List α}, arrivals.map f <+: sent.map Prod.snd →
      ∃ tagged : List (κ × α), tagged.map Prod.snd = arrivals ∧
        tagged.map (fun t => (t.1, f t.2)) <+: sent
  | _, [], _ => ⟨[], rfl, List.nil_prefix⟩
  | [], a :: arrivals, h => by simp at h
  | (k, b) :: sent, a :: arrivals, h => by
      rw [List.map_cons, List.map_cons, List.cons_prefix_cons] at h
      obtain ⟨hhead, hrest⟩ := h
      obtain ⟨tagged, rfl, hpre⟩ := exists_tagged hrest
      refine ⟨(k, a) :: tagged, rfl, ?_⟩
      rw [List.map_cons, hhead]
      exact List.cons_prefix_cons.mpr ⟨rfl, hpre⟩

theorem filter_tagged [DecidableEq κ] {f : α → β} {sent : List (κ × β)} {tagged : List (κ × α)}
    (h : tagged.map (fun t => (t.1, f t.2)) <+: sent) (k : κ) :
    ((tagged.filter (·.1 = k)).map (·.2)).map f <+: (sent.filter (·.1 = k)).map Prod.snd := by
  have hpre := (h.filter (fun t => decide (t.1 = k))).map Prod.snd
  rw [List.filter_map, List.map_map] at hpre
  rw [List.map_map]
  exact hpre

theorem map_tag (k : κ) (xs : List α) : (xs.map fun x => (k, x)).map Prod.snd = xs := by
  rw [List.map_map]
  exact List.map_id xs

theorem filter_tag_self [DecidableEq κ] (k : κ) (xs : List α) :
    ((xs.map fun x => (k, x)).filter (·.1 = k)).map Prod.snd = xs := by
  rw [List.filter_eq_self.mpr (by simp), map_tag]

theorem filter_tag_ne [DecidableEq κ] {k l : κ} (h : k ≠ l) (xs : List α) :
    (xs.map fun x => (k, x)).filter (·.1 = l) = [] :=
  List.filter_eq_nil_iff.mpr (by simp [h])

end Tags

theorem Transferred.arrived {path data : Bytes} (hpath : FilePath path) {messages : List Bytes}
    (h : Transferred path data messages) {ms : List Arrival}
    (hms : ms.map Arrival.data <+: messages) :
    (∀ m ∈ ms, IsChunk m ∧ m.filename = path) ∧ (ms.map Arrival.payload).flatten <+: data := by
  obtain ⟨pad, ⟨chunks, rfl, rfl⟩, -⟩ := h.chunked
  rw [List.prefix_iff_eq_take, ← List.map_take] at hms
  obtain ⟨hall, hpayloads⟩ := isChunk_of_chunks pad hpath _ _ hms
  refine ⟨hall, ?_⟩
  rw [hpayloads]
  exact (List.take_prefix _ _).flatten

/-! ## What a receiver makes of them -/

variable {κ : Type} [DecidableEq κ] {savePath : Bytes} {fs : Fs} {path data : κ → Bytes}
  {messages : κ → List Bytes} {sent : List (κ × Bytes)} {arrivals : List Arrival}

/-- Files that are to be made under a save path: their paths are apart, none
exists and none has a file where one of its directories should be. -/
structure NewFiles (savePath : Bytes) (fs : Fs) (path : κ → Bytes) : Prop where
  ready : Ready savePath fs
  named : ∀ k, FilePath (path k)
  apart : ∀ k l, k ≠ l → ¬ split (path k) <+: split (path l)
  absent : ∀ k, fs (target savePath (path k)) = none
  way : ∀ k, ∀ p ∈ between savePath (path k), isFile fs p = false

omit [DecidableEq κ] in
theorem NewFiles.openable (h : NewFiles savePath fs path) (k : κ) :
    Openable savePath fs (path k) := by
  refine ⟨h.way k, ?_⟩
  rw [isDir, h.absent, target, (h.named k).normal.locate_join h.ready.nonempty]
  simp [split_ne_nil]

theorem NewFiles.injective (h : NewFiles savePath fs path) :
    Function.Injective fun k => target savePath (path k) := by
  intro k l hkl
  by_contra hne
  have hsplit := target_injective h.ready.nonempty (h.named k).normal (h.named l).normal hkl
  exact h.apart k l hne (hsplit ▸ List.prefix_rfl)

/-- The messages sent are the files', each file's from its first on. The files
may be sent in any order and their messages mixed; what counts is that under
each file the messages come in the order of its chunks. -/
structure Chunks (path data : κ → Bytes) (messages : κ → List Bytes) (sent : List (κ × Bytes)) :
    Prop where
  transferred : ∀ k, Transferred (path k) (data k) (messages k)
  order : ∀ k, (sent.filter (·.1 = k)).map Prod.snd <+: messages k

theorem NewFiles.received (h : NewFiles savePath fs path) (hsent : Chunks path data messages sent)
    {tagged : List (κ × Arrival)}
    (htagged : tagged.map (fun t => (t.1, t.2.data)) <+: sent) :
    (∀ k, contents (receive savePath fs (tagged.map Prod.snd)) (target savePath (path k))
        = (((tagged.filter (·.1 = k)).map (·.2)).map Arrival.payload).flatten ∧
      ((tagged.filter (·.1 = k)).map (·.2) ≠ [] →
        isFile (receive savePath fs (tagged.map Prod.snd)) (target savePath (path k)) = true)) ∧
    ∀ p, (∀ k, p ≠ target savePath (path k)) →
      isFile (receive savePath fs (tagged.map Prod.snd)) p = isFile fs p ∧
        contents (receive savePath fs (tagged.map Prod.snd)) p = contents fs p := by
  have harrived (k : κ) := (hsent.transferred k).arrived (h.named k)
    ((filter_tagged htagged k).trans (hsent.order k))
  have hchunks : ∀ t ∈ tagged, IsChunk t.2 ∧ t.2.filename = path t.1 := by
    intro t ht
    refine (harrived t.1).1 t.2 (List.mem_map.mpr ⟨t, ?_, rfl⟩)
    exact List.mem_filter.mpr ⟨ht, decide_eq_true rfl⟩
  obtain ⟨hcontents, hfiles⟩ := receive_tagged h.ready h.apart hchunks h.openable
  refine ⟨fun k => ⟨?_, fun hne => ?_⟩, fun p hp => ⟨?_, ?_⟩⟩
  · rw [hcontents, appendAll_apply, under_map h.injective]
    simp [contents, h.absent]
  · obtain ⟨m, hm⟩ := List.exists_mem_of_ne_nil _ hne
    obtain ⟨t, ht, rfl⟩ := List.mem_map.mp hm
    obtain ⟨ht, hk⟩ := List.mem_filter.mp ht
    exact (hfiles _).mpr (Or.inr ⟨t, ht, by rw [of_decide_eq_true hk]⟩)
  · have hnone : ¬ ∃ t ∈ tagged, p = target savePath (path t.1) := by
      rintro ⟨t, -, heq⟩
      exact hp t.1 heq
    exact Bool.eq_iff_iff.mpr ((hfiles p).trans (or_iff_left hnone))
  · have hunder : under p (tagged.map fun t => (target savePath (path t.1), t.2.payload))
        = [] := by
      refine under_eq_nil fun op hop => ?_
      obtain ⟨t, -, rfl⟩ := List.mem_map.mp hop
      exact (hp t.1).symm
    rw [hcontents, appendAll_apply, hunder, List.append_nil]

theorem NewFiles.prefixes (h : NewFiles savePath fs path) (hsent : Chunks path data messages sent)
    (hleads : arrivals.map Arrival.data <+: sent.map Prod.snd) :
    (∀ k, contents (receive savePath fs arrivals) (target savePath (path k)) <+: data k) ∧
    ∀ p, (∀ k, p ≠ target savePath (path k)) →
      isFile (receive savePath fs arrivals) p = isFile fs p ∧
        contents (receive savePath fs arrivals) p = contents fs p := by
  obtain ⟨tagged, rfl, htagged⟩ := exists_tagged hleads
  obtain ⟨hcontents, hothers⟩ := h.received hsent htagged
  refine ⟨fun k => ?_, hothers⟩
  rw [(hcontents k).1]
  exact ((hsent.transferred k).arrived (h.named k)
    ((filter_tagged htagged k).trans (hsent.order k))).2

theorem NewFiles.complete (h : NewFiles savePath fs path)
    (hsent : ∀ k, Transferred (path k) (data k) (messages k))
    (horder : ∀ k, (sent.filter (·.1 = k)).map Prod.snd = messages k)
    (hsame : arrivals.map Arrival.data = sent.map Prod.snd) :
    (∀ k, receive savePath fs arrivals (target savePath (path k)) = some (.file (data k))) ∧
    ∀ p, (∀ k, p ≠ target savePath (path k)) →
      isFile (receive savePath fs arrivals) p = isFile fs p ∧
        contents (receive savePath fs arrivals) p = contents fs p := by
  obtain ⟨tagged, rfl, htagged⟩ := exists_tagged ⟨[], (List.append_nil _).trans hsame⟩
  have heq : tagged.map (fun t => (t.1, t.2.data)) = sent := by
    refine htagged.eq_of_length ?_
    simpa using congrArg List.length hsame
  obtain ⟨hcontents, hothers⟩ :=
    h.received ⟨hsent, fun k => (horder k).symm ▸ List.prefix_rfl⟩ htagged
  refine ⟨fun k => ?_, hothers⟩
  -- there is at least one message of the file
  have hmessages : ((tagged.filter (·.1 = k)).map (·.2)).map Arrival.data = messages k := by
    rw [← horder k, ← heq, List.filter_map, List.map_map, List.map_map]
    rfl
  obtain ⟨-, hdata, hlen⟩ := Transferred.arrivals (h.named k) (hmessages.symm ▸ hsent k)
  have hne : (tagged.filter (·.1 = k)).map (·.2) ≠ [] :=
    List.ne_nil_of_length_pos (hlen ▸ Nat.succ_pos _)
  rw [eq_file_of_isFile ((hcontents k).2 hne), (hcontents k).1, hdata]

/-! ## Through a group -/

variable {ι : Type} [DecidableEq ι] {hears : Member ι → Member ι → Bool} {conv : UInt32}
  {g g' : Group ι} {es : List (Event ι)} {i : ι}

/-- What a receiver's callback has been given so far. -/
theorem Group.delivered_log_prefix (hfresh : g.Fresh conv)
    (hrun : Machine.run (Group.step hears) g es = some g') (hbound : g'.created < 2 ^ 31) (i : ι) :
    g'.delivered (.receiver i) <+: g'.accepted := by
  have hstart : g.broadcast.Ordered := by
    intro j
    have hnone : g.broadcast.delivered j = [] := hfresh.delivered _
    rw [hnone]
    exact List.nil_prefix
  exact OrderedLog.delivered_prefix (Group.run_refines hfresh hrun hbound) hstart i

theorem Transferred.length_le {path data : Bytes} {messages : List Bytes}
    (h : Transferred path data messages) :
    ∀ m ∈ messages, m.length ≤ sizeofFileHeader + data.length := by
  obtain ⟨pad, ⟨chunks, rfl, rfl⟩, -⟩ := h.chunked
  intro m hm
  obtain ⟨chunk, hchunk, rfl⟩ := List.mem_map.mp hm
  rw [List.length_append, FileHeader.length_bytes]
  exact Nat.add_le_add_left (List.sublist_flatten_of_mem hchunk).length_le _

theorem short_of_transferred (hsent : ∀ k, Transferred (path k) (data k) (messages k))
    (horder : ∀ k, (sent.filter (·.1 = k)).map Prod.snd <+: messages k)
    (hsmall : ∀ k, sizeofFileHeader + (data k).length ≤ bufferSize) :
    ∀ m ∈ sent.map Prod.snd, m.length ≤ bufferSize := by
  intro m hm
  obtain ⟨⟨k, m⟩, hmem, rfl⟩ := List.mem_map.mp hm
  refine Nat.le_trans ((hsent k).length_le m ((horder k).subset ?_)) (hsmall k)
  exact List.mem_map.mpr ⟨(k, m), List.mem_filter.mpr ⟨hmem, decide_eq_true rfl⟩, rfl⟩

end CppDemos
