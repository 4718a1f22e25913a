import CppDemos.Transfer.Send

/-!
# Input streams that misbehave

`sendFileInternal` on any stream: what `tellg` reports need not be what is read,
the last read may fail instead of meeting the end of the file, and the progress
callback may use the wrapper or throw. The loop looks at `eof()` alone. After a
failed read that stays false and every further read is empty, so the loop never
ends (`sendReads_stuck`); at the end of the file it returns `SUCCESS` whatever
was read. `chunks_reported_iff` says when neither happens.

`sendReads_regularFile` is the connection to `sendChunks`, which is the same
loop on the reads of a regular file.
-/

namespace CppDemos

/-! ## Definitions -/

/-- An input stream that has been opened: what `tellg` returns at its end, the
bytes that the reads yield one after the other, and whether the last of them
fails or meets the end of the file. -/
structure InStream where
  tellg : Int
  reads : List Bytes
  fails : Bool
  nonempty : reads ≠ []
  read_le : ∀ chunk ∈ reads, chunk.length ≤ chunkSize

/-- The conversion of a stream position to `size_t`. -/
def sizeT (pos : Int) : Nat := (pos % 2 ^ 64).toNat

/-- What the progress callback does with the wrapper when it is called for the
`i`-th time; `none` if it throws. -/
abbrev Progress := Nat → Option (List Call)

/-- How far `sendFileInternal` has come. -/
inductive Outcome where
  | running
  | returned (code : ErrorCode)
  | threw
deriving DecidableEq, Repr

/-- The wrapper, the buffers passed to `send`, and the outcome. -/
structure ChunkRun where
  wrapper : KCPWrapper
  messages : List Bytes := []
  outcome : Outcome

/-- The same run with a buffer passed to `send` before. -/
def ChunkRun.after (message : Bytes) (r : ChunkRun) : ChunkRun :=
  { r with messages := message :: r.messages }

/-- The `while` loop of `sendFileInternal` for so many turns, on a stream that
is still to yield `reads`; `eof()` is true once they are used up, unless the
last of them failed. -/
def sendReads (header : FileHeader) (fails : Bool) (progress : Progress) :
    Nat → Nat → List Bytes → KCPWrapper → ChunkRun
  | 0, _, _, w => { wrapper := w, outcome := .running }
  | turns + 1, i, reads, w =>
      if reads = [] ∧ fails = false then { wrapper := w, outcome := .returned .success }
      else
        let message := header.bytes ++ reads.headD []
        let (w, ok) := w.send (some message) (UInt64.ofNat message.length)
        if !ok then { wrapper := w, messages := [message], outcome := .returned .sendError }
        else
          match progress i with
          | none => { wrapper := w, messages := [message], outcome := .threw }
          | some cs =>
              (sendReads header fails progress turns (i + 1) reads.tail (w.calls cs).1).after
                message

/-- `sendFileInternal` on what opening the file gives. -/
def sendStream (pad : CharArray 3) (relativePath : Bytes) (progress : Progress)
    (file : Option InStream) (turns : Nat) (w : KCPWrapper) : ChunkRun :=
  match file with
  | none => { wrapper := w, outcome := .returned .fileNotFound }
  | some file =>
      sendReads (fileHeader pad relativePath (sizeT file.tellg)) file.fails progress turns 0
        file.reads w

/-- How many payload bytes were passed to `send`. -/
def ChunkRun.payload (r : ChunkRun) : Nat :=
  (r.messages.flatMap fun m => m.drop sizeofFileHeader).length

/-- The loop ends. It returns success only if the payload comes to `size`, given
that `before` bytes were sent before, and once the read fails that is the last of
`reads` it returns an error. -/
structure Reports (run : Nat → ChunkRun) (before size : Nat) (reads : List Bytes) (fails : Bool) :
    Prop where
  ends : ∃ turns, (run turns).outcome ≠ .running
  success : ∀ turns, (run turns).outcome = .returned .success →
    before + (run turns).payload = size
  failure : fails = true → (∃ turns, reads.length ≤ (run turns).messages.length) →
    ∃ turns code, (run turns).outcome = .returned code ∧ code ≠ .success

/-! ## One turn -/

variable {header : FileHeader} {fails : Bool} {progress : Progress} {conv : UInt32}
  {w : KCPWrapper}

theorem KCPWrapper.Live.calls {kcp : Ikcpcb} (h : w.Live conv kcp) (cs : List Call) :
    ∃ kcp', (w.calls cs).1.Live conv kcp' := by
  induction cs generalizing w kcp with
  | nil => exact ⟨kcp, h⟩
  | cons c cs ih =>
      obtain ⟨kcp', -, hlive⟩ := h.call c
      exact ih hlive

theorem send_chunk (header : FileHeader) (hlive : ∃ kcp, w.Live conv kcp) {chunk : Bytes}
    (hle : chunk.length ≤ chunkSize) :
    ∃ w', (∃ kcp, w'.Live conv kcp) ∧ w.send (some (header.bytes ++ chunk))
      (UInt64.ofNat (header.bytes ++ chunk).length) = (w', true) := by
  obtain ⟨kcp, hlive⟩ := hlive
  obtain ⟨hne, hfits⟩ := chunk_fits header hle
  obtain ⟨hacc, hok⟩ := Sender.send_accepts (s := { wrapper := w }) hlive hne hfits
  exact ⟨_, hacc.live, Prod.ext rfl hok⟩

theorem sendReads_turn (header : FileHeader) (progress : Progress)
    (hlive : ∃ kcp, w.Live conv kcp) {reads : List Bytes}
    (hle : ∀ chunk ∈ reads, chunk.length ≤ chunkSize) (hgo : ¬ (reads = [] ∧ fails = false))
    (i : Nat) :
    ∃ w', (∃ kcp, w'.Live conv kcp) ∧ ∀ turns,
      sendReads header fails progress (turns + 1) i reads w =
        if progress i = none then
          { wrapper := w', messages := [header.bytes ++ reads.headD []], outcome := .threw }
        else
          (sendReads header fails progress turns (i + 1) reads.tail w').after
            (header.bytes ++ reads.headD []) := by
  have hhead : (reads.headD []).length ≤ chunkSize := by
    cases reads with
    | nil => exact Nat.zero_le _
    | cons chunk reads => exact hle chunk (List.mem_cons_self ..)
  obtain ⟨w', ⟨kcp, hlive'⟩, hsend⟩ := send_chunk header hlive hhead
  cases hp : progress i with
  | none =>
      refine ⟨w', ⟨kcp, hlive'⟩, ?_⟩
      intro turns
      simp only [sendReads, if_neg hgo, hsend, hp]
      rfl
  | some cs =>
      refine ⟨(w'.calls cs).1, hlive'.calls cs, ?_⟩
      intro turns
      simp only [sendReads, if_neg hgo, hsend, hp]
      rfl

theorem sendReads_end (turns i : Nat) (w : KCPWrapper) :
    sendReads header false progress (turns + 1) i [] w
      = { wrapper := w, outcome := .returned .success } := by
  simp [sendReads]

/-- After a failed read the loop sends empty chunks until the callback throws. -/
theorem sendReads_stuck :
    ∀ (turns i : Nat) {w : KCPWrapper}, (∃ kcp, w.Live conv kcp) → ∀ code,
      (sendReads header true progress turns i [] w).outcome ≠ .returned code
  | 0, _, _, _, _ => nofun
  | turns + 1, i, w, hlive, code => by
      have hle : ∀ chunk ∈ ([] : List Bytes), chunk.length ≤ chunkSize := fun _ h => nomatch h
      have hgo : ¬ (([] : List Bytes) = [] ∧ true = false) := by simp
      obtain ⟨w', hlive', hturn⟩ := sendReads_turn header progress hlive hle hgo i
      rw [hturn]
      split
      · nofun
      · exact sendReads_stuck turns (i + 1) hlive' code

/-! ## Reports, turn by turn -/

section Reports

variable {run run' : Nat → ChunkRun} {before size : Nat} {reads : List Bytes} {chunk : Bytes}

theorem payload_after (r : ChunkRun) :
    (r.after (header.bytes ++ chunk)).payload = chunk.length + r.payload := by
  have hdrop : (header.bytes ++ chunk).drop sizeofFileHeader = chunk := by
    rw [← header.length_bytes, List.drop_left]
  rw [ChunkRun.after, ChunkRun.payload, List.flatMap_cons, List.length_append, hdrop]
  rfl

theorem reports_after (hstart : run 0 = { wrapper := w, outcome := .running })
    (hstep : ∀ turns, run (turns + 1) = (run' turns).after (header.bytes ++ chunk)) :
    Reports run before size (chunk :: reads) fails ↔
      Reports run' (before + chunk.length) size reads fails := by
  have houtcome (turns : Nat) : (run (turns + 1)).outcome = (run' turns).outcome := by
    rw [hstep]
    rfl
  have hlength (turns : Nat) :
      (run (turns + 1)).messages.length = (run' turns).messages.length + 1 := by
    rw [hstep]
    rfl
  constructor
  · intro h
    refine ⟨?_, ?_, ?_⟩
    · obtain ⟨turns, hends⟩ := h.ends
      cases turns with
      | zero =>
          rw [hstart] at hends
          exact absurd rfl hends
      | succ turns => exact ⟨turns, by rwa [houtcome] at hends⟩
    · intro turns hsuccess
      have hsum := h.success (turns + 1) ((houtcome turns).trans hsuccess)
      rw [hstep, payload_after] at hsum
      omega
    · rintro hfails ⟨turns, hall⟩
      have hmore : (chunk :: reads).length ≤ (run (turns + 1)).messages.length := by
        rw [hlength]
        exact Nat.succ_le_succ hall
      obtain ⟨turns', code, hreturned, hcode⟩ := h.failure hfails ⟨_, hmore⟩
      cases turns' with
      | zero =>
          rw [hstart] at hreturned
          cases hreturned
      | succ turns' => exact ⟨turns', code, by rwa [houtcome] at hreturned, hcode⟩
  · intro h
    refine ⟨?_, ?_, ?_⟩
    · obtain ⟨turns, hends⟩ := h.ends
      exact ⟨turns + 1, by rwa [houtcome]⟩
    · intro turns hsuccess
      cases turns with
      | zero =>
          rw [hstart] at hsuccess
          cases hsuccess
      | succ turns =>
          have hsum := h.success turns ((houtcome turns).symm.trans hsuccess)
          rw [hstep, payload_after]
          omega
    · rintro hfails ⟨turns, hall⟩
      cases turns with
      | zero =>
          rw [hstart] at hall
          exact absurd hall (Nat.not_succ_le_zero _)
      | succ turns =>
          rw [hlength] at hall
          obtain ⟨turns', code, hreturned, hcode⟩ :=
            h.failure hfails ⟨turns, Nat.le_of_succ_le_succ hall⟩
          exact ⟨turns' + 1, code, (houtcome turns').trans hreturned, hcode⟩

/-- A turn in which the callback throws: only a read error before is lost. -/
theorem reports_threw {w' : KCPWrapper} {message : Bytes}
    (hstart : run 0 = { wrapper := w, outcome := .running })
    (hstep : ∀ turns, run (turns + 1)
      = { wrapper := w', messages := [message], outcome := .threw }) :
    Reports run before size (chunk :: reads) fails ↔ fails = false ∨ reads ≠ [] := by
  have hnever (turns : Nat) (code : ErrorCode) : (run turns).outcome ≠ .returned code := by
    cases turns with
    | zero => rw [hstart]; nofun
    | succ turns => rw [hstep]; nofun
  have hlength (turns : Nat) : (run turns).messages.length ≤ 1 := by
    cases turns with
    | zero => rw [hstart]; exact Nat.zero_le 1
    | succ turns => rw [hstep]; exact Nat.le_refl 1
  constructor
  · intro h
    by_contra hnot
    obtain ⟨hfails, hnil⟩ := not_or.mp hnot
    obtain rfl : reads = [] := by simpa using hnil
    obtain ⟨turns, code, hreturned, -⟩ := h.failure (by simpa using hfails)
      ⟨1, by rw [hstep]; exact Nat.le_refl 1⟩
    exact hnever turns code hreturned
  · intro hor
    refine ⟨⟨1, by rw [hstep]; nofun⟩, fun turns hs => absurd hs (hnever turns _), ?_⟩
    rintro hfails ⟨turns, hall⟩
    rcases hor with hgood | hne
    · rw [hfails] at hgood
      cases hgood
    · have hpos := List.length_pos_iff.mpr hne
      have hle := Nat.le_trans hall (hlength turns)
      rw [List.length_cons] at hle
      omega

end Reports

/-! ## The whole loop -/

/-- When the loop reports what happens: the callback throws before the last read,
or that meets the end of the file and all reads together come to `size` (or the
callback throws then). -/
def Reported (progress : Progress) (i before size : Nat) (reads : List Bytes) (fails : Bool) :
    Prop :=
  (∃ j, j + 1 < reads.length ∧ progress (i + j) = none) ∨
    (fails = false ∧
      (progress (i + (reads.length - 1)) = none ∨ before + reads.flatten.length = size))

theorem reported_cons {i before size : Nat} {chunk next : Bytes} {reads : List Bytes}
    (hp : progress i ≠ none) :
    Reported progress i before size (chunk :: next :: reads) fails ↔
      Reported progress (i + 1) (before + chunk.length) size (next :: reads) fails := by
  unfold Reported
  refine or_congr ?_ (and_congr_right fun _ => or_congr ?_ ?_)
  · constructor
    · rintro ⟨j, hj, hnone⟩
      cases j with
      | zero => exact absurd hnone hp
      | succ j =>
          refine ⟨j, Nat.lt_of_succ_lt_succ hj, ?_⟩
          rwa [Nat.add_right_comm]
    · rintro ⟨j, hj, hnone⟩
      refine ⟨j + 1, Nat.succ_lt_succ hj, ?_⟩
      rwa [Nat.add_right_comm] at hnone
  · simp only [List.length_cons, Nat.add_sub_cancel]
    rw [Nat.add_right_comm, Nat.add_assoc]
  · rw [List.flatten_cons, List.length_append, Nat.add_assoc]

theorem reports_nil {i before size : Nat} (hlive : ∃ kcp, w.Live conv kcp) :
    Reports (fun turns => sendReads header fails progress turns i [] w) before size [] fails ↔
      fails = false ∧ before = size := by
  cases fails with
  | true =>
      constructor
      · intro h
        obtain ⟨turns, code, hreturned, -⟩ := h.failure rfl ⟨0, Nat.le_refl 0⟩
        exact absurd hreturned (sendReads_stuck turns i hlive code)
      · rintro ⟨⟨⟩, -⟩
  | false =>
      constructor
      · intro h
        have hsum := h.success 1 (by rw [sendReads_end])
        rw [sendReads_end] at hsum
        exact ⟨rfl, hsum⟩
      · rintro ⟨-, rfl⟩
        refine ⟨⟨1, by rw [sendReads_end]; nofun⟩, ?_, fun hfails => nomatch hfails⟩
        intro turns hsuccess
        cases turns with
        | zero => cases hsuccess
        | succ turns =>
            rw [sendReads_end]
            rfl

theorem reports_iff_reported {size : Nat} :
    ∀ (reads : List Bytes) {i before : Nat} {w : KCPWrapper}, (∃ kcp, w.Live conv kcp) →
      reads ≠ [] → (∀ chunk ∈ reads, chunk.length ≤ chunkSize) →
      (Reports (fun turns => sendReads header fails progress turns i reads w) before size reads
        fails ↔ Reported progress i before size reads fails)
  | [], _, _, _, _, hne, _ => absurd rfl hne
  | chunk :: reads, i, before, w, hlive, _, hle => by
      have hgo : ¬ (chunk :: reads = [] ∧ fails = false) := by simp
      obtain ⟨w', hlive', hturn⟩ := sendReads_turn header progress hlive hle hgo i
      simp only [List.headD_cons, List.tail_cons] at hturn
      cases hp : progress i with
      | none =>
          simp only [hp, if_true] at hturn
          rw [reports_threw rfl hturn]
          cases reads with
          | nil => simp [Reported, hp]
          | cons next reads =>
              exact iff_of_true (Or.inr (List.cons_ne_nil _ _))
                (Or.inl ⟨0, by simp, hp⟩)
      | some cs =>
          simp only [hp, reduceCtorEq, if_false] at hturn
          rw [reports_after rfl hturn]
          cases reads with
          | nil =>
              rw [reports_nil hlive']
              simp [Reported, hp]
          | cons next reads =>
              have hp' : progress i ≠ none := by
                rw [hp]
                nofun
              rw [reported_cons hp']
              exact reports_iff_reported (next :: reads) hlive' (List.cons_ne_nil _ _)
                fun c hc => hle c (List.mem_cons_of_mem _ hc)

theorem sendReads_uninitialized (header : FileHeader) (fails : Bool) (progress : Progress)
    (hinit : w.initialized = false) {reads : List Bytes} (hne : reads ≠ []) (turns i : Nat) :
    sendReads header fails progress (turns + 1) i reads w =
      { wrapper := w, messages := [header.bytes ++ reads.headD []],
        outcome := .returned .sendError } := by
  have hsend (data : Bytes) (len : UInt64) : w.send (some data) len = (w, false) := by
    unfold KCPWrapper.send
    rw [if_pos (Or.inl hinit)]
  simp [sendReads, hne, hsend]

/-- For every opened stream, every callback and every wrapper that is live or not
initialised: the chunk loop ends, returns success only if the payload comes to
`header.size`, and returns an error after a failed read, if and only if the
wrapper is not initialised, the callback throws before the last read, or the last
read meets the end of the file and all reads together come to `header.size` (or
the callback throws then). -/
theorem chunks_reported_iff (hwrapper : w.initialized = true → ∃ conv kcp, w.Live conv kcp)
    (pad : CharArray 3) (relativePath : Bytes) (progress : Progress) (file : InStream) :
    Reports (fun turns => sendStream pad relativePath progress (some file) turns w) 0
        (fileHeader pad relativePath (sizeT file.tellg)).size.toNat file.reads file.fails ↔
      w.initialized = false ∨ (∃ j, j + 1 < file.reads.length ∧ progress j = none) ∨
        (file.fails = false ∧ (progress (file.reads.length - 1) = none ∨
          file.reads.flatten.length = sizeT file.tellg)) := by
  have hsize : (fileHeader pad relativePath (sizeT file.tellg)).size.toNat = sizeT file.tellg := by
    simp only [fileHeader, sizeT, UInt64.toNat_ofNat']
    omega
  rw [hsize]
  simp only [sendStream]
  cases hinit : w.initialized with
  | false =>
      simp only [true_or, iff_true]
      have hturn := sendReads_uninitialized (fileHeader pad relativePath (sizeT file.tellg))
        file.fails progress hinit file.nonempty
      refine ⟨⟨1, ?_⟩, ?_, fun _ _ => ⟨1, .sendError, by rw [hturn], ?_⟩⟩
      · rw [hturn]
        intro heq
        cases heq
      · intro turns hsuccess
        cases turns with
        | zero => cases hsuccess
        | succ turns =>
            rw [hturn] at hsuccess
            cases hsuccess
      · intro heq
        cases heq
  | true =>
      obtain ⟨conv, hlive⟩ := hwrapper hinit
      rw [reports_iff_reported file.reads hlive file.nonempty file.read_le, Reported]
      simp only [Nat.zero_add, Bool.true_eq_false, false_or]

/-! ## Regular files -/

/-- The reads of a file with `n` full chunks: these, and what is behind them. -/
def fileReads : Nat → Bytes → List Bytes
  | 0, rest => [rest]
  | n + 1, rest => rest.take chunkSize :: fileReads n (rest.drop chunkSize)

theorem fileReads_spec :
    ∀ (n : Nat) (rest : Bytes), rest.length / chunkSize = n →
      fileReads n rest ≠ [] ∧ (∀ chunk ∈ fileReads n rest, chunk.length ≤ chunkSize) ∧
        (fileReads n rest).flatten = rest
  | 0, rest, h => by
      have hlt : rest.length < chunkSize := (Nat.div_eq_zero_iff_lt (by decide)).mp h
      refine ⟨List.cons_ne_nil _ _, ?_, by simp [fileReads]⟩
      intro chunk hmem
      rw [List.mem_singleton.mp hmem]
      exact Nat.le_of_lt hlt
  | n + 1, rest, h => by
      have hdiv : (rest.drop chunkSize).length / chunkSize = n := by
        have hge : chunkSize ≤ rest.length := by
          by_contra hlt
          rw [Nat.div_eq_of_lt (Nat.lt_of_not_le hlt)] at h
          cases h
        rw [Nat.div_eq_sub_div (by decide) hge] at h
        rw [List.length_drop]
        exact Nat.succ.inj h
      obtain ⟨-, hle, hflat⟩ := fileReads_spec n _ hdiv
      refine ⟨List.cons_ne_nil _ _, ?_, ?_⟩
      · intro chunk hmem
        rcases List.mem_cons.mp hmem with rfl | hmem
        · exact List.length_take_le ..
        · exact hle chunk hmem
      · rw [fileReads, List.flatten_cons, hflat, List.take_append_drop]

/-- A regular file as a stream that can be opened. -/
def RegularFile.stream (file : RegularFile) : InStream :=
  have h := fileReads_spec _ file.data rfl
  { tellg := file.data.length
    reads := fileReads (file.data.length / chunkSize) file.data
    fails := file.readError
    nonempty := h.1
    read_le := h.2.1 }

/-- What the stream is still to yield. -/
def Ifstream.pending (file : Ifstream) : List Bytes :=
  if file.bad then [] else fileReads (file.rest.length / chunkSize) file.rest

/-- `eof()` as the reads make it. -/
def Ifstream.EofOk (file : Ifstream) : Prop := file.eof = (file.bad && !file.readError)

theorem Ifstream.eof_iff {file : Ifstream} (h : file.EofOk) :
    file.eof = true ↔ file.pending = [] ∧ file.readError = false := by
  rw [h, Ifstream.pending]
  cases hbad : file.bad with
  | true => simp
  | false => simpa using fun hnil => absurd hnil (fileReads_spec _ file.rest rfl).1

theorem Ifstream.read_pending {file : Ifstream} (h : file.EofOk) :
    (file.read chunkSize).2 = file.pending.headD [] ∧
      (file.read chunkSize).1.pending = file.pending.tail ∧
      (file.read chunkSize).1.EofOk ∧ (file.read chunkSize).1.readError = file.readError := by
  rw [Ifstream.read, Ifstream.pending]
  cases hbad : file.bad with
  | true =>
      simp only [if_true]
      refine ⟨rfl, ?_, h, trivial⟩
      rw [Ifstream.pending, if_pos hbad, List.tail_nil]
  | false =>
      simp only [Bool.false_eq_true, if_false]
      by_cases hshort : file.rest.length < chunkSize
      · rw [if_pos hshort, Nat.div_eq_of_lt hshort, fileReads]
        refine ⟨by rw [List.headD_cons], ?_, by simp [EofOk], rfl⟩
        rw [Ifstream.pending, if_pos rfl, List.tail_cons]
      · have hge : chunkSize ≤ file.rest.length := Nat.le_of_not_lt hshort
        rw [if_neg hshort, Nat.div_eq_sub_div (by decide) hge, fileReads]
        refine ⟨by rw [List.headD_cons], ?_, ?_, rfl⟩
        · rw [Ifstream.pending, if_neg (by simp), List.length_drop, List.tail_cons]
        · rw [EofOk, h, hbad]

/-- `sendChunks` is the loop without a callback, on what the file yields. -/
theorem sendReads_regularFile (header : FileHeader) :
    ∀ (turns i : Nat) (file : Ifstream) (s : Sender), file.EofOk →
      let r := sendReads header file.readError (fun _ => some []) turns i file.pending s.wrapper
      match sendChunks turns header file s with
      | none => r.outcome = .running
      | some (s', code) => r.outcome = .returned code ∧ r.wrapper = s'.wrapper ∧
          s'.calls = s.calls ++ r.messages.map fun m => .send (some m) (UInt64.ofNat m.length)
  | 0, _, _, _, _ => rfl
  | turns + 1, i, file, s, h => by
      obtain ⟨hchunk, hpending, hok, herror⟩ := file.read_pending h
      simp only [sendChunks, sendReads]
      by_cases heof : file.eof = true
      · rw [if_pos heof, if_pos ((file.eof_iff h).mp heof)]
        exact ⟨rfl, rfl, by simp⟩
      · rw [if_neg heof, if_neg fun hc => heof ((file.eof_iff h).mpr hc), ← hchunk]
        have ih := sendReads_regularFile header turns (i + 1) (file.read chunkSize).1
          (s.send (header.bytes ++ (file.read chunkSize).2)).1 hok
        rw [hpending, herror] at ih
        generalize header.bytes ++ (file.read chunkSize).2 = message at ih ⊢
        have hwrapper : (s.send message).1.wrapper =
          (s.wrapper.send (some message) (UInt64.ofNat message.length)).1 := rfl
        have hresult : (s.send message).2 =
          (s.wrapper.send (some message) (UInt64.ofNat message.length)).2 := rfl
        have hcalls : (s.send message).1.calls =
          s.calls ++ [.send (some message) (UInt64.ofNat message.length)] := rfl
        rw [hwrapper, hcalls] at ih
        rw [hresult]
        cases hsent : (s.wrapper.send (some message) (UInt64.ofNat message.length)).2 with
        | false => exact ⟨rfl, rfl, rfl⟩
        | true =>
            simp only [Bool.not_true, Bool.false_eq_true, if_false, KCPWrapper.calls]
            revert ih
            cases sendChunks turns header (file.read chunkSize).1 (s.send message).1 with
            | none => exact id
            | some r =>
                rintro ⟨houtcome, hw, hlog⟩
                refine ⟨houtcome, hw, ?_⟩
                rw [hlog, List.append_assoc]
                rfl

/-- `sendFileInternal` on a regular file that can be opened is `sendStream` on
its stream. -/
theorem sendStream_regularFile (pad : CharArray 3) (relativePath : Bytes) {file : RegularFile}
    (hopens : file.opens = true) (turns : Nat) (s : Sender)
    (hsize : file.data.length < 2 ^ 64) :
    let r := sendStream pad relativePath (fun _ => some []) (some file.stream) turns s.wrapper
    match sendFileInternal turns pad s (some file) relativePath with
    | none => r.outcome = .running
    | some (s', code) => r.outcome = .returned code ∧ r.wrapper = s'.wrapper ∧
        s'.calls = s.calls ++ r.messages.map fun m => .send (some m) (UInt64.ofNat m.length) := by
  have htell : sizeT file.stream.tellg = file.data.length := by
    simp only [RegularFile.stream, sizeT]
    omega
  have hloop := sendReads_regularFile (fileHeader pad relativePath file.data.length) turns 0
    { rest := file.data, readError := file.readError } s rfl
  simp only [sendFileInternal, hopens, Bool.not_true, Bool.false_eq_true, if_false, sendStream,
    htell]
  exact hloop

/-! ## Instances -/

def oneByte : InStream where
  tellg := 1
  reads := [[104]]
  fails := false
  nonempty := List.cons_ne_nil _ _
  read_le := by decide

/-- A directory that was opened as a file: the first read fails. -/
def unreadable : InStream where
  tellg := 9223372036854775807
  reads := [[]]
  fails := true
  nonempty := List.cons_ne_nil _ _
  read_le := by decide

theorem chunks_reported_iff_oneByte :
    Reports (fun turns => sendStream (.zero 3) [102] (fun _ => some []) (some oneByte) turns
        senderWrapper) 0 (fileHeader (.zero 3) [102] (sizeT 1)).size.toNat oneByte.reads
        oneByte.fails ↔
      senderWrapper.initialized = false ∨
        (∃ j, j + 1 < oneByte.reads.length ∧ (some [] : Option (List Call)) = none) ∨
        (oneByte.fails = false ∧ ((some [] : Option (List Call)) = none ∨
          oneByte.reads.flatten.length = sizeT 1)) :=
  chunks_reported_iff (fun _ => ⟨_, _, senderWrapper_live⟩) (.zero 3) [102] (fun _ => some [])
    oneByte

/-- The loop goes on sending empty chunks for ever. -/
theorem unreadable_not_reported :
    ¬ ∀ (w : KCPWrapper) (pad : CharArray 3) (relativePath : Bytes) (progress : Progress)
        (file : InStream), (∃ conv kcp, w.Live conv kcp) →
      Reports (fun turns => sendStream pad relativePath progress (some file) turns w) 0
        (fileHeader pad relativePath (sizeT file.tellg)).size.toNat file.reads file.fails := by
  intro h
  have hreports := h senderWrapper (.zero 3) [102] (fun _ => some []) unreadable
    ⟨_, _, senderWrapper_live⟩
  simp only [sendStream] at hreports
  rw [reports_iff_reported unreadable.reads ⟨_, senderWrapper_live⟩ unreadable.nonempty
    unreadable.read_le] at hreports
  rcases hreports with ⟨j, -, hnone⟩ | ⟨hfails, -⟩
  · cases hnone
  · cases hfails

end CppDemos
