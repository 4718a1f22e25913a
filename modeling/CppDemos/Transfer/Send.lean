import CppDemos.Transfer.Header
import CppDemos.Wrapper.Calls

/-!
# KCPWrapper::sendFileInternal

The file is read chunk by chunk, each chunk is sent behind a copy of the
header, and the loop ends at `eof()`. That becomes true only when a read comes
up short, so an empty file and a file of full chunks alone end with a message
that carries no data. If a read fails for another reason `eof()` stays false
and the loop never ends: the loop is given a number of turns, and `none` means
that they were not enough.

`sendFileInternal_spec`: on a live wrapper every message is accepted, so the
file ends up in its chunks, one more than the number of full ones.
-/

namespace CppDemos

inductive ErrorCode where
  | success
  | fileNotFound
  | fileReadError
  | fileWriteError
  | sendError
  | initError
  | invalidParameter
deriving DecidableEq, Repr

def chunkSize : Nat := 1024 * 64

/-! ## Files -/

/-- What the system does with a regular file: its bytes, whether it can be
opened, and whether reading behind the last byte fails instead of meeting the
end of the file. -/
structure RegularFile where
  data : Bytes
  opens : Bool := true
  readError : Bool := false
deriving DecidableEq, Repr

/-- An open `std::ifstream`; `bad` if a read has come up short. -/
structure Ifstream where
  rest : Bytes
  readError : Bool
  eof : Bool := false
  bad : Bool := false

/-- `read` and what it got. -/
def Ifstream.read (file : Ifstream) (n : Nat) : Ifstream × Bytes :=
  if file.bad then (file, [])
  else if file.rest.length < n then
    ({ file with rest := [], eof := !file.readError, bad := true }, file.rest)
  else ({ file with rest := file.rest.drop n }, file.rest.take n)

/-! ## Sending -/

/-- A wrapper with the calls made on it and the buffers `send` has accepted. -/
structure Sender where
  wrapper : KCPWrapper
  calls : List Call := []
  accepted : List Bytes := []

def Sender.send (s : Sender) (data : Bytes) : Sender × Bool :=
  let len := UInt64.ofNat data.length
  let (w, ok) := s.wrapper.send (some data) len
  ({ wrapper := w
     calls := s.calls ++ [.send (some data) len]
     accepted := if ok then s.accepted ++ [data] else s.accepted }, ok)

/-- The `while` loop of `sendFileInternal`. -/
def sendChunks : Nat → FileHeader → Ifstream → Sender → Option (Sender × ErrorCode)
  | 0, _, _, _ => none
  | fuel + 1, header, file, s =>
      if file.eof then some (s, .success)
      else
        let (file, chunk) := file.read chunkSize
        let (s, ok) := s.send (header.bytes ++ chunk)
        if !ok then some (s, .sendError) else sendChunks fuel header file s

/-- `sendFileInternal`, `file` being what is found at `filepath` and `pad` what
the header has between its fields. -/
def sendFileInternal (fuel : Nat) (pad : CharArray 3) (s : Sender) (file : Option RegularFile)
    (relativePath : Bytes) : Option (Sender × ErrorCode) :=
  match file with
  | none => some (s, .fileNotFound)
  | some file =>
      if !file.opens then some (s, .fileNotFound)
      else
        let header := fileHeader pad relativePath file.data.length
        sendChunks fuel header { rest := file.data, readError := file.readError } s

/-! ## What is sent -/

/-- `s'` is `s` after `send` has accepted `messages`. -/
structure Accepts (conv : UInt32) (s s' : Sender) (messages : List Bytes) : Prop where
  live : ∃ kcp, s'.wrapper.Live conv kcp
  calls : s'.calls
    = s.calls ++ messages.map fun m => .send (some m) (UInt64.ofNat m.length)
  accepted : s'.accepted = s.accepted ++ messages

theorem Accepts.trans {conv : UInt32} {a b c : Sender} {ms ns : List Bytes}
    (h : Accepts conv a b ms) (h' : Accepts conv b c ns) : Accepts conv a c (ms ++ ns) :=
  ⟨h'.live, by rw [h'.calls, h.calls, List.map_append, List.append_assoc],
    by rw [h'.accepted, h.accepted, List.append_assoc]⟩

theorem Sender.send_accepts {conv : UInt32} {s : Sender} {kcp : Ikcpcb}
    (hlive : s.wrapper.Live conv kcp) {data : Bytes} (hne : data ≠ []) (hfits : Fits data) :
    Accepts conv s (s.send data).1 [data] ∧ (s.send data).2 = true := by
  have hlen : data.length < 2 ^ 31 := by
    have := (fits_iff data).mp hfits
    omega
  rcases hlive.send data hlen with ⟨-, -, segs, -, heq⟩ | ⟨hnil | hnot, -⟩
  · obtain ⟨kcp', hw, hlive', -, -⟩ := hlive.send_frame (some data) (UInt64.ofNat data.length)
    have hok : (s.wrapper.send (some data) (UInt64.ofNat data.length)).2 = true := by rw [heq]
    refine ⟨⟨⟨kcp', hlive'⟩, rfl, ?_⟩, hok⟩
    rw [Sender.send]
    simp only [hok, if_true]
  · exact absurd hnil hne
  · exact absurd hfits hnot

/-- The messages of a file: the header in front of each chunk. A file whose
length is a multiple of the chunk size, the empty one too, ends with a message
that has no data behind its header. -/
structure Chunked (header : FileHeader) (data : Bytes) (messages : List Bytes) : Prop where
  chunks : ∃ chunks : List Bytes, messages = chunks.map (header.bytes ++ ·) ∧ chunks.flatten = data
  length : messages.length = data.length / chunkSize + 1

theorem chunk_fits (header : FileHeader) {chunk : Bytes} (h : chunk.length ≤ chunkSize) :
    header.bytes ++ chunk ≠ [] ∧ Fits (header.bytes ++ chunk) := by
  have hlen : (header.bytes ++ chunk).length = 272 + chunk.length := by
    rw [List.length_append, header.length_bytes, sizeofFileHeader]
  rw [chunkSize] at h
  constructor
  · intro hnil
    rw [hnil, List.length_nil] at hlen
    omega
  · rw [fits_iff]
    omega

theorem sendChunks_spec {conv : UInt32} (header : FileHeader) :
    ∀ (fuel : Nat) (rest : Bytes) (s : Sender), (∃ kcp, s.wrapper.Live conv kcp) →
      (∀ r, sendChunks fuel header { rest := rest, readError := false } s = some r →
        r.2 = .success ∧ ∃ messages, Chunked header rest messages ∧
          Accepts conv s r.1 messages) ∧
      (rest.length / chunkSize + 2 ≤ fuel →
        (sendChunks fuel header { rest := rest, readError := false } s).isSome) := by
  intro fuel
  induction fuel with
  | zero =>
      intro rest s _
      exact ⟨fun r h => (nomatch h), fun h => absurd h (Nat.not_succ_le_zero _)⟩
  | succ fuel ih =>
      intro rest s hlive
      obtain ⟨kcp, hlive⟩ := hlive
      have hpos : 0 < chunkSize := by decide
      rw [sendChunks]
      simp only [Bool.false_eq_true, if_false, Ifstream.read]
      by_cases hshort : rest.length < chunkSize
      · -- the last read: the next turn finds the end of the file
        rw [if_pos hshort]
        obtain ⟨hne, hfits⟩ := chunk_fits header (Nat.le_of_lt hshort)
        obtain ⟨hacc, hok⟩ := Sender.send_accepts hlive hne hfits
        have hdiv : rest.length / chunkSize = 0 := Nat.div_eq_of_lt hshort
        simp only [hok, Bool.not_true, Bool.false_eq_true, if_false, Bool.not_false]
        constructor
        · intro r hr
          cases fuel with
          | zero => cases hr
          | succ fuel =>
              rw [sendChunks, if_pos rfl] at hr
              obtain rfl := Option.some.inj hr
              exact ⟨rfl, _, ⟨⟨[rest], rfl, by simp⟩, by simp [hdiv]⟩, hacc⟩
        · intro hfuel
          obtain ⟨fuel, rfl⟩ : ∃ n, fuel = n + 1 := ⟨fuel - 1, by omega⟩
          rw [sendChunks, if_pos rfl]
          rfl
      · rw [if_neg hshort]
        have hge : chunkSize ≤ rest.length := Nat.le_of_not_lt hshort
        have htake : (rest.take chunkSize).length = chunkSize := by
          rw [List.length_take, Nat.min_eq_left hge]
        obtain ⟨hne, hfits⟩ := chunk_fits header (Nat.le_of_eq htake)
        obtain ⟨hacc, hok⟩ := Sender.send_accepts hlive hne hfits
        have hdiv : rest.length / chunkSize = (rest.drop chunkSize).length / chunkSize + 1 := by
          rw [List.length_drop]
          exact Nat.div_eq_sub_div hpos hge
        simp only [hok, Bool.not_true, Bool.false_eq_true, if_false]
        obtain ⟨hsome, htotal⟩ := ih (rest.drop chunkSize) _ hacc.live
        constructor
        · intro r hr
          obtain ⟨hcode, messages, ⟨⟨chunks, rfl, hflat⟩, hlen⟩, hmore⟩ := hsome r hr
          refine ⟨hcode, _, ⟨⟨rest.take chunkSize :: chunks, rfl, ?_⟩, ?_⟩, hacc.trans hmore⟩
          · rw [List.flatten_cons, hflat, List.take_append_drop]
          · rw [List.map_cons, List.length_cons, hlen, hdiv]
        · intro hfuel
          exact htotal (by omega)

theorem sendFileInternal_spec {conv : UInt32} {s : Sender} (hlive : ∃ kcp, s.wrapper.Live conv kcp)
    (fuel : Nat) (pad : CharArray 3) {file : RegularFile} (hopens : file.opens = true)
    (hread : file.readError = false) (relativePath : Bytes) :
    (∀ r, sendFileInternal fuel pad s (some file) relativePath = some r →
      r.2 = .success ∧ ∃ messages,
        Chunked (fileHeader pad relativePath file.data.length) file.data messages ∧
        Accepts conv s r.1 messages) ∧
    (file.data.length / chunkSize + 2 ≤ fuel →
      (sendFileInternal fuel pad s (some file) relativePath).isSome) := by
  simp only [sendFileInternal, hopens, Bool.not_true, Bool.false_eq_true, if_false, hread]
  exact sendChunks_spec _ fuel file.data s hlive

/-! ## Files that cannot be sent -/

/-- The file cannot be opened, or cannot be read to its end. -/
def RegularFile.Broken (file : RegularFile) : Prop := file.opens = false ∨ file.readError = true

instance (file : RegularFile) : Decidable file.Broken := inferInstanceAs (Decidable (_ ∨ _))

def turns (file : RegularFile) : Nat := file.data.length / chunkSize + 2

/-- A read gets no more than it asks for, and no end of the file where reading
fails. -/
theorem Ifstream.read_spec (file : Ifstream) (n : Nat) :
    (file.read n).2.length ≤ n ∧ (file.read n).1.readError = file.readError ∧
      (file.readError = true → file.eof = false → (file.read n).1.eof = false) := by
  rw [Ifstream.read]
  split
  · exact ⟨Nat.zero_le n, rfl, fun _ heof => heof⟩
  · split
    · rename_i hshort
      exact ⟨Nat.le_of_lt hshort, rfl, fun herror _ => by simp [herror]⟩
    · exact ⟨List.length_take_le .., rfl, fun _ heof => heof⟩

/-- When a read fails before the end of the file, `eof()` never becomes true:
the loop goes on with empty chunks. -/
theorem sendChunks_readError {conv : UInt32} (header : FileHeader) (fuel : Nat) {file : Ifstream}
    {s : Sender} (herror : file.readError = true) (heof : file.eof = false)
    (hlive : ∃ kcp, s.wrapper.Live conv kcp) : sendChunks fuel header file s = none := by
  induction fuel generalizing file s with
  | zero => rfl
  | succ fuel ih =>
      obtain ⟨kcp, hlive⟩ := hlive
      obtain ⟨hlen, herror', heof'⟩ := file.read_spec chunkSize
      obtain ⟨hne, hfits⟩ := chunk_fits header hlen
      obtain ⟨hacc, hok⟩ := Sender.send_accepts hlive hne hfits
      rw [sendChunks]
      simp only [heof, Bool.false_eq_true, if_false, hok, Bool.not_true]
      exact ih (herror'.trans herror) (heof' herror heof) hacc.live

/-- A file that is not broken is sent in its chunks, any other one ends in an
error or never. -/
theorem sendFileInternal_turns {conv : UInt32} {s : Sender}
    (hlive : ∃ kcp, s.wrapper.Live conv kcp) (pad : CharArray 3) (file : RegularFile)
    (relativePath : Bytes) :
    (file.Broken ∧ ∀ s', sendFileInternal (turns file) pad s (some file) relativePath
      ≠ some (s', .success)) ∨
    ¬ file.Broken ∧ ∃ s' messages,
      sendFileInternal (turns file) pad s (some file) relativePath = some (s', .success) ∧
      Chunked (fileHeader pad relativePath file.data.length) file.data messages ∧
      Accepts conv s s' messages := by
  cases hopens : file.opens with
  | false =>
      refine Or.inl ⟨Or.inl hopens, ?_⟩
      intro s' h
      rw [sendFileInternal, hopens] at h
      cases h
  | true =>
      cases herror : file.readError with
      | true =>
          refine Or.inl ⟨Or.inr herror, ?_⟩
          intro s' h
          rw [sendFileInternal, hopens, herror] at h
          simp only [Bool.not_true, Bool.false_eq_true, if_false] at h
          rw [sendChunks_readError _ _ rfl rfl hlive] at h
          cases h
      | false =>
          have hwhole : ¬ file.Broken := by
            rintro (hclosed | hfails)
            · rw [hopens] at hclosed
              cases hclosed
            · rw [herror] at hfails
              cases hfails
          obtain ⟨hspec, htotal⟩ :=
            sendFileInternal_spec hlive (turns file) pad hopens herror relativePath
          obtain ⟨⟨s', code⟩, hres⟩ := Option.isSome_iff_exists.mp (htotal (Nat.le_refl _))
          obtain ⟨hcode, messages, hchunked, hacc⟩ := hspec _ hres
          obtain rfl : code = .success := hcode
          exact Or.inr ⟨hwhole, s', messages, hres, hchunked, hacc⟩

end CppDemos
