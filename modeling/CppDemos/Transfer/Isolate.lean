import CppDemos.Transfer.Names

/-!
# What a message is read from

`onDataReceived` is given a pointer and a length, and compares the length with
the size of the header only. The payload is cut by the length; the name is cut by
its first zero, in the field or behind it. So what is behind the message has a say
in the path just if the message has no zero from the field on, and the name is the
field's just if a zero comes no later than the first byte of the payload.

Both are about the path that is handed to the system, so they hold whatever lengths of
names and paths the system takes.
-/

namespace CppDemos

open LexPath FileTree FileReceiver

/-! ## The field as a C string -/

theorem cstr_append_of_mem {p : Bytes} (h : 0 ∈ p) (q : Bytes) : cstr (p ++ q) = cstr p := by
  induction p with
  | nil => cases h
  | cons b p ih =>
      by_cases hb : b = 0
      · simp [cstr, hb]
      · have hmem : 0 ∈ p := (List.mem_cons.mp h).resolve_left fun h0 => hb h0.symm
        have htail : cstr (p ++ q) = cstr p := ih hmem
        simp only [cstr] at htail
        simp [cstr, hb, htail]

theorem cstr_append {p : Bytes} (h : 0 ∉ p) (q : Bytes) : cstr (p ++ q) = p ++ cstr q :=
  List.takeWhile_append_of_pos (ne_zero_of_not_mem h)

theorem le_length_cstr {p : Bytes} {n : Nat} (hn : n ≤ p.length) (h : 0 ∉ p.take n) :
    n ≤ (cstr p).length := by
  rw [← List.take_append_drop n p, cstr_append h, List.length_append, List.length_take]
  omega

/-- The 256 bytes of `header->filename`. -/
def fieldOf (data : Bytes) : Bytes := (data.drop 16).take 256

/-! ## Two arrivals of one message -/

/-- Whatever is behind the message, it does the same to the files, or is ignored. -/
def OwnEffect (savePath data : Bytes) : Prop :=
  ∀ fs, Ready savePath fs → ∀ behind behind',
    onDataReceived savePath fs ⟨data, behind⟩ = onDataReceived savePath fs ⟨data, behind'⟩

/-- The path, where it comes to that, is the same. -/
def OwnPath (savePath data : Bytes) : Prop :=
  ∀ behind behind', ¬ (Arrival.mk data behind).Dropped →
    (Arrival.mk data behind).fullPath savePath = (Arrival.mk data behind').fullPath savePath

/-- The name is that of the field. -/
def OwnName (data : Bytes) : Prop :=
  ∀ behind, ¬ (Arrival.mk data behind).Dropped →
    (Arrival.mk data behind).filename = cstr (fieldOf data)

variable {savePath data : Bytes}

theorem ownEffect_of_dropped (h : (Arrival.mk data []).Dropped) : OwnEffect savePath data := by
  intro fs _ behind behind'
  rw [onDataReceived_dropped (m := ⟨data, behind⟩) h,
    onDataReceived_dropped (m := ⟨data, behind'⟩) h]

/-- With a zero from the field on, the name ends in the message. -/
theorem filenameOf_ended (h : 0 ∈ data.drop 16) (behind : Bytes) :
    filenameOf data behind = cstr (data.drop 16) :=
  cstr_append_of_mem h behind

theorem ownPath_of_ended (h : 0 ∈ data.drop 16) : OwnPath savePath data := by
  intro behind behind' _
  rw [Arrival.fullPath, Arrival.fullPath, Arrival.filename, Arrival.filename,
    filenameOf_ended h, filenameOf_ended h]

theorem ownEffect_of_ended (h : 0 ∈ data.drop 16) : OwnEffect savePath data := by
  intro fs _ behind behind'
  by_cases hdrop : (Arrival.mk data behind).Dropped
  · exact ownEffect_of_dropped hdrop fs ‹_› behind behind'
  · have hpath : (Arrival.mk data behind).fullPath savePath
        = (Arrival.mk data behind').fullPath savePath := ownPath_of_ended h behind behind' hdrop
    simp only [onDataReceived, hpath]
    rfl

theorem drop_ne_nil (hdrop : ¬ (Arrival.mk data []).Dropped) : data.drop 16 ≠ [] := by
  intro hnil
  have hlen := congrArg List.length hnil
  have hshort := (not_or.mp hdrop).1
  simp only [List.length_drop, List.length_nil, sizeofFileHeader] at hlen hshort
  omega

theorem filenameOf_unended (h : 0 ∉ data.drop 16) {c : Name} (hc : 0 ∉ c) :
    filenameOf data (slash :: c ++ [0]) = data.drop 16 ++ slash :: c := by
  have hslash : (0 : UInt8) ∉ slash :: c :=
    fun hmem => (List.mem_cons.mp hmem).elim (fun h0 => by cases h0) hc
  rw [filenameOf, cstr_append h, cstr_append_zero hslash]

/-- One name more behind the message is one level further down. -/
theorem locate_unended (hne : savePath ≠ []) (hdata : data.drop 16 ≠ [])
    (h : 0 ∉ data.drop 16) {c : Name} (hc : 0 ∉ c) (hone : split c = [c]) :
    locate ((Arrival.mk data (slash :: c ++ [0])).fullPath savePath)
      = (locate (join savePath (data.drop 16))).enter c := by
  rw [Arrival.fullPath, Arrival.filename, filenameOf_unended h hc, join_append hdata,
    locate_append_slash (join_ne_nil hne _), hone, Loc.walk_cons, Loc.walk_nil]

/-- Without a zero the name goes on behind the message, and with any two things there
the paths differ as they do. -/
theorem not_ownPath (hdrop : ¬ (Arrival.mk data []).Dropped) (h : 0 ∉ data.drop 16) :
    ¬ OwnPath savePath data := by
  intro hown
  have hne := drop_ne_nil hdrop
  have hpath (b : UInt8) (hb : b ≠ 0) : (Arrival.mk data [b, 0]).fullPath savePath
      = join savePath (data.drop 16) ++ [b] := by
    have hzero : (0 : UInt8) ∉ [b] := fun hmem => hb (List.mem_singleton.mp hmem).symm
    have hcstr : cstr [b, 0] = [b] := cstr_append_zero hzero []
    rw [Arrival.fullPath, Arrival.filename, filenameOf, cstr_append h, hcstr, join_append hne]
  have hsame := hown [97, 0] [98, 0] hdrop
  rw [hpath 97 (by decide), hpath 98 (by decide)] at hsame
  cases List.append_cancel_left hsame

theorem not_ownEffect (hne : savePath ≠ []) (hdrop : ¬ (Arrival.mk data []).Dropped)
    (h : 0 ∉ data.drop 16) : ¬ OwnEffect savePath data := by
  intro hown
  have hdata := drop_ne_nil hdrop
  have hsame := hown (leastFs savePath) (ready_leastFs hne) (slash :: [97] ++ [0])
    (slash :: [98] ++ [0])
  have hopened (behind : Bytes) :
      (onDataReceived savePath (leastFs savePath) ⟨data, behind⟩).opened
        = some (locate ((Arrival.mk data behind).fullPath savePath)) := opened_leastFs hdrop hne
  have hplaces := congrArg Effect.opened hsame
  rw [hopened, hopened, locate_unended hne hdata h (by simp) rfl,
    locate_unended hne hdata h (by simp) rfl, Loc.enter_proper _ (by decide),
    Loc.enter_proper _ (by decide)] at hplaces
  have hnames := congrArg Loc.names (Option.some.inj hplaces)
  cases List.append_cancel_left hnames

/-! ## The field -/

theorem fieldOf_append (data : Bytes) : fieldOf data ++ data.drop 272 = data.drop 16 := by
  have hdrop : data.drop 272 = (data.drop 16).drop 256 := by rw [List.drop_drop]
  rw [fieldOf, hdrop, List.take_append_drop]

theorem ownName_of_mem (h : 0 ∈ (data.drop 16).take 257) : OwnName data := by
  intro behind _
  have hended : 0 ∈ data.drop 16 := List.mem_of_mem_take h
  rw [Arrival.filename, filenameOf_ended hended, ← fieldOf_append]
  by_cases hfield : 0 ∈ fieldOf data
  · rw [cstr_append_of_mem hfield]
  · -- then it is the first byte of the payload
    rw [List.take_add_one, List.mem_append] at h
    have hnext : (data.drop 16)[256]? = some 0 :=
      Option.mem_toList.mp (h.resolve_left hfield)
    obtain ⟨hlt, hget⟩ := List.getElem?_eq_some_iff.mp hnext
    have hrest : data.drop 272 = 0 :: data.drop 273 := by
      rw [List.length_drop] at hlt
      rw [List.getElem_drop] at hget
      rw [← hget, ← List.drop_eq_getElem_cons]
    rw [hrest, cstr_append_zero hfield, cstr_eq_self hfield]

theorem not_ownName (hdrop : ¬ (Arrival.mk data []).Dropped)
    (h : 0 ∉ (data.drop 16).take 257) : ¬ OwnName data := by
  intro hown
  have hname := hown [97] hdrop
  have hlen : data.length ≥ 272 := Nat.le_of_not_lt (not_or.mp hdrop).1
  have hlong : 257 ≤ (cstr (data.drop 16 ++ [97])).length := by
    refine le_length_cstr ?_ ?_
    · simp only [List.length_append, List.length_drop, List.length_singleton]
      omega
    · rw [List.take_append, List.mem_append]
      rintro (hmem | hmem)
      · exact h hmem
      · cases List.mem_singleton.mp (List.mem_of_mem_take hmem)
  have hshort : (cstr (fieldOf data)).length ≤ 256 :=
    (List.takeWhile_prefix _).length_le.trans (List.length_take_le ..)
  rw [← hname] at hshort
  exact absurd (hlong.trans hshort) (by decide)

/-- What a message does depends on the message alone, whatever is behind it, and its
name on the field alone, if and only if it is ignored or a zero is in the field or right
behind it. The path alone depends on nothing else if and only if it is ignored or
a zero is anywhere from the field on. -/
theorem own_effect_iff (savePath data : Bytes) :
    (OwnEffect savePath data ∧ OwnPath savePath data ∧ OwnName data ↔
      (Arrival.mk data []).Dropped ∨ 0 ∈ (data.drop 16).take 257) ∧
    (OwnPath savePath data ↔ (Arrival.mk data []).Dropped ∨ 0 ∈ data.drop 16) := by
  constructor
  · constructor
    · rintro ⟨-, -, hname⟩
      refine or_iff_not_imp_left.mpr fun hdrop => ?_
      by_contra hmem
      exact not_ownName hdrop hmem hname
    · rintro (hdrop | hmem)
      · exact ⟨ownEffect_of_dropped hdrop, fun _ _ h => absurd hdrop h,
          fun _ h => absurd hdrop h⟩
      · have hended := List.mem_of_mem_take hmem
        exact ⟨ownEffect_of_ended hended, ownPath_of_ended hended, ownName_of_mem hmem⟩
  · constructor
    · intro hpath
      refine or_iff_not_imp_left.mpr fun hdrop => ?_
      by_contra hmem
      exact not_ownPath hdrop hmem hpath
    · rintro (hdrop | hmem)
      · exact fun _ _ h => absurd hdrop h
      · exact ownPath_of_ended hmem

/-- `NAME_MAX`. -/
def nameMax : Nat := 255

/-- A header of which the field is full: 100 letters, a slash and 155 letters, each name
no longer than a file can have. Nothing is behind it. -/
def fullField : Bytes :=
  LittleEndian.toLE 4 headerMagic.toNat ++ List.replicate 12 0 ++
    (List.replicate 100 100 ++ slash :: List.replicate 155 97)

/-- It is for the file `a` or for the file `b` below these names, by what is behind the
message, and both can be opened. -/
theorem full_field_runs_on :
    (∀ behind ∈ [[slash, 97, 0], [slash, 98, 0]],
      ∀ c ∈ split ((Arrival.mk fullField behind).fullPath [115]), c.length ≤ nameMax) ∧
    ¬ ∀ savePath data : Bytes, savePath ≠ [] →
      OwnEffect savePath data ∧ OwnPath savePath data ∧ OwnName data := by
  refine ⟨by decide +kernel, fun h => ?_⟩
  have hdrop : ¬ (Arrival.mk fullField []).Dropped := by decide +kernel
  have hfull : 0 ∉ fullField.drop 16 := by decide +kernel
  have hne : ([115] : Bytes) ≠ [] := by decide
  exact not_ownEffect hne hdrop hfull (h [115] fullField hne).1

end CppDemos
