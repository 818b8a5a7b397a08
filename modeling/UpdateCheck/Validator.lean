import UpdateCheck.Types

/-!
# The input validators

`is_revision_valid`, `is_software_name_valid` and `check_input`. The first one is called with the
bytes of a JSON string and with a fixed buffer; it treats its first byte differently from the
others, in that a NUL there does not end the scan.

A buffer that is accepted has a content of the documented form (`content_of_isRevisionValid`). The
converse fails for a buffer that starts with a NUL, since the bytes behind it are looked at
(`checkInput_documented_iff`).
-/

namespace UpdateCheck

/-- The loop of `is_revision_valid`, from the second byte on. -/
def isRevisionTailValid : List CChar → Bool
  | [] => true
  | c :: rest =>
    if c = 0 then true
    else if !(isalpha c.toInt || isdigit c.toInt) then false
    else isRevisionTailValid rest

/-- `is_revision_valid` on the first `len` bytes of `rev`. -/
def isRevisionValid (rev : List CChar) (len : Nat) : Bool :=
  if len = 0 then true
  else if len > revisionSize then false
  else
    match rev.take len with
    | [] => true
    | c :: rest => if !(isalpha c.toInt || c = 0) then false else isRevisionTailValid rest

def isSoftwareNameValid (len : Nat) : Bool := 0 < len && len ≤ nameSize

/-- `get_software_name_length`: the position of the first NUL, or the size of the buffer. -/
def getSoftwareNameLength : List CChar → Nat
  | [] => 0
  | c :: rest => if c = 0 then 0 else getSoftwareNameLength rest + 1

def checkInput (sw : EupdInSoftware) : Bool :=
  if !isSoftwareNameValid (getSoftwareNameLength sw.name.toList) then false
  else isRevisionValid sw.version.revision.toList revisionSize

theorem getSoftwareNameLength_eq (s : List CChar) :
    getSoftwareNameLength s = (content s).length := by
  induction s with
  | nil => rfl
  | cons c s ih =>
    rw [getSoftwareNameLength, content_cons]
    split
    · rfl
    · rw [ih, List.length_cons]

theorem isRevisionTailValid_iff {s : List CChar} :
    isRevisionTailValid s = true ↔ ∀ c ∈ content s, c.IsAlnum := by
  induction s with
  | nil => simp [isRevisionTailValid]
  | cons c s ih =>
    rw [isRevisionTailValid, content_cons]
    by_cases hc : c = 0
    · simp [hc]
    · rw [if_neg hc, if_neg hc, List.forall_mem_cons, ← ih]
      by_cases ha : c.IsAlnum
      · have hb : (isalpha c.toInt || isdigit c.toInt) = true := by simpa [CChar.IsAlnum] using ha
        simp [hb, ha]
      · have hb : (isalpha c.toInt || isdigit c.toInt) = false := by
          simpa [CChar.IsAlnum] using ha
        simp [hb, ha]

/-- What is accepted: nothing at all, or up to four bytes of which the first is a letter or a
NUL and the others, up to the next NUL, are letters and digits. -/
theorem isRevisionValid_iff {rev : List CChar} {len : Nat} :
    isRevisionValid rev len = true ↔ len = 0 ∨ len ≤ revisionSize ∧
      ∀ c rest, rev.take len = c :: rest →
        (c.IsLetter ∨ c = 0) ∧ ∀ d ∈ content rest, d.IsAlnum := by
  unfold isRevisionValid
  by_cases h0 : len = 0
  · simp [h0]
  · rw [if_neg h0]
    by_cases hlen : len > revisionSize
    · rw [if_pos hlen]
      refine iff_of_false (by simp) ?_
      rintro (h | ⟨h, -⟩)
      · exact h0 h
      · exact absurd hlen (not_lt.mpr h)
    · rw [if_neg hlen]
      cases htake : rev.take len with
      | nil => simpa using Or.inr (not_lt.mp hlen)
      | cons c rest =>
        have hhead : (isalpha c.toInt || decide (c = 0)) = true ↔ c.IsLetter ∨ c = 0 := by
          simp [CChar.IsLetter]
        constructor
        · intro h
          refine Or.inr ⟨not_lt.mp hlen, ?_⟩
          intro c' rest' heq
          obtain ⟨rfl, rfl⟩ := List.cons.inj heq
          cases hb : (isalpha c.toInt || decide (c = 0)) with
          | true =>
            simp only [hb] at h
            exact ⟨hhead.mp hb, isRevisionTailValid_iff.mp h⟩
          | false => simp [hb] at h
        · rintro (h | ⟨-, h⟩)
          · exact absurd h h0
          · obtain ⟨hc, hrest⟩ := h c rest rfl
            simp only [hhead.mpr hc]
            exact isRevisionTailValid_iff.mpr hrest

/-- An accepted revision has a content of the documented form. -/
theorem content_of_isRevisionValid {rev : List CChar} {len : Nat}
    (h : isRevisionValid rev len = true) : RevisionForm (content (rev.take len)) := by
  rcases isRevisionValid_iff.mp h with rfl | ⟨-, h⟩
  · simp [RevisionForm]
  · cases htake : rev.take len with
    | nil => trivial
    | cons c rest =>
      obtain ⟨hc, hrest⟩ := h c rest htake
      rw [content_cons]
      split
      · trivial
      · rename_i hne
        exact ⟨hc.resolve_right hne, hrest⟩

theorem checkInput_iff {sw : EupdInSoftware} :
    checkInput sw = true ↔ content sw.name.toList ≠ [] ∧
      isRevisionValid sw.version.revision.toList revisionSize = true := by
  have hlen : (content sw.name.toList).length ≤ nameSize := by
    simpa using length_content_le sw.name.toList
  have hname : isSoftwareNameValid (getSoftwareNameLength sw.name.toList) = true ↔
      content sw.name.toList ≠ [] := by
    rw [getSoftwareNameLength_eq, isSoftwareNameValid, Bool.and_eq_true, decide_eq_true_iff,
      decide_eq_true_iff, and_iff_left hlen, List.length_pos_iff]
  unfold checkInput
  cases hb : isSoftwareNameValid (getSoftwareNameLength sw.name.toList) with
  | true => simp [hname.mp hb]
  | false =>
    have hnot : ¬ content sw.name.toList ≠ [] := fun h => by simp [hname.mpr h] at hb
    simp [hnot]

/-! ## The documented format -/

/-- What the documentation asks of a descriptor: a name that is not empty and a revision of the
documented form. -/
def Documented (sw : EupdInSoftware) : Prop :=
  content sw.name.toList ≠ [] ∧ RevisionForm (content sw.version.revision.toList)

/-- The revision does not start with a NUL, or the bytes between this NUL and the next one are
letters and digits. -/
def LeadingNulClean (rev : List CChar) : Prop :=
  ∀ rest, rev = 0 :: rest → ∀ c ∈ content rest, c.IsAlnum

/-- The scan meets the documented form up to the bytes behind a leading NUL. -/
theorem isRevisionValid_form_iff (rev : Vector CChar revisionSize) :
    isRevisionValid rev.toList revisionSize = true ↔
      RevisionForm (content rev.toList) ∧ LeadingNulClean rev.toList := by
  have htake : rev.toList.take revisionSize = rev.toList := List.take_of_length_le (by simp)
  have hlen : ¬ revisionSize = 0 := by decide
  rw [isRevisionValid_iff, htake, or_iff_right hlen, and_iff_right le_rfl]
  cases rev.toList with
  | nil => simp [RevisionForm, LeadingNulClean]
  | cons c rest =>
    by_cases hc : c = 0
    · simp [hc, RevisionForm, LeadingNulClean]
    · simp [hc, content_cons, RevisionForm, LeadingNulClean]

theorem Documented.congr {a b : EupdInSoftware}
    (hname : content a.name.toList = content b.name.toList)
    (hrev : content a.version.revision.toList = content b.version.revision.toList) :
    Documented a ↔ Documented b := by
  rw [Documented, Documented, hname, hrev]

/-- A descriptor without a name is rejected anyway; in any other, a leading NUL of the revision has
to be clean. -/
def ScanHarmless (sw : EupdInSoftware) : Prop :=
  content sw.name.toList = [] ∨ LeadingNulClean sw.version.revision.toList

theorem checkInput_iff_documented (sw : EupdInSoftware) :
    (checkInput sw = true ↔ Documented sw) ↔ ScanHarmless sw := by
  have hcheck : checkInput sw = true ↔
      Documented sw ∧ LeadingNulClean sw.version.revision.toList := by
    rw [checkInput_iff, isRevisionValid_form_iff, Documented, and_assoc]
  rw [hcheck, and_iff_left_iff_imp, ScanHarmless]
  constructor
  · intro h
    by_cases hname : content sw.name.toList = []
    · exact Or.inl hname
    · refine Or.inr fun rest hrest => ?_
      have hempty : content sw.version.revision.toList = [] := by
        rw [hrest, content_zero_cons]
      have hform : RevisionForm (content sw.version.revision.toList) := by
        rw [hempty]
        trivial
      exact h ⟨hname, hform⟩ rest hrest
  · intro h hdoc
    exact h.resolve_left hdoc.1

/-- **The documented format.** `check_input` decides the documented format of a descriptor exactly
where the scan of the revision is harmless; and it treats a descriptor that agrees with it up to the
first NULs of name and revision in the same way exactly where the scan is harmless in both or in
neither. -/
theorem checkInput_documented_iff (sw : EupdInSoftware) :
    ((checkInput sw = true ↔ Documented sw) ↔ ScanHarmless sw) ∧
    ∀ other : EupdInSoftware, content sw.name.toList = content other.name.toList →
      content sw.version.revision.toList = content other.version.revision.toList →
      (checkInput sw = checkInput other ↔ (ScanHarmless sw ↔ ScanHarmless other)) := by
  refine ⟨checkInput_iff_documented sw, ?_⟩
  intro other hname hrev
  have hdoc := Documented.congr hname hrev
  rw [← checkInput_iff_documented sw, ← checkInput_iff_documented other, ← hdoc, Bool.eq_iff_iff]
  tauto

/-- A named software with an empty revision, and a byte `!` behind the NUL of the revision. -/
def leadingNulSample : EupdInSoftware :=
  ⟨strncpyBuf [0x65, 0x64] nameSize, ⟨1, 0, #v[0, 0x21, 0, 0]⟩⟩

/-- The documented format admits the sample, and `check_input` rejects it; with a NUL in the place
of the stray byte it is accepted. -/
theorem checkInput_leadingNul :
    (Documented leadingNulSample ∧ checkInput leadingNulSample = false ∧
      checkInput ⟨leadingNulSample.name, ⟨1, 0, #v[0, 0, 0, 0]⟩⟩ = true) ∧
    ¬ ∀ sw : EupdInSoftware, checkInput sw = true ↔ Documented sw := by
  have hdoc : Documented leadingNulSample := ⟨by decide, trivial⟩
  have hreject : checkInput leadingNulSample = false := by decide
  refine ⟨⟨hdoc, hreject, by decide⟩, fun h => ?_⟩
  rw [(h leadingNulSample).mpr hdoc] at hreject
  cases hreject

end UpdateCheck
