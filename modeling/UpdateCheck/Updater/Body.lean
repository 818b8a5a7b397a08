import UpdateCheck.Json.Whole
import UpdateCheck.Updater.Answer

/-!
# The whole body

The writer counts the bytes of a body, the downloaded list is a C string, and the parser stops at the
first NUL. A body without a NUL is parsed as a whole; of any other only the part in front of the NUL
is seen, and its list is taken for that of the body (`makeList_whole_iff`).
-/

namespace UpdateCheck.Updater

open ListParser Fetcher

variable {env : Env} {url doc : List CChar}

/-- The outcome is an error, or the whole document is a JSON text and the list is that of its
root. -/
def OfWhole (doc : List CChar) (code : EupdRetCode) (list : SoftwareList) : Prop :=
  code.isError = false → ∃ root, Json.WholeText doc root ∧ code = codeOf root ∧
    Holds list (entriesOf root)

/-- The part of the document in front of its first NUL is a JSON text with a list. -/
def TruncatedList (doc : List CChar) : Prop :=
  ∃ root, Json.WholeText (content doc) root ∧ HasSoftware root

theorem codeOf_isError_iff {root : Json} : (codeOf root).isError = false ↔ HasSoftware root := by
  unfold codeOf
  split
  · rename_i hs
    exact iff_of_true (walkCode_isError _) hs
  · rename_i hs
    exact iff_of_false (by decide) hs

/-- The terminator adds nothing to what the parser reads. -/
theorem parse_append_zero (doc : List CChar) : Json.parse (doc ++ [0]) = Json.parse doc := by
  rw [Json.parse, Json.parse, content_append_zero]

theorem documentList_noError {code : EupdRetCode} {entries : List Entry}
    (h : documentList (doc ++ [0]) = .ok (code, entries)) (hcode : code.isError = false) :
    ∃ root, Json.WholeText (content doc) root ∧ HasSoftware root ∧ code = codeOf root ∧
      entries = entriesOf root := by
  unfold documentList at h
  rw [parse_append_zero] at h
  split at h
  · rename_i root hparse
    cases h
    exact ⟨root, Json.wholeText_content_iff.mpr hparse, codeOf_isError_iff.mp hcode, rfl, rfl⟩
  · cases h
    cases hcode
  · cases h

theorem makeList_exec (hd : Delivers env.curl url doc) (allowInsecure : Int32)
    (inSoftware : Option EupdInSoftware) {L L' : Ledger} (hL : L.AllGranted) {code : EupdRetCode}
    {list : SoftwareList}
    (h : (makeList env url allowInsecure inSoftware).exec .zero L = (.ok code, list, L')) :
    ∃ entries, documentList (doc ++ [0]) = .ok (code, entries) ∧ Holds list entries := by
  have hpost := makeList_spec hd allowInsecure inSoftware .zero L ⟨rfl, hL⟩
  rw [h] at hpost
  exact hpost.1

/-- **The whole body.** With every allocation granted, `make_list` accepts a delivered document only
as a whole exactly where the document holds no NUL or what stands in front of its first NUL is not a
list. -/
theorem makeList_whole_iff (hd : Delivers env.curl url doc) (allowInsecure : Int32)
    (inSoftware : Option EupdInSoftware) (L : Ledger) (hL : L.AllGranted) :
    (∀ code list L', (makeList env url allowInsecure inSoftware).exec .zero L =
        (.ok code, list, L') → OfWhole doc code list) ↔ (0 ∈ doc → ¬ TruncatedList doc) := by
  constructor
  · intro h hmem htruncated
    obtain ⟨root, htext, hs⟩ := htruncated
    have hparse := Json.wholeText_content_iff.mp htext
    have hdoc := documentList_of_ok ((parse_append_zero doc).trans hparse)
    obtain ⟨code, list, L', hexec, ⟨rfl, -⟩, -⟩ :=
      (makeList_returns hd allowInsecure inSoftware hdoc).run (x := .zero) ⟨rfl, hL⟩
    obtain ⟨root', hwhole, -⟩ := h _ list L' hexec (codeOf_isError_iff.mpr hs)
    exact (Json.wholeText_iff.mp hwhole).1 hmem
  · intro h code list L' hexec hcode
    obtain ⟨entries, hdoc, hlist⟩ := makeList_exec hd allowInsecure inSoftware hL hexec
    obtain ⟨root, htext, hs, rfl, rfl⟩ := documentList_noError hdoc hcode
    by_cases hmem : 0 ∈ doc
    · exact absurd ⟨root, htext, hs⟩ (h hmem)
    · rw [content_eq_self hmem] at htext
      exact ⟨root, htext, rfl, hlist⟩

/-- An empty list with a NUL and a brace behind it. -/
def nulBody : List CChar := ascii "\x7b\"software\":[]\x7d" ++ [0, 0x7d]

theorem nulBody_delivered (url : List CChar) : Delivers (serving .https [] nulBody) url nulBody :=
  serving_delivers _ _ (by decide) url

theorem makeList_whole_iff_sample :
    (∀ code list L', (makeList ⟨serving .https [] nulBody, []⟩ [104] 0 none).exec .zero
        (.start fun _ => true) = (.ok code, list, L') → OfWhole nulBody code list) ↔
      (0 ∈ nulBody → ¬ TruncatedList nulBody) :=
  @makeList_whole_iff ⟨serving .https [] nulBody, []⟩ [104] nulBody (nulBody_delivered [104]) 0 none _
    fun _ => rfl

/-- The body is no JSON text, and the list in front of its NUL is accepted with `EUPD_OK`. -/
theorem makeList_nulBody :
    ((∃ list L', (makeList ⟨serving .https [] nulBody, []⟩ [104] 0 none).exec .zero
        (.start fun _ => true) = (.ok .ok, list, L')) ∧
      ¬ ∃ root, Json.WholeText nulBody root) ∧
    ¬ ∀ (env : Env) (url doc : List CChar), Delivers env.curl url doc →
      ∀ (allowInsecure : Int32) (inSoftware : Option EupdInSoftware) (L : Ledger), L.AllGranted →
        ∀ code list L', (makeList env url allowInsecure inSoftware).exec .zero L =
          (.ok code, list, L') → OfWhole doc code list := by
  have hparse : Json.parse (nulBody ++ [0]) = .ok (.object [(SOFTWARE, .array [])]) := by
    rfl
  have hdoc : documentList (nulBody ++ [0]) = .ok (.ok, []) := by
    rw [documentList_of_ok hparse]
    decide +kernel
  have hnot : ¬ ∃ root, Json.WholeText nulBody root := by
    intro h
    obtain ⟨root, hroot⟩ := h
    exact (Json.wholeText_iff.mp hroot).1 (by decide)
  obtain ⟨code, list, L', hexec, ⟨rfl, -⟩, -⟩ :=
    (@makeList_returns ⟨serving .https [] nulBody, []⟩ _ _ (nulBody_delivered [104]) 0 none _ _
      hdoc).run (x := .zero) (L := .start fun _ => true) ⟨rfl, fun _ => rfl⟩
  refine ⟨⟨⟨list, L', hexec⟩, hnot⟩, fun h => ?_⟩
  obtain ⟨root, hroot, -⟩ := h _ [104] nulBody (nulBody_delivered [104]) 0 none _ (fun _ => rfl) _
    list L' hexec rfl
  exact hnot ⟨root, hroot⟩

end UpdateCheck.Updater
