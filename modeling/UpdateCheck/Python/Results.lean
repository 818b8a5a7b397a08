import UpdateCheck.ListParser.Image
import UpdateCheck.Python.Wrapper
import UpdateCheck.Updater.Answer

/-!
# Results for the user

What the wrapper makes of the answer to a check (`Tells`). A revision in the answer is the installed
one or a listed one, so it is ASCII and fits; a link in it was a string of the document, so it is
UTF-8. No answer of a list that can be published makes the wrapper raise (`exists_usrRes`).
-/

namespace UpdateCheck.Python

open Comparator ListParser Updater

/-! ## Strings -/

theorem isAscii_iff {s : List CChar} : isAscii s = true ↔ ∀ c ∈ s, c.toNat < 0x80 := by
  rw [isAscii, List.all_eq_true]
  simp only [decide_eq_true_eq]

theorem isAscii_of_subset {s t : List CChar} (h : ∀ c ∈ s, c ∈ t) (ht : isAscii t = true) :
    isAscii s = true := by
  rw [isAscii_iff] at ht ⊢
  exact fun c hc => ht c (h c hc)

theorem isAscii_content {s : List CChar} (h : isAscii s = true) : isAscii (content s) = true :=
  isAscii_of_subset (fun _ hc => (List.takeWhile_sublist _).mem hc) h

theorem isAscii_content_strncpy {s : List CChar} (h : isAscii s = true) (n : Nat) :
    isAscii (content (strncpy s n)) = true := by
  rw [content_strncpy]
  exact isAscii_of_subset (fun _ hc => List.mem_of_mem_take hc) (isAscii_content h)

/-- ASCII bytes are decoded to a text that they are the bytes of, and that is encoded to them. -/
theorem exists_decodeAscii {b : List CChar} (h : isAscii b = true) :
    ∃ s, decodeAscii b = .ok s ∧ utf8 s = b ∧ encodeAscii s = .ok ⟨b, h⟩ := by
  have hascii := isAscii_iff.mp h
  have hnat : ∀ c ∈ b, (Char.ofNat c.toNat).toNat = c.toNat := fun c hc => by
    have hlt := hascii c hc
    exact toNat_ofNat (by omega)
  refine ⟨b.map fun c => Char.ofNat c.toNat, by rw [decodeAscii, if_pos h], ?_, ?_⟩
  · rw [utf8, List.flatMap_map]
    refine (List.flatMap_congr fun c hc => ?_).trans (List.flatMap_singleton' b)
    have hlt := hascii c hc
    rw [utf8EncodeChar_of_lt (by rw [hnat c hc]; exact hlt), hnat c hc, UInt8.ofNat_toNat]
  · have hall : ((b.map fun c => Char.ofNat c.toNat).all fun c => c.toNat < 0x80) = true := by
      rw [List.all_map]
      refine List.all_eq_true.mpr fun c hc => decide_eq_true ?_
      exact (hnat c hc).trans_lt (hascii c hc)
    have hbytes : asciiBytes (b.map fun c => Char.ofNat c.toNat) = b := by
      rw [asciiBytes, List.map_map]
      refine (List.map_congr_left fun c hc => ?_).trans (List.map_id b)
      change UInt8.ofNat (Char.ofNat c.toNat).toNat = c
      rw [hnat c hc, UInt8.ofNat_toNat]
    rw [encodeAscii, dif_pos hall]
    exact congrArg Except.ok (Subtype.ext hbytes)

theorem decodeUtf8_utf8 (s : List Char) : decodeUtf8 (utf8 s) = .ok s := by
  have hbytes : (utf8 s).toByteArray = s.utf8Encode := rfl
  rw [decodeUtf8, hbytes, List.utf8Decode?_utf8Encode]

/-! ## Versions -/

/-- The version is that of the struct. -/
structure Version.Is (v : Version) (w : EupdVersion) : Prop where
  major : v.major = w.major
  minor : v.minor = w.minor
  revision : v.revision.val = content w.revision.toList

theorem exists_version {w : EupdVersion} (h : isAscii (content w.revision.toList) = true) :
    ∃ s v, decodeAscii (content w.revision.toList) = .ok s ∧
      Version.init w.major.toInt w.minor.toInt s = .ok v ∧ v.Is w := by
  obtain ⟨s, hdecode, -, hencode⟩ := exists_decodeAscii h
  have hfits : (content w.revision.toList).length ≤ revisionSize :=
    (length_content_le _).trans_eq w.revision.length_toList
  refine ⟨s, ⟨w.major, w.minor, ⟨_, h⟩, hfits⟩, hdecode, ?_, rfl, rfl, rfl⟩
  rw [Version.init, hencode, Int32.ofInt_toInt, Int32.ofInt_toInt]
  exact dif_pos hfits

/-- The reported version is the installed one or a listed one. -/
theorem isAscii_latestVersion {software : Software} {history : List ListVersion}
    (h : ∀ lv ∈ history, PaddedRevision lv.version.revision) :
    isAscii (content (latestVersion software.inSw.version history).revision.toList) = true := by
  have hlatest := @runMax_mem _ _ _ versionKey software.inSw.version
    (history.map ListVersion.version)
  rcases hlatest with heq | hmem
  · rw [latestVersion, heq]
    change isAscii (content (strncpyBuf software.version.revision.val revisionSize).toList) = true
    rw [toList_strncpyBuf]
    exact isAscii_content_strncpy software.version.revision.property _
  · obtain ⟨lv, hlv, heq⟩ := List.mem_map.mp hmem
    rw [latestVersion, ← heq]
    exact isAscii_iff.mpr (h lv hlv).ascii

/-! ## Results -/

/-- The state of a status. -/
def usrStatus : EupdUpdateStatus → UpdateState
  | .unknown => .unknown
  | .upToDate => .upToDate
  | .updateAvailable => .updateAvailable
  | .updateRecommended => .updateRecommended
  | .updateRequired => .updateRequired

theorem libToUsrStatus_libStatus (status : EupdUpdateStatus) :
    libToUsrStatus (libStatus status) = .ok (usrStatus status) := by
  cases status <;> rfl

theorem libStatus_eq_iff {status : EupdUpdateStatus} :
    libStatus status = LIB_EUST_UNKWOWN ↔ status = .unknown := by
  cases status <;> decide

/-- What the user is told of an answer. -/
inductive Tells (a : Answer) : Result → Prop
  | notKnown : a.status = .unknown → Tells a .notKnown
  | known {v : Version} {link : List Char} : a.status ≠ .unknown → v.Is a.version →
      a.link = some (utf8 link ++ [0]) → Tells a ⟨usrStatus a.status, some v, link⟩

theorem exists_usrRes {software : Software} {entries : List Entry}
    (hentries : ∀ e ∈ entries, e.Publishable) {r : EupdResult}
    (hshows : Shows r (answer entries software.inSw)) (hstatus : r.status ≠ .unknown) :
    ∃ res, usrRes r = .ok res ∧ Tells (answer entries software.inSw) res := by
  obtain ⟨hrstatus, hrversion, hrlink⟩ := hshows
  rw [hrstatus] at hstatus
  cases he : entryFor entries software.inSw.name with
  | none =>
    rw [answer_of_none he] at hstatus
    exact absurd rfl hstatus
  | some e =>
    have hpublishable := hentries e (List.mem_of_find?_eq_some he)
    rw [answer_of_some he] at hrstatus hrversion hrlink hstatus ⊢
    obtain ⟨s, hs⟩ := hpublishable.link
    have hascii : isAscii (content r.version.revision.toList) = true := by
      rw [hrversion]
      exact isAscii_latestVersion hpublishable.revisions
    obtain ⟨revision, v, hdecode, hinit, hv⟩ := exists_version hascii
    have hlink : decodeLink r.link = .ok s := by
      rw [decodeLink, hrlink]
      dsimp only
      rw [content_append_zero, content_eq_self (zero_notMem_content _), hs, decodeUtf8_utf8]
    refine ⟨⟨usrStatus r.status, some v, s⟩, ?_, ?_⟩
    · rw [usrRes, libToUsrStatus_libStatus, hdecode, hlink]
      dsimp only [bind, Except.bind]
      rw [hinit]
      rfl
    · rw [hrstatus]
      rw [hrversion] at hv
      exact .known hstatus hv (by rw [hs])

/-! ## Lists of results -/

/-- What the user is told of the answer for one of many softwares. -/
inductive TellsOut (software : Software) (a : Answer) : ResultOut → Prop
  | bare : a.status = .unknown → TellsOut software a (.bare .notKnown)
  | named {name : List Char} {res : Result} : a.status ≠ .unknown →
      utf8 name = software.name.val → Tells a res → TellsOut software a (.named name res)

theorem exists_resultOut {software : Software} {entries : List Entry}
    (hentries : ∀ e ∈ entries, e.Publishable) {r : EupdResult}
    (hshows : Shows r (answer entries software.inSw)) {softwareList : List Software} {idx : Nat}
    (hidx : softwareList[idx]? = some software) :
    ∃ out, resultOut softwareList idx r = .ok out ∧
      TellsOut software (answer entries software.inSw) out := by
  by_cases hstatus : r.status = .unknown
  · refine ⟨.bare .notKnown, ?_, .bare (hshows.status.symm.trans hstatus)⟩
    rw [resultOut, if_pos (libStatus_eq_iff.mpr hstatus)]
  · obtain ⟨name, hdecode, hname, -⟩ := exists_decodeAscii software.name.property
    obtain ⟨res, hres, htells⟩ := exists_usrRes hentries hshows hstatus
    refine ⟨.named name res, ?_, .named (hshows.status ▸ hstatus) hname htells⟩
    rw [resultOut, if_neg (mt libStatus_eq_iff.mp hstatus), hidx]
    dsimp only [Option.elim, bind, Except.bind]
    rw [hdecode, hres]
    rfl

/-- Where each result can be told, so can their list. -/
theorem exists_resultsOut {T : Software → ResultOut → Prop} {softwareList rest : List Software}
    {results : List EupdResult} (h : List.Forall₂ (fun software r => ∀ idx,
      softwareList[idx]? = some software → ∃ out, resultOut softwareList idx r = .ok out ∧
        T software out) rest results) {idx : Nat} (hidx : softwareList.drop idx = rest) :
    ∃ outs, resultsOut softwareList idx results = .ok outs ∧ List.Forall₂ T rest outs := by
  induction h generalizing idx with
  | nil => exact ⟨[], rfl, .nil⟩
  | @cons software r rest results hout _ ih =>
    have hhead : softwareList[idx]? = some software := by
      rw [← List.head?_drop, hidx]
      rfl
    have htail : softwareList.drop (idx + 1) = rest := by
      rw [← List.tail_drop, hidx]
      rfl
    obtain ⟨out, hres, hT⟩ := hout idx hhead
    obtain ⟨outs, hrest, hall⟩ := ih htail
    refine ⟨out :: outs, ?_, .cons hT hall⟩
    rw [resultsOut, hres]
    dsimp only [bind, Except.bind]
    rw [hrest]
    rfl

end UpdateCheck.Python
