import UpdateCheck.Comparator.Compare

/-!
# Upgrade convergence and monotonicity

The status and the reported version of an item depend on the installed version and on the
listed versions only through the two maxima of `Compare.lean`. Hence they are monotone:

* installing the reported version leaves nothing newer (`statusFor_latest`);
* a newer installed version is never judged more urgent and is never answered with an older
  version (`rank_statusFor_antitone`, `latestVersion_mono`);
* more listed versions never lower the urgency or the answer (`rank_statusFor_mono`).
-/

namespace UpdateCheck.Comparator

/-! ## The two maxima -/

theorem rank_gradeOf_mono {s t : Severity} (h : s ≤ t) : (gradeOf s).rank ≤ (gradeOf t).rank := by
  match s, t, h with
  | 0, 0, _ => exact le_rfl
  | 0, 1, _ => decide
  | 0, _ + 2, _ => simp [gradeOf, sevFeature, sevBugfix, EupdUpdateStatus.rank]
  | 1, 1, _ => exact le_rfl
  | 1, _ + 2, _ => simp [gradeOf, sevFeature, sevBugfix, EupdUpdateStatus.rank]
  | _ + 2, _ + 2, _ => exact le_rfl

theorem rank_upToDate_le (checked : EupdVersion) (history : List ListVersion) :
    EupdUpdateStatus.upToDate.rank ≤ (statusFor checked history).rank := by
  unfold statusFor gradeOf
  split_ifs <;> decide

theorem topSeverity_mono {vs ws : List ListVersion} (h : ∀ lv ∈ vs, lv ∈ ws) :
    topSeverity vs ≤ topSeverity ws := by
  apply key_runMax_mono (k := id) le_rfl
  intro s hs
  obtain ⟨lv, hlv, rfl⟩ := List.mem_map.mp hs
  exact List.mem_map_of_mem (h lv hlv)

/-- The status grows with the set of newer versions. -/
theorem rank_statusFor_le {checked checked' : EupdVersion} {history history' : List ListVersion}
    (h : ∀ lv ∈ newerVersions checked history, lv ∈ newerVersions checked' history') :
    (statusFor checked history).rank ≤ (statusFor checked' history').rank := by
  by_cases hnil : newerVersions checked history = []
  · rw [statusFor, if_pos hnil]
    exact rank_upToDate_le _ _
  · have hnil' : newerVersions checked' history' ≠ [] := by
      obtain ⟨lv, hlv⟩ := List.exists_mem_of_ne_nil _ hnil
      exact List.ne_nil_of_mem (h lv hlv)
    rw [statusFor, statusFor, if_neg hnil, if_neg hnil']
    exact rank_gradeOf_mono (topSeverity_mono h)

/-- Nothing is newer than the reported version. -/
theorem newerVersions_latest (checked : EupdVersion) (history : List ListVersion) :
    newerVersions (latestVersion checked history) history = [] := by
  by_contra hne
  obtain ⟨lv, hlv, hlt⟩ := newerVersions_ne_nil.mp hne
  exact absurd hlt (not_lt.mpr (key_le_runMax_of_mem checked (List.mem_map_of_mem hlv)))

theorem statusFor_latest (checked : EupdVersion) (history : List ListVersion) :
    statusFor (latestVersion checked history) history = .upToDate := by
  rw [statusFor, if_pos (newerVersions_latest checked history)]

/-- A newer installed version is judged no more urgent. -/
theorem rank_statusFor_antitone {v₁ v₂ : EupdVersion} (h : versionKey v₁ ≤ versionKey v₂)
    (history : List ListVersion) : (statusFor v₂ history).rank ≤ (statusFor v₁ history).rank := by
  apply rank_statusFor_le
  intro lv hlv
  obtain ⟨hmem, hlt⟩ := mem_newerVersions.mp hlv
  exact mem_newerVersions.mpr ⟨hmem, h.trans_lt hlt⟩

/-- More listed versions are judged no less urgent. -/
theorem rank_statusFor_mono (checked : EupdVersion) {history history' : List ListVersion}
    (h : ∀ lv ∈ history, lv ∈ history') :
    (statusFor checked history).rank ≤ (statusFor checked history').rank := by
  apply rank_statusFor_le
  intro lv hlv
  obtain ⟨hmem, hlt⟩ := mem_newerVersions.mp hlv
  exact mem_newerVersions.mpr ⟨h lv hmem, hlt⟩

theorem latestVersion_mono {v₁ v₂ : EupdVersion} (hv : versionKey v₁ ≤ versionKey v₂)
    {history history' : List ListVersion} (h : ∀ lv ∈ history, lv ∈ history') :
    versionKey (latestVersion v₁ history) ≤ versionKey (latestVersion v₂ history') := by
  apply key_runMax_mono hv
  intro v hmem
  obtain ⟨lv, hlv, rfl⟩ := List.mem_map.mp hmem
  exact List.mem_map_of_mem (h lv hlv)

theorem rank_injective {s t : EupdUpdateStatus} (h : s.rank = t.rank) : s = t := by
  cases s <;> cases t <;> first | rfl | cases h

/-- The status depends on which versions are listed, not on their order. -/
theorem statusFor_congr (checked : EupdVersion) {history history' : List ListVersion}
    (h : ∀ lv, lv ∈ history ↔ lv ∈ history') :
    statusFor checked history = statusFor checked history' :=
  rank_injective (le_antisymm (rank_statusFor_mono checked fun lv => (h lv).mp)
    (rank_statusFor_mono checked fun lv => (h lv).mpr))

/-- Up to what compares as the same, the reported version does not depend on the order either. -/
theorem versionKey_latestVersion_congr (checked : EupdVersion) {history history' : List ListVersion}
    (h : ∀ lv, lv ∈ history ↔ lv ∈ history') :
    versionKey (latestVersion checked history) = versionKey (latestVersion checked history') :=
  le_antisymm (latestVersion_mono le_rfl fun lv => (h lv).mp)
    (latestVersion_mono le_rfl fun lv => (h lv).mpr)

/-! ## The comparator -/

/-- `swList'` is `swList` with the version `lv` inserted, at some position, into the first item
of the given name. -/
def Inserted (swList swList' : SoftwareList) (name : Vector CChar nameSize) (lv : ListVersion) :
    Prop :=
  ∃ before sw sw' after pre post,
    swList.visible = before ++ sw :: after ∧ swList'.visible = before ++ sw' :: after ∧
    (∀ x ∈ before, ¬ SameName x.name name) ∧ SameName sw.name name ∧ sw'.name = sw.name ∧
    sw.history = pre ++ post ∧ sw'.history = pre ++ lv :: post

theorem find?_append_cons {α : Type*} {p : α → Bool} {before after : List α} {x : α}
    (hb : ∀ y ∈ before, ¬ p y) (hx : p x) : (before ++ x :: after).find? p = some x := by
  rw [List.find?_append, List.find?_eq_none.mpr hb, Option.none_or, List.find?_cons_of_pos hx]

theorem Inserted.firstMatch {swList swList' : SoftwareList} {name : Vector CChar nameSize}
    {lv : ListVersion} (h : Inserted swList swList' name lv) :
    ∃ sw sw' pre post, firstMatch swList name = some sw ∧ firstMatch swList' name = some sw' ∧
      sw.history = pre ++ post ∧ sw'.history = pre ++ lv :: post := by
  obtain ⟨before, sw, sw', after, pre, post, hl, hl', hb, hsw, hname, hh, hh'⟩ := h
  have hb' : ∀ y ∈ before, ¬ decide (SameName y.name name) = true := fun y hy => by
    simpa using hb y hy
  refine ⟨sw, sw', pre, post, ?_, ?_, hh, hh'⟩
  · rw [Comparator.firstMatch, hl]
    exact find?_append_cons hb' (by simpa using hsw)
  · rw [Comparator.firstMatch, hl']
    exact find?_append_cons hb' (by simpa [hname] using hsw)

theorem Inserted.severitiesNamed {swList swList' : SoftwareList} {name : Vector CChar nameSize}
    {lv : ListVersion} (h : Inserted swList swList' name lv) (hlv : lv.severity.Named)
    (hsev : SeveritiesNamed swList) : SeveritiesNamed swList' := by
  obtain ⟨before, sw, sw', after, pre, post, hl, hl', -, -, -, hh, hh'⟩ := h
  unfold SeveritiesNamed at hsev ⊢
  rw [hl] at hsev
  rw [hl']
  intro x hx lw hlw
  rcases List.mem_append.mp hx with hx | hx
  · exact hsev x (List.mem_append_left _ hx) lw hlw
  · rcases List.mem_cons.mp hx with rfl | hx
    · have hmem : lw = lv ∨ lw ∈ sw.history := by
        rw [hh'] at hlw
        rw [hh]
        simp only [List.mem_append, List.mem_cons] at hlw ⊢
        tauto
      rcases hmem with rfl | hmem
      · exact hlv
      · exact hsev sw (by simp) lw hmem
    · exact hsev x (by simp [hx]) lw hlw

/-- **Upgrade convergence and monotonicity.** For a software found in a list with named
severities: after installing the reported version the check answers up to date and reports that
version again; a newer installed version is never answered with a more urgent status nor with
an older version; and one more version in the matched item never lowers the urgency nor the
reported version. -/
theorem comparatorCompare_monotone (swList : SoftwareList) (name : Vector CChar nameSize)
    (sw : Software) (hsev : SeveritiesNamed swList) (hf : firstMatch swList name = some sw) :
    (∀ v w, ∃ status version,
      comparatorCompare swList ⟨name, v⟩ w = .ok (.ok, status, version) ∧
      ∀ w', comparatorCompare swList ⟨name, version⟩ w' = .ok (.ok, .upToDate, version)) ∧
    (∀ v₁ v₂ w₁ w₂, compareVersion v₁ v₂ ≠ .newer → ∃ s₁ r₁ s₂ r₂,
      comparatorCompare swList ⟨name, v₁⟩ w₁ = .ok (.ok, s₁, r₁) ∧
      comparatorCompare swList ⟨name, v₂⟩ w₂ = .ok (.ok, s₂, r₂) ∧
      s₂.rank ≤ s₁.rank ∧ compareVersion r₁ r₂ ≠ .newer) ∧
    (∀ swList' lv v w w', lv.severity.Named → Inserted swList swList' name lv → ∃ s r s' r',
      comparatorCompare swList ⟨name, v⟩ w = .ok (.ok, s, r) ∧
      comparatorCompare swList' ⟨name, v⟩ w' = .ok (.ok, s', r') ∧
      s.rank ≤ s'.rank ∧ compareVersion r r' ≠ .newer) := by
  refine ⟨?_, ?_, ?_⟩
  · intro v w
    refine ⟨_, _, comparatorCompare_found hsev hf v w, fun w' => ?_⟩
    rw [comparatorCompare_found hsev hf, statusFor_latest,
      latestVersion_of_newerVersions_eq_nil (newerVersions_latest v sw.history)]
  · intro v₁ v₂ w₁ w₂ hle
    rw [compareVersion_not_newer] at hle
    refine ⟨_, _, _, _, comparatorCompare_found hsev hf v₁ w₁,
      comparatorCompare_found hsev hf v₂ w₂, rank_statusFor_antitone hle _, ?_⟩
    exact compareVersion_not_newer.mpr (latestVersion_mono hle fun _ => id)
  · intro swList' lv v w w' hlv hins
    obtain ⟨sw₁, sw', pre, post, hf₁, hf', hh, hh'⟩ := hins.firstMatch
    obtain rfl : sw = sw₁ := Option.some.inj (hf.symm.trans hf₁)
    have hsub : ∀ x ∈ sw.history, x ∈ sw'.history := by
      intro x hx
      rw [hh] at hx
      rw [hh']
      simp only [List.mem_append, List.mem_cons] at hx ⊢
      tauto
    refine ⟨_, _, _, _, comparatorCompare_found hsev hf v w,
      comparatorCompare_found (hins.severitiesNamed hlv hsev) hf' v w',
      rank_statusFor_mono v hsub, ?_⟩
    exact compareVersion_not_newer.mpr (latestVersion_mono le_rfl hsub)

/-- The sample software with one more version, a feature release 1.3. -/
def sampleExtended : Software where
  name := sampleName
  link := sampleSoftware.link
  versions := some ⟨3, sampleSoftware.history ++ [⟨⟨1, 3, strncpyBuf [] _⟩, sevFeature⟩]⟩
  numVersions := 3

theorem inserted_sampleExtended : Inserted sampleList ⟨some ⟨0, [sampleExtended]⟩, 1⟩ sampleName
    ⟨⟨1, 3, strncpyBuf [] _⟩, sevFeature⟩ :=
  ⟨[], sampleSoftware, sampleExtended, [], sampleSoftware.history, [], rfl, rfl, by simp, by decide,
    rfl, rfl, rfl⟩

/-- The three laws at a list in which an old critical fix lies below a newer feature release. -/
theorem comparatorCompare_monotone_sample :
    (∃ status version,
      comparatorCompare sampleList ⟨sampleName, .zero⟩ .zero = .ok (.ok, status, version) ∧
      comparatorCompare sampleList ⟨sampleName, version⟩ .zero = .ok (.ok, .upToDate, version)) ∧
    (∃ s₁ r₁ s₂ r₂,
      comparatorCompare sampleList ⟨sampleName, .zero⟩ .zero = .ok (.ok, s₁, r₁) ∧
      comparatorCompare sampleList ⟨sampleName, ⟨1, 1, strncpyBuf [] _⟩⟩ .zero =
        .ok (.ok, s₂, r₂) ∧
      s₂.rank ≤ s₁.rank ∧ compareVersion r₁ r₂ ≠ .newer) ∧
    (∃ s r s' r',
      comparatorCompare sampleList ⟨sampleName, .zero⟩ .zero = .ok (.ok, s, r) ∧
      comparatorCompare ⟨some ⟨0, [sampleExtended]⟩, 1⟩ ⟨sampleName, .zero⟩ .zero =
        .ok (.ok, s', r') ∧
      s.rank ≤ s'.rank ∧ compareVersion r r' ≠ .newer) := by
  obtain ⟨hconverge, hinstalled, hlisted⟩ :=
    comparatorCompare_monotone sampleList sampleName sampleSoftware (by decide) rfl
  obtain ⟨status, version, h, h'⟩ := hconverge .zero .zero
  exact ⟨⟨status, version, h, h' .zero⟩, hinstalled _ _ .zero .zero (by decide),
    hlisted _ _ .zero .zero .zero (by decide) inserted_sampleExtended⟩

end UpdateCheck.Comparator
