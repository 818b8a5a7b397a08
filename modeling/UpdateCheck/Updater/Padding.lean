import UpdateCheck.Comparator.Convergence
import UpdateCheck.Updater.Answer

/-!
# Bytes behind a terminator

A revision shorter than its buffer has to be terminated, not padded, and `check_input` does not look
behind the terminator. `compare_revision` does: against a listed revision, which is padded, the
bytes there decide the comparison of two equal revisions (`versionKey_lt_iff`). A negative one makes
the installed version older than its own entry in the list, a positive one makes it newer, which
changes nothing.

So two installed softwares that differ only in such bytes are answered alike, except where just one
of them has a negative byte and the list holds their version with a severity that no newer version
reaches (`updaterCheck_padding_iff`).
-/

namespace UpdateCheck.Updater

open Comparator ListParser Fetcher

/-! ## Stray bytes -/

/-- The first byte other than NUL is negative as a `char`. -/
def firstNegative (s : List CChar) : Bool := (s.find? (· != 0)).any fun c => c.toInt < 0

/-- The first byte other than NUL behind the terminator is negative as a `char`. -/
def strayNegative (s : List CChar) : Bool := firstNegative (s.drop ((content s).length + 1))

theorem firstNegative_cons (c : CChar) (s : List CChar) :
    firstNegative (c :: s) = if c = 0 then firstNegative s else decide (c.toInt < 0) := by
  unfold firstNegative
  by_cases hc : c = 0 <;> simp [hc]

theorem strayNegative_cons (c : CChar) (s : List CChar) :
    strayNegative (c :: s) = if c = 0 then firstNegative s else strayNegative s := by
  unfold strayNegative
  rw [content_cons]
  split <;> rfl

theorem ltrToLwr_eq_zero {c : CChar} : ltrToLwr c = 0 ↔ c = 0 := by
  rw [ltrToLwr_eq, CChar.toInt_eq_zero, CChar.lower_eq_zero]

theorem ltrToLwr_neg_iff {c : CChar} : ltrToLwr c < 0 ↔ c.toInt < 0 := by
  have hlower := CChar.lower_toNat c
  rw [ltrToLwr_eq, CChar.toInt_neg_iff, CChar.toInt_neg_iff, hlower]
  split <;> omega

/-- A buffer lies below the buffer of NULs exactly when its first other byte is negative. -/
theorem map_ltrToLwr_lt_zeros (s : List CChar) :
    s.map ltrToLwr < (List.replicate s.length 0).map ltrToLwr ↔ firstNegative s = true := by
  induction s with
  | nil => simp [firstNegative]
  | cons c s ih =>
    rw [List.length_cons, List.replicate_succ, List.map_cons, List.map_cons,
      List.cons_lt_cons_iff, ih, firstNegative_cons]
    change ltrToLwr c < 0 ∨ ltrToLwr c = 0 ∧ _ ↔ _
    rw [ltrToLwr_neg_iff, ltrToLwr_eq_zero]
    by_cases hc : c = 0 <;> simp [hc]

/-- Against a padded buffer the bytes behind the terminator count only where everything before
agrees. -/
theorem map_ltrToLwr_lt_iff {r l : List CChar} (hlen : r.length = l.length)
    (hl : strncpy l l.length = l) :
    r.map ltrToLwr < l.map ltrToLwr ↔
      (strncpy r r.length).map ltrToLwr < l.map ltrToLwr ∨
        ((strncpy r r.length).map ltrToLwr = l.map ltrToLwr ∧ strayNegative r = true) := by
  induction r generalizing l with
  | nil =>
    obtain rfl := List.length_eq_zero_iff.mp hlen.symm
    simp [strncpy, strayNegative, firstNegative]
  | cons x r ih =>
    cases l with
    | nil => cases hlen
    | cons y l =>
      have hlen : r.length = l.length := by simpa using hlen
      rw [List.length_cons, strncpy] at hl ⊢
      rw [strayNegative_cons]
      by_cases hx : x = 0
      · -- the first buffer ends here, so its padded form is all NULs
        rw [if_pos hx, if_pos hx, hx, strncpy_nil, List.map_cons, List.map_cons, List.map_cons]
        by_cases hy : y = 0
        · rw [if_pos hy, strncpy_nil] at hl
          have hzeros : l = List.replicate r.length 0 := by
            rw [hlen]
            exact (List.cons.inj hl).2.symm
          rw [hzeros, hy, List.cons_lt_cons_iff, map_ltrToLwr_lt_zeros]
          simp
        · have hne : ltrToLwr 0 ≠ ltrToLwr y := fun h => hy (ltrToLwr_eq_zero.mp h.symm)
          rw [List.cons_lt_cons_iff, List.cons_lt_cons_iff]
          simp [hne]
      · rw [if_neg hx, if_neg hx, List.map_cons, List.map_cons, List.map_cons,
          List.cons_lt_cons_iff, List.cons_lt_cons_iff, List.cons.injEq]
        by_cases hxy : ltrToLwr x = ltrToLwr y
        · have hy : y ≠ 0 := by
            rintro rfl
            exact hx (ltrToLwr_eq_zero.mp hxy)
          rw [if_neg hy] at hl
          rw [ih hlen (List.cons.inj hl).2, hxy]
          simp
        · simp [hxy]

/-! ## Padded versions -/

/-- The version with NULs behind the terminator of its revision. -/
def padded (v : EupdVersion) : EupdVersion :=
  { v with revision := strncpyBuf v.revision.toList revisionSize }

theorem strncpy_of_paddedRevision {r : Vector CChar revisionSize} (h : PaddedRevision r) :
    strncpy r.toList revisionSize = r.toList := by
  obtain ⟨s, hform, hlen, hr⟩ := h
  rw [hr, strncpy_eq, content_append_replicate, content_eq_self hform.zero_notMem,
    List.take_of_length_le hlen]

/-- A listed version is newer than an installed one where it is newer than its padded form, or
equal to that and the installed one has a negative stray byte. -/
theorem versionKey_lt_iff (v : EupdVersion) {w : EupdVersion} (hw : PaddedRevision w.revision) :
    versionKey v < versionKey w ↔ versionKey (padded v) < versionKey w ∨
      (versionKey (padded v) = versionKey w ∧ strayNegative v.revision.toList = true) := by
  have hrevision := map_ltrToLwr_lt_iff (r := v.revision.toList) (l := w.revision.toList)
    (by simp) (by simpa using strncpy_of_paddedRevision hw)
  rw [Vector.length_toList] at hrevision
  simp only [versionKey, padded, revisionKey, toList_strncpyBuf, Prod.Lex.toLex_lt_toLex,
    toLex_inj, Prod.mk.injEq]
  rw [hrevision]
  tauto

/-! ## Two installed versions -/

/-- Two versions agree but for bytes behind the terminators of their revisions. -/
structure SameVersion (v v' : EupdVersion) : Prop where
  major : v.major = v'.major
  minor : v.minor = v'.minor
  revision : content v.revision.toList = content v'.revision.toList

/-- The listed version compares as the same as the installed one with padding. -/
def Twin (checked : EupdVersion) (lv : ListVersion) : Prop :=
  compareVersion lv.version (padded checked) = .same

/-- Each listed twin of the installed version is outdone by a newer one of no lower severity. -/
def Outdone (checked : EupdVersion) (history : List ListVersion) : Prop :=
  ∀ t ∈ history, Twin checked t → ∃ n ∈ history,
    compareVersion n.version t.version = .newer ∧ t.severity ≤ n.severity

instance (checked : EupdVersion) (history : List ListVersion) : Decidable (Outdone checked history) :=
  inferInstanceAs (Decidable (∀ t ∈ history, compareVersion t.version (padded checked) = .same →
    ∃ n ∈ history, compareVersion n.version t.version = .newer ∧ t.severity ≤ n.severity))

theorem SameVersion.symm {v v' : EupdVersion} (h : SameVersion v v') : SameVersion v' v :=
  ⟨h.major.symm, h.minor.symm, h.revision.symm⟩

theorem SameVersion.padded_eq {v v' : EupdVersion} (h : SameVersion v v') :
    padded v = padded v' := by
  have hbytes : strncpyBuf v.revision.toList revisionSize =
      strncpyBuf v'.revision.toList revisionSize := by
    rw [← Vector.toList_inj, toList_strncpyBuf, toList_strncpyBuf, strncpy_eq, strncpy_eq,
      h.revision]
  rw [padded, padded, h.major, h.minor, hbytes]

theorem SameVersion.outdone_iff {v v' : EupdVersion} (h : SameVersion v v')
    (history : List ListVersion) : Outdone v history ↔ Outdone v' history := by
  rw [Outdone, Outdone]
  simp only [Twin, h.padded_eq]

section Histories

variable {a b : EupdVersion} {history : List ListVersion}

/-- With the same kind of stray bytes the same versions are newer. -/
theorem newerVersions_of_strayNegative_eq (hab : SameVersion a b)
    (hpad : ∀ lv ∈ history, PaddedRevision lv.version.revision)
    (hstray : strayNegative a.revision.toList = strayNegative b.revision.toList) :
    newerVersions a history = newerVersions b history := by
  refine List.filter_congr fun lv hlv => ?_
  rw [decide_eq_decide, versionKey_lt_iff a (hpad lv hlv), versionKey_lt_iff b (hpad lv hlv),
    hab.padded_eq, hstray]

theorem mem_newerVersions_of_negative (hpad : ∀ lv ∈ history, PaddedRevision lv.version.revision)
    (ha : strayNegative a.revision.toList = true) {lv : ListVersion} :
    lv ∈ newerVersions a history ↔
      lv ∈ history ∧ versionKey (padded a) ≤ versionKey lv.version := by
  rw [mem_newerVersions]
  refine and_congr_right fun hlv => ?_
  rw [versionKey_lt_iff a (hpad lv hlv), ha, le_iff_lt_or_eq]
  simp

theorem mem_newerVersions_of_not_negative
    (hpad : ∀ lv ∈ history, PaddedRevision lv.version.revision)
    (hb : strayNegative b.revision.toList = false) {lv : ListVersion} :
    lv ∈ newerVersions b history ↔
      lv ∈ history ∧ versionKey (padded b) < versionKey lv.version := by
  rw [mem_newerVersions]
  refine and_congr_right fun hlv => ?_
  rw [versionKey_lt_iff b (hpad lv hlv), hb]
  simp

/-- Where the versions that are newer than one installed version are among those newer than the
other, and there are some if there are any newer than the other, the reported versions agree. -/
theorem latestVersion_sameVersion (hab : SameVersion a b)
    (hsub : ∀ lv ∈ newerVersions b history, lv ∈ newerVersions a history)
    (hnil : newerVersions b history = [] → newerVersions a history = []) :
    SameVersion (latestVersion a history) (latestVersion b history) := by
  by_cases hb : newerVersions b history = []
  · rw [latestVersion_of_newerVersions_eq_nil hb,
      latestVersion_of_newerVersions_eq_nil (hnil hb)]
    exact hab
  · obtain ⟨lv, hlv⟩ := List.exists_mem_of_ne_nil _ hb
    have hlatest : latestVersion a history = latestVersion b history :=
      runMax_eq_of_beaten ⟨lv.version, List.mem_map_of_mem (mem_newerVersions.mp hlv).1,
        (mem_newerVersions.mp (hsub lv hlv)).2, (mem_newerVersions.mp hlv).2⟩
    rw [hlatest]
    exact ⟨rfl, rfl, rfl⟩

theorem gradeOf_inj {s t : Severity} (hs : s.Named) (ht : t.Named) (h : gradeOf s = gradeOf t) :
    s = t := by
  rcases hs with rfl | rfl | rfl <;> rcases ht with rfl | rfl | rfl <;> first | rfl | cases h

/-- Statuses with something newer are equal where the highest severities are. -/
theorem statusFor_eq_iff_topSeverity (hnamed : ∀ lv ∈ history, lv.severity.Named)
    (ha : newerVersions a history ≠ []) (hb : newerVersions b history ≠ []) :
    statusFor a history = statusFor b history ↔
      topSeverity (newerVersions a history) = topSeverity (newerVersions b history) := by
  have htop : ∀ v, (topSeverity (newerVersions v history)).Named := fun v =>
    topSeverity_named fun lv hlv => hnamed lv (mem_newerVersions.mp hlv).1
  rw [statusFor, statusFor, if_neg ha, if_neg hb]
  exact ⟨gradeOf_inj (htop a) (htop b), fun h => by rw [h]⟩

theorem newerVersions_subset (hab : SameVersion a b)
    (hpad : ∀ lv ∈ history, PaddedRevision lv.version.revision)
    (ha : strayNegative a.revision.toList = true) (hb : strayNegative b.revision.toList = false) :
    ∀ lv ∈ newerVersions b history, lv ∈ newerVersions a history := by
  intro lv hlv
  rw [mem_newerVersions_of_not_negative hpad hb, ← hab.padded_eq] at hlv
  exact (mem_newerVersions_of_negative hpad ha).mpr ⟨hlv.1, hlv.2.le⟩

/-- A version that only the negative stray byte makes newer is a twin, and so is outdone. -/
theorem exists_newer_of_outdone (hab : SameVersion a b)
    (hpad : ∀ lv ∈ history, PaddedRevision lv.version.revision)
    (ha : strayNegative a.revision.toList = true) (hb : strayNegative b.revision.toList = false)
    (h : Outdone a history) {lv : ListVersion} (hlv : lv ∈ newerVersions a history) :
    ∃ n ∈ newerVersions b history, lv.severity ≤ n.severity := by
  have hmemB : ∀ n ∈ history, versionKey (padded a) < versionKey n.version →
      n ∈ newerVersions b history := fun n hn hlt =>
    (mem_newerVersions_of_not_negative hpad hb).mpr ⟨hn, hab.padded_eq ▸ hlt⟩
  obtain ⟨hmem, hle⟩ := (mem_newerVersions_of_negative hpad ha).mp hlv
  rcases hle.lt_or_eq with hlt | heq
  · exact ⟨lv, hmemB lv hmem hlt, le_rfl⟩
  · obtain ⟨n, hn, hnew, hsev⟩ := h lv hmem (compareVersion_same.mpr heq.symm)
    exact ⟨n, hmemB n hn (heq ▸ compareVersion_newer.mp hnew), hsev⟩

/-- The installed version with a negative stray byte finds its twins newer than itself; they make
no difference to the status exactly when each of them is outdone. -/
theorem statusFor_eq_iff_outdone (hab : SameVersion a b)
    (hpad : ∀ lv ∈ history, PaddedRevision lv.version.revision)
    (hnamed : ∀ lv ∈ history, lv.severity.Named)
    (ha : strayNegative a.revision.toList = true) (hb : strayNegative b.revision.toList = false) :
    statusFor a history = statusFor b history ↔ Outdone a history := by
  constructor
  · intro hstatus t ht htwin
    have hkey := compareVersion_same.mp htwin
    have htA : t ∈ newerVersions a history :=
      (mem_newerVersions_of_negative hpad ha).mpr ⟨ht, hkey.ge⟩
    have hneA := List.ne_nil_of_mem htA
    by_contra hnone
    have hlow : ∀ n ∈ newerVersions b history, n.severity < t.severity := by
      intro n hn
      rw [mem_newerVersions_of_not_negative hpad hb, ← hab.padded_eq] at hn
      obtain ⟨hmem, hlt⟩ := hn
      by_contra hle
      exact hnone ⟨n, hmem, compareVersion_newer.mpr (hkey ▸ hlt), Nat.not_lt.mp hle⟩
    by_cases hneB : newerVersions b history = []
    · rw [statusFor, statusFor, if_neg hneA, if_pos hneB] at hstatus
      exact gradeOf_ne_upToDate _ hstatus
    · have htop := (statusFor_eq_iff_topSeverity hnamed hneA hneB).mp hstatus
      obtain ⟨⟨n, hn, hsev⟩, -⟩ := topSeverity_isGreatest hneB
      have hlt := hlow n hn
      rw [hsev, ← htop] at hlt
      exact absurd (le_topSeverity htA) (Nat.not_le.mpr hlt)
  · intro houtdone
    have hraise : ∀ lv ∈ newerVersions a history, ∃ n ∈ newerVersions b history,
        lv.severity ≤ n.severity := fun lv hlv =>
      exists_newer_of_outdone hab hpad ha hb houtdone hlv
    have hsub := newerVersions_subset hab hpad ha hb
    by_cases hneA : newerVersions a history = []
    · have hneB : newerVersions b history = [] := by
        rw [List.eq_nil_iff_forall_not_mem]
        exact fun lv hlv => List.ne_nil_of_mem (hsub lv hlv) hneA
      rw [statusFor, statusFor, if_pos hneA, if_pos hneB]
    · obtain ⟨lv, hlv⟩ := List.exists_mem_of_ne_nil _ hneA
      obtain ⟨n, hn, -⟩ := hraise lv hlv
      refine (statusFor_eq_iff_topSeverity hnamed hneA (List.ne_nil_of_mem hn)).mpr ?_
      refine le_antisymm (topSeverity_le fun lv hlv => ?_) (topSeverity_le fun lv hlv => ?_)
      · obtain ⟨n, hn, hsev⟩ := hraise lv hlv
        exact hsev.trans (le_topSeverity hn)
      · exact le_topSeverity (hsub lv hlv)

/-- The verdicts on two versions that agree but for stray bytes. -/
theorem verdict_agree_iff (hab : SameVersion a b)
    (hpad : ∀ lv ∈ history, PaddedRevision lv.version.revision)
    (hnamed : ∀ lv ∈ history, lv.severity.Named)
    (ha : strayNegative a.revision.toList = true) (hb : strayNegative b.revision.toList = false) :
    (statusFor a history = statusFor b history ∧
      SameVersion (latestVersion a history) (latestVersion b history)) ↔ Outdone a history := by
  rw [statusFor_eq_iff_outdone hab hpad hnamed ha hb, and_iff_left_iff_imp]
  intro houtdone
  refine latestVersion_sameVersion hab (newerVersions_subset hab hpad ha hb) fun hnil => ?_
  rw [List.eq_nil_iff_forall_not_mem]
  intro lv hlv
  obtain ⟨n, hn, -⟩ := exists_newer_of_outdone hab hpad ha hb houtdone hlv
  exact List.ne_nil_of_mem hn hnil

end Histories

/-! ## Two checks -/

/-- Two answers agree but for bytes behind the terminators of the revisions. -/
structure SameReport (a a' : Answer) : Prop where
  status : a.status = a'.status
  version : SameVersion a.version a'.version
  link : a.link = a'.link

/-- The history of the first entry with the name. -/
def historyFor (entries : List Entry) (name : Vector CChar nameSize) : List ListVersion :=
  ((entryFor entries name).map Entry.history).getD []

/-- The versions a document lists under a name. -/
def listedVersions (doc : List CChar) (name : Vector CChar nameSize) : List ListVersion :=
  match documentList (doc ++ [0]) with
  | .ok (_, entries) => historyFor entries name
  | .error _ => []

/-- Stray bytes do not matter to two checks: the first of them is negative in both or in neither,
or every listed twin of the installed version is outdone. -/
def PaddingHarmless (doc : List CChar) (a b : EupdInSoftware) : Prop :=
  strayNegative a.version.revision.toList = strayNegative b.version.revision.toList ∨
    Outdone a.version (listedVersions doc a.name)

theorem entryFor_congr {a b : Vector CChar nameSize} (h : nameContent a = nameContent b)
    (entries : List Entry) : entryFor entries a = entryFor entries b := by
  have hname : ∀ e : Entry, SameName e.name a ↔ SameName e.name b := fun e => by
    rw [SameName, SameName, h]
  simp only [entryFor, hname]

theorem answer_sameReport_iff {entries : List Entry}
    (hpad : ∀ e ∈ entries, ∀ lv ∈ e.history, PaddedRevision lv.version.revision)
    (hnamed : ∀ e ∈ entries, ∀ lv ∈ e.history, lv.severity.Named) {a b : EupdInSoftware}
    (hname : nameContent a.name = nameContent b.name) (hab : SameVersion a.version b.version) :
    SameReport (answer entries a) (answer entries b) ↔
      strayNegative a.version.revision.toList = strayNegative b.version.revision.toList ∨
        Outdone a.version (historyFor entries a.name) := by
  cases he : entryFor entries a.name with
  | none =>
    have he' := (entryFor_congr hname entries).symm.trans he
    rw [answer_of_none he, answer_of_none he', historyFor, he]
    refine iff_of_true ⟨rfl, ⟨rfl, rfl, rfl⟩, rfl⟩ (Or.inr fun t ht => ?_)
    cases ht
  | some e =>
    have he' := (entryFor_congr hname entries).symm.trans he
    have hmem := List.mem_of_find?_eq_some he
    have hp := hpad e hmem
    have hn := hnamed e hmem
    have hreport : SameReport (answer entries a) (answer entries b) ↔
        statusFor a.version e.history = statusFor b.version e.history ∧
          SameVersion (latestVersion a.version e.history) (latestVersion b.version e.history) := by
      rw [answer_of_some he, answer_of_some he']
      exact ⟨fun h => ⟨h.status, h.version⟩, fun h => ⟨h.1, h.2, rfl⟩⟩
    have hhistory : historyFor entries a.name = e.history := by rw [historyFor, he]; rfl
    rw [hreport, hhistory]
    by_cases hstray : strayNegative a.version.revision.toList =
        strayNegative b.version.revision.toList
    · have hnewer := newerVersions_of_strayNegative_eq hab hp hstray
      refine iff_of_true ⟨by rw [statusFor, statusFor, hnewer], ?_⟩ (Or.inl hstray)
      exact latestVersion_sameVersion hab (by simp [hnewer]) (by simp [hnewer])
    · rw [or_iff_right hstray]
      cases ha : strayNegative a.version.revision.toList with
      | true =>
        have hb : strayNegative b.version.revision.toList = false := by
          simpa [ha] using hstray
        exact verdict_agree_iff hab hp hn ha hb
      | false =>
        have hb : strayNegative b.version.revision.toList = true := by
          simpa [ha] using hstray
        rw [hab.outdone_iff, ← verdict_agree_iff hab.symm hp hn hb ha]
        exact ⟨fun h => ⟨h.1.symm, h.2.symm⟩, fun h => ⟨h.1.symm, h.2.symm⟩⟩

/-- Two checks end alike: with the same code or exception, and with results that agree but for
bytes behind the terminator of the revision. -/
structure SameOutcome (o o' : Except Raised EupdRetCode × EupdResult × Ledger) : Prop where
  ret : o.1 = o'.1
  status : o.2.1.status = o'.2.1.status
  version : SameVersion o.2.1.version o'.2.1.version
  link : o.2.1.link.val? = o'.2.1.link.val?

/-- **Bytes behind a terminator.** With every allocation granted, two accepted softwares that agree
in their numbers, in the contents of their names and in the contents of their revisions are
answered alike exactly when their stray bytes are harmless for the document. -/
theorem updaterCheck_padding_iff {env : Env} {url doc : List CChar}
    (hd : Delivers env.curl url doc) {a b : EupdInSoftware} (ha : checkInput a = true)
    (hb : checkInput b = true) (hname : nameContent a.name = nameContent b.name)
    (hab : SameVersion a.version b.version) (allowInsecure : Int32) (result result' : EupdResult)
    {L L' : Ledger} (hL : L.AllGranted) (hL' : L'.AllGranted) :
    SameOutcome ((updaterCheck env url a allowInsecure).exec result L)
      ((updaterCheck env url b allowInsecure).exec result' L') ↔ PaddingHarmless doc a b := by
  rw [PaddingHarmless, listedVersions]
  cases hdoc : documentList (doc ++ [0]) with
  | error e =>
    obtain ⟨K, hexec⟩ := updaterCheck_throws hd ha allowInsecure hdoc result hL
    obtain ⟨K', hexec'⟩ := updaterCheck_throws hd hb allowInsecure hdoc result' hL'
    rw [hexec, hexec']
    refine iff_of_true ⟨rfl, rfl, ⟨rfl, rfl, rfl⟩, rfl⟩ (Or.inr fun t ht => ?_)
    cases ht
  | ok p =>
    obtain ⟨code, entries⟩ := p
    obtain ⟨r, K, hexec, hshows⟩ := updaterCheck_run hd ha allowInsecure hdoc result hL
    obtain ⟨r', K', hexec', hshows'⟩ := updaterCheck_run hd hb allowInsecure hdoc result' hL'
    rw [hexec, hexec', ← answer_sameReport_iff (documentList_padded hdoc) (documentList_named hdoc)
      hname hab]
    constructor
    · rintro ⟨-, hstatus, hversion, hlink⟩
      rw [hshows.status, hshows'.status] at hstatus
      rw [hshows.version, hshows'.version] at hversion
      rw [hshows.link, hshows'.link] at hlink
      exact ⟨hstatus, hversion, hlink⟩
    · rintro ⟨hstatus, hversion, hlink⟩
      have hcode : checkCode code (answer entries a) = checkCode code (answer entries b) := by
        rw [checkCode, checkCode, itemCode, itemCode, hstatus]
      refine ⟨by rw [hcode], ?_, ?_, ?_⟩
      · rw [hshows.status, hshows'.status, hstatus]
      · rw [hshows.version, hshows'.version]
        exact hversion
      · rw [hshows.link, hshows'.link, hlink]

/-- The version 1.0a, with NULs behind its terminator. -/
def cleanInstalled : EupdInSoftware := sampleInstalled #v[97, 0, 0, 0]

/-- The version 1.0a, with a byte `0xFF` behind its terminator. -/
def strayInstalled : EupdInSoftware := sampleInstalled #v[97, 0, 255, 0]

theorem updaterCheck_sampleEnv {sw : EupdInSoftware} (hsw : checkInput sw = true)
    {status : EupdUpdateStatus} (h : (answer sampleEntries sw).status = status)
    (hfound : status ≠ .unknown) :
    ∃ r L', (updaterCheck sampleEnv [] sw 0).exec .zero (.start fun _ => true) =
      (.ok .ok, r, L') ∧ r.status = status := by
  obtain ⟨r, L', hexec, hshows⟩ := updaterCheck_run (sampleEnv_delivers []) hsw 0
    documentList_sample .zero (L := .start fun _ => true) fun _ => rfl
  have hcode : checkCode .ok (answer sampleEntries sw) = .ok := by
    rw [checkCode_eq (Or.inl rfl), h, if_neg (by decide), if_neg hfound]
  rw [hcode] at hexec
  exact ⟨r, L', hexec, hshows.status.trans h⟩

/-- The same installed version is up to date, or requires an update to itself. -/
theorem updaterCheck_stray :
    (checkInput cleanInstalled = true ∧ checkInput strayInstalled = true) ∧
    (∃ r L', (updaterCheck sampleEnv [] cleanInstalled 0).exec .zero (.start fun _ => true) =
      (.ok .ok, r, L') ∧ r.status = .upToDate) ∧
    (∃ r L', (updaterCheck sampleEnv [] strayInstalled 0).exec .zero (.start fun _ => true) =
      (.ok .ok, r, L') ∧ r.status = .updateRequired) ∧
    ¬ ∀ (env : Env) (url doc : List CChar), Delivers env.curl url doc → ∀ a b : EupdInSoftware,
      checkInput a = true → checkInput b = true → nameContent a.name = nameContent b.name →
      SameVersion a.version b.version → ∀ allowInsecure result L, L.AllGranted →
        SameOutcome ((updaterCheck env url a allowInsecure).exec result L)
          ((updaterCheck env url b allowInsecure).exec result L) := by
  have hclean : checkInput cleanInstalled = true := by decide
  have hstray : checkInput strayInstalled = true := by decide
  obtain ⟨r, K, hexec, hstatus⟩ := @updaterCheck_sampleEnv cleanInstalled hclean .upToDate
    (by decide +kernel) (by decide)
  obtain ⟨r', K', hexec', hstatus'⟩ := @updaterCheck_sampleEnv strayInstalled hstray
    .updateRequired (by decide +kernel) (by decide)
  refine ⟨⟨hclean, hstray⟩, ⟨r, K, hexec, hstatus⟩, ⟨r', K', hexec', hstatus'⟩, fun h => ?_⟩
  have hsame := (h sampleEnv [] sampleDocument (sampleEnv_delivers []) cleanInstalled
    strayInstalled hclean hstray rfl ⟨rfl, rfl, by decide⟩ 0 .zero (.start fun _ => true)
    fun _ => rfl).status
  rw [hexec, hexec'] at hsame
  dsimp only at hsame
  rw [hstatus, hstatus'] at hsame
  cases hsame

theorem updaterCheck_padding_iff_sample :
    SameOutcome ((updaterCheck sampleEnv [] cleanInstalled 0).exec .zero (.start fun _ => true))
      ((updaterCheck sampleEnv [] strayInstalled 0).exec .zero (.start fun _ => true)) ↔
        PaddingHarmless sampleDocument cleanInstalled strayInstalled := by
  have hname : nameContent cleanInstalled.name = nameContent strayInstalled.name := rfl
  have hab : SameVersion cleanInstalled.version strayInstalled.version := ⟨rfl, rfl, by decide⟩
  have hL : (Ledger.start fun _ => true).AllGranted := fun _ => rfl
  exact updaterCheck_padding_iff (sampleEnv_delivers []) (by decide) (by decide) hname hab 0 .zero
    .zero hL hL

end UpdateCheck.Updater
