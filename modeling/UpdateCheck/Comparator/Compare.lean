import UpdateCheck.Comparator.Order
import UpdateCheck.Base.Select
import Mathlib.Order.Bounds.Basic

/-!
# The verdict of `comparator_compare`

`comparatorCompare` follows the source: a search for the first item with the checked name, then
one loop over its versions with two accumulators. The loop invariant ties the accumulators
together (`compareLoop_spec`): the reported version is the running maximum of the versions met,
an update is available exactly when that maximum has left the installed version, and the
severity is the running maximum over the versions newer than the installed one, which are the
same versions for both. `comparatorCompare_eq` states the result in these terms, without the
loop.

`Verdict` is what the result means: `comparatorCompare_verdict`.
-/

namespace UpdateCheck.Comparator

/-! ## The comparator of the source -/

/-- The locals of the loop over the versions. -/
structure Locals where
  newVersion : EupdVersion
  updateAvailable : Bool
  severity : Severity

def compareBody (checked : EupdVersion) (s : Locals) (lv : ListVersion) : Locals :=
  let s :=
    if compareVersion lv.version s.newVersion = .newer then
      { s with updateAvailable := true, newVersion := copyVersion s.newVersion lv.version }
    else s
  if compareVersion lv.version checked = .newer then
    if lv.severity > s.severity then { s with severity := lv.severity } else s
  else s

def compareLoop (checked : EupdVersion) (s : Locals) : List ListVersion → Locals
  | [] => s
  | lv :: versions => compareLoop checked (compareBody checked s lv) versions

/-- The `switch (severity)`, with `abort` as its default. -/
def statusOfSeverity (severity : Severity) : Except Raised EupdUpdateStatus :=
  if severity = sevFeature then .ok .updateAvailable
  else if severity = sevBugfix then .ok .updateRecommended
  else if severity = sevCritical then .ok .updateRequired
  else .error .abort

/-- What `comparator_compare` does with the item it found. -/
def compareItem (sw : Software) (checked : EupdVersion) (newVersion : EupdVersion) :
    Except Raised (EupdRetCode × EupdUpdateStatus × EupdVersion) :=
  let s := compareLoop checked ⟨copyVersion newVersion checked, false, sevFeature⟩ sw.history
  if s.updateAvailable then
    match statusOfSeverity s.severity with
    | .ok status => .ok (.ok, status, s.newVersion)
    | .error e => .error e
  else .ok (.ok, .upToDate, s.newVersion)

/-- `STRNICMP(sw->name, checked_sw->name, 32) == 0`. -/
def nameMatches (sw checked : Vector CChar nameSize) : Bool :=
  strncasecmp sw.toList checked.toList nameSize = 0

def compareItems (checked : EupdInSoftware) (newVersion : EupdVersion) :
    List Software → Except Raised (EupdRetCode × EupdUpdateStatus × EupdVersion)
  | [] => .ok (.wNotFound, .unknown, newVersion)
  | sw :: items =>
    if nameMatches sw.name checked.name then compareItem sw checked.version newVersion
    else compareItems checked newVersion items

/-- `comparator_compare`: the return code, `*status` and `*new_version`. The incoming status is
overwritten on every path, the incoming version only where an item is found. -/
def comparatorCompare (swList : SoftwareList) (checked : EupdInSoftware)
    (newVersion : EupdVersion) : Except Raised (EupdRetCode × EupdUpdateStatus × EupdVersion) :=
  compareItems checked newVersion swList.visible

/-! ## Names -/

/-- The content of a name: up to the first NUL or all 32 bytes. -/
def nameContent (name : Vector CChar nameSize) : List CChar := content name.toList

/-- Two names agree up to letter case. -/
def SameName (a b : Vector CChar nameSize) : Prop := SameFold (nameContent a) (nameContent b)

instance (a b : Vector CChar nameSize) : Decidable (SameName a b) :=
  inferInstanceAs (Decidable (SameFold _ _))

theorem nameMatches_iff {a b : Vector CChar nameSize} :
    nameMatches a b = true ↔ SameName a b := by
  rw [nameMatches, decide_eq_true_iff, strncasecmp_eq_zero_iff (by simp) (by simp)]
  rfl

def firstMatch (swList : SoftwareList) (name : Vector CChar nameSize) : Option Software :=
  swList.visible.find? fun sw => SameName sw.name name

theorem compareItems_eq (checked : EupdInSoftware) (v : EupdVersion) (items : List Software) :
    compareItems checked v items =
      match items.find? fun sw => SameName sw.name checked.name with
      | none => .ok (.wNotFound, .unknown, v)
      | some sw => compareItem sw checked.version v := by
  induction items with
  | nil => rfl
  | cons sw items ih =>
    rw [compareItems, List.find?_cons]
    by_cases h : SameName sw.name checked.name
    · rw [if_pos (nameMatches_iff.mpr h), decide_eq_true h]
    · rw [if_neg (fun hm => h (nameMatches_iff.mp hm)), decide_eq_false h, ih]

/-! ## The loop -/

/-- The versions strictly newer than the installed one. -/
def newerVersions (checked : EupdVersion) (history : List ListVersion) : List ListVersion :=
  history.filter fun lv => versionKey checked < versionKey lv.version

/-- The maximum of the installed version and the listed ones, the earliest of equals. -/
def latestVersion (checked : EupdVersion) (history : List ListVersion) : EupdVersion :=
  runMax versionKey checked (history.map ListVersion.version)

def topSeverity (versions : List ListVersion) : Severity :=
  runMax id sevFeature (versions.map ListVersion.severity)

/-- What the two accumulators hold after the versions `seen`. -/
structure LoopInvariant (checked : EupdVersion) (seen : List ListVersion) (s : Locals) : Prop where
  version : s.newVersion = latestVersion checked seen
  available : s.updateAvailable = true ↔ newerVersions checked seen ≠ []
  severity : s.severity = topSeverity (newerVersions checked seen)

theorem mem_newerVersions {checked : EupdVersion} {history : List ListVersion}
    {lv : ListVersion} : lv ∈ newerVersions checked history ↔
      lv ∈ history ∧ versionKey checked < versionKey lv.version := by
  rw [newerVersions, List.mem_filter, decide_eq_true_iff]

theorem newerVersions_ne_nil {checked : EupdVersion} {history : List ListVersion} :
    newerVersions checked history ≠ [] ↔
      ∃ lv ∈ history, versionKey checked < versionKey lv.version := by
  rw [ne_eq, List.eq_nil_iff_forall_not_mem]
  simp only [mem_newerVersions, not_forall, not_not]

theorem newerVersions_append (checked : EupdVersion) (history history' : List ListVersion) :
    newerVersions checked (history ++ history') =
      newerVersions checked history ++ newerVersions checked history' := List.filter_append _ _

theorem latestVersion_append (checked : EupdVersion) (history history' : List ListVersion) :
    latestVersion checked (history ++ history') =
      latestVersion (latestVersion checked history) history' := by
  rw [latestVersion, List.map_append, runMax_append]
  rfl

theorem topSeverity_append_singleton (versions : List ListVersion) (lv : ListVersion) :
    topSeverity (versions ++ [lv]) =
      if topSeverity versions < lv.severity then lv.severity else topSeverity versions := by
  rw [topSeverity, List.map_append, runMax_append]
  rfl

theorem latestVersion_singleton (v : EupdVersion) (lv : ListVersion) :
    latestVersion v [lv] = if versionKey v < versionKey lv.version then lv.version else v := rfl

theorem le_latestVersion (checked : EupdVersion) (history : List ListVersion) :
    versionKey checked ≤ versionKey (latestVersion checked history) := le_key_runMax _ _

theorem latestVersion_of_newerVersions_eq_nil {checked : EupdVersion}
    {history : List ListVersion} (h : newerVersions checked history = []) :
    latestVersion checked history = checked := by
  apply runMax_eq_start
  intro v hv
  obtain ⟨lv, hlv, rfl⟩ := List.mem_map.mp hv
  by_contra hlt
  exact newerVersions_ne_nil.mpr ⟨lv, hlv, not_le.mp hlt⟩ h

/-- One turn of the loop keeps the invariant. A version newer than the running maximum is newer
than the installed version too, since the maximum never falls below it; a version newer than
the installed one either moves the maximum or finds it moved already. -/
theorem LoopInvariant.step {checked : EupdVersion} {seen : List ListVersion} {s : Locals}
    (h : LoopInvariant checked seen s) (lv : ListVersion) :
    LoopInvariant checked (seen ++ [lv]) (compareBody checked s lv) := by
  have hle := le_latestVersion checked seen
  have hmax : versionKey checked < versionKey lv.version →
      ¬ versionKey (latestVersion checked seen) < versionKey lv.version →
      s.updateAvailable = true := by
    intro hlt hnot
    rw [h.available]
    intro hnil
    rw [latestVersion_of_newerVersions_eq_nil hnil] at hnot
    exact hnot hlt
  have hnew : newerVersions checked [lv] =
      if versionKey checked < versionKey lv.version then [lv] else [] := by
    unfold newerVersions
    by_cases hc : versionKey checked < versionKey lv.version <;> simp [hc]
  constructor
  · rw [latestVersion_append, latestVersion_singleton, ← h.version]
    unfold compareBody
    simp only [compareVersion_newer, copyVersion_eq]
    split_ifs <;> rfl
  · rw [newerVersions_append, hnew]
    unfold compareBody
    simp only [compareVersion_newer, h.version]
    by_cases hlt : versionKey (latestVersion checked seen) < versionKey lv.version
    · have hc := hle.trans_lt hlt
      simp only [hlt, hc, if_true]
      split_ifs <;> simp
    · by_cases hc : versionKey checked < versionKey lv.version
      · have hav := hmax hc hlt
        simp only [hlt, hc, if_true, if_false]
        split_ifs <;> simp [hav]
      · simp only [hlt, hc, if_false, List.append_nil]
        exact h.available
  · rw [newerVersions_append, hnew]
    unfold compareBody
    simp only [compareVersion_newer]
    by_cases hc : versionKey checked < versionKey lv.version
    · simp only [hc, if_true, topSeverity_append_singleton, ← h.severity, gt_iff_lt]
      split_ifs <;> rfl
    · simp only [hc, if_false, List.append_nil, ← h.severity]
      split_ifs <;> rfl

theorem LoopInvariant.run {checked : EupdVersion} {seen : List ListVersion} {s : Locals}
    (h : LoopInvariant checked seen s) (versions : List ListVersion) :
    LoopInvariant checked (seen ++ versions) (compareLoop checked s versions) := by
  induction versions generalizing seen s with
  | nil => simpa [compareLoop] using h
  | cons lv versions ih => simpa [compareLoop] using ih (h.step lv)

/-- After the whole loop the accumulators are the maxima over the whole history. -/
theorem compareLoop_spec (checked : EupdVersion) (history : List ListVersion) :
    LoopInvariant checked history (compareLoop checked ⟨checked, false, sevFeature⟩ history) := by
  have h0 : LoopInvariant checked [] ⟨checked, false, sevFeature⟩ :=
    ⟨rfl, by simp [newerVersions], rfl⟩
  simpa using h0.run history

/-! ## The result without the loop -/

theorem compareItem_eq (sw : Software) (checked v : EupdVersion) :
    compareItem sw checked v =
      if newerVersions checked sw.history = [] then .ok (.ok, .upToDate, checked)
      else (statusOfSeverity (topSeverity (newerVersions checked sw.history))).map
        fun status => (.ok, status, latestVersion checked sw.history) := by
  unfold compareItem
  generalize hs : compareLoop checked ⟨copyVersion v checked, false, sevFeature⟩ sw.history = s
  have h : LoopInvariant checked sw.history s := hs ▸ compareLoop_spec checked sw.history
  dsimp only
  by_cases hnil : newerVersions checked sw.history = []
  · have hav : s.updateAvailable = false := by
      rw [Bool.eq_false_iff, ne_eq, h.available, hnil]
      simp
    rw [if_pos hnil, hav, h.version, latestVersion_of_newerVersions_eq_nil hnil]
    rfl
  · rw [if_neg hnil, h.available.mpr hnil, h.severity, h.version]
    cases statusOfSeverity (topSeverity (newerVersions checked sw.history)) <;> rfl

/-- `comparator_compare` in terms of the first item with the checked name. -/
theorem comparatorCompare_eq (swList : SoftwareList) (checked : EupdInSoftware) (v : EupdVersion) :
    comparatorCompare swList checked v =
      match firstMatch swList checked.name with
      | none => .ok (.wNotFound, .unknown, v)
      | some sw => compareItem sw checked.version v := compareItems_eq _ _ _

/-! ## Severities -/

def SeveritiesNamed (swList : SoftwareList) : Prop :=
  ∀ sw ∈ swList.visible, ∀ lv ∈ sw.history, lv.severity.Named

/-- The status for the highest severity of the newer versions. -/
def gradeOf (severity : Severity) : EupdUpdateStatus :=
  if severity = sevFeature then .updateAvailable
  else if severity = sevBugfix then .updateRecommended
  else .updateRequired

/-- The status of an installed version against a history. -/
def statusFor (checked : EupdVersion) (history : List ListVersion) : EupdUpdateStatus :=
  if newerVersions checked history = [] then .upToDate
  else gradeOf (topSeverity (newerVersions checked history))

theorem statusOfSeverity_named {s : Severity} (h : s.Named) :
    statusOfSeverity s = .ok (gradeOf s) := by
  rcases h with rfl | rfl | rfl <;> rfl

theorem firstMatch_mem {swList : SoftwareList} {name : Vector CChar nameSize} {sw : Software}
    (h : firstMatch swList name = some sw) : sw ∈ swList.visible := List.mem_of_find?_eq_some h

theorem topSeverity_named {versions : List ListVersion}
    (h : ∀ lv ∈ versions, lv.severity.Named) : (topSeverity versions).Named := by
  rcases runMax_mem (k := id) sevFeature (versions.map ListVersion.severity) with he | hm
  · exact Or.inl he
  · obtain ⟨lv, hlv, heq⟩ := List.mem_map.mp hm
    rw [topSeverity, ← heq]
    exact h lv hlv

theorem le_topSeverity {versions : List ListVersion} {lv : ListVersion} (h : lv ∈ versions) :
    lv.severity ≤ topSeverity versions :=
  key_le_runMax_of_mem (k := id) sevFeature (List.mem_map_of_mem h)

theorem topSeverity_le {versions : List ListVersion} {s : Severity}
    (h : ∀ lv ∈ versions, lv.severity ≤ s) : topSeverity versions ≤ s := by
  rcases runMax_mem (k := id) sevFeature (versions.map ListVersion.severity) with he | hm
  · rw [topSeverity, he]
    exact Nat.zero_le s
  · obtain ⟨lv, hlv, heq⟩ := List.mem_map.mp hm
    rw [topSeverity, ← heq]
    exact h lv hlv

theorem topSeverity_isGreatest {versions : List ListVersion} (hne : versions ≠ []) :
    IsGreatest {s | ∃ lv ∈ versions, lv.severity = s} (topSeverity versions) := by
  constructor
  · rcases runMax_mem (k := id) sevFeature (versions.map ListVersion.severity) with he | hm
    · obtain ⟨lv, hlv⟩ := List.exists_mem_of_ne_nil _ hne
      have h := le_topSeverity hlv
      rw [topSeverity, he] at h ⊢
      exact ⟨lv, hlv, Nat.le_zero.mp h⟩
    · exact List.mem_map.mp hm
  · intro _ hs
    obtain ⟨lv, hlv, rfl⟩ := hs
    exact le_topSeverity hlv

/-- With named severities the item that is found gets a status and a version. -/
theorem compareItem_ok {sw : Software} (h : ∀ lv ∈ sw.history, lv.severity.Named)
    (checked v : EupdVersion) :
    compareItem sw checked v =
      .ok (.ok, statusFor checked sw.history, latestVersion checked sw.history) := by
  rw [compareItem_eq, statusFor]
  split_ifs with hnil
  · rw [latestVersion_of_newerVersions_eq_nil hnil]
  · rw [statusOfSeverity_named (topSeverity_named fun lv hlv =>
      h lv (mem_newerVersions.mp hlv).1)]
    rfl

theorem comparatorCompare_found {swList : SoftwareList} {name : Vector CChar nameSize}
    {sw : Software} (hsev : SeveritiesNamed swList) (hf : firstMatch swList name = some sw)
    (v w : EupdVersion) :
    comparatorCompare swList ⟨name, v⟩ w =
      .ok (.ok, statusFor v sw.history, latestVersion v sw.history) := by
  rw [comparatorCompare_eq, hf]
  exact compareItem_ok (hsev sw (firstMatch_mem hf)) v w

/-! ## The verdict -/

/-- What status and version say about an installed version and a version history. -/
structure Verdict (checked : EupdVersion) (history : List ListVersion)
    (status : EupdUpdateStatus) (version : EupdVersion) : Prop where
  /-- The reported version is the installed one or a listed one. -/
  listed : version = checked ∨ ∃ lv ∈ history, lv.version = version
  /-- Neither the installed version nor a listed one is newer than the reported one. -/
  latest : compareVersion checked version ≠ .newer ∧
    ∀ lv ∈ history, compareVersion lv.version version ≠ .newer
  /-- Where nothing newer is listed the installed version is reported as it is. -/
  unchanged : (∀ lv ∈ history, compareVersion lv.version checked ≠ .newer) → version = checked
  /-- Up to date means that nothing newer is listed. -/
  upToDate : status = .upToDate ↔ ∀ lv ∈ history, compareVersion lv.version checked ≠ .newer
  /-- Otherwise the status is the one of the highest severity of a newer version. -/
  graded : (∃ lv ∈ history, compareVersion lv.version checked = .newer) →
    ∃ s, IsGreatest {s | ∃ lv ∈ history, compareVersion lv.version checked = .newer ∧
      lv.severity = s} s ∧ statusOfSeverity s = .ok status

theorem gradeOf_ne_upToDate (s : Severity) : gradeOf s ≠ .upToDate := by
  unfold gradeOf
  split_ifs <;> decide

theorem verdict_of_named {history : List ListVersion} (h : ∀ lv ∈ history, lv.severity.Named)
    (checked : EupdVersion) :
    Verdict checked history (statusFor checked history) (latestVersion checked history) := by
  have hnil : newerVersions checked history = [] ↔
      ∀ lv ∈ history, compareVersion lv.version checked ≠ .newer := by
    rw [← not_iff_not, ← ne_eq, newerVersions_ne_nil]
    simp
  constructor
  · rcases runMax_mem (k := versionKey) checked (history.map ListVersion.version) with he | hm
    · exact Or.inl he
    · exact Or.inr (List.mem_map.mp hm)
  · refine ⟨compareVersion_not_newer.mpr (le_latestVersion _ _), fun lv hlv => ?_⟩
    exact compareVersion_not_newer.mpr
      (key_le_runMax_of_mem checked (List.mem_map_of_mem hlv))
  · intro hold
    exact latestVersion_of_newerVersions_eq_nil (hnil.mpr hold)
  · rw [← hnil, statusFor]
    split_ifs with hn
    · simp [hn]
    · simp [hn, gradeOf_ne_upToDate]
  · rintro ⟨lv, hlv, hnew⟩
    have hne : newerVersions checked history ≠ [] :=
      newerVersions_ne_nil.mpr ⟨lv, hlv, compareVersion_newer.mp hnew⟩
    have hset : {s | ∃ lv ∈ history, compareVersion lv.version checked = .newer ∧
        lv.severity = s} = {s | ∃ lv ∈ newerVersions checked history, lv.severity = s} := by
      ext s
      simp only [Set.mem_ofPred_eq, mem_newerVersions, compareVersion_newer, and_assoc]
    refine ⟨topSeverity (newerVersions checked history), ?_, ?_⟩
    · rw [hset]
      exact topSeverity_isGreatest hne
    · rw [statusFor, if_neg hne]
      exact statusOfSeverity_named (topSeverity_named fun lv hlv =>
        h lv (mem_newerVersions.mp hlv).1)

/-- **The verdict of the comparator.** For a list with named severities: without an item of the
checked name the result is `EUPD_W_NOT_FOUND` and the status unknown; otherwise it is `EUPD_OK`
and status and version are the verdict on the first such item. -/
theorem comparatorCompare_verdict (swList : SoftwareList) (checked : EupdInSoftware)
    (v : EupdVersion) (hsev : SeveritiesNamed swList) :
    match firstMatch swList checked.name with
    | none => comparatorCompare swList checked v = .ok (.wNotFound, .unknown, v)
    | some sw => ∃ status version,
        comparatorCompare swList checked v = .ok (.ok, status, version) ∧
          Verdict checked.version sw.history status version := by
  rw [comparatorCompare_eq]
  cases hf : firstMatch swList checked.name with
  | none => rfl
  | some sw =>
    have hsw := hsev sw (firstMatch_mem hf)
    exact ⟨_, _, compareItem_ok hsw _ _, verdict_of_named hsw _⟩

/-! ## A sample list -/

def sampleName : Vector CChar nameSize := strncpyBuf [0x65, 0x64] nameSize

/-- An item with a critical version 1.1 below a feature version 1.2b. -/
def sampleSoftware : Software where
  name := sampleName
  link := some ⟨1, [0x75, 0]⟩
  versions := some ⟨2, [⟨⟨1, 1, strncpyBuf [] _⟩, sevCritical⟩,
    ⟨⟨1, 2, strncpyBuf [0x62] _⟩, sevFeature⟩]⟩
  numVersions := 2

def sampleList : SoftwareList := ⟨some ⟨0, [sampleSoftware]⟩, 1⟩

instance (swList : SoftwareList) : Decidable (SeveritiesNamed swList) :=
  inferInstanceAs (Decidable (∀ sw ∈ swList.visible, ∀ lv ∈ sw.history, lv.severity.Named))

/-- The old critical fix decides the status, the newer feature release is reported. -/
example : comparatorCompare sampleList ⟨sampleName, ⟨1, 0, strncpyBuf [] _⟩⟩ .zero =
    .ok (.ok, .updateRequired, ⟨1, 2, strncpyBuf [0x62] _⟩) := by decide

theorem comparatorCompare_verdict_sample :
    ∃ status version,
      comparatorCompare sampleList ⟨sampleName, ⟨1, 0, strncpyBuf [] _⟩⟩ .zero =
        .ok (.ok, status, version) ∧
      Verdict ⟨1, 0, strncpyBuf [] _⟩ sampleSoftware.history status version :=
  comparatorCompare_verdict sampleList ⟨sampleName, ⟨1, 0, strncpyBuf [] _⟩⟩ .zero (by decide)

end UpdateCheck.Comparator
