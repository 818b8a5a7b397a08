import UpdateCheck.Updater.Check

/-!
# The user agent

The text of the user agent ends up in its buffer up to 63 bytes and is terminated there
(`makeUserAgentStr_exec`). The revision goes through a buffer with a terminator, but the name is
given to `%s` as it stands in the struct, and a name may fill its 32 bytes: then the conversion
reads on through the version numbers, and what it finds becomes part of the text
(`makeUserAgentStr_asMeant_iff`).
-/

namespace UpdateCheck.Updater

variable {σ : Type}

/-- The bytes `%s` reads for the name. -/
def nameRead (behind : List CChar) (sw : EupdInSoftware) : List CChar :=
  readString (image sw ++ behind)

/-- The text of the user agent, from the valid parts of the descriptor only. -/
def agentText (sw : EupdInSoftware) : List CChar :=
  PREFIX ++ ascii " - " ++ content sw.name.toList ++ ascii " " ++ decimal sw.version.major ++
    ascii "." ++ decimal sw.version.minor ++ content sw.version.revision.toList

/-! ## Without a NUL -/

theorem zero_notMem_digits (n : Nat) : 0 ∉ (Nat.toDigits 10 n).map Json.chr := by
  intro h
  obtain ⟨c, hc, hzero⟩ := List.mem_map.mp h
  have hdigit := Nat.isDigit_of_mem_toDigits (by decide) (by decide) hc
  have hval : (48 : Nat) ≤ c.toNat ∧ c.toNat ≤ 57 := by
    simpa [Char.isDigit, UInt32.le_iff_toNat_le] using hdigit
  have hnat : c.toNat % 2 ^ 8 = 0 := by
    simpa [Json.chr] using congrArg UInt8.toNat hzero
  omega

theorem zero_notMem_decimal (i : Int32) : 0 ∉ decimal i := by
  unfold decimal
  split
  · rw [List.mem_cons, not_or]
    exact ⟨by decide, zero_notMem_digits _⟩
  · exact zero_notMem_digits _

/-- The text is made from what was read for the name. -/
theorem userAgentText_eq (behind : List CChar) (sw : EupdInSoftware) :
    userAgentText behind (some sw) =
      PREFIX ++ ascii " - " ++ content (nameRead behind sw) ++ ascii " " ++
        decimal sw.version.major ++ ascii "." ++ decimal sw.version.minor ++
        content sw.version.revision.toList := by
  rw [userAgentText, nameRead, content_readString, content_append_zero]

theorem zero_notMem_userAgentText (behind : List CChar) (sw : EupdInSoftware) :
    0 ∉ userAgentText behind (some sw) := by
  have hlead : (0 : CChar) ∉ PREFIX ++ ascii " - " := by decide
  have hspace : (0 : CChar) ∉ ascii " " := by decide
  have hdot : (0 : CChar) ∉ ascii "." := by decide
  rw [userAgentText_eq]
  simp only [List.mem_append, not_or] at hlead ⊢
  exact ⟨⟨⟨⟨⟨⟨hlead, zero_notMem_content _⟩, hspace⟩, zero_notMem_decimal _⟩, hdot⟩,
    zero_notMem_decimal _⟩, zero_notMem_content _⟩

/-! ## The buffer -/

/-- A text without a NUL that leaves room for the terminator is kept whole by `strncpy`. -/
theorem content_strncpy_take {s : List CChar} (h : 0 ∉ s) :
    content (strncpy (s.take (maxSize - 1)) maxSize) = s.take (maxSize - 1) := by
  have htake : 0 ∉ s.take (maxSize - 1) := fun hmem => h (List.mem_of_mem_take hmem)
  rw [content_strncpy, content_eq_self htake, List.take_take]
  rfl

/-- The block has its full size and holds the first bytes of the formatted text. -/
theorem makeUserAgentStr_exec (behind : List CChar) (sw : EupdInSoftware) (x : σ) {L : Ledger}
    (hL : L.AllGranted) :
    ∃ b L', (makeUserAgentStr behind (some sw)).exec x L = (.ok (some b), x, L') ∧
      b.val.length = maxSize ∧
      content b.val = (userAgentText behind (some sw)).take (maxSize - 1) := by
  rw [makeUserAgentStr, malloc, exec_of, if_pos (hL L.clock)]
  exact ⟨_, _, rfl, length_strncpy _ _,
    content_strncpy_take (zero_notMem_userAgentText behind sw)⟩

/-! ## The name -/

theorem image_append (behind : List CChar) (sw : EupdInSoftware) :
    ∃ rest, rest ≠ [] ∧ image sw ++ behind = sw.name.toList ++ rest := by
  refine ⟨intBytes sw.version.major ++ (intBytes sw.version.minor ++
    (sw.version.revision.toList ++ behind)), ?_, ?_⟩
  · simp [intBytes]
  · simp only [image, List.append_assoc]

theorem length_nameRead_le_iff (behind : List CChar) (sw : EupdInSoftware) :
    (nameRead behind sw).length ≤ nameSize ↔ 0 ∈ sw.name.toList := by
  obtain ⟨rest, hrest, himage⟩ := image_append behind sw
  have h : (readString (sw.name.toList ++ rest)).length ≤ sw.name.toList.length ↔
      0 ∈ sw.name.toList := length_readString_append_le_iff hrest
  rwa [Vector.length_toList, ← himage] at h

/-- A terminated name is what `%s` finds. -/
theorem userAgentText_of_mem {behind : List CChar} {sw : EupdInSoftware}
    (h : 0 ∈ sw.name.toList) : userAgentText behind (some sw) = agentText sw := by
  obtain ⟨rest, -, himage⟩ := image_append behind sw
  rw [userAgentText_eq, nameRead, content_readString, himage, content_append_of_mem h, agentText]

/-- The name is read within its array, and the buffer holds the first 63 bytes of the intended text
and a terminator behind them. -/
def AsMeant (behind : List CChar) (sw : EupdInSoftware) (x : σ) (L : Ledger) : Prop :=
  (nameRead behind sw).length ≤ nameSize ∧
  ∃ b L', (makeUserAgentStr behind (some sw)).exec x L = (.ok (some b), x, L') ∧
    b.val.length = maxSize ∧ content b.val = (agentText sw).take (maxSize - 1) ∧
    b.val[(content b.val).length]? = some 0

/-- **The user agent.** It is built from the name and the version alone exactly where the name holds
a NUL. -/
theorem makeUserAgentStr_asMeant_iff (behind : List CChar) (sw : EupdInSoftware) (x : σ)
    {L : Ledger} (hL : L.AllGranted) : AsMeant behind sw x L ↔ 0 ∈ sw.name.toList := by
  constructor
  · intro h
    exact (length_nameRead_le_iff behind sw).mp h.1
  · intro h
    obtain ⟨b, L', hexec, hlen, hcontent⟩ := makeUserAgentStr_exec behind sw x hL
    refine ⟨(length_nameRead_le_iff behind sw).mpr h, b, L', hexec, hlen, ?_, ?_⟩
    · rw [hcontent, userAgentText_of_mem h]
    · apply getElem?_length_content
      rw [hcontent, hlen, List.length_take]
      exact Nat.lt_of_le_of_lt (Nat.min_le_left _ _) (by decide)

/-- A software whose name takes up its whole array. -/
def fullNameSample : EupdInSoftware :=
  ⟨Vector.replicate nameSize 0x61, ⟨1, 0, #v[0, 0, 0, 0]⟩⟩

/-- The sample passes `check_input`. Its name is read up to the upper bytes of the major version, and
the lowest one stands in the text. -/
theorem makeUserAgentStr_fullName :
    (checkInput fullNameSample = true ∧ (nameRead [] fullNameSample).length = 34 ∧
      (userAgentText [] (some fullNameSample)).take (maxSize - 1) ≠
        (agentText fullNameSample).take (maxSize - 1)) ∧
    ¬ ∀ sw : EupdInSoftware, checkInput sw = true → ∀ behind,
      AsMeant behind sw () (Ledger.start fun _ => true) := by
  have hlen : (nameRead [] fullNameSample).length = 34 := by decide +kernel
  refine ⟨⟨by decide, hlen, by decide +kernel⟩, fun h => ?_⟩
  have hread := (h fullNameSample (by decide) []).1
  rw [hlen] at hread
  exact absurd hread (by decide)

/-- A terminated name, with every request granted. -/
theorem makeUserAgentStr_asMeant_short :
    (Ledger.start fun _ => true).AllGranted ∧
    (AsMeant [] ⟨strncpyBuf [0x65, 0x64] nameSize, .zero⟩ () (Ledger.start fun _ => true) ↔
      0 ∈ (strncpyBuf [0x65, 0x64] nameSize).toList) :=
  ⟨fun _ => rfl, makeUserAgentStr_asMeant_iff _ _ _ fun _ => rfl⟩

end UpdateCheck.Updater
