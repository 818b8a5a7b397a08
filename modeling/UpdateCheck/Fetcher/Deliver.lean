import UpdateCheck.Fetcher.Outcome

/-!
# The delivery of a document

Where the library works and every allocation is granted, `fetcher_fetch` hands over the bytes of
the transfer, with a terminator (`fetcherFetch_delivers`): of the outcomes of a download, this is the
one where every option is accepted and the transfer succeeds.
-/

namespace UpdateCheck.Fetcher

variable {curl : Curl} {G : Ledger → Prop} [Stable G]

/-! ## The options -/

/-- The handle of a session whose set-up succeeded. -/
def sessionHandle : CurlHandle := sessionOptions.foldl CurlHandle.set .fresh

/-- The handle of a request, before the user agent is set. -/
def requestHandle (url : List CChar) (allowInsecure : Int32) : CurlHandle :=
  (requestOptions url allowInsecure).foldl CurlHandle.set sessionHandle

/-- Where the library works, it accepts all options. -/
theorem configure_of_works (hw : curl.Works) (h : CurlHandle) (os : List CurlOption) :
    configure curl h os = some (os.foldl CurlHandle.set h) := by
  induction os generalizing h with
  | nil => rfl
  | cons o os ih =>
    rw [configure, if_pos (hw.setopt h o)]
    exact ih (h.set o)

theorem prepareSession_of_works (hw : curl.Works) : prepareSession curl = .ok sessionHandle := by
  rw [prepareSession, if_pos hw.easyInit, configure_of_works hw]
  rfl

theorem prepare_of_works (hw : curl.Works) (url : List CChar) (allowInsecure : Int32) :
    prepare curl url allowInsecure = .ok (requestHandle (content url) allowInsecure) := by
  rw [prepare, prepareSession_of_works hw]
  dsimp only
  rw [configure_of_works hw]
  rfl

theorem setAll_spec (hw : curl.Works) (os : List CurlOption) {h : CurlHandle}
    {P : Session → Prop} {G : Ledger → Prop} (hP : ∀ s c, P s → P { s with connection := c }) :
    Triple (fun s L => (s.connection = some h ∧ P s) ∧ G L) (setAll curl os)
      (fun b s L => b = true ∧ (s.connection = some (os.foldl CurlHandle.set h) ∧ P s) ∧ G L)
      (fun _ _ _ => False) := by
  refine (setAll_ends (G := G) hP os).post fun b s L hends => ?_
  rw [configure_of_works hw] at hends
  exact ⟨hends.1.1, hends.1.2, hends.2⟩

/-- The handle after the user agent was set, where there is one. -/
def withUserAgent (h : CurlHandle) : Ptr (List CChar) → CurlHandle
  | none => h
  | some b => h.set (.userAgent (content b.val))

theorem announce_of_works (hw : curl.Works) (h : CurlHandle) (userAgent : Ptr (List CChar)) :
    announce curl h userAgent.val? = withUserAgent h userAgent := by
  cases userAgent with
  | none => rfl
  | some b => exact if_pos (hw.setopt h _)

theorem setUserAgent_spec (hw : curl.Works) (userAgent : Ptr (List CChar))
    {h : CurlHandle} {P : Session → Prop} {G : Ledger → Prop}
    (hP : ∀ s c, P s → P { s with connection := c }) :
    Triple (fun s L => (s.connection = some h ∧ P s) ∧ G L) (setUserAgent curl userAgent)
      (fun _ s L => (s.connection = some (withUserAgent h userAgent) ∧ P s) ∧ G L)
      (fun _ _ _ => False) := by
  refine (setUserAgent_ends (G := G) hP userAgent).post fun _ s L hends => ?_
  rw [announce_of_works hw] at hends
  exact hends

theorem initSession_spec (hw : curl.Works) :
    Triple (Granted fun _ => True) (initSession curl)
      (fun ret => Granted fun s => ret = .ok ∧ s.connection = some sessionHandle ∧
        Collected [] s.dataBuffer)
      (fun _ _ _ => False) := by
  refine initSession_ends.post fun ret s L hends => ?_
  rw [prepareSession_of_works hw] at hends
  obtain ⟨⟨hret, hs, hfresh⟩ | ⟨-, hnot⟩, hL⟩ := hends
  · exact ⟨⟨hret, hs, hfresh.1⟩, hL⟩
  · exact absurd hL hnot

/-! ## The delivery -/

/-- The library works, and every transfer for the URL brings the document, in chunks of a size
the callback can return. -/
structure Delivers (curl : Curl) (url doc : List CChar) : Prop where
  works : curl.Works
  code : ∀ h, h.url = content url → (curl.transfer h).code = .ok
  chunks : ∀ h, h.url = content url → (curl.transfer h).chunks.flatten = doc
  chunkSize : ∀ h, ∀ c ∈ (curl.transfer h).chunks, c.length < 2 ^ 31
  size : doc.length < 2 ^ 64

namespace Delivers

variable {url doc : List CChar}

theorem bounded (hd : Delivers curl url doc) : BoundedFor curl url := fun h hurl =>
  ⟨hd.chunkSize h, by rw [hd.chunks h hurl]; exact hd.size⟩

/-- The outcome of a download that is delivered. -/
theorem outcome (hd : Delivers curl url doc) (allowInsecure : Int32)
    (userAgent : Option (List CChar)) :
    fetchOutcome curl url allowInsecure userAgent = .received doc := by
  have hprepare := prepare_of_works hd.works url allowInsecure
  have hurl := (@announce_url curl (requestHandle (content url) allowInsecure)
    userAgent).trans (prepare_url hprepare)
  rw [fetchOutcome, hprepare]
  dsimp only
  rw [Transfer.outcome, hd.code _ hurl, hd.chunks _ hurl]
  rfl

end Delivers

/-- A download of a document, whatever requests are refused. -/
theorem fetcherFetch_document {url doc : List CChar} (hd : Delivers curl url doc)
    (allowInsecure : Int32) (userAgent : Ptr (List CChar)) :
    Triple (Within G fun _ => True) (fetcherFetch curl url allowInsecure userAgent)
      (fun ret dl L => FetchEnds (.received doc) ret dl L ∧ G L) (fun _ _ _ => False) := by
  rw [← hd.outcome allowInsecure userAgent.val?]
  exact fetcherFetch_ends hd.bounded allowInsecure userAgent

/-- **Delivery.** With every allocation granted the document arrives whole and terminated. -/
theorem fetcherFetch_delivers {curl : Curl} {url doc : List CChar} (hd : Delivers curl url doc)
    (allowInsecure : Int32) (userAgent : Ptr (List CChar)) :
    Triple (Granted fun _ => True) (fetcherFetch curl url allowInsecure userAgent)
      (fun r => Granted fun dl => r = .ok ∧ dl.list.val? = some (doc ++ [0]))
      (fun _ _ _ => False) := by
  refine (fetcherFetch_document hd allowInsecure userAgent).post ?_
  intro ret dl L hstate
  obtain ⟨⟨hret, hlist, -⟩ | ⟨-, hnot⟩, hL⟩ := hstate
  · exact ⟨⟨hret, hlist⟩, hL⟩
  · exact absurd hL hnot

end UpdateCheck.Fetcher
