import UpdateCheck.Fetcher.Deliver

/-!
# The requests of a secure session

The options that `init_session` and `fetcher_fetch` set determine the requests a transfer may make:
redirections are followed, and since neither function restricts the schemes, the library's own
defaults decide which schemes are permitted. Unless `allow_insecure` is positive the verification
of peer and host stays on (`requestHandle_secure`), but it protects a request only where the
scheme runs over TLS: `fetcherFetch_secure_iff`.
-/

namespace UpdateCheck.Fetcher

variable {curl : Curl} {url : List CChar}

/-! ## The requests of a run -/

theorem initSession_connection (hw : curl.Works) :
    Triple (fun _ _ => True) (initSession curl)
      (fun ret s _ => ret = .ok → s.connection = some sessionHandle) (fun _ _ _ => False) := by
  refine Triple.bind (Q := fun _ _ _ => True) (Triple.modifyObj fun _ _ h => h) fun _ => ?_
  refine Triple.bind (Q := fun _ _ _ => True)
    (Triple.malloc (fun _ _ h _ => h) fun _ _ h _ => h) fun errorString => ?_
  refine Triple.bind (Q := fun _ _ _ => True) (Triple.modifyObj fun _ _ h => h) fun _ => ?_
  split
  · refine Triple.bind (Triple.free_keeps (K := fun _ => True)) fun _ => ?_
    exact Triple.pure fun _ _ _ h => by cases h
  · rw [hw.easyInit]
    refine Triple.bind (Q := fun _ s _ => s.connection = some .fresh)
      (Triple.modifyObj fun _ _ _ => rfl) fun _ => ?_
    refine Triple.bind (Triple.pre (setAll_spec hw sessionOptions (P := fun _ => True)
      (G := fun _ => True) fun _ _ h => h) fun s L h => ⟨⟨h, trivial⟩, trivial⟩) fun b => ?_
    cases b with
    | true => exact Triple.pure fun s L h _ => h.2.1.1
    | false => exact fun s L h => absurd h.1 (by decide)

theorem writer_returns (chunk : List CChar) :
    Triple (fun _ _ => True) (writer chunk) (fun _ _ _ => True) (fun _ _ _ => False) := by
  have happend : Triple (fun _ _ => True)
      (do modifyObj fun buf => buf.append chunk; return intOfSize chunk.length : Prog Raised Buffer Int)
      (fun _ _ _ => True) (fun _ _ _ => False) :=
    Triple.bind (Q := fun _ _ _ => True) (Triple.modifyObj fun _ _ h => h) fun _ =>
      Triple.pure fun _ _ h => h
  refine Triple.bind (Q := fun _ _ _ => True) (Triple.readObj fun _ _ h => h) fun buf => ?_
  split
  · refine Triple.bind (Q := fun _ _ _ => True)
      (Triple.realloc (fun _ _ h _ => h) fun _ _ h _ => h) fun dataNew => ?_
    split
    · exact Triple.pure fun _ _ h => h
    · exact Triple.bind (Q := fun _ _ _ => True) (Triple.modifyObj fun _ _ h => h) fun _ => happend
  · exact happend

/-- The transfer leaves the options of the session alone. -/
theorem easyPerform_connection {c : Option CurlHandle} :
    Triple (fun s _ => s.connection = c) (easyPerform curl) (fun _ s _ => s.connection = c)
      (fun _ _ _ => False) := by
  have hdeliver : ∀ (code : CurlCode) (chunks : List (List CChar)),
      Triple (fun s _ => s.connection = c) (deliver code chunks) (fun _ s _ => s.connection = c)
        (fun _ _ _ => False) := by
    intro code chunks
    induction chunks with
    | nil => exact Triple.pure fun _ _ h => h
    | cons chunk chunks ih =>
      refine Triple.bind (Q := fun _ s _ => s.connection = c) ?_ fun n => ?_
      · refine Triple.onPart fun s => ?_
        refine Triple.pre (Triple.assume (φ := s.connection = c) fun hs => ?_)
          (P := fun _ _ => s.connection = c ∧ True) fun _ _ h => ⟨h.2, trivial⟩
        exact (writer_returns chunk).post fun _ _ _ _ => hs
      · split
        · exact ih
        · exact Triple.pure fun _ _ h => h
  refine Triple.bind (Q := fun _ s _ => s.connection = c) (Triple.readObj fun _ _ h => h)
    fun s => ?_
  split
  · exact Triple.pure fun _ _ h => h
  · exact Triple.bind (Q := fun _ s _ => s.connection = c) (Triple.modifyObj fun _ _ h => h)
      fun _ => hdeliver _ _

/-- The handle a transfer is made with. -/
def transferHandle (url : List CChar) (allowInsecure : Int32) (userAgent : Ptr (List CChar)) :
    CurlHandle := withUserAgent (requestHandle (content url) allowInsecure) userAgent

theorem destroySession_keeps {σ : Type} {K : σ → Prop} (s : Session) :
    Triple (fun x _ => K x) (destroySession s : Prog Raised σ Unit) (fun _ x _ => K x)
      (fun _ _ _ => False) := Triple.bind Triple.free_keeps fun _ => Triple.free_keeps

theorem finishFetch_origin {s : Session} {code : CurlCode} {hops : List Hop} :
    Triple (fun dl _ => dl.origin = hops) (finishFetch s code) (fun _ dl _ => dl.origin = hops)
      (fun _ _ _ => False) := by
  unfold finishFetch
  split
  all_goals
    refine Triple.bind (Q := fun _ dl _ => dl.origin = hops)
      (Triple.malloc (fun _ _ h _ => h) fun _ _ h _ => h) fun block => ?_
    refine Triple.bind (Q := fun _ dl _ => dl.origin = hops)
      (Triple.modifyObj fun _ _ h => h) fun _ => ?_
    split
    all_goals exact Triple.bind (destroySession_keeps s) fun _ => Triple.pure fun _ _ h => h

/-- The requests made under the options of a session that was set up. -/
def requestsOf (curl : Curl) (url : List CChar) (allowInsecure : Int32)
    (userAgent : Ptr (List CChar)) : List Hop :=
  (curl.transfer (transferHandle url allowInsecure userAgent)).hops

theorem fetchWith_origin (hw : curl.Works) (url : List CChar) (allowInsecure : Int32)
    (userAgent : Ptr (List CChar)) {s : Session} (hs : s.connection = some sessionHandle) :
    Triple (fun _ _ => True) (fetchWith curl url allowInsecure userAgent s)
      (fun _ dl _ => dl.origin = requestsOf curl url allowInsecure userAgent)
      (fun _ _ _ => False) := by
  refine Triple.bind_withObj_kept (K := fun _ => True) (T := fun b s => b = true ∧
      s.connection = some (requestHandle (content url) allowInsecure))
    ((setAll_spec hw _ (P := fun _ => True) (G := fun _ => True) fun _ _ h => h).conseq ?_
      (fun b t L h => ⟨h.1, h.2.1.1⟩) fun _ _ _ h => h) ?_
  · rintro _ L rfl
    exact ⟨⟨hs, trivial⟩, trivial⟩
  intro b s hstate
  obtain ⟨rfl, hs⟩ := hstate
  refine Triple.bind_withObj_kept (K := fun _ => True)
    (T := fun _ s => s.connection = some (transferHandle url allowInsecure userAgent))
    ((setUserAgent_spec hw userAgent (P := fun _ => True) (G := fun _ => True)
      fun _ _ h => h).conseq ?_ (fun _ t L h => h.1.1) fun _ _ _ h => h) ?_
  · rintro _ L rfl
    exact ⟨⟨hs, trivial⟩, trivial⟩
  intro _ s hs
  dsimp only
  refine Triple.bind_withObj_kept (K := fun _ => True)
    (T := fun _ s => s.connection = some (transferHandle url allowInsecure userAgent))
    (easyPerform_connection.pre ?_) fun code s hs => ?_
  · rintro _ L rfl
    exact hs
  refine Triple.bind (Q := fun _ dl _ => dl.origin = requestsOf curl url allowInsecure userAgent)
    (Triple.modifyObj fun dl L h => ?_) fun _ => finishFetch_origin
  unfold originOf
  rw [hs]
  rfl

/-- Whatever the allocations, a run makes the requests of its transfer or none at all. -/
theorem fetcherFetch_origin (hw : curl.Works) (url : List CChar) (allowInsecure : Int32)
    (userAgent : Ptr (List CChar)) :
    Triple (fun _ _ => True) (fetcherFetch curl url allowInsecure userAgent)
      (fun _ dl _ => dl.origin = [] ∨ dl.origin = requestsOf curl url allowInsecure userAgent)
      (fun _ _ _ => False) := by
  refine Triple.bind (Q := fun _ dl _ => dl.origin = []) (Triple.modifyObj fun _ _ _ => rfl)
    fun _ => ?_
  refine Triple.bind_withObj_kept (K := fun dl : DownloadedList => dl.origin = [])
    (T := fun (ret : EupdRetCode) (s : Session) => ret = .ok → s.connection = some sessionHandle)
    ((initSession_connection hw).pre fun _ _ _ => trivial) fun ret s hs => ?_
  dsimp only
  split
  · exact Triple.pure fun dl L h => Or.inl h
  · rename_i hret
    refine (fetchWith_origin hw url allowInsecure userAgent (hs (not_not.mp hret))).conseq
      (fun _ _ _ => trivial) (fun _ _ _ h => Or.inr h) fun _ _ _ h => h

/-- Where every allocation is granted, the requests are made. -/
theorem fetcherFetch_origin_granted (hw : curl.Works) (url : List CChar) (allowInsecure : Int32)
    (userAgent : Ptr (List CChar)) :
    Triple (Granted fun _ => True) (fetcherFetch curl url allowInsecure userAgent)
      (fun _ dl _ => dl.origin = requestsOf curl url allowInsecure userAgent)
      (fun _ _ _ => False) := by
  refine Triple.bind_modifyObj (K := fun _ => True) (fun _ _ => trivial) ?_
  refine Triple.bind_withObj (R := fun ret s => ret = .ok ∧ s.connection = some sessionHandle ∧
    Collected [] s.dataBuffer) ((initSession_spec hw).pre fun _ _ h => ⟨trivial, h.2⟩) ?_
  intro ret s hstate
  obtain ⟨rfl, hs, -⟩ := hstate
  exact (fetchWith_origin hw url allowInsecure userAgent hs).pre fun _ _ _ => trivial

/-! ## Secure requests -/

/-- Unless `allow_insecure` is positive, the session verifies peer and host, follows
redirections and restricts no scheme. -/
theorem transferHandle_secure {allowInsecure : Int32} (h : allowInsecure.toInt ≤ 0)
    (url : List CChar) (userAgent : Ptr (List CChar)) :
    (transferHandle url allowInsecure userAgent).sslVerifyPeer = 1 ∧
      (transferHandle url allowInsecure userAgent).sslVerifyHost = 2 ∧
      (transferHandle url allowInsecure userAgent).followLocation = 1 ∧
      (transferHandle url allowInsecure userAgent).protocols = none ∧
      (transferHandle url allowInsecure userAgent).redirProtocols = none ∧
      (transferHandle url allowInsecure userAgent).url = content url := by
  have hoptions : requestOptions (content url) allowInsecure = [.url (content url)] := by
    rw [requestOptions, if_neg (Int.not_lt.mpr h)]
  unfold transferHandle requestHandle
  rw [hoptions]
  cases userAgent <;> exact ⟨rfl, rfl, rfl, rfl, rfl, rfl⟩

/-- The schemes met on the way from an URL along its redirections, up to the first that the
library does not permit by default. -/
def defaultReach (curl : Curl) (url : List CChar) : List Scheme :=
  if curl.defaultProtocols (curl.schemeOf url) then
    curl.schemeOf url :: (curl.redirects url).takeWhile curl.defaultRedirProtocols
  else []

/-- A secure session makes a verified request for each of these schemes that runs over TLS, and
an unverified one for each of the others. -/
theorem requestsOf_secure (hd : curl.Documented) {allowInsecure : Int32}
    (h : allowInsecure.toInt ≤ 0) (url : List CChar) (userAgent : Ptr (List CChar)) :
    requestsOf curl url allowInsecure userAgent =
      (defaultReach curl (content url)).map fun s => ⟨s, s.overTls, s.overTls⟩ := by
  obtain ⟨hpeer, hhost, hfollow, hprotocols, hredir, hurl⟩ :=
    transferHandle_secure h url userAgent
  have hpermits : curl.permitsRedirect (transferHandle url allowInsecure userAgent) =
      curl.defaultRedirProtocols := by
    funext s
    simp [Curl.permitsRedirect, hfollow, hredir]
  have hreach : curl.reach (transferHandle url allowInsecure userAgent) =
      defaultReach curl (content url) := by
    rw [Curl.reach, defaultReach, Curl.permits, hprotocols, hurl, hpermits]
  rw [requestsOf, hd.hops, hreach]
  refine List.map_congr_left fun s _ => ?_
  simp [Curl.hop, hpeer, hhost]

/-- **Secure mode.** Unless `allow_insecure` is positive, the requests of all runs are made over
TLS with peer and host verified exactly when every scheme met, that of the URL and those of the
redirections that the library permits by default, runs over TLS. -/
theorem fetcherFetch_secure_iff (curl : Curl) (hw : curl.Works) (hd : curl.Documented)
    (url : List CChar) (allowInsecure : Int32) (h : allowInsecure.toInt ≤ 0)
    (userAgent : Ptr (List CChar)) :
    (∀ L ret dl L', (fetcherFetch curl url allowInsecure userAgent).exec .zero L =
        (.ok ret, dl, L') → ∀ hop ∈ dl.origin, hop.Secure) ↔
      ∀ s ∈ defaultReach curl (content url), s.overTls = true := by
  have hrequests := requestsOf_secure hd h url userAgent
  have hsecure : (∀ hop ∈ requestsOf curl url allowInsecure userAgent, hop.Secure) ↔
      ∀ s ∈ defaultReach curl (content url), s.overTls = true := by
    rw [hrequests]
    simp [Hop.Secure]
  rw [← hsecure]
  constructor
  · intro hall
    obtain ⟨ret, dl, L', hexec, horigin⟩ :=
      (fetcherFetch_origin_granted hw url allowInsecure userAgent).run (x := .zero)
        (L := .start fun _ => true) ⟨trivial, fun _ => rfl⟩
    rw [← horigin]
    exact hall _ ret dl L' hexec
  · intro hall L ret dl L' hexec
    have hpost := fetcherFetch_origin hw url allowInsecure userAgent .zero L trivial
    rw [hexec] at hpost
    rcases hpost with horigin | horigin
    · simp [horigin]
    · rwa [horigin]

/-- A library that works as documented and permits HTTP and HTTPS by default, with a remote side
that answers an URL of the first scheme with the given redirections and body. -/
def serving (first : Scheme) (redirects : List Scheme) (body : List CChar) : Curl :=
  let curl : Curl :=
    { easyInit := true
      setopt := fun _ _ => .ok
      transfer := fun _ => ⟨[], [], .ok, []⟩
      schemeOf := fun _ => first
      redirects := fun _ => redirects
      defaultProtocols := fun s => s = .http ∨ s = .https
      defaultRedirProtocols := fun s => s = .http ∨ s = .https }
  { curl with transfer := fun h => ⟨(curl.reach h).map (Curl.hop h), [body], .ok, []⟩ }

theorem serving_works (first : Scheme) (redirects : List Scheme) (body : List CChar) :
    (serving first redirects body).Works := ⟨rfl, fun _ _ => rfl⟩

theorem serving_documented (first : Scheme) (redirects : List Scheme) (body : List CChar) :
    (serving first redirects body).Documented := ⟨fun _ => rfl⟩

theorem serving_delivers (first : Scheme) (redirects : List Scheme) {body : List CChar}
    (h : body.length < 2 ^ 31) (url : List CChar) :
    Delivers (serving first redirects body) url body where
  works := serving_works first redirects body
  code _ _ := rfl
  chunks _ _ := List.append_nil body
  chunkSize _ c hc := by
    obtain rfl := List.mem_singleton.mp hc
    exact h
  size := h.trans (by decide)

/-- A run that delivers a document, together with the requests it made. -/
theorem fetcherFetch_run {doc : List CChar} (hd : Delivers curl url doc) (allowInsecure : Int32)
    (userAgent : Ptr (List CChar)) :
    ∃ dl L', (fetcherFetch curl url allowInsecure userAgent).exec .zero (.start fun _ => true) =
        (.ok .ok, dl, L') ∧ dl.list.val? = some (doc ++ [0]) ∧
      dl.origin = requestsOf curl url allowInsecure userAgent := by
  have hgranted : Granted (fun _ => True) DownloadedList.zero (.start fun _ => true) :=
    ⟨trivial, fun _ => rfl⟩
  obtain ⟨ret, dl, L', hexec, ⟨rfl, hlist⟩, -⟩ :=
    (fetcherFetch_delivers hd allowInsecure userAgent).run hgranted
  have horigin := fetcherFetch_origin_granted hd.works url allowInsecure userAgent _ _ hgranted
  rw [hexec] at horigin
  exact ⟨dl, L', hexec, hlist, horigin⟩

/-- A body is accepted from a plain HTTP URL, and from a HTTPS URL that is redirected to plain
HTTP, with `allow_insecure` zero. -/
theorem fetcherFetch_insecure :
    (∃ dl L', (fetcherFetch (serving .http [] [120]) [104] 0 none).exec .zero
        (.start fun _ => true) = (.ok .ok, dl, L') ∧
      dl.list.val? = some [120, 0] ∧ dl.origin = [⟨.http, false, false⟩]) ∧
    (∃ dl L', (fetcherFetch (serving .https [.http] [120]) [104] 0 none).exec .zero
        (.start fun _ => true) = (.ok .ok, dl, L') ∧
      dl.list.val? = some [120, 0] ∧
      dl.origin = [⟨.https, true, true⟩, ⟨.http, false, false⟩]) ∧
    ¬ ∀ (curl : Curl), curl.Works → curl.Documented →
      ∀ (url : List CChar) (allowInsecure : Int32), allowInsecure.toInt ≤ 0 →
        ∀ userAgent L ret dl L', (fetcherFetch curl url allowInsecure userAgent).exec .zero L =
          (.ok ret, dl, L') → ∀ hop ∈ dl.origin, hop.Secure := by
  have hdelivers := fun first redirects =>
    @serving_delivers first redirects [120] (by decide) [104]
  obtain ⟨dl, L', hexec, hlist, horigin⟩ := fetcherFetch_run (hdelivers .http []) 0 none
  have hplain : dl.origin = [⟨.http, false, false⟩] := horigin.trans (by decide)
  refine ⟨⟨dl, L', hexec, hlist, hplain⟩, ?_, fun h => ?_⟩
  · obtain ⟨dl, L', hexec, hlist, horigin⟩ := fetcherFetch_run (hdelivers .https [.http]) 0 none
    exact ⟨dl, L', hexec, hlist, horigin.trans (by decide)⟩
  · have hsecure := h _ (serving_works .http [] [120]) (serving_documented _ _ _) [104] 0
      (by decide) none _ _ dl L' hexec ⟨.http, false, false⟩ (by rw [hplain]; exact .head _)
    exact absurd hsecure (by decide)

theorem fetcherFetch_secure_iff_sample :
    (∀ L ret dl L', (fetcherFetch (serving .https [.https] [120]) [104] 0 none).exec .zero L =
        (.ok ret, dl, L') → ∀ hop ∈ dl.origin, hop.Secure) ↔
      ∀ s ∈ defaultReach (serving .https [.https] [120]) (content [104]), s.overTls = true :=
  fetcherFetch_secure_iff _ (serving_works _ _ _) (serving_documented _ _ _) [104] 0 (by decide) none

end UpdateCheck.Fetcher
