import UpdateCheck.Fetcher.Fetch

/-!
# The outcome of a download

What a download is for, without session, buffer and pointers (`fetchOutcome`): the options are set
up to the first that is refused, the transfer is made under those that were accepted, and the caller
gets its body, or a code for its failure and the text of the library. `fetcher_fetch` ends with this
outcome, whatever the library answers, unless a request for memory is refused (`fetcherFetch_ends`).
-/

namespace UpdateCheck.Fetcher

/-! ## The abstract download -/

/-- What the caller of a download gets: a body, or a code and the text of the library, where there
is one. -/
inductive Outcome where
  | received (body : List CChar)
  | failed (ret : EupdRetCode) (text : Option (List CChar))

namespace Outcome

def code : Outcome → EupdRetCode
  | received _ => .ok
  | failed ret _ => ret

/-- The string behind the pointer to the list. -/
def list : Outcome → Option (List CChar)
  | received body => some (body ++ [0])
  | failed _ _ => none

/-- The string behind the pointer to the error text. -/
def errorString : Outcome → Option (List CChar)
  | received _ => none
  | failed _ text => text.map (· ++ [0])

end Outcome

def Transfer.outcome (t : Transfer) : Outcome :=
  match retOfCurl t.code with
  | none => .received t.chunks.flatten
  | some ret => .failed ret (some (content (t.errorText.take (curlErrorSize - 1))))

/-- The chunks have sizes that the callback can return, and the body fits into a buffer. -/
structure Transfer.Bounded (t : Transfer) : Prop where
  chunkSize : ∀ c ∈ t.chunks, c.length < 2 ^ 31
  size : t.chunks.flatten.length < 2 ^ 64

variable (curl : Curl)

/-- Every transfer for the URL is bounded. -/
def BoundedFor (url : List CChar) : Prop := ∀ h, h.url = content url → (curl.transfer h).Bounded

/-- The handle after some options, none where one of them is refused. -/
def configure (h : CurlHandle) : List CurlOption → Option CurlHandle
  | [] => some h
  | o :: os => if curl.setopt h o = .ok then configure (h.set o) os else none

/-- The handle of a session, or the code for a set-up that fails. -/
def prepareSession : Except EupdRetCode CurlHandle :=
  if curl.easyInit then
    match configure curl .fresh sessionOptions with
    | some h => .ok h
    | none => .error .eCurlSetup
  else .error .eNoMemory

/-- The handle of a request, before the user agent is set. -/
def prepare (url : List CChar) (allowInsecure : Int32) : Except EupdRetCode CurlHandle :=
  match prepareSession curl with
  | .ok h =>
    match configure curl h (requestOptions (content url) allowInsecure) with
    | some h => .ok h
    | none => .error .eCurlSetup
  | .error ret => .error ret

/-- The handle after the user agent was set, where there is one and the library accepts it. -/
def announce (h : CurlHandle) : Option (List CChar) → CurlHandle
  | none => h
  | some userAgent =>
    if curl.setopt h (.userAgent (content userAgent)) = .ok then
      h.set (.userAgent (content userAgent))
    else h

def fetchOutcome (url : List CChar) (allowInsecure : Int32) (userAgent : Option (List CChar)) :
    Outcome :=
  match prepare curl url allowInsecure with
  | .ok h => (curl.transfer (announce curl h userAgent)).outcome
  | .error ret => .failed ret none

variable {curl}

/-! ## The handle -/

theorem configure_eq {h h' : CurlHandle} {os : List CurlOption}
    (hconf : configure curl h os = some h') : h' = os.foldl CurlHandle.set h := by
  induction os generalizing h with
  | nil => exact (Option.some.inj hconf).symm
  | cons o os ih =>
    rw [configure] at hconf
    split at hconf
    · exact ih hconf
    · cases hconf

theorem prepareSession_isError {ret : EupdRetCode} (h : prepareSession curl = .error ret) :
    ret.isError = true := by
  unfold prepareSession at h
  split at h
  · split at h
    · cases h
    · cases h
      rfl
  · cases h
    rfl

theorem prepare_isError {url : List CChar} {allowInsecure : Int32} {ret : EupdRetCode}
    (h : prepare curl url allowInsecure = .error ret) : ret.isError = true := by
  unfold prepare at h
  split at h
  · split at h
    · cases h
    · cases h
      rfl
  · rename_i hsession
    cases h
    exact prepareSession_isError hsession

/-- Nothing that is set behind the URL changes it. -/
theorem prepare_url {url : List CChar} {allowInsecure : Int32} {h : CurlHandle}
    (hprep : prepare curl url allowInsecure = .ok h) : h.url = content url := by
  unfold prepare at hprep
  split at hprep
  · split at hprep
    · rename_i hconf
      cases hprep
      rw [configure_eq hconf, requestOptions]
      split <;> rfl
    · cases hprep
  · cases hprep

theorem fetchOutcome_isError {url : List CChar} {allowInsecure : Int32}
    {userAgent text : Option (List CChar)} {ret : EupdRetCode}
    (h : fetchOutcome curl url allowInsecure userAgent = .failed ret text) : ret.isError = true := by
  unfold fetchOutcome at h
  split at h
  · unfold Transfer.outcome at h
    split at h
    · cases h
    · rename_i hret
      cases h
      exact EupdRetCode.isError_of_isNetworkError (retOfCurl_isNetworkError hret)
  · rename_i hprepare
    cases h
    exact prepare_isError hprepare

theorem announce_url (h : CurlHandle) (userAgent : Option (List CChar)) :
    (announce curl h userAgent).url = h.url := by
  unfold announce
  split
  · rfl
  · split <;> rfl

/-! ## The options -/

/-- Options that are set one after another, with what does not speak of the handle. -/
theorem setAll_ends {G : Ledger → Prop} {P : Session → Prop}
    (hP : ∀ s c, P s → P { s with connection := c }) {h : CurlHandle} (os : List CurlOption) :
    Triple (Within G fun s => s.connection = some h ∧ P s) (setAll curl os)
      (fun b s L => (match configure curl h os with
        | some h' => b = true ∧ s.connection = some h' ∧ P s
        | none => b = false) ∧ G L)
      (fun _ _ _ => False) := by
  induction os generalizing h with
  | nil => exact Triple.pure fun s L hs => ⟨⟨rfl, hs.1⟩, hs.2⟩
  | cons o os ih =>
    rw [configure]
    refine Triple.bind (Q := fun code s L => (code = curl.setopt h o ∧
      (code = .ok → s.connection = some (h.set o) ∧ P s)) ∧ G L) ?_ fun code => ?_
    · refine Triple.bind_readObj fun s hs => ?_
      rw [hs.1]
      dsimp only
      split
      · rename_i hok
        refine Triple.bind_modifyObj (K := fun s => s.connection = some (h.set o) ∧ P s) ?_ ?_
        · intro x hx
          rw [hx]
          exact ⟨rfl, hP s _ hs.2⟩
        · exact Triple.pure fun s L h => ⟨⟨rfl, fun _ => h.1⟩, h.2⟩
      · rename_i hrefused
        exact Triple.pure fun s L h => ⟨⟨rfl, fun hok => absurd hok hrefused⟩, h.2⟩
    · split
      · rename_i hcode
        refine Triple.pre (Triple.assume (φ := curl.setopt h o = .ok) fun hok => ?_)
          (P := fun s L => curl.setopt h o = .ok ∧
            Within G (fun s => s.connection = some (h.set o) ∧ P s) s L) ?_
        · rw [if_pos hok]
          exact ih
        · rintro s L ⟨⟨rfl, hset⟩, hL⟩
          exact ⟨hcode, hset hcode, hL⟩
      · rename_i hcode
        refine Triple.pure ?_
        rintro s L ⟨⟨rfl, -⟩, hL⟩
        rw [if_neg hcode]
        exact ⟨rfl, hL⟩

theorem setUserAgent_ends {G : Ledger → Prop} {P : Session → Prop}
    (hP : ∀ s c, P s → P { s with connection := c }) {h : CurlHandle}
    (userAgent : Ptr (List CChar)) :
    Triple (Within G fun s => s.connection = some h ∧ P s) (setUserAgent curl userAgent)
      (fun _ => Within G fun s => s.connection = some (announce curl h userAgent.val?) ∧ P s)
      (fun _ _ _ => False) := by
  cases userAgent with
  | none => exact Triple.pure fun s L hs => hs
  | some b =>
    refine Triple.bind (Q := fun _ => Within G fun s =>
      s.connection = some (announce curl h (Ptr.val? (some b))) ∧ P s) ?_ fun _ =>
        Triple.pure fun _ _ h => h
    refine Triple.bind_readObj fun s hs => ?_
    rw [hs.1, Ptr.val?, Option.map_some, announce]
    dsimp only
    split
    · refine Triple.bind_modifyObj (K := fun s =>
        s.connection = some (h.set (.userAgent (content b.val))) ∧ P s) ?_ ?_
      · intro x hx
        rw [hx]
        exact ⟨rfl, hP s _ hs.2⟩
      · exact Triple.pure fun _ _ h => h
    · refine Triple.pure ?_
      rintro _ L ⟨rfl, hL⟩
      exact ⟨hs, hL⟩

/-! ## The buffer -/

/-- The buffer holds the bytes, and no room behind them. -/
structure Collected (body : List CChar) (buf : Buffer) : Prop where
  length : buf.length = body.length
  allocated : buf.allocated = body.length
  bytes : buf.bytes = body

theorem collected_zero : Collected [] .zero := ⟨rfl, rfl, rfl⟩

theorem sizeAdd_of_lt {a b : Nat} (h : a + b < 2 ^ 64) : sizeAdd a b = a + b := Nat.mod_eq_of_lt h

theorem intOfSize_of_lt {n : Nat} (h : n < 2 ^ 31) : intOfSize n = n := by
  unfold intOfSize
  omega

theorem writeAt_resize (body chunk : List CChar) :
    writeAt (resize body (body.length + chunk.length)) body.length chunk = body ++ chunk := by
  have htake : body.take (body.length + chunk.length) = body := List.take_of_length_le (by simp)
  have hdrop : (resize body (body.length + chunk.length)).drop (body.length + chunk.length) = [] :=
    List.drop_of_length_le (by simp [resize, htake])
  rw [writeAt, hdrop, resize, htake, List.take_left, List.append_nil]

theorem Buffer.append_bytes (buf : Buffer) (chunk : List CChar) (b : Block (List CChar))
    (hb : buf.data = some b) : (buf.append chunk).bytes = writeAt b.val buf.length chunk := by
  rw [Buffer.bytes, Buffer.append, hb]
  rfl

variable {G : Ledger → Prop} [Stable G]

/-- A call takes its chunk and returns its size, or it is refused the room and does not. -/
theorem writer_ends {body chunk : List CChar} (htotal : (body ++ chunk).length < 2 ^ 64)
    (hchunk : chunk.length < 2 ^ 31) :
    Triple (Within G (Collected body)) (writer chunk)
      (fun n buf L => (n = chunk.length ∧ Collected (body ++ chunk) buf ∨
        n ≠ chunk.length ∧ ¬ L.AllGranted) ∧ G L)
      (fun _ _ _ => False) := by
  rw [List.length_append] at htotal
  refine Triple.bind_readObj fun buf hbuf => ?_
  obtain ⟨hlength, hallocated, hbytes⟩ := hbuf
  rw [hlength, hallocated, sizeAdd_of_lt htotal, hbytes, intOfSize_of_lt hchunk]
  split
  · rename_i hgrow
    refine Triple.bind_realloc_or_null (fun b hb => ?_) ?_
    · refine Triple.bind_modifyObj
        (K := fun x => x.data = some b ∧ x.length = body.length ∧
          x.allocated = body.length + chunk.length) ?_ ?_
      · rintro x rfl
        exact ⟨rfl, hlength, rfl⟩
      · refine Triple.bind_modifyObj (K := Collected (body ++ chunk)) ?_ ?_
        · intro x hstate
          obtain ⟨hdata, hl, ha⟩ := hstate
          refine ⟨?_, ?_, ?_⟩
          · rw [Buffer.append, hl, sizeAdd_of_lt htotal, List.length_append]
          · rw [List.length_append]
            exact ha
          · rw [Buffer.append_bytes x chunk b hdata, hb, hl, writeAt_resize]
        · exact Triple.pure fun x L h => ⟨Or.inl ⟨rfl, h.1⟩, h.2⟩
    · refine Triple.pure fun x L h => ⟨Or.inr ⟨?_, h.2⟩, h.1.2⟩
      omega
  · rename_i hfits
    obtain rfl : chunk = [] := by
      rw [← List.length_eq_zero_iff]
      omega
    refine Triple.bind_modifyObj (K := Collected (body ++ [])) ?_ ?_
    · rintro x rfl
      have hdata : (x.append []).bytes = x.bytes := by
        unfold Buffer.append Buffer.bytes writeAt
        cases x.data <;> simp [Ptr.val?]
      rw [List.append_nil]
      refine ⟨?_, hallocated, hdata.trans hbytes⟩
      rw [Buffer.append, hlength, sizeAdd_of_lt htotal]
      rfl
    · exact Triple.pure fun x L h => ⟨Or.inl ⟨rfl, h.1⟩, h.2⟩

/-! ## The session -/

/-- A session that was set up, before the transfer. -/
def Session.Fresh (s : Session) : Prop := Collected [] s.dataBuffer ∧ s.errorString.isSome = true

theorem destroySession_within {σ : Type} {P : σ → Prop} {s : Session} :
    Triple (Within G P) (destroySession s : Prog Raised σ Unit) (fun _ => Within G P)
      (fun _ _ _ => False) :=
  Triple.bind_free (Triple.free (fun _ _ _ h => h) fun _ _ _ _ h =>
    ⟨h.1, Stable.congr (by rfl) h.2⟩)

/-- A release on the way out changes nothing. -/
theorem destroySession_bind_within {σ β : Type} {P : σ → Prop} {s : Session}
    {f : Unit → Prog Raised σ β} {Q : β → σ → Ledger → Prop} {E : Raised → σ → Ledger → Prop}
    (hf : Triple (Within G P) (f ()) Q E) :
    Triple (Within G P) (destroySession s >>= f) Q E :=
  Triple.bind (destroySession_within.weaken_error) fun _ => hf

/-- A session is set up as far as the library accepts it, unless its error text is refused. -/
theorem initSession_ends :
    Triple (Within G fun _ => True) (initSession curl)
      (fun ret s L => ((match prepareSession curl with
        | .ok h => ret = .ok ∧ s.connection = some h ∧ s.Fresh
        | .error e => ret = e) ∨ ret = .eNoMemory ∧ ¬ L.AllGranted) ∧ G L)
      (fun _ _ _ => False) := by
  refine Triple.bind_modifyObj (K := (· = Session.zero)) (fun _ _ => rfl) ?_
  refine Triple.bind_malloc_or_null (fun b _ => ?_) ?_
  · refine Triple.bind_modifyObj (K := Session.Fresh) ?_ ?_
    · rintro s rfl
      exact ⟨collected_zero, rfl⟩
    · rw [if_neg (by simp), prepareSession]
      cases hinit : curl.easyInit with
      | false =>
        refine Triple.bind_free (Triple.bind_free (Triple.pure fun s L h => ⟨Or.inl rfl, h.2⟩))
      | true =>
        rw [if_pos rfl]
        refine Triple.bind_modifyObj
          (K := fun s => s.connection = some .fresh ∧ s.Fresh) (fun s hs => ⟨rfl, hs⟩) ?_
        refine Triple.bind (setAll_ends (fun _ _ h => h) sessionOptions) fun b => ?_
        cases configure curl .fresh sessionOptions with
        | some h =>
          refine Triple.pre (P := fun s L => b = true ∧
            Within G (fun s => s.connection = some h ∧ s.Fresh) s L)
            (Triple.assume fun hb => ?_) fun s L hs => ⟨hs.1.1, hs.1.2, hs.2⟩
          rw [hb]
          exact Triple.pure fun s L hs => ⟨Or.inl ⟨rfl, hs.1⟩, hs.2⟩
        | none =>
          refine Triple.assume fun hb => ?_
          rw [hb]
          refine Triple.bind (Q := fun _ => Within G fun _ => True)
            (Triple.readObj fun _ _ h => ⟨trivial, h⟩) fun s => ?_
          exact destroySession_bind_within (Triple.pure fun s L h => ⟨Or.inl rfl, h.2⟩)
  · exact fun s L h => ⟨Or.inr ⟨rfl, h.2⟩, h.1.2⟩

/-! ## The transfer -/

/-- The chunks end up in the buffer, one behind the other, unless the room for one is refused. -/
theorem deliver_ends {code : CurlCode} {body : List CChar} {e : Ptr (List CChar)}
    (chunks : List (List CChar)) (hchunk : ∀ c ∈ chunks, c.length < 2 ^ 31)
    (htotal : (body ++ chunks.flatten).length < 2 ^ 64) :
    Triple (Within G fun s => Collected body s.dataBuffer ∧ s.errorString = e) (deliver code chunks)
      (fun r s L => (r = code ∧ Collected (body ++ chunks.flatten) s.dataBuffer ∧ s.errorString = e ∨
        r = .writeError ∧ ¬ L.AllGranted) ∧ G L)
      (fun _ _ _ => False) := by
  induction chunks generalizing body with
  | nil =>
    refine Triple.pure fun s L hs => ⟨Or.inl ⟨rfl, ?_⟩, hs.2⟩
    rw [List.flatten_nil, List.append_nil]
    exact hs.1
  | cons chunk chunks ih =>
    obtain ⟨hc, hrest⟩ := List.forall_mem_cons.mp hchunk
    rw [List.flatten_cons, ← List.append_assoc] at htotal ⊢
    have hwrite : Triple (Within G fun s => Collected body s.dataBuffer ∧ s.errorString = e)
        (onPart Session.dataBuffer (fun buf s => { s with dataBuffer := buf }) (writer chunk))
        (fun n s L => (n = chunk.length ∧ Collected (body ++ chunk) s.dataBuffer ∧
          s.errorString = e ∨ n ≠ chunk.length ∧ ¬ L.AllGranted) ∧ G L)
        (fun _ _ _ => False) := by
      refine Triple.onPart fun s => ?_
      refine Triple.pre (Triple.assume (φ := s.errorString = e) fun he =>
        ((writer_ends ?_ hc).post ?_)) (P := fun buf L => s.errorString = e ∧
          Within G (Collected body) buf L) ?_
      · rw [List.length_append] at htotal
        exact (Nat.le_add_right _ _).trans_lt htotal
      · rintro n buf L ⟨⟨hn, hbuf⟩ | hrefused, hL⟩
        · exact ⟨Or.inl ⟨hn, hbuf, he⟩, hL⟩
        · exact ⟨Or.inr hrefused, hL⟩
      · rintro _ L ⟨rfl, hs, hL⟩
        exact ⟨hs.2, hs.1, hL⟩
    refine Triple.bind hwrite fun n => ?_
    split
    · rename_i hn
      refine (ih hrest htotal).pre fun s L hs => ?_
      obtain ⟨⟨-, hs⟩ | ⟨hne, -⟩, hL⟩ := hs
      · exact ⟨hs, hL⟩
      · exact absurd hn hne
    · rename_i hn
      refine Triple.pure fun s L hs => ?_
      obtain ⟨⟨heq, -⟩ | ⟨-, hnot⟩, hL⟩ := hs
      · exact absurd heq hn
      · exact ⟨Or.inr ⟨rfl, hnot⟩, hL⟩

/-- What the library has put into the error text. -/
def textOf (t : Transfer) : List CChar :=
  strncpy (t.errorText.take (curlErrorSize - 1)) curlErrorSize

theorem easyPerform_ends {h : CurlHandle} (hb : (curl.transfer h).Bounded) :
    Triple (Within G fun s => s.connection = some h ∧ s.Fresh) (easyPerform curl)
      (fun r s L => (r = (curl.transfer h).code ∧
          Collected (curl.transfer h).chunks.flatten s.dataBuffer ∧
          s.errorString.val? = some (textOf (curl.transfer h)) ∨
        r = .writeError ∧ ¬ L.AllGranted) ∧ G L)
      (fun _ _ _ => False) := by
  refine Triple.bind_readObj fun s hs => ?_
  obtain ⟨hconn, hbuf, herror⟩ := hs
  obtain ⟨b, hb'⟩ := Option.isSome_iff_exists.mp herror
  rw [hconn]
  refine Triple.bind_modifyObj (K := fun s => Collected [] s.dataBuffer ∧
    s.errorString = some { b with val := textOf (curl.transfer h) }) ?_ ?_
  · rintro _ rfl
    refine ⟨hbuf, ?_⟩
    dsimp only
    rw [hb']
    rfl
  · refine (deliver_ends _ hb.chunkSize hb.size).post ?_
    rintro r s L ⟨⟨hr, hbody, herr⟩ | hrefused, hL⟩
    · exact ⟨Or.inl ⟨hr, hbody, by rw [herr]; rfl⟩, hL⟩
    · exact ⟨Or.inr hrefused, hL⟩

/-! ## The download -/

/-- How a download ends: with its outcome, or for want of memory. -/
def FetchEnds (o : Outcome) (ret : EupdRetCode) (dl : DownloadedList) (L : Ledger) : Prop :=
  ret = o.code ∧ dl.list.val? = o.list ∧ dl.errorString.val? = o.errorString ∨
    (ret = .eNoMemory ∨ ret = .eTransferError) ∧ ¬ L.AllGranted

theorem content_textOf (t : Transfer) :
    content (textOf t) = content (t.errorText.take (curlErrorSize - 1)) := by
  rw [textOf, content_strncpy]
  refine List.take_of_length_le ((length_content_le _).trans ?_)
  rw [List.length_take]
  exact (Nat.min_le_left _ _).trans (Nat.sub_le _ _)

/-- The body or the error text is handed over with a terminator, unless the block for it is
refused. -/
theorem finishFetch_ends {s : Session} {t : Transfer} (hs : Collected t.chunks.flatten s.dataBuffer)
    (htext : s.errorString.val? = some (textOf t)) :
    Triple (Within G fun dl => dl.list = none ∧ dl.errorString = none) (finishFetch s t.code)
      (fun ret dl L => FetchEnds t.outcome ret dl L ∧ G L) (fun _ _ _ => False) := by
  have hstarved : ∀ {o : Outcome} {dl : DownloadedList} {L : Ledger}, (G L ∧ ¬ L.AllGranted) →
      FetchEnds o .eNoMemory dl L ∧ G L := fun h => ⟨Or.inr ⟨Or.inl rfl, h.2⟩, h.1⟩
  unfold finishFetch Transfer.outcome
  cases retOfCurl t.code with
  | none =>
    dsimp only
    refine Triple.bind_malloc_or_null (fun b hb => ?_) ?_
    · rw [hs.bytes, hs.length, List.take_length] at hb
      refine Triple.bind_modifyObj (K := fun dl => dl.list = some b ∧ dl.errorString = none)
        (fun dl h => ⟨rfl, h.2⟩) ?_
      refine destroySession_bind_within (Triple.pure fun dl L h => ⟨Or.inl ⟨rfl, ?_, ?_⟩, h.2⟩)
      · rw [h.1.1]
        exact congrArg some hb
      · rw [h.1.2]
        rfl
    · refine Triple.pre (P := Within (Starved G) fun _ => True) ?_ fun _ _ h =>
        ⟨trivial, h.1.2, h.2⟩
      refine Triple.bind_modifyObj (K := fun _ => True) (fun _ _ => trivial) ?_
      exact destroySession_bind_within (Triple.pure fun _ _ h => hstarved h.2)
  | some ret =>
    dsimp only
    refine Triple.bind_malloc_or_null (fun b hb => ?_) ?_
    · rw [htext, Option.getD_some, content_textOf] at hb
      refine Triple.bind_modifyObj (K := fun dl => dl.list = none ∧ dl.errorString = some b)
        (fun dl h => ⟨h.1, rfl⟩) ?_
      refine destroySession_bind_within (Triple.pure fun dl L h => ⟨Or.inl ⟨rfl, ?_, ?_⟩, h.2⟩)
      · rw [h.1.1]
        rfl
      · rw [h.1.2]
        exact congrArg some hb
    · refine Triple.pre (P := Within (Starved G) fun _ => True) ?_ fun _ _ h =>
        ⟨trivial, h.1.2, h.2⟩
      refine Triple.bind_modifyObj (K := fun _ => True) (fun _ _ => trivial) ?_
      exact destroySession_bind_within (Triple.pure fun _ _ h => hstarved h.2)

/-- A transfer that was cut off for want of memory hands over no document. -/
theorem finishFetch_starved {s : Session} {o : Outcome} :
    Triple (Within (Starved G) fun _ => True) (finishFetch s .writeError)
      (fun ret dl L => FetchEnds o ret dl L ∧ G L) (fun _ _ _ => False) := by
  refine Triple.bind_malloc_or_null (fun b _ => ?_) ?_
  · refine Triple.bind_modifyObj (K := fun _ => True) (fun _ _ => trivial) ?_
    refine destroySession_bind_within (Triple.pure fun _ _ h => ?_)
    exact ⟨Or.inr ⟨Or.inr rfl, h.2.2⟩, h.2.1⟩
  · refine Triple.pre (P := Within (Starved G) fun _ => True) ?_ fun _ _ h => h.1
    refine Triple.bind_modifyObj (K := fun _ => True) (fun _ _ => trivial) ?_
    refine destroySession_bind_within (Triple.pure fun _ _ h => ?_)
    exact ⟨Or.inr ⟨Or.inl rfl, h.2.2⟩, h.2.1⟩

/-- A session that was set up is taken to its outcome. -/
theorem fetchWith_ends {url : List CChar} {allowInsecure : Int32} {userAgent : Ptr (List CChar)}
    (hb : BoundedFor curl url) {s : Session} {h : CurlHandle}
    (hsession : prepareSession curl = .ok h) (hs : s.connection = some h ∧ s.Fresh) :
    Triple (Within G fun dl => dl.list = none ∧ dl.errorString = none)
      (fetchWith curl url allowInsecure userAgent s)
      (fun ret dl L => FetchEnds (fetchOutcome curl url allowInsecure userAgent.val?) ret dl L ∧ G L)
      (fun _ _ _ => False) := by
  have hprepare : prepare curl url allowInsecure =
      match configure curl h (requestOptions (content url) allowInsecure) with
      | some h => .ok h
      | none => .error .eCurlSetup := by
    rw [prepare, hsession]
  refine Triple.bind_withObj_ledger (F := fun _ _ => False)
    ((setAll_ends (G := G) (fun _ _ h => h) _).pre fun _ _ h => ⟨by rw [h.1]; exact hs, h.2⟩)
    (fun _ _ _ _ => id) ?_
  intro b s
  dsimp only
  cases hconf : configure curl h (requestOptions (content url) allowInsecure) with
  | none =>
    rw [hconf] at hprepare
    refine Triple.pre (P := fun dl L => b = false ∧ Within G (fun dl : DownloadedList =>
      dl.list = none ∧ dl.errorString = none) dl L) (Triple.assume fun hrefused => ?_)
      fun dl L h => ⟨h.2.1, h.1, h.2.2⟩
    rw [hrefused, fetchOutcome, hprepare]
    refine destroySession_bind_within (Triple.pure fun dl L h => ⟨Or.inl ⟨rfl, ?_, ?_⟩, h.2⟩)
    · rw [h.1.1]
      rfl
    · rw [h.1.2]
      rfl
  | some h' =>
    rw [hconf] at hprepare
    refine Triple.pre (P := fun dl L => (b = true ∧ s.connection = some h' ∧ s.Fresh) ∧
      Within G (fun dl : DownloadedList => dl.list = none ∧ dl.errorString = none) dl L)
      (Triple.assume fun hset => ?_) fun dl L h => ⟨h.2.1, h.1, h.2.2⟩
    obtain ⟨rfl, hs⟩ := hset
    refine Triple.bind_withObj_ledger (F := fun _ _ => False)
      ((setUserAgent_ends (G := G) (fun _ _ h => h) userAgent).pre
        fun _ _ h => ⟨by rw [h.1]; exact hs, h.2⟩) (fun _ _ _ _ => id) ?_
    intro _ s
    refine Triple.pre (P := fun dl L =>
      (s.connection = some (announce curl h' userAgent.val?) ∧ s.Fresh) ∧
        Within G (fun dl : DownloadedList => dl.list = none ∧ dl.errorString = none) dl L)
      (Triple.assume fun hs => ?_) fun dl L h => ⟨h.2.1, h.1, h.2.2⟩
    have hbounded := hb (announce curl h' userAgent.val?)
      ((announce_url h' userAgent.val?).trans (prepare_url hprepare))
    refine Triple.bind_withObj_ledger (F := fun _ _ => False)
      ((easyPerform_ends (G := G) hbounded).pre fun _ _ h => ⟨by rw [h.1]; exact hs, h.2⟩)
      (fun _ _ _ _ => id) ?_
    intro code s
    rw [fetchOutcome, hprepare]
    refine Triple.bind (Q := fun _ dl L => (dl.list = none ∧ dl.errorString = none) ∧
      (code = (curl.transfer (announce curl h' userAgent.val?)).code ∧
          Collected (curl.transfer (announce curl h' userAgent.val?)).chunks.flatten s.dataBuffer ∧
          s.errorString.val? = some (textOf (curl.transfer (announce curl h' userAgent.val?))) ∨
        code = .writeError ∧ ¬ L.AllGranted) ∧ G L) (Triple.modifyObj fun _ _ h => h) fun _ => ?_
    rintro dl L ⟨hblank, ⟨rfl, hbody, htext⟩ | ⟨rfl, hnot⟩, hL⟩
    · exact finishFetch_ends hbody htext dl L ⟨hblank, hL⟩
    · exact finishFetch_starved dl L ⟨trivial, hL, hnot⟩

/-- **The outcome of a download.** Whatever the library answers, `fetcher_fetch` ends with the
outcome of the download, unless a request for memory is refused. -/
theorem fetcherFetch_ends {url : List CChar} (hb : BoundedFor curl url) (allowInsecure : Int32)
    (userAgent : Ptr (List CChar)) :
    Triple (Within G fun _ => True) (fetcherFetch curl url allowInsecure userAgent)
      (fun ret dl L => FetchEnds (fetchOutcome curl url allowInsecure userAgent.val?) ret dl L ∧ G L)
      (fun _ _ _ => False) := by
  refine Triple.bind_modifyObj (K := fun dl => dl.list = none ∧ dl.errorString = none)
    (fun _ _ => ⟨rfl, rfl⟩) ?_
  refine Triple.bind_withObj_ledger (F := fun _ _ => False)
    ((initSession_ends (G := G)).pre fun _ _ h => ⟨trivial, h.2⟩) (fun _ _ _ _ => id) ?_
  intro ret s
  dsimp only
  cases hsession : prepareSession curl with
  | error e =>
    have herr := prepareSession_isError hsession
    have hfails : fetchOutcome curl url allowInsecure userAgent.val? = .failed e none := by
      rw [fetchOutcome, prepare, hsession]
    rw [hfails]
    dsimp only
    split
    · refine Triple.pure ?_
      rintro dl L ⟨⟨hlist, htext⟩, rfl | ⟨rfl, hnot⟩, hL⟩
      · exact ⟨Or.inl ⟨rfl, by rw [hlist]; rfl, by rw [htext]; rfl⟩, hL⟩
      · exact ⟨Or.inr ⟨Or.inl rfl, hnot⟩, hL⟩
    · rename_i hret
      rintro dl L ⟨-, rfl | ⟨rfl, -⟩, -⟩
      · rw [not_not.mp hret] at herr
        cases herr
      · exact absurd EupdRetCode.noConfusion hret
  | ok h =>
    dsimp only
    split
    · rename_i hret
      refine Triple.pure ?_
      rintro dl L ⟨-, ⟨hok, -⟩ | ⟨rfl, hnot⟩, hL⟩
      · exact absurd hok hret
      · exact ⟨Or.inr ⟨Or.inl rfl, hnot⟩, hL⟩
    · rename_i hret
      rintro dl L ⟨hblank, ⟨-, hs⟩ | ⟨rfl, -⟩, hL⟩
      · exact fetchWith_ends hb hsession hs dl L ⟨hblank, hL⟩
      · exact absurd EupdRetCode.noConfusion hret

/-- **A download does what it is for.** Whatever the library answers and whatever requests are
refused, `fetcher_fetch` returns the code of the outcome with its strings, or it lacks memory and
says so, as such or by the error of the transfer that was cut off. -/
theorem fetcherFetch_refines {url : List CChar} (hb : BoundedFor curl url) (allowInsecure : Int32)
    (userAgent : Ptr (List CChar)) (dl : DownloadedList) (L : Ledger) :
    ∃ ret dl' L', (fetcherFetch curl url allowInsecure userAgent).exec dl L = (.ok ret, dl', L') ∧
      (ret = (fetchOutcome curl url allowInsecure userAgent.val?).code ∧
          dl'.list.val? = (fetchOutcome curl url allowInsecure userAgent.val?).list ∧
          dl'.errorString.val? = (fetchOutcome curl url allowInsecure userAgent.val?).errorString ∨
        (ret = .eNoMemory ∨ ret = .eTransferError) ∧ ∃ n, L.grant n = false) := by
  have hends := fetcherFetch_ends (G := fun L' => L'.grant = L.grant) hb allowInsecure userAgent
  obtain ⟨ret, dl', L', hexec, hfetch, hgrant⟩ := hends.run (x := dl) (L := L) ⟨trivial, rfl⟩
  refine ⟨ret, dl', L', hexec, hfetch.imp_right fun hgiven => ⟨hgiven.1, ?_⟩⟩
  obtain ⟨n, hn⟩ := not_forall.mp hgiven.2
  exact ⟨n, by simpa [hgrant] using hn⟩

/-- A library that hands over a body in two chunks, with an empty one between them. -/
def delivering : Curl where
  easyInit := true
  setopt := fun _ _ => .ok
  transfer := fun _ => ⟨[], [[91], [], [93]], .ok, []⟩
  schemeOf := fun _ => .https
  redirects := fun _ => []
  defaultProtocols := fun _ => true
  defaultRedirProtocols := fun _ => true

theorem delivering_bounded (url : List CChar) : BoundedFor delivering url := by
  have htotal : ([[91], [], [93]] : List (List CChar)).flatten.length < 2 ^ 64 := by decide
  have hchunk : ∀ c ∈ ([[91], [], [93]] : List (List CChar)), c.length ≤ 1 := by simp
  intro h _
  exact ⟨fun c hc => (hchunk c hc).trans_lt (by decide), htotal⟩

/-- The body is handed out with a terminator. -/
theorem fetcherFetch_refines_delivering :
    ∃ ret dl' L', (fetcherFetch delivering [104] 0 none).exec .zero (.start fun _ => true) =
        (.ok ret, dl', L') ∧
      ret = .ok ∧ dl'.list.val? = some [91, 93, 0] ∧ dl'.errorString.val? = none := by
  obtain ⟨ret, dl', L', hexec, ⟨hret, hlist, htext⟩ | ⟨-, n, hn⟩⟩ :=
    fetcherFetch_refines (delivering_bounded [104]) 0 none .zero (.start fun _ => true)
  · exact ⟨ret, dl', L', hexec, hret, hlist, htext⟩
  · cases hn

end UpdateCheck.Fetcher
