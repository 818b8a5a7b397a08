import UpdateCheck.Base.Ownership
import UpdateCheck.Fetcher.Fetch

/-!
# The blocks of a download

A session owns two blocks, the buffer of the body and the error text, and a downloaded list owns
two, the body and a copy of the error text. Each operation is described by the blocks it leaves
behind, whatever the library answers and whatever requests are refused; the ladders of `goto` at the
ends of `init_session` and `fetcher_fetch` release every block of the session exactly once
(`fetcherFetch_owns`).
-/

namespace UpdateCheck.Fetcher

open Ledger

variable {curl : Curl} {live : List Nat}

def Session.blocks (s : Session) : List Nat := s.dataBuffer.data.ids ++ s.errorString.ids

/-- The blocks that are released with a downloaded list. -/
def DownloadedList.blocks (dl : DownloadedList) : List Nat := dl.list.ids ++ dl.errorString.ids

/-! ## The buffer -/

theorem Buffer.append_ids (buf : Buffer) (chunk : List CChar) :
    (buf.append chunk).data.ids = buf.data.ids := by
  rw [Buffer.append, Ptr.ids, Ptr.ids, Option.map_map]
  rfl

/-- A call keeps the block of the buffer, or puts a new one in its place. -/
theorem writer_owes (chunk : List CChar) :
    Triple (fun buf L => Owes (buf.data.ids ++ live) L) (writer chunk)
      (fun _ buf L => Owes (buf.data.ids ++ live) L) (fun _ _ _ => False) := by
  refine Triple.fixed fun buf => Triple.bind_readObj ?_
  rintro buf rfl
  split
  · refine Triple.bind_realloc_owes (fun b _ => ?_) ?_
    · refine Triple.bind_modifyObj (K := fun x => x.data.ids = [b.id]) (fun _ _ => rfl) ?_
      refine Triple.bind_modifyObj (K := fun x => x.data.ids = [b.id]) ?_ ?_
      · intro x hx
        rw [Buffer.append_ids, hx]
      · refine Triple.pure fun x L h => ?_
        rw [h.1]
        exact h.2
    · refine Triple.pure fun x L h => ?_
      rw [h.1]
      exact h.2
  · refine Triple.bind_modifyObj (K := fun x => x.data.ids = buf.data.ids) ?_ ?_
    · rintro _ rfl
      exact Buffer.append_ids _ _
    · refine Triple.pure fun x L h => ?_
      rw [h.1]
      exact h.2

/-! ## The session -/

/-- Setting an option keeps whatever does not speak of the handle. -/
theorem setopt_keeps {K : Session → Ledger → Prop}
    (hK : ∀ s c L, K s L → K { s with connection := c } L) (o : CurlOption) :
    Triple K (setopt curl o) (fun _ => K) (fun _ _ _ => False) := by
  refine Triple.bind (Q := fun _ => K) (Triple.readObj fun _ _ h => h) fun s => ?_
  split
  · exact Triple.pure fun _ _ h => h
  · dsimp only
    split
    · refine Triple.bind (Q := fun _ => K) (Triple.modifyObj fun s L h => hK s _ L h) fun _ => ?_
      exact Triple.pure fun _ _ h => h
    · exact Triple.pure fun _ _ h => h

theorem setAll_keeps {K : Session → Ledger → Prop}
    (hK : ∀ s c L, K s L → K { s with connection := c } L) (os : List CurlOption) :
    Triple K (setAll curl os) (fun _ => K) (fun _ _ _ => False) := by
  induction os with
  | nil => exact Triple.pure fun _ _ h => h
  | cons o os ih =>
    refine Triple.bind (setopt_keeps hK o) fun code => ?_
    split
    · exact ih
    · exact Triple.pure fun _ _ h => h

theorem setUserAgent_keeps {K : Session → Ledger → Prop}
    (hK : ∀ s c L, K s L → K { s with connection := c } L) (userAgent : Ptr (List CChar)) :
    Triple K (setUserAgent curl userAgent) (fun _ => K) (fun _ _ _ => False) := by
  unfold setUserAgent
  split
  · exact Triple.pure fun _ _ h => h
  · exact Triple.bind (setopt_keeps hK _) fun _ => Triple.pure fun _ _ h => h

/-- The session is the owner of its blocks. -/
def Session.Owns (live : List Nat) (s : Session) (L : Ledger) : Prop := Owes (s.blocks ++ live) L

theorem Session.Owns.withConnection (s : Session) (c : Option CurlHandle) (L : Ledger)
    (h : s.Owns live L) : Session.Owns live { s with connection := c } L := h

/-- What both exits of a session do with its blocks. -/
theorem destroySession_bind_owes {σ β : Type} {s : Session} {P : σ → Prop}
    {f : Unit → Prog Raised σ β} {Q : β → σ → Ledger → Prop} {E : Raised → σ → Ledger → Prop}
    (hf : Triple (Within (Owes live) P) (f ()) Q E) :
    Triple (Within (Owes (s.blocks ++ live)) P) (destroySession s >>= f) Q E := by
  rw [Session.blocks, List.append_assoc, destroySession, bind_assoc]
  exact Triple.bind_free_owes (Triple.bind_free_owes hf)

/-- A session that was set up owns its blocks, and one that was not owns none. -/
def Ready (live : List Nat) (ret : EupdRetCode) (s : Session) (L : Ledger) : Prop :=
  ret = .ok ∧ s.Owns live L ∨ ret.isError = true ∧ Owes live L

theorem initSession_owns :
    Triple (fun _ L => Owes live L) (initSession curl) (Ready live) (fun _ _ _ => False) := by
  refine Triple.bind (Q := fun _ => Within (Owes live) (· = Session.zero))
    (Triple.modifyObj fun _ _ h => ⟨rfl, h⟩) fun _ => ?_
  refine Triple.bind_malloc_owes (fun b _ => ?_) ?_
  · refine Triple.bind_modifyObj
      (K := fun s => s.dataBuffer.data = none ∧ s.errorString = some b) ?_ ?_
    · rintro _ rfl
      exact ⟨rfl, rfl⟩
    · rw [if_neg (by simp)]
      split
      · refine Triple.bind_free_owes (p := none) ?_
        refine Triple.bind_free_owes (p := some b) (Triple.pure fun _ L h => Or.inr ⟨rfl, h.2⟩)
      · refine Triple.bind (Q := fun _ => Session.Owns live) ?_ fun _ => ?_
        · refine Triple.modifyObj fun s L h => ?_
          obtain ⟨⟨hdata, herror⟩, howes⟩ := h
          rw [Session.Owns, Session.blocks, hdata, herror]
          exact howes
        · refine Triple.bind (setAll_keeps Session.Owns.withConnection _) fun configured => ?_
          split
          · exact Triple.pure fun _ _ h => Or.inl ⟨rfl, h⟩
          · refine Triple.fixed fun s => Triple.bind_readObj ?_
            rintro _ rfl
            exact destroySession_bind_owes (Triple.pure fun _ _ h => Or.inr ⟨rfl, h.2⟩)
  · refine Triple.bind_modifyObj (K := fun _ => True) (fun _ _ => trivial) ?_
    exact Triple.bind_free_owes (p := none) (Triple.pure fun _ _ h => Or.inr ⟨rfl, h.2⟩)

/-! ## The transfer -/

theorem deliver_owns (code : CurlCode) (chunks : List (List CChar)) :
    Triple (Session.Owns live) (deliver code chunks) (fun _ => Session.Owns live)
      (fun _ _ _ => False) := by
  induction chunks with
  | nil => exact Triple.pure fun _ _ h => h
  | cons chunk chunks ih =>
    refine Triple.bind (Q := fun _ => Session.Owns live) ?_ fun written => ?_
    · refine Triple.onPart fun s => ?_
      refine (@writer_owes (s.errorString.ids ++ live) chunk).conseq ?_ ?_ fun _ _ _ h => h
      · intro _ L h
        obtain ⟨rfl, howns⟩ := h
        rw [Session.Owns, Session.blocks, List.append_assoc] at howns
        exact howns
      · intro _ buf L h
        rw [Session.Owns, Session.blocks, List.append_assoc]
        exact h
    · split
      · exact ih
      · exact Triple.pure fun _ _ h => h

theorem easyPerform_owns :
    Triple (Session.Owns live) (easyPerform curl) (fun _ => Session.Owns live)
      (fun _ _ _ => False) := by
  refine Triple.bind (Q := fun _ => Session.Owns live) (Triple.readObj fun _ _ h => h) fun s => ?_
  split
  · exact Triple.pure fun _ _ h => h
  · refine Triple.bind (Q := fun _ => Session.Owns live) ?_ fun _ => deliver_owns _ _
    refine Triple.modifyObj fun s L h => ?_
    rw [Session.Owns, Session.blocks, Ptr.ids, Ptr.ids, Option.map_map]
    exact h

/-! ## The download -/

/-- How a download ends: with a list, with an error text that tells of a failure in the network, or
with neither. -/
structure Fetched (ret : EupdRetCode) (dl : DownloadedList) : Prop where
  code : ret = .ok ∨ ret.isError = true
  list : dl.list.isSome = true ↔ ret = .ok
  errorString : dl.errorString.isSome = true → ret.isNetworkError = true

/-- Nothing was handed out yet. -/
def Blank (dl : DownloadedList) : Prop := dl.list = none ∧ dl.errorString = none

theorem Blank.fetched {ret : EupdRetCode} {dl : DownloadedList} (h : Blank dl)
    (hret : ret.isError = true) : Fetched ret dl := by
  refine ⟨Or.inr hret, ?_, ?_⟩
  · rw [h.1]
    refine iff_of_false (by decide) ?_
    rintro rfl
    cases hret
  · rw [h.2]
    exact fun hnone => absurd hnone (by decide)

/-- The download owns what it handed out. -/
def Handed (live : List Nat) (ret : EupdRetCode) (dl : DownloadedList) (L : Ledger) : Prop :=
  Fetched ret dl ∧ Owes (dl.blocks ++ live) L

theorem Blank.handed {ret : EupdRetCode} {dl : DownloadedList} {L : Ledger} (h : Blank dl)
    (hret : ret.isError = true) (howes : Owes live L) : Handed live ret dl L := by
  refine ⟨h.fetched hret, ?_⟩
  rw [DownloadedList.blocks, h.1, h.2]
  exact howes

theorem finishFetch_owns (s : Session) (code : CurlCode) :
    Triple (Within (Owes (s.blocks ++ live)) Blank) (finishFetch s code) (Handed live)
      (fun _ _ _ => False) := by
  have hmoved : ∀ {i : Nat} {L : Ledger}, Owes (i :: (s.blocks ++ live)) L →
      Owes (s.blocks ++ i :: live) L := fun h => h.perm List.perm_middle.symm
  unfold finishFetch
  split
  · refine Triple.bind_malloc_owes (fun b _ => ?_) ?_
    · refine Triple.bind_modifyObj (K := fun dl => dl.list = some b ∧ dl.errorString = none)
        (fun dl h => ⟨rfl, h.2⟩) ?_
      refine Triple.pre (destroySession_bind_owes (P := fun dl : DownloadedList =>
        dl.list = some b ∧ dl.errorString = none) ?_) fun dl L h => ⟨h.1, hmoved h.2⟩
      refine Triple.pure fun dl L h => ?_
      obtain ⟨⟨hlist, herror⟩, howes⟩ := h
      rw [Handed, DownloadedList.blocks, hlist, herror]
      refine ⟨⟨Or.inl rfl, ?_, ?_⟩, howes⟩
      · rw [hlist]
        exact iff_of_true rfl rfl
      · rw [herror]
        exact fun hnone => absurd hnone (by decide)
    · refine Triple.bind_modifyObj (K := Blank) (fun dl h => ⟨rfl, h.2⟩) ?_
      exact destroySession_bind_owes (Triple.pure fun dl L h => h.1.handed rfl h.2)
  · rename_i ret hret
    have hnetwork := retOfCurl_isNetworkError hret
    have herr := EupdRetCode.isError_of_isNetworkError hnetwork
    refine Triple.bind_malloc_owes (fun b _ => ?_) ?_
    · refine Triple.bind_modifyObj (K := fun dl => dl.list = none ∧ dl.errorString = some b)
        (fun dl h => ⟨h.1, rfl⟩) ?_
      refine Triple.pre (destroySession_bind_owes (P := fun dl : DownloadedList =>
        dl.list = none ∧ dl.errorString = some b) ?_) fun dl L h => ⟨h.1, hmoved h.2⟩
      refine Triple.pure fun dl L h => ?_
      obtain ⟨⟨hlist, herror⟩, howes⟩ := h
      rw [Handed, DownloadedList.blocks, hlist, herror]
      refine ⟨⟨Or.inr herr, ?_, fun _ => hnetwork⟩, howes⟩
      rw [hlist]
      refine iff_of_false (by decide) ?_
      rintro rfl
      cases herr
    · refine Triple.bind_modifyObj (K := Blank) (fun dl h => ⟨h.1, rfl⟩) ?_
      exact destroySession_bind_owes (Triple.pure fun dl L h => h.1.handed rfl h.2)

theorem fetchWith_owns (url : List CChar) (allowInsecure : Int32) (userAgent : Ptr (List CChar))
    (s : Session) :
    Triple (Within (Owes (s.blocks ++ live)) Blank) (fetchWith curl url allowInsecure userAgent s)
      (Handed live) (fun _ _ _ => False) := by
  refine Triple.bind_withObj_ledger (T := fun _ => Session.Owns live) (F := fun _ _ => False)
    ((setAll_keeps Session.Owns.withConnection _).pre ?_) (fun _ _ _ _ => id) ?_
  · rintro _ L ⟨rfl, h⟩
    exact h
  intro configured s
  dsimp only
  split
  · exact destroySession_bind_owes (Triple.pure fun dl L h => h.1.handed rfl h.2)
  · refine Triple.bind_withObj_ledger (T := fun _ => Session.Owns live) (F := fun _ _ => False)
      ((setUserAgent_keeps Session.Owns.withConnection _).pre ?_) (fun _ _ _ _ => id) ?_
    · rintro _ L ⟨rfl, h⟩
      exact h
    intro _ s
    refine Triple.bind_withObj_ledger (T := fun _ => Session.Owns live) (F := fun _ _ => False)
      (easyPerform_owns.pre ?_) (fun _ _ _ _ => id) ?_
    · rintro _ L ⟨rfl, h⟩
      exact h
    intro code s
    exact Triple.bind_modifyObj (K := Blank) (fun dl h => h) (finishFetch_owns s code)

/-- Whatever the library answers and whatever requests are refused, a download ends, and of the
blocks it acquired exactly those it hands out are left. -/
theorem fetcherFetch_owns (url : List CChar) (allowInsecure : Int32)
    (userAgent : Ptr (List CChar)) :
    Triple (fun _ L => Owes live L) (fetcherFetch curl url allowInsecure userAgent) (Handed live)
      (fun _ _ _ => False) := by
  refine Triple.bind (Q := fun _ => Within (Owes live) Blank)
    (Triple.modifyObj fun _ _ h => ⟨⟨rfl, rfl⟩, h⟩) fun _ => ?_
  refine Triple.bind_withObj_ledger (T := Ready live) (F := fun _ _ => False)
    (initSession_owns.pre fun _ _ h => h.2) (fun _ _ _ _ => id) ?_
  intro ret s
  dsimp only
  split
  · rename_i hret
    refine Triple.pure fun dl L h => ?_
    rcases h.2 with ⟨hok, -⟩ | ⟨herr, howes⟩
    · exact absurd hok hret
    · exact h.1.handed herr howes
  · rename_i hret
    refine (fetchWith_owns url allowInsecure userAgent s).pre fun dl L h => ?_
    rcases h.2 with ⟨-, howns⟩ | ⟨herr, -⟩
    · exact ⟨h.1, howns⟩
    · rw [not_not.mp hret] at herr
      cases herr

theorem fetcherListCleanup_owes {σ : Type} (dl : DownloadedList) :
    Triple (fun _ L => Owes (dl.blocks ++ live) L)
      (fetcherListCleanup dl : Prog Raised σ Unit) (fun _ _ L => Owes live L)
      (fun _ _ _ => False) := by
  rw [DownloadedList.blocks, List.append_assoc]
  exact Triple.bind free_owes fun _ => free_owes

/-- **The blocks of a download.** Whatever the library answers and whatever requests are refused,
`fetcher_fetch` ends without an exception. It hands out a list exactly where it returns `EUPD_OK`,
and an error text only with an error of the network; and where the caller releases what it was
handed, every block is released exactly once. -/
theorem fetcherFetch_released (curl : Curl) (url : List CChar) (allowInsecure : Int32)
    (userAgent : Ptr (List CChar)) (dl₀ : DownloadedList) (grant : Nat → Bool) :
    ∃ ret dl L, (fetcherFetch curl url allowInsecure userAgent).exec dl₀ (.start grant) =
        (.ok ret, dl, L) ∧
      (ret = .ok ∨ ret.isError = true) ∧ (dl.list.isSome = true ↔ ret = .ok) ∧
      (dl.errorString.isSome = true → ret.isNetworkError = true) ∧
      ∃ L', (fetcherListCleanup dl : Prog Raised Unit Unit).exec () L = (.ok (), (), L') ∧
        L'.released.Nodup ∧ L'.Balanced := by
  obtain ⟨ret, dl, L, hexec, hfetched, howes⟩ :=
    (fetcherFetch_owns url allowInsecure userAgent).run (x := dl₀) (Owes.start grant)
  obtain ⟨a, x, L', hcleanup, howes'⟩ := (fetcherListCleanup_owes dl).run (x := ()) howes
  have hbalanced : L'.Balanced := howes'.balanced_iff.mpr rfl
  exact ⟨ret, dl, L, hexec, hfetched.code, hfetched.list, hfetched.errorString, L', hcleanup,
    hbalanced.nodup_iff.mpr howes'.nodup, hbalanced⟩

/-! ## The answers to later requests -/

theorem writer_steady (chunk : List CChar) : Steady (writer chunk) := by
  refine .bind .readObj fun buf => ?_
  split
  · refine .bind .realloc fun dataNew => ?_
    split
    · exact .pure
    · exact .bind .modifyObj fun _ => .bind .modifyObj fun _ => .pure
  · exact .bind .modifyObj fun _ => .pure

theorem setopt_steady (o : CurlOption) : Steady (setopt curl o) := by
  refine .bind .readObj fun s => ?_
  split
  · exact .pure
  · dsimp only
    split
    · exact .bind .modifyObj fun _ => .pure
    · exact .pure

theorem setAll_steady (os : List CurlOption) : Steady (setAll curl os) := by
  induction os with
  | nil => exact .pure
  | cons o os ih =>
    refine .bind (setopt_steady o) fun code => ?_
    split
    · exact ih
    · exact .pure

theorem destroySession_steady {σ : Type} (s : Session) :
    Steady (destroySession s : Prog Raised σ Unit) := .bind .free fun _ => .free

theorem initSession_steady : Steady (initSession curl) := by
  refine .bind .modifyObj fun _ => .bind .malloc fun errorString => .bind .modifyObj fun _ => ?_
  split
  · exact .bind .free fun _ => .pure
  · split
    · exact .bind .free fun _ => .bind .free fun _ => .pure
    · refine .bind .modifyObj fun _ => .bind (setAll_steady _) fun configured => ?_
      split
      · exact .pure
      · exact .bind .readObj fun s => .bind (destroySession_steady s) fun _ => .pure

theorem deliver_steady (code : CurlCode) (chunks : List (List CChar)) :
    Steady (deliver code chunks) := by
  induction chunks with
  | nil => exact .pure
  | cons chunk chunks ih =>
    refine .bind (.onPart (writer_steady chunk)) fun written => ?_
    split
    · exact ih
    · exact .pure

theorem easyPerform_steady : Steady (easyPerform curl) := by
  refine .bind .readObj fun s => ?_
  split
  · exact .pure
  · exact .bind .modifyObj fun _ => deliver_steady _ _

theorem finishFetch_steady (s : Session) (code : CurlCode) : Steady (finishFetch s code) := by
  unfold finishFetch
  split
  all_goals
    refine .bind .malloc fun p => .bind .modifyObj fun _ => ?_
    split
    all_goals exact .bind (destroySession_steady s) fun _ => .pure

/-- A download does not change the answers to the requests behind it. -/
theorem fetcherFetch_steady (url : List CChar) (allowInsecure : Int32)
    (userAgent : Ptr (List CChar)) : Steady (fetcherFetch curl url allowInsecure userAgent) := by
  refine .bind .modifyObj fun _ => .bind (.withObj initSession_steady) fun p => ?_
  obtain ⟨ret, s⟩ := p
  dsimp only
  split
  · exact .pure
  · refine .bind (.withObj (setAll_steady _)) fun p => ?_
    obtain ⟨configured, s⟩ := p
    dsimp only
    split
    · exact .bind (destroySession_steady s) fun _ => .pure
    · refine .bind (.withObj ?_) fun _ => .bind (.withObj easyPerform_steady) fun _ =>
        .bind .modifyObj fun _ => finishFetch_steady _ _
      unfold setUserAgent
      split
      · exact .pure
      · exact .bind (setopt_steady _) fun _ => .pure

end UpdateCheck.Fetcher
