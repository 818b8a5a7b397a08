import Mathlib.Data.List.Flatten
import UpdateCheck.Fetcher.Secure

/-!
# The download buffer

`writer` over any sequence of calls, whatever requests are refused. The test of its growth looks at
the bytes held and the growth itself at the bytes allocated; the two counters agree in every
reachable buffer (`Collected`), so a write ends within its block, and a refused call leaves the
buffer as it was (`writer_call`). A run holds the chunks whose calls returned their size, in their
order (`writer_keeps`).
-/

namespace UpdateCheck.Fetcher

/-- The buffer is within its block and holds the bytes. -/
structure Buffer.Keeps (buf : Buffer) (body : List CChar) : Prop where
  inBounds : buf.length ≤ buf.allocated
  block : buf.bytes.length = buf.allocated
  bytes : buf.bytes.take buf.length = body

theorem Collected.keeps {body : List CChar} {buf : Buffer} (h : Collected body buf) :
    buf.Keeps body := by
  obtain ⟨hlength, hallocated, hbytes⟩ := h
  refine ⟨?_, ?_, ?_⟩
  · rw [hlength, hallocated]
  · rw [hbytes, hallocated]
  · rw [hbytes, hlength, List.take_length]

/-! ## One call -/

/-- The room for the chunk was refused. -/
structure Refused (chunk : List CChar) (L : Ledger) (n : Int) (buf buf' : Buffer) : Prop where
  request : L.grant L.clock = false
  nonempty : chunk ≠ []
  written : n = 0
  kept : buf' = buf

/-- The chunk was written behind the bytes held, within the block. -/
structure Took (chunk : List CChar) (L : Ledger) (n : Int) (buf buf' : Buffer) : Prop where
  request : chunk = [] ∨ L.grant L.clock = true
  written : n = chunk.length
  length : buf'.length = buf.length + chunk.length
  write : ∃ block : List CChar, block.length = buf'.allocated ∧
    buf.length + chunk.length ≤ block.length ∧ buf'.bytes = writeAt block buf.length chunk

theorem writer_exec_of_le {chunk : List CChar} {buf : Buffer} (L : Ledger)
    (h : sizeAdd buf.length chunk.length ≤ buf.allocated) :
    (writer chunk).exec buf L = (.ok (intOfSize chunk.length), buf.append chunk, L) := by
  rw [writer, exec_bind]
  simp only [readObj, exec_of]
  rw [if_neg (Nat.not_lt.mpr h)]
  rfl

theorem writer_exec_granted {chunk : List CChar} {buf : Buffer} {L : Ledger}
    (h : buf.allocated < sizeAdd buf.length chunk.length) (hL : L.grant L.clock = true) :
    ∃ b L', b.val = resize buf.bytes (sizeAdd buf.allocated chunk.length) ∧
      (writer chunk).exec buf L = (.ok (intOfSize chunk.length),
        Buffer.append ⟨some b, buf.length, sizeAdd buf.allocated chunk.length⟩ chunk, L') := by
  refine ⟨⟨L.clock, resize buf.bytes (sizeAdd buf.allocated chunk.length)⟩,
    { L with clock := L.clock + 1, acquired := L.clock :: L.acquired,
             released := (buf.data.map Block.id).toList ++ L.released }, rfl, ?_⟩
  rw [writer, exec_bind]
  simp only [readObj, exec_of]
  rw [if_pos h, exec_bind, realloc, exec_of, if_pos hL]
  rfl

theorem writer_exec_refused {chunk : List CChar} {buf : Buffer} {L : Ledger}
    (h : buf.allocated < sizeAdd buf.length chunk.length) (hL : L.grant L.clock = false) :
    (writer chunk).exec buf L = (.ok 0, buf, { L with clock := L.clock + 1 }) := by
  rw [writer, exec_bind]
  simp only [readObj, exec_of]
  rw [if_pos h, exec_bind, realloc, exec_of, hL]
  rfl

theorem length_resize (block : List CChar) (n : Nat) : (resize block n).length = n := by
  rw [resize, List.length_append, List.length_take, List.length_replicate]
  omega

theorem writeAt_nil (block : List CChar) (offset : Nat) : writeAt block offset [] = block := by
  rw [writeAt, List.append_nil, List.length_nil, Nat.add_zero, List.take_append_drop]

theorem Buffer.append_nil_bytes (buf : Buffer) : (buf.append []).bytes = buf.bytes := by
  cases hdata : buf.data with
  | none =>
    rw [Buffer.bytes, Buffer.bytes, Buffer.append, hdata]
    rfl
  | some b =>
    rw [Buffer.append_bytes buf [] b hdata, writeAt_nil, Buffer.bytes, hdata]
    rfl

theorem Collected.append_nil {body : List CChar} {buf : Buffer} (h : Collected body buf)
    (htotal : body.length < 2 ^ 64) : Collected (body ++ []) (buf.append []) := by
  rw [List.append_nil]
  refine ⟨?_, h.allocated, ?_⟩
  · show sizeAdd buf.length 0 = body.length
    rw [h.length]
    exact sizeAdd_of_lt htotal
  · rw [Buffer.append_nil_bytes]
    exact h.bytes

/-- **One call.** It is refused and changes nothing, or takes its chunk. -/
theorem writer_call {body chunk : List CChar} {buf : Buffer} (hbuf : Collected body buf)
    (hchunk : chunk.length < 2 ^ 31) (htotal : body.length + chunk.length < 2 ^ 64) (L : Ledger) :
    ∃ n buf' L', (writer chunk).exec buf L = (.ok n, buf', L') ∧
      (Refused chunk L n buf buf' ∨ Took chunk L n buf buf' ∧ Collected (body ++ chunk) buf') := by
  by_cases hempty : chunk = []
  · subst hempty
    have hcollected := hbuf.append_nil htotal
    refine ⟨_, _, L, writer_exec_of_le L ?_, Or.inr ⟨⟨Or.inl rfl, rfl, ?_, ?_⟩, hcollected⟩⟩
    · rw [hbuf.length, hbuf.allocated]
      exact (sizeAdd_of_lt htotal).le
    · rw [hcollected.length, hbuf.length, List.length_append]
    · refine ⟨buf.bytes, ?_, ?_, ?_⟩
      · rw [hbuf.bytes]
        exact hbuf.allocated.symm
      · rw [hbuf.bytes, hbuf.length]
        exact le_rfl
      · rw [Buffer.append_nil_bytes, writeAt_nil]
  · have hpos := List.length_pos_iff.mpr hempty
    have hsum := sizeAdd_of_lt htotal
    have hgrow : buf.allocated < sizeAdd buf.length chunk.length := by
      rw [hbuf.length, hbuf.allocated, hsum]
      omega
    cases hL : L.grant L.clock with
    | false =>
      exact ⟨_, _, _, writer_exec_refused hgrow hL, Or.inl ⟨hL, hempty, rfl, rfl⟩⟩
    | true =>
      obtain ⟨b, L', hb, hexec⟩ := writer_exec_granted hgrow hL
      rw [hbuf.allocated, hsum] at hb hexec
      have hbytes := Buffer.append_bytes ⟨some b, buf.length, body.length + chunk.length⟩ chunk b rfl
      refine ⟨_, _, L', hexec, Or.inr ⟨⟨Or.inr hL, intOfSize_of_lt hchunk, ?_, ?_⟩, ?_, ?_, ?_⟩⟩
      · show sizeAdd buf.length chunk.length = _
        rw [hbuf.length]
        exact hsum
      · refine ⟨b.val, ?_, ?_, hbytes⟩
        · rw [hb, length_resize]
          rfl
        · rw [hb, length_resize, hbuf.length]
      · show sizeAdd buf.length chunk.length = _
        rw [hbuf.length, List.length_append]
        exact hsum
      · rw [List.length_append]
        rfl
      · rw [hbytes, hb, hbuf.length, hbuf.bytes, writeAt_resize]

/-! ## Runs -/

/-- Calls one after another, and what each of them returned. -/
def callWriter : List (List CChar) → Prog Raised Buffer (List Int)
  | [] => return []
  | chunk :: chunks => do
    let written ← writer chunk
    let rest ← callWriter chunks
    return written :: rest

/-- The chunks whose calls returned their size. -/
def taken (chunks : List (List CChar)) (ns : List Int) : List (List CChar) :=
  ((chunks.zip ns).filter fun p => p.2 = p.1.length).map Prod.fst

theorem taken_append {chunks : List (List CChar)} {ns : List Int} (h : ns.length = chunks.length)
    (chunks' : List (List CChar)) (ns' : List Int) :
    taken (chunks ++ chunks') (ns ++ ns') = taken chunks ns ++ taken chunks' ns' := by
  unfold taken
  rw [List.zip_append h.symm, List.filter_append, List.map_append]

theorem taken_singleton (chunk : List CChar) (n : Int) :
    taken [chunk] [n] = if n = chunk.length then [chunk] else [] := by
  unfold taken
  split
  · rename_i hn
    simp [hn]
  · rename_i hn
    simp [hn]

theorem taken_sublist {chunks : List (List CChar)} {ns : List Int}
    (h : ns.length = chunks.length) : (taken chunks ns).Sublist chunks := by
  have hfilter := (List.filter_sublist (l := chunks.zip ns)
    (p := fun p => p.2 = p.1.length)).map Prod.fst
  rwa [List.map_fst_zip h.symm.le] at hfilter

/-- What a call adds to the chunks that were taken. -/
theorem Collected.call {body chunk : List CChar} {n : Int} {L : Ledger} {buf buf' : Buffer}
    (hbuf : Collected body buf) (h : Refused chunk L n buf buf' ∨
      Took chunk L n buf buf' ∧ Collected (body ++ chunk) buf') :
    Collected (body ++ (taken [chunk] [n]).flatten) buf' := by
  rw [taken_singleton]
  rcases h with ⟨-, hne, rfl, rfl⟩ | ⟨htook, hcollected⟩
  · have hlen : ¬ (0 : Int) = chunk.length := by
      have hpos := List.length_pos_iff.mpr hne
      omega
    rw [if_neg hlen, List.flatten_nil, List.append_nil]
    exact hbuf
  · rw [if_pos htook.written, List.flatten_singleton]
    exact hcollected

/-- After any calls the buffer holds what was taken. -/
theorem callWriter_collects (chunks : List (List CChar)) {body : List CChar} {buf : Buffer}
    (hbuf : Collected body buf) (hsize : ∀ c ∈ chunks, c.length < 2 ^ 31)
    (htotal : body.length + chunks.flatten.length < 2 ^ 64) (L : Ledger) :
    ∃ ns buf' L', (callWriter chunks).exec buf L = (.ok ns, buf', L') ∧
      ns.length = chunks.length ∧ Collected (body ++ (taken chunks ns).flatten) buf' := by
  induction chunks generalizing body buf L with
  | nil =>
    refine ⟨[], buf, L, rfl, rfl, ?_⟩
    show Collected (body ++ []) buf
    rw [List.append_nil]
    exact hbuf
  | cons chunk chunks ih =>
    obtain ⟨hchunk, hrest⟩ := List.forall_mem_cons.mp hsize
    rw [List.flatten_cons, List.length_append] at htotal
    have hroom : body.length + chunk.length < 2 ^ 64 := by omega
    obtain ⟨n, mid, L₁, hexec, hcall⟩ := writer_call hbuf hchunk hroom L
    have hle : (taken [chunk] [n]).flatten.length ≤ [chunk].flatten.length :=
      (taken_sublist rfl).flatten.length_le
    rw [List.flatten_singleton] at hle
    have hleft : (body ++ (taken [chunk] [n]).flatten).length + chunks.flatten.length < 2 ^ 64 := by
      rw [List.length_append]
      omega
    obtain ⟨ns, buf', L', hexec', hlen, hfinal⟩ := ih (hbuf.call hcall) hrest hleft L₁
    refine ⟨n :: ns, buf', L', ?_, ?_, ?_⟩
    · rw [callWriter, exec_bind, hexec]
      dsimp only
      rw [exec_bind, hexec']
      rfl
    · rw [List.length_cons, hlen, List.length_cons]
    · have hsplit : taken (chunk :: chunks) (n :: ns) = taken [chunk] [n] ++ taken chunks ns :=
        @taken_append [chunk] [n] rfl chunks ns
      rw [hsplit, List.flatten_append, ← List.append_assoc]
      exact hfinal

/-! ## The buffer of a session -/

/-- The buffer of the session is still empty. -/
def Unused (s : Session) : Prop := s.dataBuffer = .zero

theorem setAll_unused {curl : Curl} (os : List CurlOption) :
    Triple (fun s _ => Unused s) (setAll curl os) (fun _ s _ => Unused s)
      (fun _ _ _ => False) := by
  induction os with
  | nil => exact Triple.pure fun _ _ h => h
  | cons o os ih =>
    refine Triple.bind (Q := fun _ s _ => Unused s) ?_ fun code => ?_
    · refine Triple.bind (Q := fun _ s _ => Unused s) (Triple.readObj fun _ _ h => h) fun s => ?_
      split
      · exact Triple.pure fun _ _ h => h
      · dsimp only
        split
        · exact Triple.bind (Q := fun _ s _ => Unused s) (Triple.modifyObj fun _ _ h => h)
            fun _ => Triple.pure fun _ _ h => h
        · exact Triple.pure fun _ _ h => h
    · split
      · exact ih
      · exact Triple.pure fun _ _ h => h

/-- `init_session` leaves the buffer empty, whatever the library answers. -/
theorem initSession_unused (curl : Curl) :
    Triple (fun _ _ => True) (initSession curl) (fun _ s _ => Unused s) (fun _ _ _ => False) := by
  refine Triple.bind (Q := fun _ s _ => Unused s) (Triple.modifyObj fun _ _ _ => rfl) fun _ => ?_
  refine Triple.bind (Q := fun _ s _ => Unused s)
    (Triple.malloc (fun _ _ h _ => h) fun _ _ h _ => h) fun errorString => ?_
  refine Triple.bind (Q := fun _ s _ => Unused s) (Triple.modifyObj fun _ _ h => h) fun _ => ?_
  split
  · exact Triple.bind Triple.free_keeps fun _ => Triple.pure fun _ _ h => h
  · split
    · refine Triple.bind Triple.free_keeps fun _ => Triple.bind Triple.free_keeps fun _ => ?_
      exact Triple.pure fun _ _ h => h
    · refine Triple.bind (Q := fun _ s _ => Unused s) (Triple.modifyObj fun _ _ h => h) fun _ => ?_
      refine Triple.bind (setAll_unused sessionOptions) fun b => ?_
      split
      · exact Triple.pure fun _ _ h => h
      · refine Triple.bind (Q := fun _ s _ => Unused s) (Triple.readObj fun _ _ h => h) fun s => ?_
        exact Triple.bind (destroySession_keeps s) fun _ => Triple.pure fun _ _ h => h

/-- **The download buffer.** From the buffer of a session that was set up, after any calls the buffer
is within its block and holds the chunks whose calls returned their size; and the next call is
refused and changes nothing, or takes its chunk. -/
theorem writer_keeps {curl : Curl} {s₀ s : Session} {L₀ L₁ : Ledger}
    (hinit : (initSession curl).exec s₀ L₀ = (.ok .ok, s, L₁)) (chunks : List (List CChar))
    (chunk : List CChar) (hsize : ∀ c ∈ chunks ++ [chunk], c.length < 2 ^ 31)
    (htotal : (chunks ++ [chunk]).flatten.length < 2 ^ 64) (L : Ledger) :
    ∃ ns buf K n buf' K', (callWriter chunks).exec s.dataBuffer L = (.ok ns, buf, K) ∧
      ns.length = chunks.length ∧ buf.Keeps (taken chunks ns).flatten ∧
      (writer chunk).exec buf K = (.ok n, buf', K') ∧
      buf'.Keeps (taken (chunks ++ [chunk]) (ns ++ [n])).flatten ∧
      (Refused chunk K n buf buf' ∨ Took chunk K n buf buf') := by
  have hunused := initSession_unused curl s₀ L₀ trivial
  rw [hinit] at hunused
  have hzero : s.dataBuffer = .zero := hunused
  rw [hzero]
  rw [List.flatten_append, List.flatten_singleton, List.length_append] at htotal
  obtain ⟨hchunks, hchunk⟩ := List.forall_mem_append.mp hsize
  obtain ⟨ns, buf, K, hexec, hlen, hbuf⟩ :=
    callWriter_collects chunks collected_zero hchunks (by rw [List.length_nil]; omega) L
  have hle := (taken_sublist hlen).flatten.length_le
  have hroom : ([] ++ (taken chunks ns).flatten).length + chunk.length < 2 ^ 64 := by
    rw [List.nil_append]
    omega
  obtain ⟨n, buf', K', hexec', hcall⟩ := writer_call hbuf (hchunk chunk (.head _)) hroom K
  have hbuf' := hbuf.call hcall
  rw [List.append_assoc, ← List.flatten_append, ← taken_append hlen] at hbuf'
  exact ⟨ns, buf, K, n, buf', K', hexec, hlen, hbuf.keeps, hexec', hbuf'.keeps,
    hcall.imp_right And.left⟩

/-- Three chunks, of which the second is empty, with the request for the last refused. -/
theorem writer_keeps_three :
    ∃ s L₁, (initSession (serving .https [] [])).exec .zero (.start fun _ => true) =
        (.ok .ok, s, L₁) ∧
      ∃ ns buf K n buf' K', (callWriter [[0x5b], []]).exec s.dataBuffer (.start fun k => k = 0) =
          (.ok ns, buf, K) ∧
        ns.length = 2 ∧ buf.Keeps (taken [[0x5b], []] ns).flatten ∧
        (writer [0x5d]).exec buf K = (.ok n, buf', K') ∧
        buf'.Keeps (taken ([[0x5b], []] ++ [[0x5d]]) (ns ++ [n])).flatten ∧
        (Refused [0x5d] K n buf buf' ∨ Took [0x5d] K n buf buf') := by
  have hgranted : Granted (fun _ => True) Session.zero (.start fun _ => true) :=
    ⟨trivial, fun _ => rfl⟩
  obtain ⟨ret, s, L₁, hexec, ⟨rfl, -⟩, -⟩ :=
    (initSession_spec (serving_works .https [] [])).run hgranted
  exact ⟨s, L₁, hexec, writer_keeps hexec [[0x5b], []] [0x5d] (by decide) (by decide) _⟩

end UpdateCheck.Fetcher
