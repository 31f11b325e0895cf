import HttpC.L5Concurrency.Alone

/-!
# A request with another HTTP version is logged without its id

`process_request` returns at the version check (src/connection.c:212-215), in
front of `parse_headers`, so `conn->request_id` is still the `0` of
`conn_new` when `handle_connection` audits the 505, or the 501 that takes its
place. The comment above (src/connection.c:190-194) moves the URI in front of
the check for the sake of the audit line; the request id needs the same, and
the mock (ztest/mock/main.zig:126) looks it up before it dispatches.

`keepsIdentity_iff`: the line carries URI and id exactly when the minor
version is 1, or the id is the one that is printed by default.

Fix: run `parse_headers` before the version check.
-/
namespace HttpC.Bugs.IdLost
open HttpC.L1.Util HttpC.L2 HttpC.L3 HttpC.L5

/-- The bytes of a request without a body. -/
def bytesOf (r : ReqLine) (fs : List Field) : Bytes :=
  r.text ++ ((fs.map Field.text).flatten ++ [13, 10])

/-- A complete request: its request line as `REQUEST_LINE` reads it, with a
one-digit minor version, header lines that all match `HEADER_FIELD`, one of
them `Request-Id: v`. -/
structure Complete (r : ReqLine) (fs : List Field) (v : Bytes) : Prop where
  line : LineOf (cstr (bytesOf r fs)) r
  minor : r.minor.length = 1
  fields : ∀ f ∈ fs, f.Ok
  id : (fs.filter fun f => f.key = REQUEST_ID_KEY).map Field.value = [v]
  size : (bytesOf r fs).length ≤ BUFFER_SIZE

/-- `q` is a connection over which the bytes arrive, cut in any way; past the
two `regcomp`s its calls may have any outcome. -/
def Brings (q : Incoming) (r : ReqLine) (fs : List Field) : Prop :=
  q.client.pending = bytesOf r fs ∧ Cut q.client.script ∧ q.oracle.regcomp = .ok

/-- Every line the server writes for the request, among any others and in any
interleaving, in any state of the files, carries its URI and its id. -/
def KeepsIdentity (r : ReqLine) (fs : List Field) (v : Bytes) : Prop :=
  ∀ q, Brings q r fs → ∀ (n : Nat) (E : Env) (reqs : Fin n → Incoming) (files : Files) (s : Sys n),
    (server E reqs files).Reachable s → ∀ i, reqs i = q →
      ∀ l ∈ s.linesOf i, l.uri = r.uri ∧ l.rid = v

theorem lastId_of_filter (fs : List Field) (a : Bytes) :
    lastId fs a = (((fs.filter fun f => f.key = REQUEST_ID_KEY).map Field.value).getLast?).getD a := by
  unfold lastId
  induction fs generalizing a with
  | nil => rfl
  | cons f fs ih =>
    rw [List.foldl_cons, ih]
    by_cases hk : f.key = REQUEST_ID_KEY
    · simp only [hk, if_true, decide_true, List.filter_cons_of_pos, List.map_cons,
        List.getLast?_cons, Option.getD_some]
    · simp [hk]

section
variable {r : ReqLine} {fs : List Field} {v : Bytes} {q : Incoming}

/-- `conn_parse` on such a request: all of it is read. -/
theorem Complete.read (h : Complete r fs v) (hq : Brings q r fs) :
    ∃ s', readUntil q.client BUFFER_SIZE BLANK_LINE = (.ok (bytesOf r fs), s') := by
  obtain ⟨buf, s', b, h1, -, h3, h4, -⟩ := readUntil_block (s := q.client) (B := [])
    (block_texts h.line.1 h.fields) h.size (by rw [octets_self, List.append_nil]; exact hq.1) hq.2.1
  rw [octets_self, List.prefix_nil.mp h4, List.append_nil] at h3
  exact ⟨s', by rw [h1, h3]; rfl⟩

theorem Complete.no_nul (h : Complete r fs v) : (0 : UInt8) ∉ bytesOf r fs := by
  simp only [bytesOf, List.mem_append, List.mem_flatten, List.mem_map, not_or]
  refine ⟨fun h0 => not_mem_cstr _ (h.line.2.1.subset h0), ?_, by decide⟩
  intro hh
  obtain ⟨l, ⟨f, hf, rfl⟩, h0⟩ := hh
  exact (h.fields f hf).no_nul h0

/-- What the connection holds then. -/
theorem Complete.parsed (h : Complete r fs v) (hq : Brings q r fs) :
    q.parsed.uri = r.uri ∧ q.parsed.requestId = if r.minor = ascii "1" then v else ascii "0" := by
  obtain ⟨s', hread⟩ := h.read hq
  unfold Incoming.parsed
  rw [hq.2.2]
  by_cases hm : r.minor = ascii "1"
  · have hscan := scan_block (b := []) (lines_texts fs) h.no_nul (scan_texts h.fields)
      (.done (noField_short (by decide)))
    rw [if_pos rfl, List.append_nil, List.append_nil] at hscan
    rw [connParse_accept hread (by rw [octets_self]; exact h.line) hm
      (by rw [octets_self]; exact hscan), if_pos hm]
    refine ⟨rfl, ?_⟩
    show lastId fs (ascii "0") = v
    rw [lastId_of_filter, h.id]; rfl
  · rw [connParse_version hread (by rw [octets_self]; exact h.line) hm, if_neg hm]
    exact ⟨rfl, rfl⟩

end

/-- The lines of a request that arrived whole. -/
theorem Complete.lines {r : ReqLine} {fs : List Field} {v : Bytes} {q : Incoming} {n : Nat} {E : Env}
    {reqs : Fin n → Incoming} {files : Files} {s : Sys n} {i : Fin n} (h : Complete r fs v)
    (hq : Brings q r fs) (hs : (server E reqs files).Reachable s) (hi : reqs i = q) {l : LogLine}
    (hl : l ∈ s.linesOf i) :
    l.uri = r.uri ∧ l.rid = if r.minor = ascii "1" then v else ascii "0" := by
  have hlog : s.linesOf i = _ := (handler_lines (solo_reachable hs i)).1
  rw [hlog, hi] at hl
  obtain ⟨res, -, rfl⟩ := List.mem_map.mp hl
  exact h.parsed hq

/-- **Exactly the requests that keep their identity.** -/
theorem keepsIdentity_iff (r : ReqLine) (fs : List Field) (v : Bytes) (h : Complete r fs v) :
    KeepsIdentity r fs v ↔ r.minor = ascii "1" ∨ v = ascii "0" := by
  constructor
  · intro hk
    by_contra hno
    obtain ⟨hm, hv⟩ := not_or.mp hno
    -- the request alone, on a connection where nothing fails
    let q : Incoming := { client := ⟨bytesOf r fs, []⟩ }
    have hq : Brings q r fs := ⟨rfl, List.forall_mem_nil _, rfl⟩
    obtain ⟨s', hread⟩ := h.read hq
    have hp := connParse_version hread (by rw [octets_self]; exact h.line) hm
    have hd : ∃ res, dispatch (connParse q.oracle.regcomp q.client).1 q.parsed = exitPlain res := by
      have he : connIsEmpty q.parsed = false := by
        have hpos : (bytesOf r fs).length ≠ 0 :=
          LineOf.length_pos (r := r) (by rw [octets_self]; exact h.line)
        unfold Incoming.parsed
        rw [hq.2.2, hp]
        simpa [connIsEmpty, ReqLine.store, filled] using hpos
      rw [hq.2.2, hp]
      simp only [dispatch, he, Bool.false_eq_true, if_false]
      split
      · exact ⟨_, rfl⟩
      · exact ⟨_, rfl⟩
    obtain ⟨res, hd⟩ := hd
    obtain ⟨s, hs, hl⟩ := refused_alone (E := ⟨[], 0, 0⟩) (fun _ => none) rfl hd
    have hmem : auditLine q.parsed res ∈ s.linesOf 0 := by rw [hl]; exact List.mem_cons_self
    have h1 := (hk q hq 1 ⟨[], 0, 0⟩ (fun _ => q) (fun _ => none) s hs 0 rfl _ hmem).2
    rw [(h.lines hq hs rfl hmem).2, if_neg hm] at h1
    exact hv h1.symm
  · rintro hc q hq n E reqs files s hs i hi l hl
    obtain ⟨h1, h2⟩ := h.lines hq hs hi hl
    refine ⟨h1, h2.trans ?_⟩
    split
    · rfl
    · rename_i hm
      exact (hc.resolve_left hm).symm

def idSeven : Field := ⟨REQUEST_ID_KEY, 32, ascii "7"⟩

/-- `GET /a HTTP/1.x`, request id 7. -/
def getA (minor : Bytes) : ReqLine := ⟨ascii "GET", ascii "a", ascii "1", 46, minor⟩

theorem keepsIdentity_getA : Complete (getA (ascii "1")) [idSeven] (ascii "7") ∧
    KeepsIdentity (getA (ascii "1")) [idSeven] (ascii "7") := by
  have h : Complete (getA (ascii "1")) [idSeven] (ascii "7") :=
    ⟨⟨by decide, by decide, by decide⟩, by decide, by simp; decide, by decide, by decide⟩
  exact ⟨h, (keepsIdentity_iff _ _ _ h).mpr (.inl rfl)⟩

/-- **Counterexample**: in version 1.0 the line of request 7 has the id 0. -/
theorem version_loses_id : ¬ ∀ r fs v, Complete r fs v → KeepsIdentity r fs v := by
  intro hall
  have h : Complete (getA (ascii "0")) [idSeven] (ascii "7") :=
    ⟨⟨by decide, by decide, by decide⟩, by decide, by simp; decide, by decide, by decide⟩
  let q : Incoming := { client := ⟨bytesOf (getA (ascii "0")) [idSeven], []⟩ }
  have hd : dispatch (connParse q.oracle.regcomp q.client).1 q.parsed =
      exitPlain .VERSION_NOT_SUPPORTED := by decide
  obtain ⟨s, hs, hl⟩ := refused_alone (E := ⟨[], 0, 0⟩) (fun _ => none) rfl hd
  have := hall _ _ _ h q ⟨rfl, by decide, rfl⟩ 1 _ _ _ s hs 0 rfl _ (by rw [hl]; exact List.mem_cons_self)
  revert this
  decide

end HttpC.Bugs.IdLost
