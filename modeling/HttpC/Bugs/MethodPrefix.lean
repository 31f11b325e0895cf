import HttpC.L5Concurrency.Alone
import HttpC.L7Mock.Mock

/-!
# `GETX` is served as a GET

`process_request` compares the first three bytes of the method token with
`GET` and `PUT` (src/connection.c:180-183), not the token: `strncmp` is given
the length of the literal and nothing looks at the match's end. Any token of
up to eight letters that starts with one of them is dispatched to its
handler; `PUTS /a` truncates `a`. Header keys are compared with their length
(src/connection.c:139-152), and the mock compares whole tokens
(ztest/mock/main.zig:130,161).

`dispatchesExactly_iff`: everything the dispatch owes holds of exactly the
tokens that do not continue a `GET` or a `PUT`.

Fix: compare the length of the match as well.
-/
namespace HttpC.Bugs.MethodPrefix
open HttpC.L1.Util HttpC.L2 HttpC.L3 HttpC.L5 HttpC.L6 HttpC.Flock
open HttpC.L7 (branch branch_eq)

/-- A connection that brings the block `H` and anything behind it, cut in any
way, for which `conn_new` and the `regcomp`s succeed. -/
structure Brings (q : Incoming) (H : Bytes) : Prop where
  bytes : H <+: q.client.pending
  cut : Cut q.client.script
  calloc : q.oracle.calloc = true
  regcomp : q.oracle.regcomp = .ok

section
variable {n : Nat} (E : Env) (reqs : Fin n → Incoming) (files : Files) (i : Fin n)

/-- Request `i` gets to the start of `handle_get` (shared lock) or of
`handle_put` (exclusive lock). -/
def Runs (op : Mode) : Prop :=
  ∃ s, (server E reqs files).Reachable s ∧ (s.workers i).pc = .lock op

/-- Request `i` changes no file, and goes by itself to its end: a 501, logged
as `UNSUPPORTED`. -/
def Unsupported : Prop :=
  ∀ s, (server E reqs files).Reachable s →
    (∀ s', s.step E i = some s' → s'.files = s.files) ∧
    (∃ ms t, (server E reqs files).Run s ms t ∧ (∀ j ∈ ms, j = i) ∧ (t.workers i).pc = .done) ∧
    ((s.workers i).pc = .done → responses (s.workers i).trace = [.NOT_IMPLEMENTED] ∧
      ∃ l, s.linesOf i = [l] ∧ l.oper = ascii "UNSUPPORTED" ∧ l.status = 501)

end

/-- What the dispatch owes a request whose block `H` starts with the request
line `r`, among any other requests: the handler of its whole token, or a 501;
and the same choice as the mock's. -/
def DispatchesExactly (H : Bytes) (r : ReqLine) : Prop :=
  ∀ q, Brings q H → ∀ (n : Nat) (E : Env) (reqs : Fin n → Incoming) (files : Files) (i : Fin n),
    reqs i = q →
    (Runs E reqs files i .SH ↔ r.method = ascii "GET") ∧
    (Runs E reqs files i .EX ↔ r.method = ascii "PUT") ∧
    (r.method ≠ ascii "GET" → r.method ≠ ascii "PUT" → Unsupported E reqs files i) ∧
    ∀ head, H <+: head → ∃ rl, parseRequestLine head = some rl ∧
      (branch rl.method = .get ↔ Runs E reqs files i .SH) ∧
      (branch rl.method = .put ↔ Runs E reqs files i .EX)

/-- The token is not a longer word that starts with `GET` or `PUT`. -/
def WholeToken (method : Bytes) : Prop :=
  ∀ m, m = ascii "GET" ∨ m = ascii "PUT" → m <+: method → method = m

/-! ## The token the server sees -/

theorem strncmp_method {r : ReqLine} (h0 : (0 : UInt8) ∉ r.text) {m : Bytes}
    (hm : m = ascii "GET" ∨ m = ascii "PUT") : strncmpEq r.text m 3 = true ↔ m <+: r.method := by
  have hlen : m.length = 3 := by rcases hm with rfl | rfl <;> decide
  have hnul : (0 : UInt8) ∉ m := by rcases hm with rfl | rfl <;> decide
  have hsp : (32 : UInt8) ∉ m := by rcases hm with rfl | rfl <;> decide
  rw [strncmpEq, cstr_eq_self h0, cstr_eq_self hnul, beq_iff_eq,
    List.take_of_length_le (l := m) (by omega)]
  have hpre : r.method <+: r.text := ⟨_, rfl⟩
  constructor
  · intro h
    have hp : m <+: r.text := h ▸ List.take_prefix 3 r.text
    rcases Nat.lt_or_ge r.method.length 3 with hlt | hge
    · -- the space behind a shorter token would be one of the three bytes
      exfalso
      have hp' : r.method ++ [32] <+: m := by
        have ht : r.method ++ [32] <+: r.text :=
          ⟨47 :: (r.uri ++ (HTTP ++ (r.major ++ r.dot :: (r.minor ++ [13, 10])))),
            by simp [ReqLine.text]⟩
        exact List.prefix_of_prefix_length_le ht hp (by simp; omega)
      exact hsp (hp'.subset (by simp))
    · exact List.prefix_of_prefix_length_le hp hpre (by omega)
  · intro h
    obtain ⟨t, ht⟩ := h.trans hpre
    rw [← ht, List.take_append_of_le_length (by omega), List.take_of_length_le (by omega)]

/-- **The method the server takes a token for.** -/
theorem request_iff {r : ReqLine} (h0 : (0 : UInt8) ∉ r.text) :
    (r.request = .GET ↔ ascii "GET" <+: r.method) ∧ (r.request = .PUT ↔ ascii "PUT" <+: r.method) := by
  have hg := strncmp_method h0 (m := ascii "GET") (.inl rfl)
  have hp := strncmp_method h0 (m := ascii "PUT") (.inr rfl)
  have hne : ascii "GET" <+: r.method → ¬ ascii "PUT" <+: r.method := by
    intro h h'
    have := (List.prefix_of_prefix_length_le h h' (by decide)).eq_of_length (by decide)
    revert this; decide
  unfold ReqLine.request methodOf
  by_cases h1 : ascii "GET" <+: r.method
  · simp [hg.mpr h1, h1, hne h1]
  · have h1' : strncmpEq r.text (ascii "GET") 3 = false := by
      rw [← Bool.not_eq_true]; exact fun h => h1 (hg.mp h)
    by_cases h2 : ascii "PUT" <+: r.method
    · simp [h1', hp.mpr h2, h1, h2]
    · have h2' : strncmpEq r.text (ascii "PUT") 3 = false := by
        rw [← Bool.not_eq_true]; exact fun h => h2 (hp.mp h)
      simp [h1', h2', h1, h2]

/-! ## The dispatch -/

section
variable {H : Bytes} {r : ReqLine} {q : Incoming}

/-- Such a request is accepted, with the method of its token. -/
theorem parsed (hH : Block H) (hl : LineOf (cstr H) r) (hm : r.minor = ascii "1") (hq : Brings q H) :
    (connParse q.oracle.regcomp q.client).1 = none ∧ q.parsed.request = r.request := by
  obtain ⟨B, hB⟩ := hq.bytes
  obtain ⟨buf, s', hread, hline⟩ := readUntil_line (s := q.client) hH hl
    (by rw [octets_self]; exact hB.symm) hq.cut
  obtain ⟨fs, n, hs⟩ := scan_total (cstr ((octets buf).drop r.text.length))
  unfold Incoming.parsed
  rw [hq.regcomp, connParse_accept hread hline hm hs]
  exact ⟨rfl, rfl⟩

variable {n : Nat} {i : Fin n}

/-- Where the dispatch sends a request, it gets. -/
theorem reaches_dispatch (E : Env) {reqs : Fin n → Incoming} (files : Files) (hc : q.oracle.calloc = true) (hi : reqs i = q) :
    ∃ s, (server E reqs files).Reachable s ∧
      (s.workers i).pc = dispatch (connParse q.oracle.regcomp q.client).1 q.parsed := by
  let s₀ : Sys n := ⟨files, [], fun j => (reqs j).start⟩
  have hrun := parse_runs (E := E) (s₀.free i) files hc
  rw [← hi] at hrun
  obtain ⟨log, ms, hr, -⟩ := server_run reqs files (s := s₀) hrun
  refine ⟨_, ⟨s₀, ms, rfl, hr⟩, ?_⟩
  rw [← hi]
  simp [dispatched]

/-- **Which handler runs** is what the first three bytes of the token say. -/
theorem runs_iff (E : Env) (reqs : Fin n → Incoming) (files : Files) (hH : Block H)
    (hl : LineOf (cstr H) r) (hm : r.minor = ascii "1") (hq : Brings q H) (hi : reqs i = q) :
    (Runs E reqs files i .SH ↔ r.request = .GET) ∧ (Runs E reqs files i .EX ↔ r.request = .PUT) := by
  obtain ⟨hnone, hreq⟩ := parsed hH hl hm hq
  obtain ⟨s, hs, hpc⟩ := reaches_dispatch E files hq.calloc hi
  have key : ∀ op, Runs E reqs files i op → lockMode r.request = op ∧ r.request ≠ .UNSUPPORTED := by
    intro op hh
    obtain ⟨t, ht, htpc⟩ := hh
    obtain ⟨s', hacc, hgp⟩ := serving_accepted (solo_reachable ht i)
      (by rw [show (t.solo i).worker.pc = .lock op from htpc]; rfl)
    rw [hi] at hacc
    have hconn : (t.solo i).worker.conn.request = r.request := by
      rw [← hreq, Incoming.parsed, hacc]
    have hmode := (server_guarded ht i).mode op (by rw [htpc]; rfl)
    rw [show (t.workers i).conn.request = r.request from hconn] at hmode
    rw [hconn] at hgp
    exact ⟨hmode, by rcases hgp with h | h <;> rw [h] <;> decide⟩
  rw [hnone] at hpc
  refine ⟨⟨fun h => ?_, fun h => ?_⟩, fun h => ?_, fun h => ?_⟩
  · obtain ⟨h1, h2⟩ := key .SH h
    cases hr : r.request with
    | GET => rfl
    | PUT => rw [hr] at h1; cases h1
    | UNSUPPORTED => exact absurd hr h2
  · exact ⟨s, hs, by rw [hpc]; simp [dispatch, hreq, h]⟩
  · obtain ⟨h1, h2⟩ := key .EX h
    cases hr : r.request with
    | PUT => rfl
    | GET => rw [hr] at h1; cases h1
    | UNSUPPORTED => rw [hr] at h1; cases h1
  · exact ⟨s, hs, by rw [hpc]; simp [dispatch, hreq, h]⟩

/-- A token that is neither is refused. -/
theorem unsupported (hH : Block H) (hl : LineOf (cstr H) r) (hm : r.minor = ascii "1")
    {E : Env} {reqs : Fin n → Incoming} {files : Files} (hq : Brings q H) (hi : reqs i = q)
    (hr : r.request = .UNSUPPORTED) : Unsupported E reqs files i := by
  obtain ⟨hnone, hreq⟩ := parsed hH hl hm hq
  have hd : dispatch (connParse q.oracle.regcomp q.client).1 q.parsed = exitPlain .NOT_IMPLEMENTED := by
    rw [hnone]; simp [dispatch, hreq, hr]
  subst hi
  intro s hs
  have hsolo := solo_reachable hs i
  have hat : RefusedAt .NOT_IMPLEMENTED (s.workers i) (s.workers i).pc := refused hq.calloc hd hsolo
  have hpl : PlannedAt (reqs i) (s.workers i) (s.workers i).pc := (handler_planned hsolo).2
  refine ⟨?_, ?_, ?_⟩
  · intro s' hst
    obtain ⟨o, ho, hfiles, -, -⟩ := step_inv hst
    rw [hfiles]
    exact (refused_step hq.calloc hd hpl hat ho).2
  · obtain ⟨w, ls, hr, hdone, -⟩ := refused_ends (E := E) (s.free i) s.files hq.calloc hd hpl hat
    obtain ⟨log, ms, hrun, hms⟩ := server_run reqs files hr
    exact ⟨ms, _, hrun, hms, by simpa using hdone⟩
  · intro hdone
    rw [hdone, Pc.done, RefusedAt, List.append_nil] at hat
    have hlines : s.linesOf i = _ := (handler_lines hsolo).1
    rw [show (s.solo i).worker.trace = _ from hat] at hlines
    refine ⟨by rw [hat]; rfl, _, hlines, ?_, rfl⟩
    show requestGetStr (reqs i).parsed.request = _
    rw [hreq, hr]; rfl

end

/-- **Exactly the tokens that are dispatched as they should be.** -/
theorem dispatchesExactly_iff (H : Bytes) (r : ReqLine) (hH : Block H) (hl : LineOf (cstr H) r)
    (hm : r.minor = ascii "1") : DispatchesExactly H r ↔ WholeToken r.method := by
  have h0 : (0 : UInt8) ∉ r.text := fun h => not_mem_cstr H (hl.2.1.subset h)
  obtain ⟨hget, hput⟩ := request_iff h0
  constructor
  · intro h m hm' hpre
    -- the request alone, on a connection where nothing fails
    let q : Incoming := { client := ⟨H, []⟩ }
    have hq : Brings q H := ⟨List.prefix_refl H, List.forall_mem_nil _, rfl, rfl⟩
    obtain ⟨h1, h2, -⟩ := h q hq 1 ⟨[], 0, 0⟩ (fun _ => q) (fun _ => none) 0 rfl
    obtain ⟨r1, r2⟩ := runs_iff ⟨[], 0, 0⟩ (fun _ => q) (fun _ => none) (i := (0 : Fin 1))
      hH hl hm hq rfl
    rcases hm' with rfl | rfl
    · exact h1.mp (r1.mpr (hget.mpr hpre))
    · exact h2.mp (r2.mpr (hput.mpr hpre))
  · intro h q hq n E reqs files i hi
    obtain ⟨r1, r2⟩ := runs_iff E reqs files hH hl hm hq hi
    have eg : r.request = .GET ↔ r.method = ascii "GET" :=
      hget.trans ⟨h _ (.inl rfl), fun he => he ▸ List.prefix_refl _⟩
    have ep : r.request = .PUT ↔ r.method = ascii "PUT" :=
      hput.trans ⟨h _ (.inr rfl), fun he => he ▸ List.prefix_refl _⟩
    refine ⟨r1.trans eg, r2.trans ep, ?_, ?_⟩
    · intro hg hp
      have hr : r.request = .UNSUPPORTED := by
        cases hr : r.request with
        | GET => exact absurd (eg.mp hr) hg
        | PUT => exact absurd (ep.mp hr) hp
        | UNSUPPORTED => rfl
      exact unsupported hH hl hm hq hi hr
    · intro head hhead
      have ht : r.text <+: head := (hl.2.1.trans (cstr_initial H)).trans hhead
      obtain ⟨bg, bp⟩ := branch_eq r.method
      exact ⟨_, parseRequestLine_line hl.1 ht, by rw [r1, eg, bg], by rw [r2, ep, bp]⟩

/-- `DELETE /a`, as a block. -/
def deleteA : Bytes := ascii "DELETE /a HTTP/1.1\r\n\r\n"
def deleteLine : ReqLine := ⟨ascii "DELETE", ascii "a", ascii "1", 46, ascii "1"⟩

theorem dispatchesExactly_deleteA : Block deleteA ∧ LineOf (cstr deleteA) deleteLine ∧
    DispatchesExactly deleteA deleteLine := by
  have hH : Block deleteA := by decide
  have hl : LineOf (cstr deleteA) deleteLine := ⟨by decide, by decide, by decide⟩
  refine ⟨hH, hl, (dispatchesExactly_iff deleteA deleteLine hH hl rfl).mpr ?_⟩
  rintro m (rfl | rfl) h <;> revert h <;> decide

/-- `PUTS /a`, as a block. -/
def putsA : Bytes := ascii "PUTS /a HTTP/1.1\r\n\r\n"
def putsLine : ReqLine := ⟨ascii "PUTS", ascii "a", ascii "1", 46, ascii "1"⟩

/-- **Counterexample**: `PUTS /a` runs `handle_put`. -/
theorem puts_runs_put : ¬ ∀ H r, Block H → LineOf (cstr H) r → r.minor = ascii "1" →
    DispatchesExactly H r := by
  intro h
  have hl : LineOf (cstr putsA) putsLine := ⟨by decide, by decide, by decide⟩
  let q : Incoming := { client := ⟨putsA, []⟩ }
  have hq : Brings q putsA := ⟨List.prefix_refl _, List.forall_mem_nil _, rfl, rfl⟩
  have hput := (h putsA putsLine (by decide) hl rfl q hq 1 ⟨[], 0, 0⟩ (fun _ => q)
    (fun _ => none) 0 rfl).2.1
  have := hput.mp ((runs_iff _ _ _ (by decide) hl rfl hq rfl).2.mpr (by decide))
  revert this; decide

end HttpC.Bugs.MethodPrefix
