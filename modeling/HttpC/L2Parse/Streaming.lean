import HttpC.L2Parse.Body

/-!
# Streaming, result by result

A script may hold more results than a transfer gets to see. Here the results
it did see are named: `rs` for the reads, `ws` for the writes. No error among
them, and the transfer is whole: the first bytes it had in hand, then the next
bytes of the stream, as many as it was asked for unless the stream ended
first (`Streams.whole`). An error among them, and it stops with a 500 and a
part of that (`Streams.broken`). `streaming_exact` says so of `conn_recv_file`
and `conn_send_file`, for every script.
-/
namespace HttpC.L2
open HttpC.L1.Util

variable {α : Type}

/-! ## The results seen -/

/-- A `read()` that returned `-1` for good. -/
def ReadEv.isError : ReadEv → Bool
  | .err .EINTR => false
  | .err _ => true
  | _ => false

/-- No call failed. -/
def Clean (rs : List ReadEv) (ws : List WriteEv) : Prop :=
  (∀ e ∈ rs, ReadEv.isError e = false) ∧ Writes ws

theorem Clean.append {rs rs' : List ReadEv} {ws ws' : List WriteEv} (h : Clean rs ws)
    (h' : Clean rs' ws') : Clean (rs ++ rs') (ws ++ ws') :=
  ⟨List.forall_mem_append.mpr ⟨h.1, h'.1⟩, List.forall_mem_append.mpr ⟨h.2, h'.2⟩⟩

theorem Clean.of_append_right {rs rs' : List ReadEv} {ws ws' : List WriteEv}
    (h : Clean (rs ++ rs') (ws ++ ws')) : Clean rs' ws' :=
  ⟨(List.forall_mem_append.mp h.1).2, (List.forall_mem_append.mp h.2).2⟩

/-- A reported end of file was the last result: nothing was read behind it. -/
def EofLast (rs : List ReadEv) : Prop := ReadEv.eof ∉ rs.dropLast

theorem EofLast.nil : EofLast [] := by simp [EofLast]

theorem EofLast.append {rs rs' : List ReadEv} (h : ReadEv.eof ∉ rs) (h' : EofLast rs') :
    EofLast (rs ++ rs') := by
  intro hm
  rcases List.eq_nil_or_concat rs' with rfl | ⟨as, a, rfl⟩
  · rw [List.append_nil] at hm
    exact h (List.dropLast_subset rs hm)
  · rw [EofLast, List.concat_eq_append, List.dropLast_concat] at h'
    rw [List.concat_eq_append, ← List.append_assoc, List.dropLast_concat] at hm
    exact (List.mem_append.mp hm).elim h h'

/-- Between `s`, `d` and `s'`, `d'` the results `rs` and `ws` were seen. -/
structure Saw (s : Src α) (d : Dst α) (s' : Src α) (d' : Dst α) (rs : List ReadEv)
    (ws : List WriteEv) : Prop where
  reads : s.script = rs ++ s'.script
  writes : d.script = ws ++ d'.script

theorem Saw.trans {s s₁ s₂ : Src α} {d d₁ d₂ : Dst α} {rs rs' : List ReadEv}
    {ws ws' : List WriteEv} (h : Saw s d s₁ d₁ rs ws) (h' : Saw s₁ d₁ s₂ d₂ rs' ws') :
    Saw s d s₂ d₂ (rs ++ rs') (ws ++ ws') :=
  ⟨by rw [h.reads, h'.reads, List.append_assoc], by rw [h.writes, h'.writes, List.append_assoc]⟩

theorem Saw.nothing (s : Src α) (d : Dst α) : Saw s d s d [] [] := ⟨rfl, rfl⟩

/-- A read with its retries: what it saw, and what that says. -/
theorem retryRead_saw (want : Nat) (pending : List α) (es : List ReadEv) :
    ∃ rs, es = rs ++ (retryRead want pending es).2.script ∧ EofLast rs ∧
      match (retryRead want pending es).1 with
      | .fail _ => ∃ e ∈ rs, ReadEv.isError e = true
      | .data bs => (∀ e ∈ rs, ReadEv.isError e = false) ∧ (bs ≠ [] → .eof ∉ rs) ∧
          (bs = [] → 0 < want → pending = [] ∨ .eof ∈ rs) := by
  have hone : ∀ e : ReadEv, EofLast [e] := fun e => by simp [EofLast]
  induction es with
  | nil =>
    refine ⟨[], rfl, .nil, by simp, fun _ => by simp, fun hb hw => .inl ?_⟩
    rcases List.take_eq_nil_iff.mp hb with h | h
    · omega
    · exact h
  | cons x es ih =>
    rcases x with n | _ | x
    · refine ⟨[.got n], rfl, hone _, by simp [ReadEv.isError], fun _ => by simp,
        fun hb hw => .inl ?_⟩
      rcases List.take_eq_nil_iff.mp hb with h | h
      · omega
      · exact h
    · exact ⟨[.eof], rfl, hone _, by simp [ReadEv.isError], fun hb => absurd rfl hb,
        fun _ _ => .inr (by simp)⟩
    · cases x
      case EINTR =>
        obtain ⟨rs, h1, h2, h3⟩ := ih
        have hstep : retryRead want pending (.err .EINTR :: es) = retryRead want pending es := rfl
        rw [hstep]
        have hlast : EofLast ([.err .EINTR] ++ rs) := .append (by simp) h2
        refine ⟨.err .EINTR :: rs, by rw [List.cons_append, ← h1], hlast, ?_⟩
        split
        · rename_i e he
          rw [he] at h3
          obtain ⟨e, hm, he⟩ := h3
          exact ⟨e, List.mem_cons_of_mem _ hm, he⟩
        · rename_i bs hb
          rw [hb] at h3
          refine ⟨List.forall_mem_cons.mpr ⟨rfl, h3.1⟩, fun h hm => ?_, fun h hw => ?_⟩
          · rcases List.mem_cons.mp hm with hm | hm
            · cases hm
            · exact h3.2.1 h hm
          · exact (h3.2.2 h hw).imp id (List.mem_cons_of_mem _)
      all_goals exact ⟨[_], rfl, hone _, _, List.mem_singleton_self _, rfl⟩

/-- `write_all` succeeds exactly when no `write()` it made failed. -/
theorem writeAllLoop_saw (es : List WriteEv) (bs out : List α) :
    ∃ ws, es = ws ++ (writeAllLoop es bs out).2.script ∧
      ((writeAllLoop es bs out).1 = .ok () ↔ Writes ws) := by
  have hnone : Writes [] := by simp [Writes]
  induction es generalizing bs out with
  | nil => cases bs <;> exact ⟨[], rfl, fun _ => hnone, fun _ => rfl⟩
  | cons e es ih =>
    cases bs with
    | nil => exact ⟨[], rfl, fun _ => hnone, fun _ => rfl⟩
    | cons b bs =>
      cases e with
      | put n =>
        obtain ⟨ws, h1, h2⟩ := ih ((b :: bs).drop n) (out ++ (b :: bs).take n)
        refine ⟨.put n :: ws, by rw [List.cons_append]; exact congrArg _ h1, h2.trans ?_⟩
        simp [Writes, WriteEv.isOk]
      | err e =>
        by_cases he : e = .EINTR
        · subst he
          obtain ⟨ws, h1, h2⟩ := ih (b :: bs) out
          refine ⟨.err .EINTR :: ws, by rw [List.cons_append]; exact congrArg _ h1, h2.trans ?_⟩
          simp [Writes, WriteEv.isOk]
        · have hw : writeAllLoop (.err e :: es) (b :: bs) out = (.error e, ⟨out, es⟩) := by
            simp [writeAllLoop, he]
          rw [hw]
          refine ⟨[.err e], rfl, by simp, fun h => ?_⟩
          have := h _ (List.mem_singleton_self _)
          cases e <;> simp_all [WriteEv.isOk]

theorem writeAll_saw (d : Dst α) (bs : List α) :
    ∃ ws, d.script = ws ++ (writeAll d bs).2.script ∧ ((writeAll d bs).1 = .ok () ↔ Writes ws) :=
  writeAllLoop_saw d.script bs d.written

/-! ## `pass_bytes` -/

theorem passRound_saw (n : Nat) (s : Src α) (d : Dst α) (total : Nat) :
    ∃ rs ws, Saw s d (passRound n s d total).2.1 (passRound n s d total).2.2 rs ws ∧
      EofLast rs ∧
      match (passRound n s d total).1 with
      | .again _ => Clean rs ws ∧ .eof ∉ rs
      | .stop (.ok _) => Clean rs ws ∧
          (n ≤ total ∨ (passRound n s d total).2.1.pending = [] ∨ .eof ∈ rs)
      | .stop (.error _) => ¬ Clean rs ws := by
  unfold passRound
  split
  · rename_i hlt
    generalize hw : (if n - total > BUFFER_SIZE then BUFFER_SIZE else n - total) = want
    have hpos : 0 < want := by subst hw; unfold BUFFER_SIZE; split <;> omega
    obtain ⟨rs, hrs, heof, hread⟩ := retryRead_saw want s.pending s.script
    simp only
    split
    · rename_i e s₁ hr
      rw [hr] at hrs hread
      obtain ⟨x, hm, hx⟩ := hread
      exact ⟨rs, [], ⟨hrs, rfl⟩, heof, fun h => by rw [h.1 x hm] at hx; cases hx⟩
    · rename_i s₁ hr
      rw [hr] at hrs hread
      have hp := (retryRead_data hr).1
      refine ⟨rs, [], ⟨hrs, rfl⟩, heof, ⟨hread.1, by simp [Writes]⟩, .inr ?_⟩
      refine (hread.2.2 rfl hpos).imp (fun h => ?_) id
      rw [h] at hp
      exact hp.symm
    · rename_i b bs s₁ hr
      rw [hr] at hrs hread
      obtain ⟨ws, hws, hok⟩ := writeAll_saw d (b :: bs)
      split
      · rename_i e d₁ hwr
        rw [hwr] at hws hok
        refine ⟨rs, ws, ⟨hrs, hws⟩, heof, fun h => ?_⟩
        have := hok.mpr h.2
        cases this
      · rename_i d₁ hwr
        rw [hwr] at hws hok
        exact ⟨rs, ws, ⟨hrs, hws⟩, heof, ⟨hread.1, hok.mp rfl⟩, hread.2.1 (List.cons_ne_nil b bs)⟩
  · exact ⟨[], [], .nothing s d, .nil, ⟨by simp, by simp [Writes]⟩, .inl (by omega)⟩

theorem passBytesLoop_saw (n fuel : Nat) (s : Src α) (d : Dst α) (total : Nat)
    (hf : s.pending.length < fuel) :
    ∃ rs ws, Saw s d (passBytesLoop n fuel s d total).2.1 (passBytesLoop n fuel s d total).2.2
        rs ws ∧ EofLast rs ∧
      (∀ k, (passBytesLoop n fuel s d total).1 = .ok k → Clean rs ws ∧
        (n ≤ k ∨ (passBytesLoop n fuel s d total).2.1.pending = [] ∨ .eof ∈ rs)) ∧
      (∀ e, (passBytesLoop n fuel s d total).1 = .error e → ¬ Clean rs ws) := by
  induction fuel generalizing s d total with
  | zero => omega
  | succ fuel ih =>
    obtain ⟨rs, ws, hsaw, heof, hres⟩ := passRound_saw n s d total
    obtain ⟨c, q, -, hspec⟩ := passRound_spec n s d total
    simp only [passBytesLoop]
    cases hr : passRound n s d total with
    | mk o sd =>
      obtain ⟨s₁, d₁⟩ := sd
      rw [hr] at hsaw hres hspec
      cases o with
      | stop res =>
        cases res with
        | error e => exact ⟨rs, ws, hsaw, heof, by simp, fun _ _ => hres⟩
        | ok k =>
          obtain ⟨rfl, -⟩ := hspec
          refine ⟨rs, ws, hsaw, heof, fun m hm => ?_, by simp⟩
          cases hm
          exact hres
      | again t =>
        have hlt := passRound_lt hr
        obtain ⟨rs', ws', hsaw', heof', hok, herr⟩ := ih s₁ d₁ t (by omega)
        refine ⟨rs ++ rs', ws ++ ws', hsaw.trans hsaw', heof'.append hres.2, fun k hk => ?_,
          fun e he hc => ?_⟩
        · obtain ⟨hclean, hend⟩ := hok k hk
          refine ⟨Clean.append hres.1 hclean, hend.imp id (Or.imp id fun h => ?_)⟩
          exact List.mem_append_right _ h
        · exact herr e he hc.of_append_right

/-- `pass_bytes` succeeds exactly when none of its calls failed, and then moves
`n` bytes or all there are. -/
theorem passBytes_saw (s : Src α) (d : Dst α) (n : Nat) :
    ∃ rs ws, Saw s d (passBytes s d n).2.1 (passBytes s d n).2.2 rs ws ∧ EofLast rs ∧
      (∀ k, (passBytes s d n).1 = .ok k → Clean rs ws ∧
        (n ≤ k ∨ (passBytes s d n).2.1.pending = [] ∨ .eof ∈ rs)) ∧
      (∀ e, (passBytes s d n).1 = .error e → ¬ Clean rs ws) :=
  passBytesLoop_saw n (s.pending.length + 1) s d 0 (Nat.lt_succ_self _)

/-! ## The two transfers -/

/-- The next bytes `t` of the stream were taken, and none beyond: `n` of them,
unless it ended first. It has ended when nothing is left, or when the last
`read()` said so; then `t` is all there was. -/
structure Took (s s' : Src α) (rs : List ReadEv) (n : Nat) (t : List α) : Prop where
  taken : s.pending = t ++ s'.pending
  le : t.length ≤ n
  all : t.length = n ∨ s'.pending = [] ∨ .eof ∈ rs
  last : EofLast rs

/-- What becomes of a transfer of `pre` and of up to `n` bytes of `s`. -/
inductive Streams (pre : List α) (n : Nat) (s : Src α) (d : Dst α) :
    Option Response × Src α × Dst α → Prop where
  | whole {s' : Src α} {d' : Dst α} {rs : List ReadEv} {ws : List WriteEv} {t : List α} :
      Saw s d s' d' rs ws → Clean rs ws → Took s s' rs n t →
      d'.written = d.written ++ (pre ++ t) → Streams pre n s d (none, s', d')
  | broken {s' : Src α} {d' : Dst α} {rs : List ReadEv} {ws : List WriteEv} {t p : List α} :
      Saw s d s' d' rs ws → ¬ Clean rs ws → s.pending = t ++ s'.pending → t.length ≤ n →
      p <+: pre ++ t → d'.written = d.written ++ p →
      Streams pre n s d (some .INTERNAL_SERVER_ERROR, s', d')

/-- On a stream that reports its end only where it ends, the bytes taken are
the first `n` it has. -/
theorem Took.eq_take {s s' : Src α} {rs : List ReadEv} {n : Nat} {t : List α}
    (h : Took s s' rs n t) (he : .eof ∉ rs) : t = s.pending.take n := by
  rw [h.taken]
  rcases h.all with hn | hn | hn
  · rw [← hn, List.take_left]
  · rw [hn, List.append_nil, List.take_of_length_le h.le]
  · exact absurd hn he

/-- What the two have in common: `write_all` of what is in hand, then
`pass_bytes`. -/
def writePass (pre : List α) (n : Nat) (s : Src α) (d : Dst α) :
    Option Response × Src α × Dst α :=
  match writeAll d pre with
  | (.error _, d') => (some .INTERNAL_SERVER_ERROR, s, d')
  | (.ok (), d') =>
    if 0 < n then
      match passBytes s d' n with
      | (.error _, s', d'') => (some .INTERNAL_SERVER_ERROR, s', d'')
      | (.ok _, s', d'') => (none, s', d'')
    else (none, s, d')

theorem connSendFile_eq (fd : Src UInt8) (sock : Dst UInt8) (count : Nat) :
    connSendFile fd sock count = writePass (fileHeader count) count fd sock := by
  unfold connSendFile writePass
  rcases writeAll sock (fileHeader count) with ⟨_ | _, d'⟩
  · rfl
  · simp only
    split
    · rcases passBytes fd d' count with ⟨_ | _, s', d''⟩ <;> rfl
    · rfl

theorem streams_writePass (pre : List α) (n : Nat) (s : Src α) (d : Dst α) :
    Streams pre n s d (writePass pre n s d) := by
  unfold writePass
  obtain ⟨ws, hws, hok⟩ := writeAll_saw d pre
  obtain ⟨p, p1, p2, -, p4, -⟩ := writeAll_spec d pre
  split
  · rename_i e d' hw
    rw [hw] at hws hok p2
    have hsaw : Saw s d s d' [] ws := ⟨rfl, hws⟩
    refine .broken hsaw (fun h => ?_) (List.nil_append _).symm (Nat.zero_le _)
      (p1.trans (List.prefix_append _ _)) p2
    have := hok.mpr h.2
    cases this
  · rename_i d' hw
    rw [hw] at hws hok p2 p4
    obtain rfl := p4 rfl
    have hclean : Clean [] ws := ⟨by simp, hok.mp rfl⟩
    have hsaw : Saw s d s d' [] ws := ⟨rfl, hws⟩
    split
    · obtain ⟨c, q, hP, hlen, -⟩ := passBytes_spec s d' n
      obtain ⟨rs, ws', hsaw', heof, hgood, hbad⟩ := passBytes_saw s d' n
      split
      · rename_i e s' d'' hpb
        rw [hpb] at hP hsaw' hbad
        refine .broken (hsaw.trans hsaw') (fun h => hbad e rfl h.of_append_right) hP.taken hP.le
          ((List.prefix_append_right_inj p).mpr hP.pre) ?_
        rw [hP.put, p2, List.append_assoc]
      · rename_i k s' d'' hpb
        rw [hpb] at hP hsaw' hgood hlen
        obtain ⟨rfl, rfl⟩ := hlen k rfl
        obtain ⟨hclean', hend⟩ := hgood _ rfl
        have hle := hP.le
        refine .whole (hsaw.trans hsaw') (hclean.append hclean')
          ⟨hP.taken, hle, hend.imp (fun h => by omega) id, heof⟩ ?_
        rw [hP.put, p2, List.append_assoc]
    · exact .whole hsaw hclean
        ⟨(List.nil_append _).symm, Nat.zero_le _, .inl (by simp; omega), .nil⟩
        (by rw [p2, List.append_nil])

/-- **Streaming is exact.** -/
theorem streaming_exact :
    (∀ (c : Conn α) (s : Src α) (fd : Dst α),
      Streams (leftover c) (remaining c) s fd (connRecvFile c s fd)) ∧
    (∀ (fd : Src UInt8) (sock : Dst UInt8) (count : Nat),
      Streams (fileHeader count) count fd sock (connSendFile fd sock count)) := by
  refine ⟨fun c s fd => ?_, fun fd sock count => ?_⟩
  · rw [connRecvFile_eq]
    exact streams_writePass (leftover c) (remaining c) s fd
  · rw [connSendFile_eq]
    exact streams_writePass (fileHeader count) count fd sock

/-! ## Without failures -/

/-- A file sent with its size goes out whole. -/
theorem connSendFile_whole {rs : List ReadEv} {ws : List WriteEv} (content : Bytes) (hr : Cut rs)
    (hw : Writes ws) :
    (connSendFile ⟨content, rs⟩ ⟨[], ws⟩ content.length).1 = none ∧
      (connSendFile ⟨content, rs⟩ ⟨[], ws⟩ content.length).2.2.written =
        fileHeader content.length ++ content := by
  rw [connSendFile_eq]
  have hs := streams_writePass (fileHeader content.length) content.length
    (⟨content, rs⟩ : Src UInt8) (⟨[], ws⟩ : Dst UInt8)
  generalize writePass (fileHeader content.length) content.length (⟨content, rs⟩ : Src UInt8)
    (⟨[], ws⟩ : Dst UInt8) = r at hs
  cases hs with
  | @whole s' d' rs' ws' t hsaw hclean ht hput =>
    have hrs : rs' <+: rs := ⟨_, hsaw.reads.symm⟩
    have heof : ReadEv.eof ∉ rs' := fun hm => hr.no_eof (hrs.subset hm)
    refine ⟨rfl, ?_⟩
    rw [hput, ht.eq_take heof, List.take_length]
    rfl
  | @broken s' d' rs' ws' t p hsaw hbad =>
    refine absurd ⟨fun e he => ?_, fun e he => ?_⟩ hbad
    · have hmem : e ∈ rs := by
        have := hsaw.reads
        simp only at this
        rw [this]; exact List.mem_append_left _ he
      have := hr e hmem
      rcases e with n | _ | e
      · rfl
      · cases this
      · cases e <;> first | rfl | cases this
    · have := hsaw.writes
      simp only at this
      exact hw e (by rw [this]; exact List.mem_append_left _ he)

/-- A response goes out whole. -/
theorem connSendResponse_whole {ws : List WriteEv} (res : Response) (hw : Writes ws) :
    (connSendResponse ⟨[], ws⟩ res).2.written = responseText res := by
  obtain ⟨d', hd, hput, -⟩ := writeAll_writes (d := ⟨[], ws⟩) (responseText res) hw
  rw [connSendResponse, hd]
  exact hput

end HttpC.L2
