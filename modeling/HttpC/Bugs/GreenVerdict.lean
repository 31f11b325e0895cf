import HttpC.L6Harness.Check

/-!
# A green verdict says nothing of requests without a line

`checkOrdering` and `checkReplay` go through the lines of the log and look
each request up; nothing goes through the requests. `watson.py`, which the
harness says it stands in for, compares a response for every request of the
workload (`validate_responses`), so there a missing line shows. Here an empty
log passes, whatever the driver saw (`green_nil`).

The lines that are there are compared in `Oper` and request id only: `uri` and
`status` reach neither check (`green_fields`), though the driver records the
statuses it saw.

The verdict means what it should exactly when nothing was asked of the server,
or some LOAD makes it red whatever the log (`verdictSound_iff`).

Fix: after the lines, go through the completed requests and ask for one line
each, with the CREATE's URI and the status in `driver.statuses`.
-/
namespace HttpC.Bugs.GreenVerdict
open HttpC.L6

/-- A GET or PUT the driver waited for and has a response of. -/
structure Completed (evs : List Event) (responses : Int64 → Option Bytes) (c : CreateEvent) :
    Prop where
  created : .create c ∈ evs
  method : c.method = ascii "GET" ∨ c.method = ascii "PUT"
  waited : .wait c.id ∈ evs
  response : (responses c.id).isSome = true

/-- Every completed request has one line, with its URI and the status seen. -/
def Vouched (evs : List Event) (statuses : Int64 → Option UInt16)
    (responses : Int64 → Option Bytes) (text : Bytes) : Prop :=
  ∀ c, Completed evs responses c → ∃ op,
    (filterDrivenOps (parseAuditLog text).1).filter (fun op => op.rid = c.id) = [op] ∧
      op.uri = c.uri ∧ statuses c.id = some op.status

section
variable {σ : Type} (D : Dir σ) (repoRoot : Bytes → Nat → Except ReadError Bytes)
  (excerpt : Bytes → Bytes) (evs : List Event) (responses : Int64 → Option Bytes)

/-- Whatever the log, green means every completed request is vouched for. -/
def VerdictSound (statuses : Int64 → Option UInt16) (fresh : σ) : Prop :=
  ∀ text, Green D repoRoot excerpt evs responses fresh text → Vouched evs statuses responses text

/-- The same `Oper` and request id on every line. -/
def SameIds (ops ops' : List Op) : Prop :=
  List.Forall₂ (fun op op' => op.oper = op'.oper ∧ op.rid = op'.rid) ops ops'

variable {ops ops' : List Op}

theorem orderLines_fields (h : SameIds ops ops') (o : Order) (i : Nat) (logged : List Int64)
    (r : Result) : orderLines o i ops logged r = orderLines o i ops' logged r := by
  induction h generalizing i logged r with
  | nil => rfl
  | @cons op op' ops ops' hop _ ih =>
    have : orderLine o i op logged r = orderLine o i op' logged r := by
      simp only [orderLine, hop.2]
    rw [orderLines, orderLines, this, ih]

theorem replayLines_fields (h : SameIds ops ops') (i : Nat) (d : σ) (r : Result) :
    replayLines D repoRoot excerpt evs responses i ops d r =
      replayLines D repoRoot excerpt evs responses i ops' d r := by
  induction h generalizing i d r with
  | nil => rfl
  | @cons op op' ops ops' hop _ ih =>
    have : replayLine D repoRoot excerpt evs responses i op d r =
        replayLine D repoRoot excerpt evs responses i op' d r := by
      simp only [replayLine, compareBody, hop.1, hop.2]
    rw [replayLines, replayLines, this]
    simp only [ih]

/-- **`uri` and `status` are never looked at.** -/
theorem green_fields (h : SameIds ops ops') (fresh : σ) :
    checkOrdering evs ops = checkOrdering evs ops' ∧
      checkReplay D repoRoot excerpt evs responses fresh ops =
        checkReplay D repoRoot excerpt evs responses fresh ops' := by
  refine ⟨orderLines_fields h _ _ _ _, ?_⟩
  simp only [checkReplay, replayLines_fields D repoRoot excerpt evs responses h]

/-- **An empty log is green** as soon as the LOADs can be replayed. -/
theorem green_nil {fresh d : σ} (h : Loads D repoRoot fresh evs d) :
    Green D repoRoot excerpt evs responses fresh [] := by
  refine ⟨rfl, rfl, {}, ?_, rfl⟩
  rw [checkReplay, seed_loads {} h]
  rfl

/-- No verdict is green when they cannot. -/
theorem Green.loads {fresh : σ} {text : Bytes}
    (h : Green D repoRoot excerpt evs responses fresh text) :
    ∃ d, Loads D repoRoot fresh evs d := by
  obtain ⟨-, -, r, hr, hok⟩ := h
  obtain ⟨d, hd, -⟩ := checkReplay_ok hr hok
  exact ⟨d, hd⟩

/-- **When a green verdict is sound.** -/
theorem verdictSound_iff (statuses : Int64 → Option UInt16) (fresh : σ) :
    VerdictSound D repoRoot excerpt evs responses statuses fresh ↔
      (∀ c, ¬ Completed evs responses c) ∨ ¬ ∃ d, Loads D repoRoot fresh evs d := by
  constructor
  · intro h
    by_cases hl : ∃ d, Loads D repoRoot fresh evs d
    · obtain ⟨d, hd⟩ := hl
      refine .inl fun c hc => ?_
      -- the empty log has no line for `c`
      obtain ⟨op, hop, -⟩ := h [] (green_nil D repoRoot excerpt evs responses hd) c hc
      cases hop
    · exact .inr hl
  · rintro (hnone | hl) text hgreen
    · exact fun c hc => absurd hc (hnone c)
    · exact absurd (Green.loads D repoRoot excerpt evs responses hgreen) hl

end

/-- A directory of plain files. -/
def flat : Dir (Bytes → Option Bytes) where
  readFileAlloc d path _ := match d path with
    | some bytes => .ok bytes
    | none => .error .fileNotFound
  writeFile d path bytes := some (Function.update d path (some bytes))
  access d path := (d path).isSome

/-- The ids of the CREATEs. -/
def createdIds (evs : List Event) : List Int64 :=
  evs.filterMap fun
    | .create c => some c.id
    | _ => none

/-- One GET, waited for. -/
def getA : List Event := [.create ⟨1, ascii "GET", ascii "a", none⟩, .sendAll 1, .wait 1]

/-- The server answered 404 and logged nothing, or a line of another file with
another status: green. -/
theorem getA_green_unvouched :
    (createdIds getA).Nodup ∧ (∀ text ∈ [[], ascii "GET,b,500,1\n"],
      Green flat (fun _ _ => .error .fileNotFound) id getA
        (fun id => if id = 1 then some (ascii "Not Found\n") else none) (fun _ => none) text ∧
      ¬ Vouched getA (fun id => if id = 1 then some 404 else none)
        (fun id => if id = 1 then some (ascii "Not Found\n") else none) text) := by
  have hc : Completed getA (fun id => if id = 1 then some (ascii "Not Found\n") else none)
      ⟨1, ascii "GET", ascii "a", none⟩ := ⟨by decide, by decide, by decide, by decide⟩
  refine ⟨by decide, fun text ht => ?_⟩
  simp only [List.mem_cons, List.not_mem_nil, or_false] at ht
  rcases ht with rfl | rfl
  · refine ⟨⟨by decide, by decide, _, rfl, by decide⟩, fun h => ?_⟩
    obtain ⟨op, hop, -⟩ := h _ hc
    cases hop
  · have hops : filterDrivenOps (parseAuditLog (ascii "GET,b,500,1\n")).1 =
        [⟨ascii "GET", ascii "b", 500, 1⟩] := by decide
    refine ⟨⟨by decide, ?_, ?_⟩, fun h => ?_⟩
    · rw [hops]; decide
    · rw [hops]; exact ⟨_, rfl, by decide⟩
    · obtain ⟨op, hop, huri, -⟩ := h _ hc
      rw [hops] at hop
      obtain ⟨rfl, -⟩ := List.cons_eq_cons.mp hop.symm
      exact absurd huri (by decide)

end HttpC.Bugs.GreenVerdict
