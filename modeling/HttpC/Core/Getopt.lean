import Mathlib.Algebra.GroupWithZero.Nat
import HttpC.Core.Bytes

/-!
# `getopt`

The command line of a C program, element by element and character by
character. `Scan` is what `getopt` keeps between two calls: the operands it has
gone past, the elements from `optind` on, and `nextchar`, what is left of the
element it is in. With `permute` operands may stand between options (GNU);
without, the first operand ends the options (POSIX).

`loop` is the usual `while ((opt = getopt(argc, argv, ..)) != -1)` with its body
as a fold. `Line` is a command line as somebody would compose it: words, each
an operand, a cluster of flags, or a cluster that ends with an option and its
argument, and what stands behind the options. `loop_iff`: the loop reads back
exactly what was composed, and stops for everything else.
-/
namespace HttpC.Getopt

/-- The option characters, with whether they take an argument. -/
abbrev Chars := UInt8 → Option Bool

/-- `optstring`: a colon behind a character that takes an argument. -/
def optstring : Bytes → Chars
  | [], _ => none
  | c :: 58 :: s, d => if d = c then some true else optstring s d
  | c :: s, d => if d = c then some false else optstring s d

structure Scan where
  operands : List Bytes
  rest : List Bytes
  nextchar : Bytes
  deriving DecidableEq, Repr

def DASHES : Bytes := [45, 45]

/-- Starts with `-` and is not `-` alone. -/
def isOption : Bytes → Bool
  | 45 :: _ :: _ => true
  | _ => false

/-- The next element with options in it. -/
def nextWord (permute : Bool) (operands : List Bytes) : List Bytes → Scan
  | [] => ⟨operands, [], []⟩
  | w :: rest =>
    if w = DASHES then ⟨operands, rest, []⟩
    else if isOption w then ⟨operands, rest, w.drop 1⟩
    else if permute then nextWord permute (operands ++ [w]) rest
    else ⟨operands, w :: rest, []⟩

/-- `none` is -1; an unknown character and a missing argument are `?`. -/
def getopt (chars : Chars) (permute : Bool) (s : Scan) : Option (UInt8 × Option Bytes) × Scan :=
  let s := if s.nextchar = [] then nextWord permute s.operands s.rest else s
  match s.nextchar with
  | [] => (none, s)
  | c :: cs =>
    match chars c with
    | none => (some (63, none), { s with nextchar := cs })
    | some false => (some (c, none), { s with nextchar := cs })
    | some true =>
      if cs ≠ [] then (some (c, some cs), { s with nextchar := [] })
      else
        match s.rest with
        | [] => (some (63, none), { s with nextchar := [] })
        | v :: rest => (some (c, some v), { s with rest, nextchar := [] })

section
variable {σ : Type} (chars : Chars) (permute : Bool) (f : σ → UInt8 × Option Bytes → Option σ)

/-- Returns the elements from `optind` on, when `getopt` has permuted them. -/
def loop : Nat → Scan → σ → Option (σ × List Bytes)
  | 0, _, _ => none
  | fuel + 1, s, a =>
    match getopt chars permute s with
    | (none, s') => some (a, s'.operands ++ s'.rest)
    | (some o, s') => (f a o).bind (loop fuel s')

/-- More calls than there are characters. -/
def budget (args : List Bytes) : Nat := (args.map fun w => w.length + 1).sum + 1

def run (args : List Bytes) (a : σ) : Option (σ × List Bytes) :=
  loop chars permute f (budget args) ⟨[], args, []⟩ a

end

/-! ## Composed command lines -/

inductive Word where
  | operand (w : Bytes)
  | flags (cs : Bytes)
  | attached (cs : Bytes) (c : UInt8) (v : Bytes)
  | separate (cs : Bytes) (c : UInt8) (v : Bytes)
  deriving DecidableEq, Repr

namespace Word

def text : Word → List Bytes
  | operand w => [w]
  | flags cs => [45 :: cs]
  | attached cs c v => [45 :: (cs ++ c :: v)]
  | separate cs c v => [45 :: (cs ++ [c]), v]

def options : Word → List (UInt8 × Option Bytes)
  | operand _ => []
  | flags cs => cs.map (·, none)
  | attached cs c v | separate cs c v => cs.map (·, none) ++ [(c, some v)]

def operands : Word → List Bytes
  | operand w => [w]
  | _ => []

def Ok (chars : Chars) (permute : Bool) : Word → Prop
  | operand w => permute = true ∧ isOption w = false
  | flags cs => cs ≠ [] ∧ ∀ c ∈ cs, chars c = some false
  | attached cs c v => (∀ c ∈ cs, chars c = some false) ∧ chars c = some true ∧ v ≠ []
  | separate cs c _ => (∀ c ∈ cs, chars c = some false) ∧ chars c = some true

/-- One more flag in front. -/
def push (c : UInt8) : Word → Word
  | operand w => operand w
  | flags cs => flags (c :: cs)
  | attached cs d v => attached (c :: cs) d v
  | separate cs d v => separate (c :: cs) d v

end Word

/-- What follows the options: nothing, the operands behind `--`, or (without
permutation) the first operand and all behind it. -/
inductive Tail where
  | nothing
  | dashes (ws : List Bytes)
  | stop (w : Bytes) (ws : List Bytes)
  deriving DecidableEq, Repr

namespace Tail

def text : Tail → List Bytes
  | nothing => []
  | dashes ws => DASHES :: ws
  | stop w ws => w :: ws

def operands : Tail → List Bytes
  | nothing => []
  | dashes ws => ws
  | stop w ws => w :: ws

def Ok (permute : Bool) : Tail → Prop
  | stop w _ => permute = false ∧ isOption w = false
  | _ => True

end Tail

structure Line where
  words : List Word
  tail : Tail
  deriving DecidableEq, Repr

namespace Line

def text (l : Line) : List Bytes := l.words.flatMap Word.text ++ l.tail.text
def options (l : Line) : List (UInt8 × Option Bytes) := l.words.flatMap Word.options
def operands (l : Line) : List Bytes := l.words.flatMap Word.operands ++ l.tail.operands

structure Ok (chars : Chars) (permute : Bool) (l : Line) : Prop where
  words : ∀ w ∈ l.words, w.Ok chars permute
  tail : l.tail.Ok permute

end Line

/-! ## One call -/

section
variable {σ : Type} {chars : Chars} {permute : Bool} {f : σ → UInt8 × Option Bytes → Option σ}
  {ops rest : List Bytes} {w v cs : Bytes} {c : UInt8} {a b : σ} {k : Nat}

theorem isOption_iff : isOption w = true ↔ ∃ c cs, w = 45 :: c :: cs := by
  unfold isOption
  split
  · exact ⟨fun _ => ⟨_, _, rfl⟩, fun _ => rfl⟩
  · rename_i hn
    refine ⟨fun h => (by cases h), fun h => ?_⟩
    obtain ⟨c, cs, rfl⟩ := h
    exact absurd rfl (hn c cs)

theorem ne_dashes (h : isOption w = false) : w ≠ DASHES := by
  rintro rfl; cases h

/-- Two scans that `getopt` cannot tell apart. -/
theorem loop_congr {s s' : Scan} (h : getopt chars permute s = getopt chars permute s') :
    loop chars permute f k s a = loop chars permute f k s' a := by
  cases k with
  | zero => rfl
  | succ k => simp only [loop, h]

theorem loop_operand (hp : permute = true) (hw : isOption w = false) :
    loop chars permute f k ⟨ops, w :: rest, []⟩ a = loop chars permute f k ⟨ops ++ [w], rest, []⟩ a := by
  apply loop_congr
  simp only [getopt, if_true]
  rw [nextWord, if_neg (ne_dashes hw), if_neg (by rw [hw]; decide), if_pos hp]

theorem loop_word (hne : c :: cs ≠ [45]) :
    loop chars permute f k ⟨ops, (45 :: c :: cs) :: rest, []⟩ a =
      loop chars permute f k ⟨ops, rest, c :: cs⟩ a := by
  apply loop_congr
  have hd : (45 :: c :: cs : Bytes) ≠ DASHES := fun h => hne (List.cons.inj h).2
  simp only [getopt, if_true, reduceCtorEq, if_false]
  rw [nextWord, if_neg hd, if_pos (by rfl)]
  rfl

theorem loop_flag (hc : chars c = some false) : loop chars permute f (k + 1) ⟨ops, rest, c :: cs⟩ a =
    (f a (c, none)).bind (loop chars permute f k ⟨ops, rest, cs⟩) := by
  simp [loop, getopt, hc]

theorem loop_attached (hc : chars c = some true) (hv : v ≠ []) :
    loop chars permute f (k + 1) ⟨ops, rest, c :: v⟩ a =
      (f a (c, some v)).bind (loop chars permute f k ⟨ops, rest, []⟩) := by
  simp [loop, getopt, hc, hv]

theorem loop_separate (hc : chars c = some true) :
    loop chars permute f (k + 1) ⟨ops, v :: rest, [c]⟩ a =
      (f a (c, some v)).bind (loop chars permute f k ⟨ops, rest, []⟩) := by
  simp [loop, getopt, hc]

theorem loop_tail (t : Tail) (ht : t.Ok permute) :
    loop chars permute f (k + 1) ⟨ops, t.text, []⟩ a = some (a, ops ++ t.operands) := by
  cases t with
  | nothing => rfl
  | dashes ws => simp [loop, getopt, Tail.text, Tail.operands, nextWord]
  | stop w ws =>
    obtain ⟨hp, hw⟩ := ht
    simp [loop, getopt, Tail.text, Tail.operands, nextWord, ne_dashes hw, hw, hp]

/-! ## What was composed is read back -/

theorem loop_flags (h : ∀ c ∈ cs, chars c = some false) :
    loop chars permute f (k + cs.length) ⟨ops, rest, cs ++ v⟩ a =
      ((cs.map (·, none)).foldlM f a).bind
        (loop chars permute f k ⟨ops, rest, v⟩) := by
  induction cs generalizing a with
  | nil => rfl
  | cons c cs ih =>
    obtain ⟨hc, hcs⟩ := List.forall_mem_cons.mp h
    rw [List.length_cons, ← Nat.add_assoc, List.cons_append, loop_flag hc, List.map_cons,
      List.foldlM_cons]
    cases hf : f a (c, none) with
    | none => rfl
    | some a' => exact ih hcs

/-- Flags, and an option with its argument. -/
theorem loop_cluster {r : List Bytes} {d : Bytes} (hcs : ∀ c ∈ cs, chars c = some false)
    (hlast : ∀ a, loop chars permute f (k + 1) ⟨ops, r, d⟩ a =
      (f a (c, some v)).bind (loop chars permute f k ⟨ops, rest, []⟩)) :
    loop chars permute f (k + (cs.length + 1)) ⟨ops, r, cs ++ d⟩ a =
      ((cs.map (·, none) ++ [(c, some v)]).foldlM f a).bind
        (loop chars permute f k ⟨ops, rest, []⟩) := by
  rw [← Nat.add_assoc, Nat.add_right_comm, loop_flags hcs, List.foldlM_append]
  cases (cs.map (·, none)).foldlM f a with
  | none => rfl
  | some a' =>
    have hone : [(c, some v)].foldlM f a' = f a' (c, some v) := by
      simp [List.foldlM_cons]
    change loop chars permute f (k + 1) ⟨ops, r, d⟩ a' =
      ([(c, some v)].foldlM f a').bind _
    rw [hlast, hone]

/-- A cluster is not `--`. -/
theorem cluster_ne (hd : chars 45 = none) (hcs : ∀ c ∈ cs, chars c = some false)
    (hc : chars c = some true) : cs ++ c :: v ≠ [45] := by
  intro he
  cases cs with
  | nil =>
    rw [(List.cons.inj he).1, hd] at hc
    cases hc
  | cons d cs =>
    have hdd := hcs d List.mem_cons_self
    rw [(List.cons.inj he).1, hd] at hdd
    cases hdd

/-- A word takes as many calls as it has options. -/
theorem loop_cons (hd : chars 45 = none) (x : Word) (hx : x.Ok chars permute) :
    loop chars permute f (k + x.options.length) ⟨ops, x.text ++ rest, []⟩ a =
      (x.options.foldlM f a).bind
        (loop chars permute f k ⟨ops ++ x.operands, rest, []⟩) := by
  have enter : ∀ {w : Bytes} {r : List Bytes} {j : Nat}, w ≠ [] → w ≠ [45] →
      loop chars permute f j ⟨ops, (45 :: w) :: r, []⟩ a = loop chars permute f j ⟨ops, r, w⟩ a := by
    intro w r j hne hdash
    obtain ⟨c, cs, rfl⟩ := List.exists_cons_of_ne_nil hne
    exact loop_word hdash
  cases x with
  | operand w =>
    obtain ⟨hp, hw⟩ := hx
    exact loop_operand hp hw
  | flags cs =>
    obtain ⟨hne, hcs⟩ := hx
    have hdash : cs ≠ [45] := by
      rintro rfl
      have := hcs 45 List.mem_cons_self
      rw [hd] at this
      cases this
    simp only [Word.text, Word.options, Word.operands, List.length_map, List.cons_append,
      List.nil_append, List.append_nil]
    have hrun : loop chars permute f (k + cs.length) ⟨ops, rest, cs ++ []⟩ a = _ := loop_flags hcs
    rw [List.append_nil] at hrun
    rw [enter hne hdash, hrun]
  | attached cs c v =>
    obtain ⟨hcs, hc, hv⟩ := hx
    simp only [Word.text, Word.options, Word.operands, List.cons_append, List.nil_append,
      List.append_nil, List.length_append, List.length_map, List.length_singleton]
    rw [enter (by simp) (cluster_ne hd hcs hc), loop_cluster hcs fun a => loop_attached hc hv]
  | separate cs c v =>
    obtain ⟨hcs, hc⟩ := hx
    simp only [Word.text, Word.options, Word.operands, List.cons_append, List.nil_append,
      List.append_nil, List.length_append, List.length_map, List.length_singleton]
    rw [enter (by simp) (cluster_ne hd hcs hc), loop_cluster hcs fun a => loop_separate hc]

theorem loop_words (hd : chars 45 = none) (ws : List Word) (hws : ∀ w ∈ ws, w.Ok chars permute) :
    loop chars permute f (k + (ws.flatMap Word.options).length) ⟨ops, ws.flatMap Word.text ++ rest, []⟩ a =
      ((ws.flatMap Word.options).foldlM f a).bind
        (loop chars permute f k ⟨ops ++ ws.flatMap Word.operands, rest, []⟩) := by
  induction ws generalizing ops a with
  | nil => simp
  | cons w ws ih =>
    obtain ⟨hw, hws⟩ := List.forall_mem_cons.mp hws
    simp only [List.flatMap_cons, List.length_append, List.append_assoc, List.foldlM_append]
    rw [Nat.add_comm w.options.length, ← Nat.add_assoc, loop_cons hd w hw]
    cases w.options.foldlM f a with
    | none => rfl
    | some a' =>
      have hrun : loop chars permute f (k + (ws.flatMap Word.options).length)
        ⟨ops ++ w.operands, ws.flatMap Word.text ++ rest, []⟩ a' = _ := ih hws
      rw [List.append_assoc] at hrun
      exact hrun

theorem options_le (w : Word) : w.options.length ≤ (w.text.map fun x => x.length + 1).sum := by
  cases w <;> simp [Word.options, Word.text] <;> omega

/-- The budget is enough. -/
theorem options_lt (l : Line) : l.options.length < budget l.text := by
  have hle : (l.words.flatMap Word.options).length ≤
      ((l.words.flatMap Word.text).map fun x => x.length + 1).sum := by
    induction l.words with
    | nil => simp
    | cons w ws ih =>
      have := options_le w
      simp only [List.flatMap_cons, List.length_append, List.map_append, List.sum_append]
      omega
  simp only [budget, Line.text, Line.options, List.map_append, List.sum_append]
  omega

/-! ## What is read was composed -/

/-- A cluster that the loop gets through is a word. -/
theorem cluster_sound (hq : ∀ a v, f a (63, v) = none) {r : σ × List Bytes}
    (h : loop chars permute f k ⟨ops, rest, cs⟩ a = some r) (hne : cs ≠ []) :
    ∃ x : Word, x.Ok chars permute ∧ x.operands = [] ∧ ∃ rest' k' a',
      (45 :: cs) :: rest = x.text ++ rest' ∧ x.options.foldlM f a = some a' ∧
      loop chars permute f k' ⟨ops, rest', []⟩ a' = some r := by
  induction cs generalizing k a with
  | nil => exact absurd rfl hne
  | cons c cs ih =>
    cases k with
    | zero => cases h
    | succ k =>
      cases hc : chars c with
      | none =>
        simp [loop, getopt, hc, hq] at h
      | some takes =>
        cases takes with
        | false =>
          rw [loop_flag hc] at h
          obtain ⟨a₁, ha₁, h⟩ := Option.bind_eq_some_iff.mp h
          by_cases hcs : cs = []
          · subst hcs
            exact ⟨.flags [c], ⟨by simp, by simpa using hc⟩, rfl, rest, k, a₁, rfl,
              by simp [Word.options, ha₁], h⟩
          · obtain ⟨x, hx, hop, rest', k', a', htext, hopt, hrest⟩ := ih h hcs
            refine ⟨x.push c, ?_, ?_, rest', k', a', ?_, ?_, hrest⟩
            · cases x with
              | operand w => cases hop
              | flags ds => exact ⟨by simp, List.forall_mem_cons.mpr ⟨hc, hx.2⟩⟩
              | attached ds d v => exact ⟨List.forall_mem_cons.mpr ⟨hc, hx.1⟩, hx.2⟩
              | separate ds d v => exact ⟨List.forall_mem_cons.mpr ⟨hc, hx.1⟩, hx.2⟩
            · cases x <;> exact hop
            · cases x with
              | operand w => cases hop
              | flags ds | attached ds d v | separate ds d v =>
                simp only [Word.text, List.cons_append, List.nil_append, List.cons.injEq,
                  true_and] at htext
                simp [Word.text, Word.push, htext.1, htext.2]
            · cases x with
              | operand w => cases hop
              | flags ds | attached ds d v | separate ds d v =>
                simp only [Word.push, Word.options, List.map_cons, List.cons_append,
                  List.foldlM_cons, ha₁]
                exact hopt
        | true =>
          by_cases hcs : cs = []
          · subst hcs
            cases rest with
            | nil => simp [loop, getopt, hc, hq] at h
            | cons v rest =>
              rw [loop_separate hc] at h
              obtain ⟨a₁, ha₁, h⟩ := Option.bind_eq_some_iff.mp h
              exact ⟨.separate [] c v, ⟨by simp, hc⟩, rfl, rest, k, a₁, rfl,
                by simp [Word.options, ha₁], h⟩
          · rw [loop_attached hc hcs] at h
            obtain ⟨a₁, ha₁, h⟩ := Option.bind_eq_some_iff.mp h
            exact ⟨.attached [] c cs, ⟨by simp, hc, hcs⟩, rfl, rest, k, a₁, rfl,
              by simp [Word.options, ha₁], h⟩

/-- A line with one more word in front. -/
theorem line_cons {x : Word} {l : Line} (hx : x.Ok chars permute) (hl : l.Ok chars permute) :
    (⟨x :: l.words, l.tail⟩ : Line).Ok chars permute :=
  ⟨List.forall_mem_cons.mpr ⟨hx, hl.words⟩, hl.tail⟩

theorem loop_sound (hq : ∀ a v, f a (63, v) = none) {os : List Bytes}
    (h : loop chars permute f k ⟨ops, rest, []⟩ a = some (b, os)) :
    ∃ l : Line, l.Ok chars permute ∧ l.text = rest ∧
      l.options.foldlM f a = some b ∧ os = ops ++ l.operands := by
  induction hn : rest.length using Nat.strongRecOn generalizing rest k ops a with
  | ind n ih =>
    subst hn
    have ending : ∀ t : Tail, t.Ok permute → t.text = rest →
        ∃ l : Line, l.Ok chars permute ∧ l.text = rest ∧
          l.options.foldlM f a = some b ∧ os = ops ++ l.operands := by
      intro t ht htext
      cases k with
      | zero => cases h
      | succ k =>
        rw [← htext, loop_tail t ht] at h
        cases h
        exact ⟨⟨[], t⟩, ⟨by simp, ht⟩, by simpa [Line.text] using htext, rfl,
          by simp [Line.operands]⟩
    cases rest with
    | nil => exact ending .nothing trivial rfl
    | cons w rest =>
      cases hw : isOption w with
      | false =>
        by_cases hp : permute = true
        · rw [loop_operand hp hw] at h
          obtain ⟨l, hl, htext, hopt, hos⟩ := ih _ (by simp) h rfl
          exact ⟨⟨.operand w :: l.words, l.tail⟩, line_cons ⟨hp, hw⟩ hl,
            by simp [← htext, Line.text, Word.text], hopt, by simp [hos, Line.operands, Word.operands]⟩
        · exact ending (.stop w rest) ⟨by simpa using hp, hw⟩ rfl
      | true =>
        obtain ⟨c, cs, rfl⟩ := isOption_iff.mp hw
        by_cases hdash : c :: cs = [45]
        · rw [hdash]
          rw [hdash] at ending
          exact ending (.dashes rest) trivial rfl
        · rw [loop_word hdash] at h
          obtain ⟨x, hx, hop, rest', k', a', htext, hopt, hrest⟩ := cluster_sound hq h (by simp)
          have hlen : rest'.length < ((45 :: c :: cs) :: rest).length := by
            have := congrArg List.length htext
            rw [List.length_append] at this
            have hpos : 0 < x.text.length := by cases x <;> simp [Word.text]
            omega
          obtain ⟨l, hl, ht, ho, hos⟩ := ih _ hlen hrest rfl
          refine ⟨⟨x :: l.words, l.tail⟩, line_cons hx hl, ?_, ?_, ?_⟩
          · rw [htext, ← ht]
            simp [Line.text]
          · simp only [Line.options, List.flatMap_cons, List.foldlM_append, hopt]
            exact ho
          · simp [hos, Line.operands, hop]

/-- **The loop accepts the lines that can be composed, and reads them back.** -/
theorem loop_iff (hd : chars 45 = none) (hq : ∀ a v, f a (63, v) = none) (args os : List Bytes) :
    run chars permute f args a = some (b, os) ↔ ∃ l : Line, l.Ok chars permute ∧ l.text = args ∧
      l.options.foldlM f a = some b ∧ os = l.operands := by
  constructor
  · intro h
    simpa using loop_sound hq h
  · rintro ⟨l, hl, rfl, hopt, rfl⟩
    obtain ⟨k, hk⟩ := Nat.exists_eq_add_of_lt (options_lt l)
    have hfuel : budget l.text = (k + 1) + l.options.length := by omega
    rw [run, hfuel, Line.options, Line.text, loop_words hd l.words hl.words]
    rw [Line.options] at hopt
    rw [hopt, Option.bind_some, loop_tail l.tail hl.tail]
    rfl

end

end HttpC.Getopt
